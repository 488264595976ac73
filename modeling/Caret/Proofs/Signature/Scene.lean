import Caret.Proofs.Signature.Code

/-!
# What the walk sees

The walk from a cursor sees the bytes of the text with the regions that cover
them, except that the byte right before the cursor shows no comment.  Wherever
the walk stands, what it has on its left and on its right makes up this scene.
-/

namespace Caret

def Buffer.byte? (b : Buffer) (i : Nat) : Option Char :=
  (Signature.bytes b.text)[i]?

namespace Signature

/-- All that the walk from an offset sees, from left to right. -/
def scene (b : Buffer) (offset : Nat) : List Cell :=
  (bytes b.text).mapIdx fun i c =>
    ⟨c, b.comments.covers i && decide (i + 1 ≠ offset), b.strings.covers i⟩

/-- The walk from an offset has `left` before it and `right` behind it. -/
structure Stands (b : Buffer) (offset : Nat) (left right : List Cell) : Prop where
  scene_eq : left.reverse ++ right = scene b offset

theorem cells_eq_mapIdx (b : Buffer) :
    cells b = (bytes b.text).mapIdx fun i c => ⟨c, b.comments.covers i, b.strings.covers i⟩ := by
  rw [cells, bytes, List.mapIdx_eq_zipIdx_map, List.zipIdx_map, List.map_map]
  rfl

theorem length_cells (b : Buffer) : (cells b).length = b.length := by
  simp [cells_eq_mapIdx, Buffer.length]

theorem length_exemptNearest (left : List Cell) : (exemptNearest left).length = left.length := by
  cases left with
  | nil => rfl
  | cons c left => rfl

theorem scene_eq_cells_of_zero (b : Buffer) : scene b 0 = cells b := by
  simp [scene, cells_eq_mapIdx]

theorem scene_eq_modify (b : Buffer) (offset : Nat) :
    scene b (offset + 1) =
      (cells b).modify offset fun c => { c with inComment := false } := by
  apply List.ext_getElem?
  intro i
  simp only [scene, cells_eq_mapIdx, List.getElem?_modify, List.getElem?_mapIdx]
  cases (bytes b.text)[i]? with
  | none => simp
  | some c =>
      by_cases hi : offset = i
      · simp [hi]
      · simp [hi, Ne.symm hi]

theorem stands_walkFrom
    {b : Buffer} {offset : Nat} (hoffset : offset ≤ b.length) :
    ∃ left right, left.length = offset ∧ Stands b offset left right ∧
      walkFrom b offset = walk {} left right := by
  refine ⟨_, _, ?_, ⟨?_⟩, rfl⟩
  · rw [length_exemptNearest, List.length_reverse, List.length_take, length_cells]
    exact Nat.min_eq_left hoffset
  · cases offset with
    | zero => simp [exemptNearest, scene_eq_cells_of_zero]
    | succ offset =>
        have hlt : offset < (cells b).length := by
          rw [length_cells]
          exact hoffset
        rw [scene_eq_modify, List.modify_eq_take_cons_drop hlt,
          List.take_succ_eq_append_getElem hlt, List.reverse_append]
        simp [exemptNearest]

/-- What a byte of the scene is, and what covers it. -/
theorem cell_of_getElem?_scene
    {b : Buffer} {offset i : Nat} {c : Cell} (hget : (scene b offset)[i]? = some c) :
    b.byte? i = some c.char ∧
      c.inComment = (b.comments.covers i && decide (i + 1 ≠ offset)) ∧
      c.inString = b.strings.covers i := by
  rw [scene, List.getElem?_mapIdx, Option.map_eq_some_iff] at hget
  obtain ⟨x, hx, rfl⟩ := hget
  exact ⟨hx, rfl, rfl⟩

namespace Stands

variable {b : Buffer} {offset : Nat} {left right : List Cell} {c : Cell}

theorem next (h : Stands b offset (c :: left) right) : Stands b offset left (c :: right) := by
  constructor
  rw [← h.scene_eq, List.reverse_cons, List.append_assoc, List.singleton_append]

theorem getElem?_scene (h : Stands b offset (c :: left) right) :
    (scene b offset)[left.length]? = some c := by
  rw [← h.next.scene_eq]
  simp

theorem nearest (h : Stands b offset (c :: left) right) :
    b.byte? left.length = some c.char ∧
      c.inComment = (b.comments.covers left.length && decide (left.length + 1 ≠ offset)) ∧
      c.inString = b.strings.covers left.length :=
  cell_of_getElem?_scene h.getElem?_scene

theorem getElem?_scene_right (h : Stands b offset left right) (i : Nat) :
    (scene b offset)[left.length + i]? = right[i]? := by
  rw [← h.scene_eq, List.getElem?_append_right (by simp)]
  simp

theorem cross {near far : List Cell} (h : Stands b offset (near ++ far) right) :
    Stands b offset far (near.reverse ++ right) := by
  constructor
  rw [← h.scene_eq, List.reverse_append, List.append_assoc]

theorem bytes_eq (h : Stands b offset left right) :
    bytes b.text = (left.map Cell.char).reverse ++ right.map Cell.char := by
  have hchars : (scene b offset).map Cell.char = bytes b.text := by
    apply List.ext_getElem?
    intro i
    rw [scene, List.getElem?_map, List.getElem?_mapIdx, Option.map_map]
    exact Option.map_id'
  rw [← hchars, ← h.scene_eq, List.map_append, List.map_reverse]

theorem chars_left (h : Stands b offset left right) :
    (left.map Cell.char).reverse = (bytes b.text).take left.length := by
  rw [h.bytes_eq, List.take_left']
  simp

theorem chars_right (h : Stands b offset left right) :
    right.map Cell.char = (bytes b.text).drop left.length := by
  rw [h.bytes_eq, List.drop_left']
  simp

end Stands

end Signature

end Caret
