import Caret.Proofs.Text.Boundary
import Caret.Proofs.Text.Cut

/-!
# Parts of a text

Offsets into a part of a text and offsets into the text differ by where the part
begins: what stands between two offsets of the part stands in the text between the
same two, moved by that much.
-/

namespace Caret.Text

theorem splitAt?_zero (cs : List Char) : splitAt? cs 0 = some ([], cs) := by
  cases cs <;> rfl

theorem splitAt?_append_add (before cs : List Char) (n : Nat) :
    splitAt? (before ++ cs) (byteLength before + n) =
      (splitAt? cs n).map fun (first, rest) => (before ++ first, rest) := by
  induction before with
  | nil =>
      rw [byteLength_nil, Nat.zero_add, List.nil_append]
      cases splitAt? cs n <;> rfl
  | cons c before ih =>
      obtain ⟨m, hlength, -⟩ := exists_byteLength_cons c before
      have hcons := byteLength_cons c before
      have hsize : c.utf8Size ≤ m + n + 1 := by omega
      have hrest : m + n + 1 - c.utf8Size = byteLength before + n := by omega
      rw [hlength, Nat.add_right_comm, List.cons_append, splitAt?, if_pos hsize, hrest, ih,
        Option.map_map]
      rfl

theorem splitAt?_append_of_le {cs : List Char} {n : Nat} (h : n ≤ byteLength cs)
    (after : List Char) :
    splitAt? (cs ++ after) n =
      (splitAt? cs n).map fun (first, rest) => (first, rest ++ after) := by
  fun_induction splitAt? cs n with
  | case1 cs =>
      rw [splitAt?_zero]
      rfl
  | case2 n => exact absurd h (Nat.not_succ_le_zero n)
  | case3 c cs n hsize ih =>
      rw [byteLength_cons] at h
      rw [List.cons_append, splitAt?, if_pos hsize, ih (by omega), Option.map_map, Option.map_map]
      rfl
  | case4 c cs n hsize =>
      rw [List.cons_append, splitAt?, if_neg hsize]
      rfl

theorem slice_append_add (before cs : List Char) (a b : Nat) :
    slice (before ++ cs) (byteLength before + a) (byteLength before + b) = slice cs a b := by
  unfold slice
  rw [splitAt?_append_add, Nat.add_sub_add_left]
  cases splitAt? cs a with
  | none => rfl
  | some parts => simp

theorem slice_append_of_le {cs : List Char} {a b : Nat} (h : b ≤ byteLength cs)
    (after : List Char) :
    slice (cs ++ after) a b = slice cs a b := by
  by_cases hab : a ≤ b
  · unfold slice
    rw [splitAt?_append_of_le (Nat.le_trans hab h)]
    cases hcut : splitAt? cs a with
    | none => rfl
    | some parts =>
        obtain ⟨first, rest⟩ := parts
        obtain ⟨rfl, rfl⟩ := (splitAt?_eq_some_iff cs a first rest).1 hcut
        have hrest : b - byteLength first ≤ byteLength rest := by
          rw [byteLength_append] at h
          omega
        simp only [Option.map_some, if_pos hab, splitAt?_append_of_le hrest]
        cases splitAt? rest (b - byteLength first) <;> rfl
  · have hnone (ds : List Char) : slice ds a b = [] := by
      unfold slice
      split
      · rfl
      · rw [if_neg hab]
    rw [hnone, hnone]

theorem slice_part {before part after : List Char} {a b : Nat} (h : b ≤ byteLength part) :
    slice (before ++ (part ++ after)) (byteLength before + a) (byteLength before + b) =
      slice part a b := by
  rw [slice_append_add, slice_append_of_le h]

theorem slice_byteLength (before part after : List Char) :
    slice (before ++ (part ++ after)) (byteLength before) (byteLength before + byteLength part) =
      part := by
  have hcut : splitAt? (before ++ (part ++ after)) (byteLength before) =
      some (before, part ++ after) := (splitAt?_eq_some_iff _ _ _ _).2 ⟨rfl, rfl⟩
  have hrest : splitAt? (part ++ after) (byteLength part) = some (part, after) :=
    (splitAt?_eq_some_iff _ _ _ _).2 ⟨rfl, rfl⟩
  simp [slice, hcut, hrest]

/-- Two valid offsets in order have a part of the text between them. -/
theorem exists_part_of_isBoundary
    {cs : List Char} {lo hi : Nat} (hlo : IsBoundary cs lo) (hhi : IsBoundary cs hi)
    (h : lo ≤ hi) :
    ∃ before part after, cs = before ++ (part ++ after) ∧ byteLength before = lo ∧
      byteLength before + byteLength part = hi ∧ slice cs lo hi = part := by
  obtain ⟨front, after, rfl, rfl⟩ := hhi
  obtain ⟨before, part, rfl, rfl⟩ := hlo.of_append h
  refine ⟨before, part, after, List.append_assoc before part after, rfl,
    (byteLength_append before part).symm, ?_⟩
  rw [List.append_assoc, byteLength_append, slice_byteLength]

end Caret.Text
