import Caret.Cursor.Fragment

/-!
# Cutting a text where a part of it ends

Offsets that are the length of a first part of a text cut it right behind that
part.
-/

namespace Caret

/-- Taking the bytes of the first character off the length of a text leaves the
length of the rest. -/
theorem Text.exists_byteLength_cons (c : Char) (cs : List Char) :
    ∃ n, byteLength (c :: cs) = n + 1 ∧ n + 1 - c.utf8Size = byteLength cs := by
  obtain ⟨n, hn⟩ := Nat.exists_eq_add_of_lt (Char.utf8Size_pos c)
  refine ⟨n + byteLength cs, ?_, ?_⟩
  · rw [byteLength_cons]
    omega
  · omega

@[simp] theorem Text.dropBytes_append (before after : List Char) :
    dropBytes (before ++ after) (byteLength before) = after := by
  induction before with
  | nil => simp [dropBytes]
  | cons c before ih =>
      obtain ⟨n, hlength, hrest⟩ := exists_byteLength_cons c before
      rw [hlength, List.cons_append, dropBytes, hrest, ih]

theorem Text.positionFrom_byteLength (p : Position) (before after : List Char) :
    positionFrom p (before ++ after) (byteLength before) = before.foldl advance p := by
  induction before generalizing p with
  | nil => cases after <;> rfl
  | cons c before ih =>
      obtain ⟨n, hlength, hrest⟩ := exists_byteLength_cons c before
      rw [hlength, List.cons_append, positionFrom, hrest, ih, List.foldl_cons]

theorem Buffer.cursor_of_text_eq
    {b : Buffer} {before after : List Char} (htext : b.text = before ++ after) :
    b.cursor (Text.byteLength before) = .ok ⟨before, after⟩ := by
  have hcut := (Text.splitAt?_eq_some_iff b.text (Text.byteLength before) before after).2
    ⟨htext, rfl⟩
  simp [Buffer.cursor, hcut]

theorem Buffer.cursor_length (b : Buffer) : b.cursor b.length = .ok ⟨b.text, []⟩ :=
  cursor_of_text_eq (List.append_nil b.text).symm

theorem Buffer.fragment_of_cursor
    {b : Buffer} {offset : Nat} {c : Cursor} (hc : b.cursor offset = .ok c) :
    b.fragment offset = .ok (c.fragment b) := by
  rw [fragment, hc]
  rfl

end Caret
