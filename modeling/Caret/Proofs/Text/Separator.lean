import Mathlib.Data.List.Basic

/-!
# The last separator of a text

A text is put together of two parts with a separator between them.  Where the
second part is free of the separator, both parts can be read back.
-/

namespace Caret.Text

/-- Nothing stands between a separator and the next one if there is no next one. -/
theorem eq_nil_of_separator_eq
    {sep : Char} {between back back' : List Char} (hback : sep ∉ back)
    (h : sep :: back = between ++ sep :: back') :
    between = [] := by
  cases between with
  | nil => rfl
  | cons c between =>
      obtain ⟨-, rfl⟩ := List.cons.inj h
      exact absurd (List.mem_append_right between List.mem_cons_self) hback

/-- The last separator of a text is in one place. -/
theorem append_separator_inj
    {sep : Char} {front front' back back' : List Char} (hback : sep ∉ back)
    (hback' : sep ∉ back') (h : front ++ sep :: back = front' ++ sep :: back') :
    front = front' ∧ back = back' := by
  have hfront : front = front' := by
    rcases List.append_eq_append_iff.1 h with ⟨c, rfl, hrest⟩ | ⟨c, rfl, hrest⟩
    · rw [eq_nil_of_separator_eq hback hrest, List.append_nil]
    · rw [eq_nil_of_separator_eq hback' hrest, List.append_nil]
  subst hfront
  exact ⟨rfl, (List.cons.inj (List.append_cancel_left h)).2⟩

end Caret.Text
