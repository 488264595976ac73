import Mathlib.Data.List.Induction
import Mathlib.Data.List.Nodup

/-!
# First occurrences in a list

The library's `eraseDups` keeps the first occurrence of each entry of a list and
leaves the order as it is.  Entries that are there already change nothing further
on, and the order of a list decides only the order of what is kept.
-/

namespace Caret

variable {α : Type} [BEq α] [LawfulBEq α] {as bs : List α} {a : α}

theorem removeAll_eq_nil_of_subset (h : bs ⊆ as) : bs.removeAll as = [] := by
  apply List.filter_eq_nil_iff.2
  intro b hb
  simpa using h hb

/-- What is there already is left out at the end of a list. -/
theorem eraseDups_append_of_subset (h : bs ⊆ as) : (as ++ bs).eraseDups = as.eraseDups := by
  rw [List.eraseDups_append, removeAll_eq_nil_of_subset h, List.eraseDups_nil, List.append_nil]

theorem eraseDups_concat_of_mem (h : a ∈ as) : (as ++ [a]).eraseDups = as.eraseDups := by
  apply eraseDups_append_of_subset
  intro b hb
  rwa [List.mem_singleton.1 hb]

theorem eraseDups_concat_of_not_mem (h : a ∉ as) :
    (as ++ [a]).eraseDups = as.eraseDups ++ [a] := by
  simp [List.eraseDups_append, List.removeAll, h, List.eraseDups_cons]

theorem eraseDups_insert_of_subset (h : bs ⊆ as) (cs : List α) :
    (as ++ (bs ++ cs)).eraseDups = (as ++ cs).eraseDups := by
  have hrest : cs.removeAll (as ++ bs) = cs.removeAll as := by
    apply List.filter_congr
    intro c _
    by_cases hc : c ∈ as
    · simp [hc]
    · have hcb : c ∉ bs := fun hmem => hc (h hmem)
      simp [hc, hcb]
  rw [← List.append_assoc, List.eraseDups_append, hrest, eraseDups_append_of_subset h,
    ← List.eraseDups_append]

theorem nodup_eraseDups (as : List α) : as.eraseDups.Nodup := by
  induction as using List.reverseRecOn with
  | nil => exact List.nodup_nil
  | append_singleton as a ih =>
      by_cases ha : a ∈ as
      · rw [eraseDups_concat_of_mem ha]
        exact ih
      · rw [eraseDups_concat_of_not_mem ha, List.nodup_append]
        refine ⟨ih, List.nodup_singleton a, ?_⟩
        rintro b hb c hc rfl
        rw [List.mem_singleton.1 hc, List.mem_eraseDups] at hb
        exact ha hb

theorem perm_eraseDups (h : as.Perm bs) : as.eraseDups.Perm bs.eraseDups := by
  apply (List.perm_ext_iff_of_nodup (nodup_eraseDups as) (nodup_eraseDups bs)).2
  intro a
  rw [List.mem_eraseDups, List.mem_eraseDups]
  exact h.mem_iff

end Caret
