import Caret.Proofs.TypeExpr.RoundTrip

/-!
# The type that several texts spell

The texts are read one after the other, and the alternatives not yet seen are put
to those seen before.  The result is the same as reading all texts first: it is
undefined if there is no text or one that spells no type, and otherwise made of
what the texts spell, put together in order.
-/

namespace Caret.TypeExpr

theorem addNew_append (seen as bs : List Alternative) :
    addNew seen (as ++ bs) = addNew (addNew seen as) bs := by
  induction as generalizing seen with
  | nil => rfl
  | cons a as ih => exact ih _

theorem addNew_ne_nil {seen : List Alternative} (hseen : seen ≠ []) (as : List Alternative) :
    addNew seen as ≠ [] := by
  induction as generalizing seen with
  | nil => exact hseen
  | cons a as ih =>
      apply ih
      split
      · exact hseen
      · exact List.append_ne_nil_of_right_ne_nil _ (List.cons_ne_nil a [])

theorem addNew_nil_eq_nil_iff {as : List Alternative} : addNew [] as = [] ↔ as = [] := by
  cases as with
  | nil => exact Iff.rfl
  | cons a as =>
      refine iff_of_false (addNew_ne_nil ?_ as) (List.cons_ne_nil a as)
      rw [if_neg List.not_mem_nil]
      exact List.cons_ne_nil a []

theorem items_parse_ne_nil {text : String} (h : (parse text).isDefined = true) :
    (parse text).items ≠ [] := by
  have hwell := wellFormed_of_parse_eq rfl h
  cases hparse : parse text with
  | undefined =>
      rw [hparse] at hwell
      exact absurd hwell not_wellFormed_undefined
  | union items =>
      rw [hparse, wellFormed_union_iff] at hwell
      exact hwell.1

def spelled (texts : List String) : List Alternative :=
  texts.flatMap fun text => (parse text).items

theorem mergeAlternatives?_eq (seen : List Alternative) (texts : List String) :
    mergeAlternatives? seen texts =
      if ∀ text ∈ texts, (parse text).isDefined = true then some (addNew seen (spelled texts))
      else none := by
  induction texts generalizing seen with
  | nil => rfl
  | cons text texts ih =>
      have hspelled : spelled (text :: texts) = (parse text).items ++ spelled texts :=
        List.flatMap_cons
      rw [mergeAlternatives?, hspelled, addNew_append]
      simp only [List.forall_mem_cons, ih]
      cases parse text with
      | undefined => rw [if_neg fun h => Bool.false_ne_true h.1]
      | union items => exact if_congr (and_iff_right rfl).symm rfl rfl

/-- The type that texts spell is defined if there are texts and each spells a type, and
then it has the alternatives of all of them. -/
theorem merge_eq (texts : List String) :
    merge texts =
      if texts ≠ [] ∧ ∀ text ∈ texts, (parse text).isDefined = true then
        .union (addNew [] (spelled texts))
      else .undefined := by
  rw [merge, mergeAlternatives?_eq]
  by_cases hall : ∀ text ∈ texts, (parse text).isDefined = true
  · have hnil : addNew [] (spelled texts) = [] ↔ texts = [] := by
      rw [addNew_nil_eq_nil_iff, spelled, List.flatMap_eq_nil_iff]
      refine ⟨fun h => List.eq_nil_iff_forall_not_mem.2 fun text ht => ?_, fun h => by simp [h]⟩
      exact items_parse_ne_nil (hall text ht) (h text ht)
    rw [if_pos hall]
    split
    · rename_i h
      exact absurd h (Option.some_ne_none _)
    · rename_i h
      rw [if_neg fun hne => hne.1 (hnil.1 (Option.some.inj h))]
    · rename_i items hne h
      obtain rfl := Option.some.inj h
      rw [if_pos ⟨fun htexts => hne (by rw [hnil.2 htexts]), hall⟩]
  · rw [if_neg hall, if_neg fun h => hall h.2]

theorem isDefined_merge_iff {texts : List String} :
    (merge texts).isDefined = true ↔
      texts ≠ [] ∧ ∀ text ∈ texts, (parse text).isDefined = true := by
  rw [merge_eq]
  split
  · exact iff_of_true rfl (by assumption)
  · exact iff_of_false Bool.false_ne_true (by assumption)

end Caret.TypeExpr
