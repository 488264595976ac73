import Caret.Proofs.FirstOccurrences
import Caret.Proofs.TypeExpr.Merge

/-!
# Laws of merging type strings

The merged type has the first occurrences of all that the texts spell, in order.
So a text that was merged before adds nothing, and texts in another order give the
same alternatives in another order.  One text with commas between the texts spells
the same alternatives, each as often as the texts do.
-/

namespace Caret.TypeExpr

/-! ## First occurrences -/

theorem addNew_eraseDups (seen as : List Alternative) :
    addNew seen.eraseDups as = (seen ++ as).eraseDups := by
  induction as generalizing seen with
  | nil => rw [List.append_nil, addNew]
  | cons a as ih =>
      have hstep : (if a ∈ seen.eraseDups then seen.eraseDups else seen.eraseDups ++ [a]) =
          (seen ++ [a]).eraseDups := by
        by_cases ha : a ∈ seen
        · rw [if_pos (List.mem_eraseDups.2 ha), eraseDups_concat_of_mem ha]
        · rw [if_neg fun h => ha (List.mem_eraseDups.1 h), eraseDups_concat_of_not_mem ha]
      rw [addNew, hstep, ih, List.append_assoc, List.singleton_append]

theorem addNew_nil_eq_eraseDups (as : List Alternative) : addNew [] as = as.eraseDups :=
  addNew_eraseDups [] as

theorem not_isDefined_iff {t : TypeExpr} : ¬t.isDefined = true ↔ t = .undefined := by
  cases t with
  | undefined => simp [isDefined]
  | union items => simp [isDefined]

theorem merge_eq_undefined_iff {texts : List String} :
    merge texts = .undefined ↔ texts = [] ∨ ∃ text ∈ texts, parse text = .undefined := by
  simp only [← not_isDefined_iff, isDefined_merge_iff, not_and_or, Ne, not_not, not_forall,
    exists_prop]

theorem merge_of_isDefined {texts : List String} (h : (merge texts).isDefined = true) :
    merge texts = .union (spelled texts).eraseDups := by
  rw [merge_eq, if_pos (isDefined_merge_iff.1 h), addNew_nil_eq_eraseDups]

theorem nodup_items_merge (texts : List String) : (merge texts).items.Nodup := by
  by_cases h : (merge texts).isDefined = true
  · rw [merge_of_isDefined h]
    exact nodup_eraseDups _
  · rw [not_isDefined_iff.1 h]
    exact List.nodup_nil

/-- Whether the merged type is defined depends only on which texts there are. -/
theorem isDefined_merge_congr
    {texts texts' : List String} (hmem : ∀ text, text ∈ texts ↔ text ∈ texts') :
    (merge texts).isDefined = (merge texts').isDefined := by
  rw [Bool.eq_iff_iff, isDefined_merge_iff, isDefined_merge_iff]
  simp only [Ne, List.eq_nil_iff_forall_not_mem, hmem]

theorem merge_congr
    {texts texts' : List String} (hmem : ∀ text, text ∈ texts ↔ text ∈ texts')
    (hitems : (spelled texts).eraseDups = (spelled texts').eraseDups) :
    merge texts = merge texts' := by
  have hdefined := isDefined_merge_congr hmem
  by_cases h : (merge texts).isDefined = true
  · rw [merge_of_isDefined h, merge_of_isDefined (hdefined ▸ h), hitems]
  · rw [not_isDefined_iff.1 h, not_isDefined_iff.1 fun h' => h (hdefined.trans h')]

theorem spelled_append (texts texts' : List String) :
    spelled (texts ++ texts') = spelled texts ++ spelled texts' :=
  List.flatMap_append

theorem spelled_subset {texts texts' : List String} (h : texts ⊆ texts') :
    spelled texts ⊆ spelled texts' := by
  intro a ha
  obtain ⟨text, htext, ha⟩ := List.mem_flatMap.1 ha
  exact List.mem_flatMap.2 ⟨text, h htext, ha⟩

/-- Texts that were merged before add nothing, wherever they come again. -/
theorem merge_insert_of_subset
    {before again : List String} (h : again ⊆ before) (after : List String) :
    merge (before ++ (again ++ after)) = merge (before ++ after) := by
  apply merge_congr
  · intro text
    have := @h text
    simp only [List.mem_append]
    tauto
  · rw [spelled_append, spelled_append, spelled_append,
      eraseDups_insert_of_subset (spelled_subset h)]

theorem perm_items_merge {texts texts' : List String} (h : texts.Perm texts') :
    (merge texts).items.Perm (merge texts').items := by
  have hdefined := isDefined_merge_congr fun text => h.mem_iff (a := text)
  by_cases htexts : (merge texts).isDefined = true
  · rw [merge_of_isDefined htexts, merge_of_isDefined (hdefined ▸ htexts)]
    exact perm_eraseDups (h.flatMap_right _)
  · rw [not_isDefined_iff.1 htexts, not_isDefined_iff.1 fun h' => htexts (hdefined.trans h')]

/-! ## Texts joined by commas -/

theorem SpellsUnion.append
    {w comma v : List Char} {items rest : List Alternative} (hw : SpellsUnion w items)
    (hcomma : Token.comma.Reads comma) (hv : SpellsUnion v rest) :
    SpellsUnion (w ++ (comma ++ v)) (items ++ rest) := by
  cases hw with
  | last ha => exact .cons ha hcomma hv
  | cons ha hcomma' hitems =>
      have h := SpellsUnion.cons ha hcomma' (hitems.append hcomma hv)
      simpa using h

/-- A comma and a blank between two texts makes one union of both. -/
theorem Spells.join
    {cs ds : List Char} {items rest : List Alternative} (hcs : Spells cs items)
    (hds : Spells ds rest) :
    Spells (cs ++ (", ".toList ++ ds)) (items ++ rest) := by
  obtain @⟨w, blank, _, hw, hblank⟩ := hcs
  obtain @⟨v, last, _, hv, hlast⟩ := hds
  have hcomma := Token.Spells.comma.reads.blank_append hblank
  have h := Spells.mk (hw.append hcomma (hv.blank_append isWhite_space)) hlast
  simpa using h

theorem spells_items {text : String} (h : (parse text).isDefined = true) :
    Spells text.toList (parse text).items := by
  cases hparse : parse text with
  | undefined =>
      rw [hparse] at h
      exact absurd h Bool.false_ne_true
  | union items => exact parse_eq_union_iff.1 hparse

theorem spells_intercalate
    {texts : List String} (hne : texts ≠ []) (h : ∀ text ∈ texts, (parse text).isDefined = true) :
    Spells (", ".intercalate texts).toList (spelled texts) := by
  induction texts with
  | nil => exact absurd rfl hne
  | cons text texts ih =>
      obtain ⟨htext, htexts⟩ := List.forall_mem_cons.1 h
      have hspelled : spelled (text :: texts) = (parse text).items ++ spelled texts :=
        List.flatMap_cons
      rw [hspelled]
      by_cases hnil : texts = []
      · subst hnil
        rw [String.intercalate_singleton, spelled, List.flatMap_nil, List.append_nil]
        exact spells_items htext
      · rw [String.intercalate_cons_of_ne_nil hnil, String.toList_append, String.toList_append,
          List.append_assoc]
        exact (spells_items htext).join (ih hnil htexts)

/-- One text for all of them spells what they spell, one after the other. -/
theorem parse_intercalate {texts : List String} (h : (merge texts).isDefined = true) :
    parse (", ".intercalate texts) = .union (spelled texts) := by
  obtain ⟨hne, hall⟩ := isDefined_merge_iff.1 h
  exact parse_eq_union_iff.2 (spells_intercalate hne hall)

/-! ## Merging -/

/-- Merging texts gives no type exactly when there is no text or one of them spells no
type.  Otherwise it gives the first occurrences of all that the texts spell, in order,
which are those of what the texts spell when they are joined by commas.  So no
alternative is there twice, what was merged before adds nothing when it comes again, and
texts in another order give the same alternatives in another order. -/
theorem merge_firstOccurrences (texts : List String) :
    (merge texts = .undefined ↔ texts = [] ∨ ∃ text ∈ texts, parse text = .undefined) ∧
      (merge texts ≠ .undefined →
        merge texts = .union (texts.flatMap fun text => (parse text).items).eraseDups ∧
          (merge texts).items = (parse (", ".intercalate texts)).items.eraseDups) ∧
      (merge texts).items.Nodup ∧
      merge (texts ++ texts) = merge texts ∧
      (∀ before text after, texts = before ++ after → text ∈ before →
        merge (before ++ text :: after) = merge texts) ∧
      ∀ texts', texts.Perm texts' →
        (merge texts).isDefined = (merge texts').isDefined ∧
          (merge texts).items.Perm (merge texts').items := by
  refine ⟨merge_eq_undefined_iff, ?_, nodup_items_merge texts, ?_, ?_, ?_⟩
  · intro hne
    have hdefined : (merge texts).isDefined = true := by
      by_contra h
      exact hne (not_isDefined_iff.1 h)
    have hmerge := merge_of_isDefined hdefined
    refine ⟨hmerge, ?_⟩
    rw [hmerge, parse_intercalate hdefined, items, items]
  · have h := merge_insert_of_subset (List.Subset.refl texts) []
    simpa using h
  · rintro before text after rfl htext
    have hagain : [text] ⊆ before := by
      intro again hmem
      rwa [List.mem_singleton.1 hmem]
    exact merge_insert_of_subset hagain after
  · intro texts' hperm
    exact ⟨isDefined_merge_congr fun text => hperm.mem_iff, perm_items_merge hperm⟩

/-- Of three texts that share alternatives the second may come again, and the texts in
reverse give the alternatives in another order. -/
theorem merge_overlappingTexts :
    let texts := ["nil, Array<String>", "Integer", "Array< String > ,nil "]
    let array : Alternative := .mk "Array" (.list (.ofName "String"))
    merge texts ≠ .undefined ∧ merge texts = .union [.ofName "nil", array, .ofName "Integer"] ∧
      (parse (", ".intercalate texts)).items =
        [.ofName "nil", array, .ofName "Integer", array, .ofName "nil"] ∧
      (parse (", ".intercalate texts)).items.eraseDups = (merge texts).items ∧
      texts = texts.take 2 ++ texts.drop 2 ∧ "Integer" ∈ texts.take 2 ∧
      merge (texts.take 2 ++ "Integer" :: texts.drop 2) = merge texts ∧
      texts.Perm texts.reverse ∧ (merge texts).items.Perm (merge texts.reverse).items := by
  intro texts array
  obtain ⟨hundefined, hdefined, -, -, hagain, hperm⟩ := merge_firstOccurrences texts
  have hne : merge texts ≠ .undefined := by
    intro h
    exact absurd (hundefined.1 h) (by decide +kernel)
  obtain ⟨hmerge, hjoined⟩ := hdefined hne
  have hitems : (texts.flatMap fun text => (parse text).items).eraseDups =
      [.ofName "nil", array, .ofName "Integer"] := by
    decide +kernel
  have hread : (parse (", ".intercalate texts)).items =
      [.ofName "nil", array, .ofName "Integer", array, .ofName "nil"] := by
    decide +kernel
  have hsplit : texts = texts.take 2 ++ texts.drop 2 := rfl
  have hmem : "Integer" ∈ texts.take 2 := by decide
  have hreverse : texts.Perm texts.reverse := (List.reverse_perm texts).symm
  rw [hitems] at hmerge
  exact ⟨hne, hmerge, hread, hjoined.symm, hsplit, hmem, hagain _ "Integer" _ hsplit hmem,
    hreverse, (hperm _ hreverse).2⟩

end Caret.TypeExpr
