import Caret.Proofs.Tree.Isolation
import Caret.Proofs.Tree.Layers
import Caret.Proofs.Tree.Lineage
import Mathlib.Data.List.Nodup

/-!
# The construct around a cursor

The construct around a cursor is found by the length of spans alone, in a list
that the walk over the tree has made.  Where no two definitions take the same
span, it is the construct of the deepest definition around the cursor, with the
namespace, kind and path that the nodes above the definition give it.
-/

namespace Caret

namespace Node

/-! ## Spans of definitions -/

def definitionPlaces (root : Node) : List (List Nat) :=
  root.places.filter fun a => (root.at? a).any isDefinition

/-- No two definitions take the same span. -/
def SpansApart (root : Node) : Prop :=
  (root.definitionPlaces.map fun a => (root.at? a).map Node.span).Nodup

instance (root : Node) : Decidable root.SpansApart :=
  inferInstanceAs (Decidable (List.Nodup _))

theorem mem_definitionPlaces_iff {root : Node} {a : List Nat} :
    a ∈ root.definitionPlaces ↔ ∃ n, root.at? a = some n ∧ n.isDefinition = true := by
  simp only [definitionPlaces, List.mem_filter, mem_places_iff, Option.any_eq_true]
  constructor
  · rintro ⟨-, h⟩
    exact h
  · rintro ⟨n, hn, hdefinition⟩
    exact ⟨⟨n, hn⟩, n, hn, hdefinition⟩

theorem SpansApart.eq_of_span_eq
    {root n m : Node} (h : root.SpansApart) {a b : List Nat} (hn : root.at? a = some n)
    (hm : root.at? b = some m) (hna : n.isDefinition = true) (hmb : m.isDefinition = true)
    (hspan : n.span = m.span) :
    a = b := by
  have ha : a ∈ root.definitionPlaces := mem_definitionPlaces_iff.2 ⟨n, hn, hna⟩
  have hb : b ∈ root.definitionPlaces := mem_definitionPlaces_iff.2 ⟨m, hm, hmb⟩
  refine List.inj_on_of_nodup_map h ha hb ?_
  rw [hn, hm, Option.map_some, Option.map_some, hspan]

/-! ## Constructs that a node makes -/

theorem construct?_of_isVariable
    {path : String} {presence : Range} {e : OutlineEntry} (h : e.IsVariable path presence) :
    e.construct? = none := by
  cases e with
  | definition => exact h.elim
  | localVariable | sharedVariable => rfl

/-- A definition makes its own construct, and no other node makes one. -/
theorem filterMap_construct?_ownEntries
    {source : List Char} {textStop : Nat} (above : List Node) (n : Node) :
    (n.ownEntries source (frameOf source textStop above)).filterMap OutlineEntry.construct? =
      if n.isDefinition then [(n.span, constructBelow source above n)] else [] := by
  have hdeclared (frame : Frame) :
      (declarations source frame n).filterMap OutlineEntry.construct? = [] := by
    rw [List.filterMap_eq_nil_iff]
    intro e he
    exact construct?_of_isVariable (isVariable_of_mem_declarations he)
  rw [ownEntries, List.filterMap_append, (enter_frameOf above n).2, hdeclared, List.append_nil]

end Node

namespace Source

open Node

/-- The constructs of a source are those of its definitions below the nodes above
them. -/
theorem mem_constructs_iff_lineage {s : Source} {c : Span × Construct} :
    c ∈ s.toBuffer.constructs ↔
      ∃ a n above, s.root.at? a = some n ∧ n.isDefinition = true ∧
        s.root.lineage a = n :: above ∧ c = (n.span, constructBelow s.text above n) := by
  simp only [toBuffer, entries_eq_flatMap_places, List.filterMap_flatMap, List.mem_flatMap]
  constructor
  · rintro ⟨a, ha, hc⟩
    obtain ⟨n, hn⟩ := mem_places_iff.1 ha
    obtain ⟨above, hlineage, hentries⟩ := exists_lineage_of_at? hn
    rw [hentries, filterMap_construct?_ownEntries] at hc
    split at hc
    · rename_i hdefinition
      exact ⟨a, n, above, hn, hdefinition, hlineage, List.mem_singleton.1 hc⟩
    · exact absurd hc List.not_mem_nil
  · rintro ⟨a, n, above, hn, hdefinition, hlineage, rfl⟩
    refine ⟨a, mem_places_iff.2 ⟨n, hn⟩, ?_⟩
    obtain ⟨above', hlineage', hentries⟩ := exists_lineage_of_at? hn
    obtain ⟨-, rfl⟩ := List.cons.inj (hlineage.symm.trans hlineage')
    rw [hentries, filterMap_construct?_ownEntries, if_pos hdefinition]
    exact List.mem_singleton_self _

/-- The construct around a cursor is that of the deepest definition around it,
or the root if there is no definition around it. -/
theorem constructAt_eq_deepest
    {s : Source} {text : List Char} (hs : s.root.wellNested text = true)
    (hspans : s.root.SpansApart) (o : Nat) :
    (∃ d n above, IsDeepest (definesAround o) s.root d n ∧ s.root.lineage d = n :: above ∧
        s.toBuffer.constructAt o = constructBelow s.text above n) ∨
      (∀ e m, s.root.at? e = some m → m.definesAround o = false) ∧
        s.toBuffer.constructAt o = Construct.root := by
  rcases constructAt_root_or_shortest hs o with
    ⟨hnone, hroot⟩ | ⟨c, hc, heq, hsurrounds, hshortest⟩
  · exact Or.inr ⟨hnone, hroot⟩
  · obtain ⟨d, n, above, hn, hdefinition, hlineage, rfl⟩ := mem_constructs_iff_lineage.1 hc
    have hordered := start_le_stop_of_at? hs hn
    have han : n.definesAround o = true := by
      rw [definesAround_eq hordered hdefinition, hsurrounds]
    refine Or.inl ⟨d, n, above, ⟨hn, han, fun e m hm ham => ?_⟩, hlineage, heq⟩
    by_cases hed : e <+: d
    · exact hed.length_le
    by_cases hde : d <+: e
    · have hordered' := start_le_stop_of_at? hs hm
      have hinside := inside_of_above hs hn hm hde
      have hlength := hshortest e m hm ham
      rw [length_span hordered] at hlength
      have hdefinition' : m.isDefinition = true := by
        simp only [definesAround, Bool.and_eq_true] at ham
        exact ham.1.1
      have hsame : n.span = m.span := by
        have hstart : n.start = m.start := by omega
        have hstop : n.stop = m.stop := by omega
        rw [Node.span, Node.span, hstart, hstop]
      obtain rfl := hspans.eq_of_span_eq hn hm hdefinition hdefinition' hsame
      exact Nat.le_refl _
    · have hapart := apart_of_not_above hs hn hm hde hed
      simp only [definesAround, Bool.and_eq_true, decide_eq_true_eq] at han ham
      omega

/-- A method of a class that is named from the top level inside of a module. -/
def methodOfTopLevelClass : Source where
  text := "module A; class ::B; class << self; def m; x; end; end; end; end".toList
  root :=
    ⟨"program", 0, 64, true, none,
      [⟨"module", 0, 64, true, none,
          [⟨"module", 0, 6, false, none, []⟩,
            ⟨"constant", 7, 8, true, some "name", []⟩,
            ⟨";", 8, 9, false, none, []⟩,
            ⟨"body_statement", 10, 60, true, some "body",
              [⟨"class", 10, 59, true, none,
                  [⟨"class", 10, 15, false, none, []⟩,
                    ⟨"scope_resolution", 16, 19, true, some "name",
                      [⟨"::", 16, 18, false, none, []⟩,
                        ⟨"constant", 18, 19, true, some "name", []⟩]⟩,
                    ⟨";", 19, 20, false, none, []⟩,
                    ⟨"body_statement", 21, 55, true, some "body",
                      [⟨"singleton_class", 21, 54, true, none,
                          [⟨"class", 21, 26, false, none, []⟩,
                            ⟨"<<", 27, 29, false, none, []⟩,
                            ⟨"self", 30, 34, true, some "value", []⟩,
                            ⟨";", 34, 35, false, none, []⟩,
                            ⟨"body_statement", 36, 50, true, some "body",
                              [⟨"method", 36, 49, true, none,
                                  [⟨"def", 36, 39, false, none, []⟩,
                                    ⟨"identifier", 40, 41, true, some "name", []⟩,
                                    ⟨";", 41, 42, false, none, []⟩,
                                    ⟨"body_statement", 43, 45, true, some "body",
                                      [⟨"identifier", 43, 44, true, none, []⟩,
                                        ⟨";", 44, 45, false, none, []⟩]⟩,
                                    ⟨"end", 46, 49, false, none, []⟩]⟩,
                                ⟨";", 49, 50, false, none, []⟩]⟩,
                            ⟨"end", 51, 54, false, none, []⟩]⟩,
                        ⟨";", 54, 55, false, none, []⟩]⟩,
                    ⟨"end", 56, 59, false, none, []⟩]⟩,
                ⟨";", 59, 60, false, none, []⟩]⟩,
            ⟨"end", 61, 64, false, none, []⟩]⟩]⟩

/-- In the body of the method the module is left out of the namespace, and the
method belongs to the class itself. -/
theorem constructAt_methodOfTopLevelClass :
    let s := methodOfTopLevelClass
    s.root.wellNested s.text = true ∧ s.root.SpansApart ∧
      ∃ d n above, IsDeepest (definesAround 43) s.root d n ∧ s.root.lineage d = n :: above ∧
        constructBelow s.text above n = ⟨.singletonMethod, "B", "B.m"⟩ := by
  intro s
  have hs : s.root.wellNested s.text = true := by decide
  have hspans : s.root.SpansApart := by decide
  refine ⟨hs, hspans, ?_⟩
  rcases constructAt_eq_deepest hs hspans 43 with ⟨d, n, above, hd, hlineage, heq⟩ | ⟨hnone, -⟩
  · exact ⟨d, n, above, hd, hlineage, by rw [← heq]; decide⟩
  · exact absurd (hnone [0] _ rfl) (by decide)

end Source

end Caret
