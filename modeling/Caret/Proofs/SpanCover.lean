import Caret.Span
import Mathlib.Data.List.Pairwise

/-!
# Offsets of a span set

A span set made of a list of spans covers the offsets of these spans and no
others, in whatever order they are listed and however they overlap.
-/

namespace Caret

namespace Span

theorem covers_iff {s : Span} {i : Nat} : s.covers i = true ↔ s.start ≤ i ∧ i < s.stop := by
  simp [covers]

theorem covers_between_iff {start stop i : Nat} :
    (between start stop).covers i = true ↔ start ≤ i ∧ i < stop := by
  rw [covers_iff]
  simp only [between]
  omega

theorem le_iff {s t : Span} :
    s.le t = true ↔ s.start < t.start ∨ s.start = t.start ∧ s.stop ≤ t.stop := by
  simp [le]

theorem le_total (s t : Span) : (s.le t || t.le s) = true := by
  rw [Bool.or_eq_true, le_iff, le_iff]
  omega

theorem le_trans (s t u : Span) (hst : s.le t = true) (htu : t.le u = true) :
    s.le u = true := by
  rw [le_iff] at hst htu ⊢
  omega

/-- Joining spans to the one before them neither loses nor gains an offset, as
long as none of them starts before it. -/
theorem exists_covers_join_iff
    {s : Span} {ts : List Span} (hts : (s :: ts).Pairwise fun t u => t.start ≤ u.start) {i : Nat} :
    (∃ u ∈ s.join ts, u.covers i = true) ↔ ∃ u ∈ s :: ts, u.covers i = true := by
  induction ts generalizing s with
  | nil => rfl
  | cons t ts ih =>
      obtain ⟨hs, ht⟩ := List.pairwise_cons.1 hts
      have hst := hs t List.mem_cons_self
      rw [join]
      by_cases hjoin : t.start ≤ s.stop
      · have hjoined : (⟨s.start, max s.stop t.stop⟩ :: ts : List Span).Pairwise
            fun t u => t.start ≤ u.start := by
          apply List.pairwise_cons.2
          exact ⟨fun u hu => hs u (List.mem_cons_of_mem t hu), (List.pairwise_cons.1 ht).2⟩
        rw [if_pos hjoin, ih hjoined]
        simp only [List.mem_cons, exists_eq_or_imp]
        rw [← or_assoc]
        apply or_congr_left
        simp only [covers_iff]
        omega
      · have hrest := ih ht
        simp only [List.mem_cons, exists_eq_or_imp] at hrest
        rw [if_neg hjoin]
        simp only [List.mem_cons, exists_eq_or_imp, hrest]

end Span

theorem SpanSet.covers_iff {set : SpanSet} {i : Nat} :
    set.covers i = true ↔ ∃ s ∈ set.spans, s.covers i = true := by
  rw [covers, List.any_eq_true]

/-- The set of a list covers the offsets of the spans listed. -/
theorem SpanSet.covers_ofList_iff {spans : List Span} {i : Nat} :
    (ofList spans).covers i = true ↔ ∃ s ∈ spans, s.covers i = true := by
  have hsorted : ((spans.filter (!·.isEmpty)).mergeSort Span.le).Pairwise
      fun s t => s.start ≤ t.start := by
    apply (List.pairwise_mergeSort Span.le_trans Span.le_total _).imp
    intro s t hle
    rw [Span.le_iff] at hle
    omega
  have hcover : (ofList spans).covers i = true ↔
      ∃ s ∈ (spans.filter (!·.isEmpty)).mergeSort Span.le, s.covers i = true := by
    rw [covers_iff, ofList]
    cases hspans : (spans.filter (!·.isEmpty)).mergeSort Span.le with
    | nil => rfl
    | cons s rest => exact Span.exists_covers_join_iff (hspans ▸ hsorted)
  rw [hcover]
  constructor
  · rintro ⟨s, hs, hi⟩
    exact ⟨s, (List.mem_filter.1 (List.mem_mergeSort.1 hs)).1, hi⟩
  · rintro ⟨s, hs, hi⟩
    refine ⟨s, List.mem_mergeSort.2 (List.mem_filter.2 ⟨hs, ?_⟩), hi⟩
    rw [Span.covers_iff] at hi
    simp only [Span.isEmpty, Bool.not_eq_true', beq_eq_false_iff_ne]
    omega

end Caret
