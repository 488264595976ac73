import Caret.Proofs.SpanCover
import Mathlib.Data.Set.Defs

/-!
# The normal form of a span set

However the spans of a list are ordered, overlap or repeat each other, the set
made of them holds one span for each run of covered offsets.  So two lists make
the same set just when they cover the same offsets, and a question about an
offset can be put to a single span, the last one that starts before it, which
is found by halving the list.
-/

namespace Caret

namespace Span

def offsets (spans : List Span) : Set Nat :=
  {i | ∃ s ∈ spans, s.start ≤ i ∧ i < s.stop}

/-- Spans that are not empty, each of which ends before the next one starts. -/
structure Canonical (spans : List Span) : Prop where
  nonempty : ∀ s ∈ spans, s.start < s.stop
  apart : spans.Pairwise fun s t => s.stop < t.start

theorem mem_offsets_iff {spans : List Span} {i : Nat} :
    i ∈ offsets spans ↔ ∃ s ∈ spans, s.start ≤ i ∧ i < s.stop :=
  Iff.rfl

theorem mem_offsets_cons_iff {s : Span} {rest : List Span} {i : Nat} :
    i ∈ offsets (s :: rest) ↔ (s.start ≤ i ∧ i < s.stop) ∨ i ∈ offsets rest := by
  simp [mem_offsets_iff]

/-! ## Lists in normal form -/

theorem Canonical.tail {s : Span} {rest : List Span} (h : Canonical (s :: rest)) :
    Canonical rest where
  nonempty t ht := h.nonempty t (List.mem_cons_of_mem s ht)
  apart := (List.pairwise_cons.1 h.apart).2

/-- What comes behind the first span of a list in normal form starts behind the
end of that span. -/
theorem Canonical.stop_lt_of_mem_offsets
    {s : Span} {rest : List Span} (h : Canonical (s :: rest)) {i : Nat} (hi : i ∈ offsets rest) :
    s.stop < i := by
  obtain ⟨t, ht, hstart, -⟩ := hi
  have := (List.pairwise_cons.1 h.apart).1 t ht
  omega

theorem Canonical.stop_not_mem_offsets
    {spans : List Span} (h : Canonical spans) {s : Span} (hs : s ∈ spans) :
    s.stop ∉ offsets spans := by
  induction spans with
  | nil => exact absurd hs List.not_mem_nil
  | cons t rest ih =>
      rw [mem_offsets_cons_iff, not_or]
      rcases List.mem_cons.1 hs with rfl | hs
      · refine ⟨by omega, fun hmem => ?_⟩
        exact absurd (h.stop_lt_of_mem_offsets hmem) (Nat.lt_irrefl _)
      · have hafter := (List.pairwise_cons.1 h.apart).1 s hs
        have hnonempty := h.tail.nonempty s hs
        exact ⟨by omega, ih h.tail hs⟩

/-- The first span of a list in normal form is settled by the offsets: it starts
no later than those of any list that they include, and if both start alike, it
ends no earlier. -/
theorem Canonical.head_spec
    {s t : Span} {rest rest' : List Span} (h : Canonical (s :: rest)) (h' : Canonical (t :: rest'))
    (hsubset : ∀ i ∈ offsets (t :: rest'), i ∈ offsets (s :: rest)) :
    s.start ≤ t.start ∧ (s.start = t.start → t.stop ≤ s.stop) := by
  have hs := h.nonempty s List.mem_cons_self
  have ht := h'.nonempty t List.mem_cons_self
  have hcovered (i : Nat) (hi : t.start ≤ i ∧ i < t.stop) :
      (s.start ≤ i ∧ i < s.stop) ∨ s.stop < i := by
    rcases mem_offsets_cons_iff.1 (hsubset i (mem_offsets_cons_iff.2 (Or.inl hi))) with hi | hi
    · exact Or.inl hi
    · exact Or.inr (h.stop_lt_of_mem_offsets hi)
  have hstart := hcovered t.start ⟨Nat.le_refl _, ht⟩
  refine ⟨by omega, fun hsame => ?_⟩
  by_contra hlt
  have hstop := hcovered s.stop ⟨by omega, by omega⟩
  omega

/-- A list in normal form is settled by the offsets it covers. -/
theorem Canonical.eq_of_offsets_eq
    {spans spans' : List Span} (h : Canonical spans) (h' : Canonical spans')
    (hoffsets : offsets spans = offsets spans') :
    spans = spans' := by
  have hempty {t : Span} {rest : List Span} (ht : Canonical (t :: rest)) :
      offsets [] ≠ offsets (t :: rest) := by
    intro heq
    have hmem : t.start ∈ offsets (t :: rest) :=
      mem_offsets_cons_iff.2 (Or.inl ⟨Nat.le_refl _, ht.nonempty t List.mem_cons_self⟩)
    rw [← heq] at hmem
    obtain ⟨s, hs, -⟩ := hmem
    exact absurd hs List.not_mem_nil
  induction spans generalizing spans' with
  | nil =>
      cases spans' with
      | nil => rfl
      | cons t rest' => exact absurd hoffsets (hempty h')
  | cons s rest ih =>
      cases spans' with
      | nil => exact absurd hoffsets.symm (hempty h)
      | cons t rest' =>
          have hle := h.head_spec h' fun i hi => hoffsets ▸ hi
          have hge := h'.head_spec h fun i hi => hoffsets ▸ hi
          have hstart : s.start = t.start := Nat.le_antisymm hle.1 hge.1
          have hstop : s.stop = t.stop := Nat.le_antisymm (hge.2 hstart.symm) (hle.2 hstart)
          have hhead : s = t := by
            cases s
            cases t
            simp_all
          subst hhead
          have hrest : offsets rest = offsets rest' := by
            ext i
            have hi : i ∈ offsets (s :: rest) ↔ i ∈ offsets (s :: rest') := by rw [hoffsets]
            rw [mem_offsets_cons_iff, mem_offsets_cons_iff] at hi
            constructor
            · intro hmem
              have := h.stop_lt_of_mem_offsets hmem
              exact (hi.1 (Or.inr hmem)).resolve_left (by omega)
            · intro hmem
              have := h'.stop_lt_of_mem_offsets hmem
              exact (hi.2 (Or.inr hmem)).resolve_left (by omega)
          rw [ih h.tail h'.tail hrest]

/-! ## The list of a set -/

theorem canonical_join
    {s : Span} {ts : List Span} (hsorted : (s :: ts).Pairwise fun t u => t.start ≤ u.start)
    (hnonempty : ∀ t ∈ s :: ts, t.start < t.stop) :
    Canonical (s.join ts) ∧ ∀ u ∈ s.join ts, s.start ≤ u.start := by
  induction ts generalizing s with
  | nil =>
      refine ⟨⟨hnonempty, List.pairwise_singleton _ _⟩, fun u hu => ?_⟩
      obtain rfl := List.mem_singleton.1 hu
      exact Nat.le_refl _
  | cons t ts ih =>
      obtain ⟨hs, ht⟩ := List.pairwise_cons.1 hsorted
      have hst := hs t List.mem_cons_self
      have hsne := hnonempty s List.mem_cons_self
      rw [join]
      split
      · apply ih
        · apply List.pairwise_cons.2
          exact ⟨fun u hu => hs u (List.mem_cons_of_mem t hu), (List.pairwise_cons.1 ht).2⟩
        · intro u hu
          rcases List.mem_cons.1 hu with rfl | hu
          · dsimp only
            omega
          · exact hnonempty u (List.mem_cons_of_mem s (List.mem_cons_of_mem t hu))
      · rename_i hgap
        obtain ⟨hjoined, hfrom⟩ := ih ht fun u hu => hnonempty u (List.mem_cons_of_mem s hu)
        refine ⟨⟨?_, ?_⟩, ?_⟩
        · intro u hu
          rcases List.mem_cons.1 hu with rfl | hu
          · exact hsne
          · exact hjoined.nonempty u hu
        · refine List.pairwise_cons.2 ⟨fun u hu => ?_, hjoined.apart⟩
          have := hfrom u hu
          omega
        · intro u hu
          rcases List.mem_cons.1 hu with rfl | hu
          · exact Nat.le_refl _
          · exact Nat.le_trans hst (hfrom u hu)

/-! ## Searching a list -/

/-- The number of spans at the front of a list that pass a test, searched between
two places by halving. -/
def partitionPoint (test : Span → Bool) (spans : List Span) (lo hi : Nat) : Nat :=
  if lo < hi then
    let middle := lo + (hi - lo) / 2
    if spans[middle]?.any test then partitionPoint test spans (middle + 1) hi
    else partitionPoint test spans lo middle
  else lo
termination_by hi - lo

/-- The last of the spans at the front of a list that pass a test. -/
def lastPassing? (test : Span → Bool) (spans : List Span) : Option Span :=
  match partitionPoint test spans 0 spans.length with
  | 0 => none
  | k + 1 => spans[k]?

/-- Where the spans that pass come first, halving finds the place behind them. -/
theorem partitionPoint_append
    {test : Span → Bool} {front back : List Span} (hfront : ∀ s ∈ front, test s = true)
    (hback : ∀ s ∈ back, test s = false) {lo hi : Nat} (hlo : lo ≤ front.length)
    (hhi : front.length ≤ hi) :
    partitionPoint test (front ++ back) lo hi = front.length := by
  fun_induction partitionPoint test (front ++ back) lo hi with
  | case1 lo hi hlt middle hpass ih =>
      apply ih _ hhi
      by_contra hbehind
      obtain ⟨s, hs, hpass⟩ := (Option.any_eq_true _ _).1 hpass
      rw [List.getElem?_append_right (by omega)] at hs
      exact absurd hpass (by simp [hback s (List.mem_of_getElem? hs)])
  | case2 lo hi hlt middle hfail ih =>
      apply ih hlo
      by_contra hinside
      have hs : (front ++ back)[middle]? = some front[middle] := by
        rw [List.getElem?_append_left (by omega), List.getElem?_eq_getElem]
      rw [hs, Option.any_some] at hfail
      exact hfail (hfront _ (List.getElem_mem _))
  | case3 lo hi hge => omega

theorem lastPassing?_append
    {test : Span → Bool} {front back : List Span} (hfront : ∀ s ∈ front, test s = true)
    (hback : ∀ s ∈ back, test s = false) :
    lastPassing? test (front ++ back) = front.getLast? := by
  rw [lastPassing?, partitionPoint_append hfront hback (Nat.zero_le _) (by simp)]
  rcases front.eq_nil_or_concat with rfl | ⟨front, s, rfl⟩
  · rfl
  · simp

/-- A test that goes by starts alone splits a list in normal form. -/
theorem Canonical.exists_append
    {spans : List Span} (h : Canonical spans) {test : Span → Bool}
    (hdown : ∀ s t, s.start < t.start → test t = true → test s = true) :
    ∃ front back, spans = front ++ back ∧ (∀ s ∈ front, test s = true) ∧
      ∀ s ∈ back, test s = false := by
  induction spans with
  | nil => exact ⟨[], [], rfl, by simp, by simp⟩
  | cons s rest ih =>
      by_cases hs : test s = true
      · obtain ⟨front, back, rfl, hfront, hback⟩ := ih h.tail
        exact ⟨s :: front, back, rfl, List.forall_mem_cons.2 ⟨hs, hfront⟩, hback⟩
      · refine ⟨[], s :: rest, rfl, by simp, List.forall_mem_cons.2 ⟨by simpa using hs, ?_⟩⟩
        intro t ht
        by_contra hpass
        have hgap := (List.pairwise_cons.1 h.apart).1 t ht
        have hnonempty := h.nonempty s List.mem_cons_self
        exact hs (hdown s t (by omega) (by simpa using hpass))

/-- In a list in normal form it is enough to look at the last span that passes a
test of its start, if no span before one that passes can hold the answer. -/
theorem Canonical.any_lastPassing?
    {spans : List Span} (h : Canonical spans) {test answer : Span → Bool}
    (hdown : ∀ s t, s.start < t.start → test t = true → test s = true)
    (hlast : ∀ s t, s.stop < t.start → test t = true → answer s = false) :
    (lastPassing? test spans).any answer = spans.any fun s => test s && answer s := by
  obtain ⟨front, back, rfl, hfront, hback⟩ := h.exists_append hdown
  have hnone : (back.any fun s => test s && answer s) = false := by
    rw [List.any_eq_false]
    intro s hs
    simp [hback s hs]
  rw [lastPassing?_append hfront hback, List.any_append, hnone, Bool.or_false]
  rcases front.eq_nil_or_concat with rfl | ⟨front, s, rfl⟩
  · rfl
  · have hpass : test s = true := hfront s (by simp)
    have hbefore : (front.any fun t => test t && answer t) = false := by
      rw [List.any_eq_false]
      intro t ht
      rw [List.concat_eq_append] at h
      have hgap := (List.pairwise_append.1 (List.pairwise_append.1 h.apart).1).2.2 t ht s (by simp)
      simp [hlast t s hgap hpass]
    simp [hpass, hbefore]

end Span

namespace SpanSet

open Caret.Span

/-- The last span that starts at or before an offset. -/
def candidate? (set : SpanSet) (i : Nat) : Option Span :=
  lastPassing? (fun s => decide (s.start ≤ i)) set.spans

def candidateBefore? (set : SpanSet) (o : Nat) : Option Span :=
  lastPassing? (fun s => decide (s.start < o)) set.spans

variable {set : SpanSet}

theorem covers_iff_mem_offsets {i : Nat} : set.covers i = true ↔ i ∈ offsets set.spans := by
  simp only [SpanSet.covers_iff, Span.covers_iff, mem_offsets_iff]

/-- One span answers each question about an offset. -/
theorem any_candidate? (h : Canonical set.spans) (o : Nat) :
    ((set.candidate? o).any fun s => decide (o < s.stop)) = set.covers o ∧
      ((set.candidate? o).any fun s => s.surrounds o) = set.surrounds o ∧
      ((set.candidateBefore? o).any fun s => decide (o ≤ s.stop)) = set.trails o := by
  refine ⟨?_, ?_, ?_⟩
  · rw [candidate?, h.any_lastPassing?]
    · rfl
    all_goals
      intro s t
      simp only [decide_eq_true_eq, decide_eq_false_iff_not]
      omega
  · rw [candidate?, h.any_lastPassing?, SpanSet.surrounds]
    · congr 1
      funext s
      rw [Bool.eq_iff_iff]
      simp only [Span.surrounds, Bool.and_eq_true, decide_eq_true_eq]
      omega
    · intro s t
      simp only [decide_eq_true_eq]
      omega
    · intro s t
      simp only [Span.surrounds, Bool.and_eq_false_iff, decide_eq_true_eq,
        decide_eq_false_iff_not]
      omega
  · rw [candidateBefore?, h.any_lastPassing?]
    · rfl
    all_goals
      intro s t
      simp only [decide_eq_true_eq, decide_eq_false_iff_not]
      omega

/-- A cursor stands between two offsets of one span just when both belong to the
set, since no two spans touch. -/
theorem surrounds_iff (h : Canonical set.spans) {o : Nat} :
    set.surrounds o = true ↔ 0 < o ∧ o - 1 ∈ offsets set.spans ∧ o ∈ offsets set.spans := by
  simp only [SpanSet.surrounds, List.any_eq_true, Span.surrounds, Bool.and_eq_true,
    decide_eq_true_eq]
  constructor
  · rintro ⟨s, hs, hstart, hstop⟩
    exact ⟨by omega, ⟨s, hs, by omega, by omega⟩, ⟨s, hs, by omega, hstop⟩⟩
  · rintro ⟨hpos, ⟨s, hs, hstart, hstop⟩, hmem⟩
    refine ⟨s, hs, by omega, ?_⟩
    by_contra hge
    have hend : s.stop = o := by omega
    exact h.stop_not_mem_offsets hs (hend ▸ hmem)

theorem trails_iff {o : Nat} : set.trails o = true ↔ 0 < o ∧ o - 1 ∈ offsets set.spans := by
  simp only [SpanSet.trails, List.any_eq_true, Span.trails, Bool.and_eq_true, decide_eq_true_eq]
  constructor
  · rintro ⟨s, hs, hstart, hstop⟩
    exact ⟨by omega, s, hs, by omega, by omega⟩
  · rintro ⟨hpos, s, hs, hstart, hstop⟩
    exact ⟨s, hs, by omega, by omega⟩

theorem offsets_ofList (spans : List Span) : offsets (ofList spans).spans = offsets spans := by
  ext i
  rw [← covers_iff_mem_offsets, covers_ofList_iff]
  simp only [Span.covers_iff, mem_offsets_iff]

theorem canonical_ofList {spans : List Span} (hspans : ∀ s ∈ spans, s.start ≤ s.stop) :
    Canonical (ofList spans).spans := by
  have hsorted := List.pairwise_mergeSort Span.le_trans Span.le_total (spans.filter (!·.isEmpty))
  have hnonempty : ∀ s ∈ (spans.filter (!·.isEmpty)).mergeSort Span.le, s.start < s.stop := by
    intro s hs
    obtain ⟨hmem, hne⟩ := List.mem_filter.1 (List.mem_mergeSort.1 hs)
    simp only [Span.isEmpty, Bool.not_eq_true', beq_eq_false_iff_ne] at hne
    have := hspans s hmem
    omega
  rw [ofList]
  cases hlist : (spans.filter (!·.isEmpty)).mergeSort Span.le with
  | nil => exact ⟨by simp, .nil⟩
  | cons s rest =>
      rw [hlist] at hsorted hnonempty
      refine (canonical_join (hsorted.imp ?_) hnonempty).1
      intro t u hle
      rw [Span.le_iff] at hle
      omega

def spansBetween (ends : List (Nat × Nat)) : List Span :=
  ends.map fun e => Span.between e.1 e.2

theorem start_le_stop_of_mem_spansBetween
    {ends : List (Nat × Nat)} {s : Span} (hs : s ∈ spansBetween ends) :
    s.start ≤ s.stop := by
  obtain ⟨e, -, rfl⟩ := List.mem_map.1 hs
  exact Nat.le_max_right _ _

/-- However a list of spans is ordered and whatever overlaps or repeats in it, the
set made of it lists spans that are not empty, by their starts and with a gap of
offsets that are not in the set between each two.  Two lists make the same set if
and only if the same offsets belong to their spans.  The three questions about an
offset are questions about the offsets of the spans listed, and a single span
answers each of them. -/
theorem ofList_eq_iff_offsets_eq (ends ends' : List (Nat × Nat)) :
    ((ofList (spansBetween ends)).spans.Pairwise (fun s t => s.le t = true) ∧
        (∀ s ∈ (ofList (spansBetween ends)).spans, s.isEmpty = false) ∧
        (ofList (spansBetween ends)).spans.Pairwise fun s t =>
          s.stop < t.start ∧ ∃ i, s.stop ≤ i ∧ i < t.start ∧ i ∉ offsets (spansBetween ends)) ∧
      (ofList (spansBetween ends) = ofList (spansBetween ends') ↔
        offsets (spansBetween ends) = offsets (spansBetween ends')) ∧
      (∀ i, (ofList (spansBetween ends)).covers i = true ↔ i ∈ offsets (spansBetween ends)) ∧
      (∀ o, (ofList (spansBetween ends)).surrounds o = true ↔
        0 < o ∧ o - 1 ∈ offsets (spansBetween ends) ∧ o ∈ offsets (spansBetween ends)) ∧
      (∀ o, (ofList (spansBetween ends)).trails o = true ↔
        0 < o ∧ o - 1 ∈ offsets (spansBetween ends)) ∧
      ∀ o, (((ofList (spansBetween ends)).candidate? o).any fun s => decide (o < s.stop)) =
          (ofList (spansBetween ends)).covers o ∧
        (((ofList (spansBetween ends)).candidate? o).any fun s => s.surrounds o) =
          (ofList (spansBetween ends)).surrounds o ∧
        (((ofList (spansBetween ends)).candidateBefore? o).any fun s => decide (o ≤ s.stop)) =
          (ofList (spansBetween ends)).trails o := by
  have hset : Canonical (ofList (spansBetween ends)).spans :=
    canonical_ofList fun s => start_le_stop_of_mem_spansBetween
  have hset' : Canonical (ofList (spansBetween ends')).spans :=
    canonical_ofList fun s => start_le_stop_of_mem_spansBetween
  have hoffsets : offsets (ofList (spansBetween ends)).spans = offsets (spansBetween ends) :=
    offsets_ofList _
  have hoffsets' : offsets (ofList (spansBetween ends')).spans = offsets (spansBetween ends') :=
    offsets_ofList _
  refine ⟨⟨?_, ?_, ?_⟩, ⟨?_, ?_⟩, ?_, ?_, ?_, any_candidate? hset⟩
  · refine hset.apart.imp_of_mem fun {s t} hs _ hgap => ?_
    have := hset.nonempty s hs
    exact Span.le_iff.2 (Or.inl (by omega))
  · intro s hs
    have := hset.nonempty s hs
    simp only [Span.isEmpty, beq_eq_false_iff_ne]
    omega
  · refine hset.apart.imp_of_mem fun {s t} hs _ hgap => ⟨hgap, s.stop, Nat.le_refl _, hgap, ?_⟩
    exact hoffsets ▸ hset.stop_not_mem_offsets hs
  · intro heq
    rw [← hoffsets, heq, hoffsets']
  · intro heq
    have hspans := hset.eq_of_offsets_eq hset' (by rw [hoffsets, hoffsets', heq])
    exact congrArg SpanSet.mk hspans
  · intro i
    rw [covers_iff_mem_offsets, hoffsets]
  · intro o
    rw [surrounds_iff hset, hoffsets]
  · intro o
    rw [trails_iff, hoffsets]

end SpanSet

end Caret
