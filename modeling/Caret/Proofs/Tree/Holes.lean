import Caret.Proofs.SpanCover
import Caret.Proofs.Tree.Layers

/-!
# Regions and holes

The regions of a node, and the holes that it cuts into a string around it, put
together from those of its children.  In a well-nested tree holes follow one
another, and what is left of a string covers just what no hole covers.
-/

namespace Caret.Node

/-! ## Regions of a node from those of its children -/

/-- The interpolations that cut holes into a string around the node. -/
def outerHoles (n : Node) : List Span :=
  if n.named then
    if n.kind = "interpolation" then [⟨n.start, n.stop⟩] else n.holes
  else
    []

/-- The regions that the node adds when it stands in a string. -/
def regionsInText (n : Node) : List Region :=
  if n.named then
    if n.kind = "interpolation" then n.regions else n.regionsBelowText
  else
    []

theorem holesAmong_eq (ns : List Node) : holesAmong ns = ns.flatMap outerHoles := by
  induction ns with
  | nil => rfl
  | cons n ns ih =>
      rw [holesAmong, ih]
      rfl

theorem regionsInHoles_eq (ns : List Node) : regionsInHoles ns = ns.flatMap regionsInText := by
  induction ns with
  | nil => rfl
  | cons n ns ih =>
      rw [regionsInHoles, ih]
      rfl

theorem regionsAmong_eq (ns : List Node) : regionsAmong ns = ns.flatMap regions := by
  induction ns with
  | nil => rfl
  | cons n ns ih => rw [regionsAmong, ih, List.flatMap_cons]

theorem regions_of_comment {n : Node} (hn : n.kind = "comment") :
    n.regions = [.comment (Span.between n.start n.stop)] := by
  obtain ⟨kind, start, stop, named, field, children⟩ := n
  rw [regions, if_pos hn]

theorem kind_ne_comment_of_isString {n : Node} (hn : n.isString = true) : n.kind ≠ "comment" := by
  intro hkind
  rw [isString, hkind] at hn
  exact absurd hn (by decide)

theorem regions_of_isString {n : Node} (hn : n.isString = true) :
    n.regions = (pieces n.start n.stop (n.children.flatMap outerHoles)).map .string ++
      n.children.flatMap regionsInText := by
  have hcomment := kind_ne_comment_of_isString hn
  have hkind : n.kind ∈ stringKinds := by simpa [isString] using hn
  obtain ⟨kind, start, stop, named, field, children⟩ := n
  rw [regions, if_neg hcomment, if_pos hkind, holesAmong_eq, regionsInHoles_eq]

theorem regions_of_code {n : Node} (hcomment : n.kind ≠ "comment") (hn : n.isString = false) :
    n.regions = n.children.flatMap regions := by
  have hkind : n.kind ∉ stringKinds := by
    intro hmem
    exact absurd hn (by simpa [isString] using hmem)
  obtain ⟨kind, start, stop, named, field, children⟩ := n
  rw [regions, if_neg hcomment, if_neg hkind, regionsAmong_eq]

theorem outerHoles_of_isInterpolation {n : Node} (hn : n.isInterpolation = true) :
    n.outerHoles = [⟨n.start, n.stop⟩] := by
  simp only [isInterpolation, Bool.and_eq_true, beq_iff_eq] at hn
  rw [outerHoles, if_pos hn.1, if_pos hn.2]

theorem regionsInText_of_isInterpolation {n : Node} (hn : n.isInterpolation = true) :
    n.regionsInText = n.regions := by
  simp only [isInterpolation, Bool.and_eq_true, beq_iff_eq] at hn
  rw [regionsInText, if_pos hn.1, if_pos hn.2]

/-- Only the children of a node that is no interpolation cut holes, and a node
without a name has none. -/
theorem outerHoles_eq
    {n : Node} (hn : n.isInterpolation = false) (hnamed : n.children ≠ [] → n.named = true) :
    n.outerHoles = n.children.flatMap outerHoles := by
  unfold outerHoles
  by_cases hname : n.named = true
  · have hkind : n.kind ≠ "interpolation" := by simpa [isInterpolation, hname] using hn
    rw [if_pos hname, if_neg hkind]
    obtain ⟨kind, start, stop, named, field, children⟩ := n
    exact holesAmong_eq children
  · have hchildren : n.children = [] := by
      by_contra h
      exact hname (hnamed h)
    rw [if_neg hname, hchildren, List.flatMap_nil]

theorem regionsInText_eq
    {n : Node} (hn : n.isInterpolation = false) (hnamed : n.children ≠ [] → n.named = true) :
    n.regionsInText = n.children.flatMap regionsInText := by
  unfold regionsInText
  by_cases hname : n.named = true
  · have hkind : n.kind ≠ "interpolation" := by simpa [isInterpolation, hname] using hn
    rw [if_pos hname, if_neg hkind]
    obtain ⟨kind, start, stop, named, field, children⟩ := n
    exact regionsInHoles_eq children
  · have hchildren : n.children = [] := by
      by_contra h
      exact hname (hnamed h)
    rw [if_neg hname, hchildren, List.flatMap_nil]

/-! ## Cutting holes -/

/-- Spans in order and apart, between two offsets. -/
structure SpansWithin (lo hi : Nat) (spans : List Span) : Prop where
  within : ∀ s ∈ spans, lo ≤ s.start ∧ s.start ≤ s.stop ∧ s.stop ≤ hi
  ordered : spans.Pairwise fun s t => s.stop ≤ t.start

/-- What is left when holes are cut out covers what no hole covers. -/
theorem exists_covers_pieces_iff
    {lo hi : Nat} {holes : List Span} (hholes : SpansWithin lo hi holes) {i : Nat} :
    (∃ s ∈ pieces lo hi holes, s.covers i = true) ↔
      (lo ≤ i ∧ i < hi) ∧ ¬∃ h ∈ holes, h.covers i = true := by
  induction holes generalizing lo with
  | nil => simp [pieces, Span.covers_between_iff]
  | cons hole rest ih =>
      obtain ⟨hafter, hordered⟩ := List.pairwise_cons.1 hholes.ordered
      have hhole := hholes.within hole List.mem_cons_self
      have hrest : SpansWithin hole.stop hi rest := by
        refine ⟨fun s hs => ?_, hordered⟩
        have := hafter s hs
        have := hholes.within s (List.mem_cons_of_mem hole hs)
        omega
      have hbeyond (h : ∃ h ∈ rest, h.covers i = true) : hole.stop ≤ i := by
        obtain ⟨s, hs, hi⟩ := h
        have := hafter s hs
        rw [Span.covers_iff] at hi
        omega
      have hcut : hole.covers i = true ↔ hole.start ≤ i ∧ i < hole.stop := Span.covers_iff
      simp only [pieces, List.mem_cons, exists_eq_or_imp, Span.covers_between_iff, ih hrest, hcut,
        not_or]
      constructor
      · rintro (hi | ⟨hi, hnone⟩)
        · refine ⟨by omega, by omega, fun h => ?_⟩
          have := hbeyond h
          omega
        · exact ⟨by omega, by omega, hnone⟩
      · rintro ⟨hi, hout, hnone⟩
        by_cases hbefore : i < hole.start
        · exact Or.inl ⟨hi.1, hbefore⟩
        · exact Or.inr ⟨by omega, hnone⟩

/-- The holes of the children follow one another as the children do. -/
theorem SpansWithin.flatMap_children
    {source : List Char} {n : Node} (hn : n.IsWellNested source)
    (hchild : ∀ c ∈ n.children, SpansWithin c.start c.stop c.outerHoles) :
    SpansWithin n.start n.stop (n.children.flatMap outerHoles) := by
  constructor
  · intro s hs
    obtain ⟨c, hc, hs⟩ := List.mem_flatMap.1 hs
    have hinside := hn.children_inside c hc
    have hwithin := (hchild c hc).within s hs
    omega
  · apply List.pairwise_flatMap.2
    refine ⟨fun c hc => (hchild c hc).ordered, hn.children_ordered.imp_of_mem ?_⟩
    intro c d hc hd hcd s hs t ht
    have hs := (hchild c hc).within s hs
    have ht := (hchild d hd).within t ht
    omega

theorem spansWithin_outerHoles
    {source : List Char} {n : Node} (hn : n.wellNested source = true) :
    SpansWithin n.start n.stop n.outerHoles := by
  induction n using induct with
  | step n ih =>
      have hwell := wellNested_iff.1 hn
      unfold outerHoles
      split_ifs with hname hkind
      · constructor
        · intro s hs
          rw [List.mem_singleton.1 hs]
          exact ⟨Nat.le_refl _, hwell.start_le_stop, Nat.le_refl _⟩
        · exact List.pairwise_singleton _ _
      · have hholes : n.holes = n.children.flatMap outerHoles := by
          obtain ⟨kind, start, stop, named, field, children⟩ := n
          exact holesAmong_eq children
        rw [hholes]
        exact .flatMap_children hwell fun c hc => ih c hc (hwell.children_wellNested c hc)
      · exact ⟨fun s hs => absurd hs List.not_mem_nil, .nil⟩

end Caret.Node
