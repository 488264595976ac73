import Caret.Tree.Search
import Mathlib.Data.List.Basic

/-!
# Places in a tree

A place in a tree is the list of child indexes on the way down to it, so that
two nodes that look alike are still two places.  In a well-nested tree the
spans of two places lie one in the other if one place is above the other, and
apart if neither is.
-/

namespace Caret.Node

/-- Induction over a tree, from the children of a node to the node. -/
@[elab_as_elim]
theorem induct
    {motive : Node → Prop} (step : ∀ n : Node, (∀ c ∈ n.children, motive c) → motive n)
    (n : Node) :
    motive n := by
  refine step n fun c hc => ?_
  have : sizeOf c < sizeOf n := by
    obtain ⟨_, _, _, _, _, children⟩ := n
    have hchild : sizeOf c < sizeOf children := List.sizeOf_lt_of_mem hc
    simp only [mk.sizeOf_spec]
    omega
  exact induct step c
termination_by sizeOf n

/-! ## The node at a place -/

def at? (n : Node) : List Nat → Option Node
  | [] => some n
  | i :: a => n.children[i]?.bind fun c => c.at? a

@[simp] theorem at?_nil (n : Node) : n.at? [] = some n := rfl

theorem at?_cons_eq_some_iff {n m : Node} {i : Nat} {a : List Nat} :
    n.at? (i :: a) = some m ↔ ∃ c, n.children[i]? = some c ∧ c.at? a = some m := by
  simp [at?, Option.bind_eq_some_iff]

theorem at?_append (n : Node) (a b : List Nat) :
    n.at? (a ++ b) = (n.at? a).bind fun m => m.at? b := by
  induction a generalizing n with
  | nil => rfl
  | cons i a ih =>
      simp only [List.cons_append, at?]
      cases n.children[i]? with
      | none => rfl
      | some c => exact ih c

mutual

def places (n : Node) : List (List Nat) :=
  match n with
  | ⟨_, _, _, _, _, children⟩ => [] :: placesAmong 0 children
termination_by structural n

/-- The places below a node whose children, from number `i` on, are these. -/
def placesAmong (i : Nat) (ns : List Node) : List (List Nat) :=
  match ns with
  | [] => []
  | n :: rest => n.places.map (i :: ·) ++ placesAmong (i + 1) rest
termination_by structural ns

end

theorem places_eq (n : Node) : n.places = [] :: placesAmong 0 n.children := by
  obtain ⟨kind, start, stop, named, field, children⟩ := n
  rw [places]

theorem mem_placesAmong_iff {i : Nat} {ns : List Node} {a : List Nat} :
    a ∈ placesAmong i ns ↔ ∃ j c b, ns[j]? = some c ∧ b ∈ c.places ∧ a = (i + j) :: b := by
  induction ns generalizing i with
  | nil => simp [placesAmong]
  | cons n ns ih =>
      simp only [placesAmong, List.mem_append, List.mem_map, ih]
      constructor
      · rintro (⟨b, hb, rfl⟩ | ⟨j, c, b, hc, hb, rfl⟩)
        · exact ⟨0, n, b, rfl, hb, rfl⟩
        · exact ⟨j + 1, c, b, hc, hb, by rw [Nat.add_right_comm, Nat.add_assoc]⟩
      · rintro ⟨_ | j, c, b, hc, hb, rfl⟩
        · obtain rfl := Option.some.inj hc
          exact Or.inl ⟨b, hb, rfl⟩
        · exact Or.inr ⟨j, c, b, hc, hb, by rw [Nat.add_right_comm, Nat.add_assoc]⟩

theorem mem_places_iff {n : Node} {a : List Nat} : a ∈ n.places ↔ ∃ m, n.at? a = some m := by
  induction n using induct generalizing a with
  | step n ih =>
      obtain ⟨kind, start, stop, named, field, children⟩ := n
      cases a with
      | nil => simp [places]
      | cons i a =>
          simp only [places, List.mem_cons, reduceCtorEq, false_or, mem_placesAmong_iff,
            at?_cons_eq_some_iff]
          constructor
          · rintro ⟨j, c, b, hc, hb, hplace⟩
            obtain ⟨rfl, rfl⟩ := List.cons.inj hplace
            obtain ⟨m, hm⟩ := (ih c (List.mem_of_getElem? hc)).1 hb
            rw [Nat.zero_add]
            exact ⟨m, c, hc, hm⟩
          · rintro ⟨m, c, hc, hm⟩
            exact ⟨i, c, a, hc, (ih c (List.mem_of_getElem? hc)).2 ⟨m, hm⟩, by rw [Nat.zero_add]⟩

/-! ## Well-nested trees -/

mutual

/-- Whether all spans begin and end at valid offsets of a source, the children
of a node lie in it, and siblings follow one another without overlap. -/
def wellNested (source : List Char) (n : Node) : Bool :=
  match n with
  | ⟨_, start, stop, _, _, children⟩ =>
    (Text.splitAt? source start).isSome && (Text.splitAt? source stop).isSome &&
      decide (start ≤ stop) && wellNestedAmong source start stop children
termination_by structural n

/-- Whether these siblings are well nested and follow one another between two
offsets. -/
def wellNestedAmong (source : List Char) (lo hi : Nat) (ns : List Node) : Bool :=
  match ns with
  | [] => true
  | n :: rest =>
    decide (lo ≤ n.start) && decide (n.stop ≤ hi) && n.wellNested source &&
      wellNestedAmong source n.stop hi rest
termination_by structural ns

end

/-- What well nested means for one node. -/
structure IsWellNested (source : List Char) (n : Node) : Prop where
  start_valid : Text.IsBoundary source n.start
  stop_valid : Text.IsBoundary source n.stop
  start_le_stop : n.start ≤ n.stop
  children_inside : ∀ c ∈ n.children, n.start ≤ c.start ∧ c.stop ≤ n.stop
  children_ordered : n.children.Pairwise fun c d => c.stop ≤ d.start
  children_wellNested : ∀ c ∈ n.children, c.wellNested source = true

theorem wellNestedAmong_iff {source : List Char} {lo hi : Nat} {ns : List Node} :
    wellNestedAmong source lo hi ns = true ↔
      (∀ c ∈ ns, lo ≤ c.start ∧ c.stop ≤ hi ∧ c.wellNested source = true) ∧
        ns.Pairwise fun c d => c.stop ≤ d.start := by
  have hordered {n : Node} (hn : n.wellNested source = true) : n.start ≤ n.stop := by
    obtain ⟨kind, start, stop, named, field, children⟩ := n
    simp only [wellNested, Bool.and_eq_true, decide_eq_true_eq] at hn
    exact hn.1.2
  induction ns generalizing lo with
  | nil => simp [wellNestedAmong]
  | cons n ns ih =>
      simp only [wellNestedAmong, Bool.and_eq_true, decide_eq_true_eq, ih, List.forall_mem_cons,
        List.pairwise_cons]
      constructor
      · rintro ⟨⟨⟨hlo, hhi⟩, hn⟩, hrest, hpairs⟩
        have := hordered hn
        refine ⟨⟨⟨hlo, hhi, hn⟩, fun c hc => ?_⟩, fun c hc => (hrest c hc).1, hpairs⟩
        obtain ⟨hafter, hinside⟩ := hrest c hc
        exact ⟨by omega, hinside⟩
      · rintro ⟨⟨⟨hlo, hhi, hn⟩, hrest⟩, hafter, hpairs⟩
        exact ⟨⟨⟨hlo, hhi⟩, hn⟩, fun c hc => ⟨hafter c hc, (hrest c hc).2⟩, hpairs⟩

theorem wellNested_iff {source : List Char} {n : Node} :
    n.wellNested source = true ↔ n.IsWellNested source := by
  obtain ⟨kind, start, stop, named, field, children⟩ := n
  simp only [wellNested, Bool.and_eq_true, Text.splitAt?_isSome_iff, decide_eq_true_eq,
    wellNestedAmong_iff]
  constructor
  · rintro ⟨⟨⟨hstart, hstop⟩, hle⟩, hchildren, hpairs⟩
    exact ⟨hstart, hstop, hle, fun c hc => ⟨(hchildren c hc).1, (hchildren c hc).2.1⟩, hpairs,
      fun c hc => (hchildren c hc).2.2⟩
  · intro h
    exact ⟨⟨⟨h.start_valid, h.stop_valid⟩, h.start_le_stop⟩,
      fun c hc => ⟨(h.children_inside c hc).1, (h.children_inside c hc).2,
        h.children_wellNested c hc⟩, h.children_ordered⟩

theorem wellNested_at?
    {source : List Char} {n m : Node} (hn : n.wellNested source = true) {a : List Nat}
    (h : n.at? a = some m) :
    m.wellNested source = true ∧ n.start ≤ m.start ∧ m.stop ≤ n.stop := by
  induction a generalizing n with
  | nil =>
      obtain rfl := Option.some.inj h
      exact ⟨hn, Nat.le_refl _, Nat.le_refl _⟩
  | cons i a ih =>
      obtain ⟨c, hc, hm⟩ := at?_cons_eq_some_iff.1 h
      have hwell := wellNested_iff.1 hn
      have hmem := List.mem_of_getElem? hc
      obtain ⟨hstart, hstop⟩ := hwell.children_inside c hmem
      obtain ⟨hmwell, hmstart, hmstop⟩ := ih (hwell.children_wellNested c hmem) hm
      exact ⟨hmwell, by omega, by omega⟩

/-- A node lies in every node above it. -/
theorem inside_of_above
    {source : List Char} {root n m : Node} (hroot : root.wellNested source = true)
    {a b : List Nat} (ha : root.at? a = some n) (hb : root.at? b = some m) (h : a <+: b) :
    n.start ≤ m.start ∧ m.stop ≤ n.stop := by
  obtain ⟨c, rfl⟩ := h
  rw [at?_append, ha, Option.bind_some] at hb
  exact (wellNested_at? (wellNested_at? hroot ha).1 hb).2

theorem start_le_stop_of_at?
    {source : List Char} {root n : Node} (hroot : root.wellNested source = true) {a : List Nat}
    (hn : root.at? a = some n) :
    n.start ≤ n.stop :=
  (wellNested_iff.1 (wellNested_at? hroot hn).1).start_le_stop

theorem IsWellNested.stop_le_start_of_lt
    {source : List Char} {n c d : Node} (hn : n.IsWellNested source) {i j : Nat}
    (hc : n.children[i]? = some c) (hd : n.children[j]? = some d) (hij : i < j) :
    c.stop ≤ d.start := by
  obtain ⟨hi, rfl⟩ := List.getElem?_eq_some_iff.1 hc
  obtain ⟨hj, rfl⟩ := List.getElem?_eq_some_iff.1 hd
  exact List.pairwise_iff_getElem.1 hn.children_ordered i j hi hj hij

/-- Two nodes of which neither is above the other do not overlap. -/
theorem apart_of_not_above
    {source : List Char} {root n m : Node} (hroot : root.wellNested source = true)
    {a b : List Nat} (ha : root.at? a = some n) (hb : root.at? b = some m)
    (hab : ¬a <+: b) (hba : ¬b <+: a) :
    n.stop ≤ m.start ∨ m.stop ≤ n.start := by
  induction a generalizing root b with
  | nil => exact absurd List.nil_prefix hab
  | cons i a ih =>
      cases b with
      | nil => exact absurd List.nil_prefix hba
      | cons j b =>
          obtain ⟨c, hc, hn⟩ := at?_cons_eq_some_iff.1 ha
          obtain ⟨d, hd, hm⟩ := at?_cons_eq_some_iff.1 hb
          have hwell := wellNested_iff.1 hroot
          have hcwell := hwell.children_wellNested c (List.mem_of_getElem? hc)
          have hdwell := hwell.children_wellNested d (List.mem_of_getElem? hd)
          have hninside := (wellNested_at? hcwell hn).2
          have hminside := (wellNested_at? hdwell hm).2
          rcases Nat.lt_trichotomy i j with hij | rfl | hji
          · have := hwell.stop_le_start_of_lt hc hd hij
            exact Or.inl (by omega)
          · obtain rfl := Option.some.inj (hc.symm.trans hd)
            refine ih hcwell hn hm (fun h => hab ?_) fun h => hba ?_
            · exact List.cons_prefix_cons.2 ⟨rfl, h⟩
            · exact List.cons_prefix_cons.2 ⟨rfl, h⟩
          · have := hwell.stop_le_start_of_lt hd hc hji
            exact Or.inr (by omega)

/-! ## The token at an offset -/

theorem spine_eq (lo hi : Nat) (n : Node) : n.spine lo hi = n :: spineBelow lo hi n.children := by
  obtain ⟨kind, start, stop, named, field, children⟩ := n
  rw [spine]

/-- Among siblings that follow one another a search passes over those in front of the one
around its range, and enters that one. -/
theorem spineBelow_of_around
    {ns : List Node} (hns : ns.Pairwise fun c d => c.stop ≤ d.start) {c : Node} (hc : c ∈ ns)
    {lo hi : Nat} (hstart : c.start ≤ lo) (hbefore : c.start < hi) (hbehind : lo < c.stop)
    (hstop : hi ≤ c.stop) :
    spineBelow lo hi ns = c.spine lo hi := by
  induction ns with
  | nil => exact absurd hc List.not_mem_nil
  | cons d ns ih =>
      obtain ⟨hfollow, hns⟩ := List.pairwise_cons.1 hns
      rw [spineBelow]
      rcases List.mem_cons.1 hc with rfl | hc
      · have hends : c.endsBefore lo hi = false := by
          simp only [endsBefore, Bool.or_eq_false_iff, Bool.and_eq_false_iff,
            decide_eq_false_iff_not]
          omega
        rw [hends, if_neg Bool.false_ne_true, if_neg (by omega)]
      · have hends : d.endsBefore lo hi = true := by
          have := hfollow c hc
          simp only [endsBefore, Bool.or_eq_true, decide_eq_true_eq]
          omega
        rw [if_pos hends]
        exact ih hns hc

/-- Below a node, a search enters a child that starts no later than the range and does
not end before it. -/
theorem exists_entered_of_mem_spineBelow
    {lo hi : Nat} {ns : List Node} {m : Node} (h : m ∈ spineBelow lo hi ns) :
    ∃ (i : Nat) (c : Node), ns[i]? = some c ∧ c.endsBefore lo hi = false ∧ c.start ≤ lo ∧
      m ∈ c.spine lo hi := by
  induction ns with
  | nil => exact absurd h List.not_mem_nil
  | cons n ns ih =>
      rw [spineBelow] at h
      split_ifs at h with hends hstart
      · obtain ⟨i, c, hc, hrest⟩ := ih h
        exact ⟨i + 1, c, hc, hrest⟩
      · exact absurd h List.not_mem_nil
      · exact ⟨0, n, rfl, Bool.eq_false_iff.2 hends, Nat.le_of_not_lt hstart, h⟩

/-- A search goes through nodes of the tree.  Apart from the root they start no later
than the range and do not end before it. -/
theorem exists_at?_of_mem_spine
    {lo hi : Nat} {n m : Node} (h : m ∈ n.spine lo hi) :
    ∃ a, n.at? a = some m ∧ (a = [] ∨ m.endsBefore lo hi = false ∧ m.start ≤ lo) := by
  induction n using induct with
  | step n ih =>
      rw [spine_eq] at h
      rcases List.mem_cons.1 h with rfl | h
      · exact ⟨[], rfl, Or.inl rfl⟩
      · obtain ⟨i, c, hc, hends, hstart, hm⟩ := exists_entered_of_mem_spineBelow h
        obtain ⟨a, ha, hentered⟩ := ih c (List.mem_of_getElem? hc) hm
        refine ⟨i :: a, at?_cons_eq_some_iff.2 ⟨c, hc, ha⟩, Or.inr ?_⟩
        rcases hentered with rfl | hentered
        · obtain rfl := Option.some.inj ha
          exact ⟨hends, hstart⟩
        · exact hentered

theorem exists_at?_descendant (n : Node) (lo hi : Nat) :
    ∃ a, n.at? a = some (n.descendant lo hi) ∧
      (a = [] ∨
        (n.descendant lo hi).endsBefore lo hi = false ∧ (n.descendant lo hi).start ≤ lo) := by
  rw [descendant, enclosing]
  cases hspine : (n.spine lo hi).reverse with
  | nil => exact ⟨[], rfl, Or.inl rfl⟩
  | cons m ms =>
      apply exists_at?_of_mem_spine
      rw [← List.mem_reverse, hspine]
      exact List.mem_cons_self

theorem wellNested_descendant
    {source : List Char} {n : Node} (hn : n.wellNested source = true) (lo hi : Nat) :
    (n.descendant lo hi).wellNested source = true := by
  obtain ⟨a, ha, -⟩ := n.exists_at?_descendant lo hi
  exact (wellNested_at? hn ha).1

theorem tokenStart_le (root : Node) (o : Nat) : root.tokenStart o ≤ o := by
  unfold tokenStart
  dsimp only
  split
  · rename_i h
    simp only [Bool.and_eq_true, decide_eq_true_eq] at h
    exact h.2
  · exact Nat.le_refl o

theorem isBoundary_tokenStart
    {source : List Char} {root : Node} (hroot : root.wellNested source = true) {o : Nat}
    (ho : Text.IsBoundary source o) :
    Text.IsBoundary source (root.tokenStart o) := by
  unfold tokenStart
  dsimp only
  split
  · exact (wellNested_iff.1 (wellNested_descendant hroot o o)).start_valid
  · exact ho

end Caret.Node
