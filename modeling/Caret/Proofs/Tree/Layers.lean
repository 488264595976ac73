import Caret.Proofs.Tree.Nearest
import Caret.Tree.Regions

/-!
# The layers around a byte

Strings hold interpolated code, and that code holds strings again.  The nodes
around a byte of a well-nested tree lie one in the other, so that there is a
deepest one of any sort among them, a string or an interpolation say, if there is
one at all.  It is found in the child that takes the byte, or else it is the node
itself.
-/

namespace Caret.Node

/-! ## Nodes around a byte -/

/-- Whether a byte belongs to the text that a node takes. -/
def takes (n : Node) (i : Nat) : Bool :=
  decide (n.start ≤ i) && decide (i < n.stop)

def isString (n : Node) : Bool :=
  stringKinds.contains n.kind

/-- Code in a string.  A node without a name is a token, whatever its kind
reads, and opens no code. -/
def isInterpolation (n : Node) : Bool :=
  n.named && n.kind == "interpolation"

/-- Strings and interpolations. -/
def isLayer (n : Node) : Bool :=
  n.isString || n.isInterpolation

/-- Strings and interpolations around a byte. -/
def layerOver (i : Nat) (n : Node) : Bool :=
  n.isLayer && n.takes i

/-- The node `m` at the place `d` satisfies `p`, and no node further down does. -/
structure IsDeepest (p : Node → Bool) (root : Node) (d : List Nat) (m : Node) : Prop where
  at_eq : root.at? d = some m
  holds : p m = true
  deepest : ∀ e n, root.at? e = some n → p n = true → e.length ≤ d.length

theorem exists_isDeepest_iff {p q : Node → Bool} {root : Node} :
    (∃ d m, IsDeepest p root d m ∧ q m = true) ↔
      ∃ d ∈ root.places, (root.at? d).any (fun m => p m && q m) = true ∧
        ∀ e ∈ root.places, (root.at? e).any p = true → e.length ≤ d.length := by
  constructor
  · rintro ⟨d, m, h, hq⟩
    refine ⟨d, mem_places_iff.2 ⟨m, h.at_eq⟩, ?_, ?_⟩
    · simp [h.at_eq, h.holds, hq]
    · intro e _ he
      obtain ⟨n, hn, hp⟩ := (Option.any_eq_true _ _).1 he
      exact h.deepest e n hn hp
  · rintro ⟨d, -, hd, hdeepest⟩
    obtain ⟨m, hm, hpq⟩ := (Option.any_eq_true _ _).1 hd
    rw [Bool.and_eq_true] at hpq
    refine ⟨d, m, ⟨hm, hpq.1, ?_⟩, hpq.2⟩
    intro e n hn hp
    exact hdeepest e (mem_places_iff.2 ⟨n, hn⟩) ((Option.any_eq_true _ _).2 ⟨n, hn, hp⟩)

instance (p q : Node → Bool) (root : Node) :
    Decidable (∃ d m, IsDeepest p root d m ∧ q m = true) :=
  decidable_of_iff _ exists_isDeepest_iff.symm

theorem takes_iff {n : Node} {i : Nat} : n.takes i = true ↔ n.start ≤ i ∧ i < n.stop := by
  simp [takes]

theorem takes_of_at?
    {source : List Char} {n m : Node} (hn : n.wellNested source = true) {a : List Nat}
    (h : n.at? a = some m) {i : Nat} (hi : m.takes i = true) :
    n.takes i = true := by
  have hinside := (wellNested_at? hn h).2
  rw [takes_iff] at hi ⊢
  omega

theorem takes_of_layerOver {i : Nat} {n : Node} (h : layerOver i n = true) : n.takes i = true := by
  simp only [layerOver, Bool.and_eq_true] at h
  exact h.2

theorem above_or_above_of_takes
    {source : List Char} {root n m : Node} (hroot : root.wellNested source = true)
    {a b : List Nat} (ha : root.at? a = some n) (hb : root.at? b = some m) {i : Nat}
    (hn : n.takes i = true) (hm : m.takes i = true) :
    a <+: b ∨ b <+: a := by
  by_contra h
  rw [not_or] at h
  have hapart := apart_of_not_above hroot ha hb h.1 h.2
  rw [takes_iff] at hn hm
  omega

/-- Among nodes around one byte there is only one deepest. -/
theorem IsDeepest.unique_of_takes
    {source : List Char} {root m m' : Node} (hroot : root.wellNested source = true) {i : Nat}
    {p : Node → Bool} (hp : ∀ n, p n = true → n.takes i = true) {d d' : List Nat}
    (h : IsDeepest p root d m) (h' : IsDeepest p root d' m') :
    d = d' ∧ m = m' := by
  have hlength : d.length = d'.length :=
    Nat.le_antisymm (h'.deepest d m h.at_eq h.holds) (h.deepest d' m' h'.at_eq h'.holds)
  have hplace : d = d' := by
    rcases above_or_above_of_takes hroot h.at_eq h'.at_eq (hp m h.holds) (hp m' h'.holds) with
      habove | habove
    · exact habove.eq_of_length hlength
    · exact (habove.eq_of_length hlength.symm).symm
  subst hplace
  exact ⟨rfl, Option.some.inj (h.at_eq.symm.trans h'.at_eq)⟩

theorem IsDeepest.unique
    {source : List Char} {root m m' : Node} (hroot : root.wellNested source = true) {i : Nat}
    {d d' : List Nat} (h : IsDeepest (layerOver i) root d m)
    (h' : IsDeepest (layerOver i) root d' m') :
    d = d' ∧ m = m' :=
  h.unique_of_takes hroot (fun _ => takes_of_layerOver) h'

theorem IsWellNested.child_unique
    {source : List Char} {n c d : Node} (hn : n.IsWellNested source) {i j k : Nat}
    (hc : n.children[j]? = some c) (hd : n.children[k]? = some d) (hci : c.takes i = true)
    (hdi : d.takes i = true) :
    j = k := by
  rw [takes_iff] at hci hdi
  rcases Nat.lt_trichotomy j k with hjk | hjk | hjk
  · have := hn.stop_le_start_of_lt hc hd hjk
    omega
  · exact hjk
  · have := hn.stop_le_start_of_lt hd hc hjk
    omega

/-! ## The deepest node around a byte -/

/-- What the deepest node that satisfies `p` is in a tree, if there is one. -/
def DeepestIs (p : Node → Bool) (root : Node) : Option Node → Prop
  | none => ∀ a m, root.at? a = some m → p m = false
  | some m => ∃ d, IsDeepest p root d m

/-- A node itself, if it satisfies `p`. -/
def own (p : Node → Bool) (n : Node) : Option Node :=
  if p n then some n else none

section

variable {source : List Char} {n c : Node} {p : Node → Bool} {i : Nat}

/-- Where no child takes the byte, the node itself is all that can be around it. -/
theorem deepestIs_of_no_child
    (hn : n.wellNested source = true) (hp : ∀ m, p m = true → m.takes i = true)
    (hnone : ∀ c ∈ n.children, c.takes i = false) :
    n.DeepestIs p (n.own p) := by
  have hbelow (a : List Nat) (m : Node) (ha : n.at? a = some m) (hm : p m = true) :
      a = [] ∧ m = n := by
    cases a with
    | nil => exact ⟨rfl, (Option.some.inj ha).symm⟩
    | cons j a =>
        obtain ⟨c, hc, ha⟩ := at?_cons_eq_some_iff.1 ha
        have hmem := List.mem_of_getElem? hc
        have hcwell := (wellNested_iff.1 hn).children_wellNested c hmem
        have htakes := takes_of_at? hcwell ha (hp m hm)
        exact absurd htakes (by simp [hnone c hmem])
  unfold own
  by_cases hown : p n = true
  · rw [if_pos hown]
    refine ⟨[], rfl, hown, fun e m he hm => ?_⟩
    rw [(hbelow e m he hm).1]
  · rw [if_neg hown]
    intro a m ha
    by_contra hm
    rw [Bool.not_eq_false] at hm
    obtain ⟨-, rfl⟩ := hbelow a m ha hm
    exact hown hm

/-- Where a child takes the byte, what is in it comes before the node itself. -/
theorem deepestIs_of_child
    (hn : n.wellNested source = true) (hp : ∀ m, p m = true → m.takes i = true)
    (hc : c ∈ n.children) (hci : c.takes i = true) {o : Option Node} (ho : c.DeepestIs p o) :
    n.DeepestIs p (o.or (n.own p)) := by
  obtain ⟨j, hj⟩ := List.getElem?_of_mem hc
  have hwell := wellNested_iff.1 hn
  have hbelow (a : List Nat) (m : Node) (ha : n.at? a = some m) (hm : p m = true) :
      (a = [] ∧ m = n) ∨ ∃ e, a = j :: e ∧ c.at? e = some m := by
    cases a with
    | nil => exact Or.inl ⟨rfl, (Option.some.inj ha).symm⟩
    | cons k a =>
        obtain ⟨d, hd, ha⟩ := at?_cons_eq_some_iff.1 ha
        have hdwell := hwell.children_wellNested d (List.mem_of_getElem? hd)
        obtain rfl := hwell.child_unique hj hd hci (takes_of_at? hdwell ha (hp m hm))
        obtain rfl := Option.some.inj (hj.symm.trans hd)
        exact Or.inr ⟨a, rfl, ha⟩
  cases o with
  | some m =>
      obtain ⟨d, hd⟩ := ho
      refine ⟨j :: d, at?_cons_eq_some_iff.2 ⟨c, hj, hd.at_eq⟩, hd.holds, ?_⟩
      intro e k he hk
      rcases hbelow e k he hk with ⟨rfl, -⟩ | ⟨e', rfl, he'⟩
      · exact Nat.zero_le _
      · exact Nat.succ_le_succ (hd.deepest e' k he' hk)
  | none =>
      rw [Option.none_or, own]
      by_cases hown : p n = true
      · rw [if_pos hown]
        refine ⟨[], rfl, hown, fun e k he hk => ?_⟩
        rcases hbelow e k he hk with ⟨rfl, -⟩ | ⟨e', rfl, he'⟩
        · exact Nat.le_refl _
        · exact absurd hk (by simp [ho e' k he'])
      · rw [if_neg hown]
        intro a m ha
        by_contra hm
        rw [Bool.not_eq_false] at hm
        rcases hbelow a m ha hm with ⟨-, rfl⟩ | ⟨e, -, he⟩
        · exact hown hm
        · exact absurd hm (by simp [ho e m he])

end

/-! ## The deepest layer -/

/-- What the deepest layer over a byte is in a tree, if there is one. -/
def LayerAt (i : Nat) (root : Node) : Option Node → Prop
  | none => ∀ a m, root.at? a = some m → layerOver i m = false
  | some m => ∃ d, IsDeepest (layerOver i) root d m

/-- A node itself, if it is a layer over a byte. -/
def ownLayer (i : Nat) (n : Node) : Option Node :=
  if layerOver i n then some n else none

theorem layerAt_iff {i : Nat} {root : Node} {layer : Option Node} :
    root.LayerAt i layer ↔ root.DeepestIs (layerOver i) layer := by
  cases layer with
  | none => exact Iff.rfl
  | some m => exact Iff.rfl

theorem layerAt_of_no_child
    {source : List Char} {n : Node} (hn : n.wellNested source = true) {i : Nat}
    (hnone : ∀ c ∈ n.children, c.takes i = false) :
    n.LayerAt i (n.ownLayer i) :=
  layerAt_iff.2 (deepestIs_of_no_child hn (fun _ => takes_of_layerOver) hnone)

theorem layerAt_of_child
    {source : List Char} {n c : Node} (hn : n.wellNested source = true) {i : Nat}
    (hc : c ∈ n.children) (hci : c.takes i = true) {o : Option Node} (ho : c.LayerAt i o) :
    n.LayerAt i (o.or (n.ownLayer i)) :=
  layerAt_iff.2 (deepestIs_of_child hn (fun _ => takes_of_layerOver) hc hci (layerAt_iff.1 ho))

end Caret.Node
