import Caret.Proofs.Tree.Address
import Mathlib.Data.List.Lex

/-!
# The order of places

All places of a tree are listed in the lexicographic order of their child
indexes: a place comes before those below it, and what is below one child
before what is below a later one.  In a well-nested tree the nodes at the places
listed start in this order too.
-/

namespace Caret.Node

theorem pairwise_placesAmong
    {i : Nat} {ns : List Node} (hns : ∀ n ∈ ns, n.places.Pairwise (· < ·)) :
    (placesAmong i ns).Pairwise (· < ·) := by
  induction ns generalizing i with
  | nil => exact .nil
  | cons n ns ih =>
      rw [placesAmong, List.pairwise_append, List.pairwise_map]
      refine ⟨?_, ih fun m hm => hns m (List.mem_cons_of_mem n hm), ?_⟩
      · refine (hns n List.mem_cons_self).imp fun hlt => ?_
        exact List.cons_lt_cons_iff.2 (Or.inr ⟨rfl, hlt⟩)
      · intro a ha b hb
        obtain ⟨a', -, rfl⟩ := List.mem_map.1 ha
        obtain ⟨j, -, b', -, -, rfl⟩ := mem_placesAmong_iff.1 hb
        exact List.cons_lt_cons_iff.2 (Or.inl (by omega))

/-- The places of a tree are listed in ascending order. -/
theorem pairwise_places (n : Node) : n.places.Pairwise (· < ·) := by
  induction n using induct with
  | step n ih =>
      rw [places_eq, List.pairwise_cons]
      refine ⟨fun a ha => ?_, pairwise_placesAmong ih⟩
      obtain ⟨j, -, b, -, -, rfl⟩ := mem_placesAmong_iff.1 ha
      exact List.nil_lt_cons _ _

theorem mem_places_of_at? {n m : Node} {a : List Nat} (h : n.at? a = some m) : a ∈ n.places :=
  mem_places_iff.2 ⟨m, h⟩

theorem placesAmong_eq (i : Nat) (ns : List Node) :
    placesAmong i ns = (ns.zipIdx i).flatMap fun c => c.1.places.map (c.2 :: ·) := by
  induction ns generalizing i with
  | nil => rfl
  | cons n ns ih => rw [placesAmong, ih, List.zipIdx_cons, List.flatMap_cons]

/-- What is found at the places of a tree is found at the root, or else below one
child after the other. -/
theorem filterMap_places {α : Type} (n : Node) (f : List Nat → Option α) :
    n.places.filterMap f =
      (f []).toList ++
        n.children.zipIdx.flatMap fun c => c.1.places.filterMap fun b => f (c.2 :: b) := by
  rw [places_eq, placesAmong_eq, List.filterMap_cons, List.filterMap_flatMap]
  have hbelow : (fun c : Node × Nat => (c.1.places.map (c.2 :: ·)).filterMap f) =
      fun c => c.1.places.filterMap fun b => f (c.2 :: b) := by
    funext c
    rw [List.filterMap_map]
    rfl
  rw [hbelow]
  cases f [] <;> rfl

theorem lt_of_above {a b : List Nat} (h : a <+: b) (hne : a ≠ b) : a < b := by
  induction a generalizing b with
  | nil =>
      cases b with
      | nil => exact absurd rfl hne
      | cons j b => exact List.nil_lt_cons j b
  | cons i a ih =>
      cases b with
      | nil => exact absurd (List.prefix_nil.1 h) hne
      | cons j b =>
          obtain ⟨rfl, hbelow⟩ := List.cons_prefix_cons.1 h
          exact List.cons_lt_cons_iff.2 (Or.inr ⟨rfl, ih hbelow fun heq => hne (heq ▸ rfl)⟩)

/-! ## Starts -/

/-- A place that comes before another one and is not above it ends before the
other one starts. -/
theorem stop_le_start_of_lt
    {source : List Char} {root n m : Node} (hroot : root.wellNested source = true)
    {a b : List Nat} (ha : root.at? a = some n) (hb : root.at? b = some m) (hlt : a < b)
    (hab : ¬a <+: b) :
    n.stop ≤ m.start := by
  induction a generalizing root b with
  | nil => exact absurd List.nil_prefix hab
  | cons i a ih =>
      cases b with
      | nil => exact absurd hlt (List.not_lt_nil _)
      | cons j b =>
          obtain ⟨c, hc, hn⟩ := at?_cons_eq_some_iff.1 ha
          obtain ⟨d, hd, hm⟩ := at?_cons_eq_some_iff.1 hb
          have hwell := wellNested_iff.1 hroot
          have hcwell := hwell.children_wellNested c (List.mem_of_getElem? hc)
          have hdwell := hwell.children_wellNested d (List.mem_of_getElem? hd)
          rcases List.cons_lt_cons_iff.1 hlt with hij | ⟨rfl, hbelow⟩
          · have hninside := (wellNested_at? hcwell hn).2
            have hminside := (wellNested_at? hdwell hm).2
            have := hwell.stop_le_start_of_lt hc hd hij
            omega
          · obtain rfl := Option.some.inj (hc.symm.trans hd)
            exact ih hcwell hn hm hbelow fun h => hab (List.cons_prefix_cons.2 ⟨rfl, h⟩)

/-- Nodes start in the order of their places. -/
theorem start_le_of_lt
    {source : List Char} {root n m : Node} (hroot : root.wellNested source = true)
    {a b : List Nat} (ha : root.at? a = some n) (hb : root.at? b = some m) (hlt : a < b) :
    n.start ≤ m.start := by
  by_cases hab : a <+: b
  · exact (inside_of_above hroot ha hb hab).1
  · have hapart := stop_le_start_of_lt hroot ha hb hlt hab
    have hordered := start_le_stop_of_at? hroot ha
    omega

end Caret.Node
