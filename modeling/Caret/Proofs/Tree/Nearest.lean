import Caret.Proofs.Tree.Frames
import Caret.Tree.Source
import Mathlib.Data.List.Infix

/-!
# Scopes and definitions around a place

The frame at a place says where the nearest scope around it ends and which path
the nearest definition around it has.  From the other side, the construct around
a cursor is that of a definition which strictly surrounds the cursor and lies in
every other one that does.
-/

namespace Caret

namespace Node

variable {source : List Char}

/-! ## Nearest places -/

/-- The place `d` is the last one on the way to `a`, or `a` itself, at which the
node satisfies `p`. -/
structure IsNearest (p : Node → Bool) (root : Node) (a d : List Nat) : Prop where
  above : d <+: a
  holds : ∃ n, root.at? d = some n ∧ p n = true
  last : ∀ e n, e <+: a → root.at? e = some n → p n = true → e <+: d

/-- No node on the way to `a`, nor the one there, satisfies `p`. -/
def NoneAround (p : Node → Bool) (root : Node) (a : List Nat) : Prop :=
  ∀ e n, e <+: a → root.at? e = some n → p n = false

theorem at?_on_the_way
    {root c n : Node} {i : Nat} {a e : List Nat} (hc : root.children[i]? = some c)
    (he : e <+: i :: a) (hn : root.at? e = some n) :
    (e = [] ∧ n = root) ∨ ∃ e', e = i :: e' ∧ e' <+: a ∧ c.at? e' = some n := by
  cases e with
  | nil => exact Or.inl ⟨rfl, (Option.some.inj hn).symm⟩
  | cons j e' =>
      obtain ⟨rfl, hprefix⟩ := List.cons_prefix_cons.1 he
      obtain ⟨c', hc', hn⟩ := at?_cons_eq_some_iff.1 hn
      obtain rfl := Option.some.inj (hc.symm.trans hc')
      exact Or.inr ⟨e', rfl, hprefix, hn⟩

theorem IsNearest.cons
    {p : Node → Bool} {root c : Node} {i : Nat} {a d : List Nat}
    (hc : root.children[i]? = some c) (h : IsNearest p c a d) :
    IsNearest p root (i :: a) (i :: d) where
  above := List.cons_prefix_cons.2 ⟨rfl, h.above⟩
  holds := by
    obtain ⟨n, hn, hp⟩ := h.holds
    exact ⟨n, at?_cons_eq_some_iff.2 ⟨c, hc, hn⟩, hp⟩
  last e n he hn hp := by
    rcases at?_on_the_way hc he hn with ⟨rfl, -⟩ | ⟨e', rfl, he', hn⟩
    · exact List.nil_prefix
    · exact List.cons_prefix_cons.2 ⟨rfl, h.last e' n he' hn hp⟩

theorem IsNearest.nil
    {p : Node → Bool} {root c : Node} {i : Nat} {a : List Nat} (hroot : p root = true)
    (hc : root.children[i]? = some c) (h : NoneAround p c a) :
    IsNearest p root (i :: a) [] where
  above := List.nil_prefix
  holds := ⟨root, rfl, hroot⟩
  last e n he hn hp := by
    rcases at?_on_the_way hc he hn with ⟨rfl, -⟩ | ⟨e', rfl, he', hn⟩
    · exact List.nil_prefix
    · exact absurd hp (by simp [h e' n he' hn])

theorem NoneAround.cons
    {p : Node → Bool} {root c : Node} {i : Nat} {a : List Nat} (hroot : p root = false)
    (hc : root.children[i]? = some c) (h : NoneAround p c a) :
    NoneAround p root (i :: a) := by
  intro e n he hn
  rcases at?_on_the_way hc he hn with ⟨-, rfl⟩ | ⟨e', -, he', hn⟩
  · exact hroot
  · exact h e' n he' hn

/-- What only nodes with `p` change in a frame is settled by the nearest of
them, or else by the frame at the root. -/
theorem exists_nearest_or_none
    {α : Type} {p : Node → Bool} (view : Frame → α)
    (hview : ∀ frame n, p n = false → view (n.innerFrame source frame) = view frame)
    {frame f : Frame} {root m : Node} {a : List Nat}
    (h : root.visit? source frame a = some (f, m)) :
    (∃ d g n, IsNearest p root a d ∧ root.visit? source frame d = some (g, n) ∧
        view (m.innerFrame source f) = view (n.innerFrame source g)) ∨
      NoneAround p root a ∧ view (m.innerFrame source f) = view frame := by
  induction a generalizing root frame with
  | nil =>
      obtain ⟨rfl, rfl⟩ := Prod.mk.inj (Option.some.inj h)
      cases hroot : p root with
      | true =>
          refine Or.inl ⟨[], frame, root, ⟨List.nil_prefix, ⟨root, rfl, hroot⟩, ?_⟩, rfl, rfl⟩
          exact fun e _ he _ _ => he
      | false =>
          refine Or.inr ⟨fun e n he hn => ?_, hview frame root hroot⟩
          obtain rfl := List.prefix_nil.1 he
          obtain rfl := Option.some.inj hn
          exact hroot
  | cons i a ih =>
      obtain ⟨c, hc, h⟩ := visit?_cons_eq_some_iff.1 h
      rcases ih h with ⟨d, g, n, hnearest, hvisit, heq⟩ | ⟨hnone, heq⟩
      · exact Or.inl ⟨i :: d, g, n, hnearest.cons hc,
          visit?_cons_eq_some_iff.2 ⟨c, hc, hvisit⟩, heq⟩
      cases hroot : p root with
      | true => exact Or.inl ⟨[], frame, root, .nil hroot hc hnone, rfl, heq⟩
      | false => exact Or.inr ⟨hnone.cons hroot hc, heq.trans (hview frame root hroot)⟩

theorem IsNearest.unique
    {p : Node → Bool} {root : Node} {a d e : List Nat} (hd : IsNearest p root a d)
    (he : IsNearest p root a e) :
    d = e := by
  obtain ⟨n, hn, hpn⟩ := hd.holds
  obtain ⟨m, hm, hpm⟩ := he.holds
  have hle := he.last d n hd.above hn hpn
  have hge := hd.last e m he.above hm hpm
  exact hle.eq_of_length (Nat.le_antisymm hle.length_le hge.length_le)

theorem isNearest_iff {p : Node → Bool} {root : Node} {a d : List Nat} :
    IsNearest p root a d ↔
      d <+: a ∧ (root.at? d).any p = true ∧
        ∀ e ∈ a.inits, (root.at? e).any p = true → e <+: d := by
  simp only [Option.any_eq_true, List.mem_inits]
  constructor
  · rintro ⟨habove, hholds, hlast⟩
    exact ⟨habove, hholds, fun e he ⟨n, hn, hp⟩ => hlast e n he hn hp⟩
  · rintro ⟨habove, hholds, hlast⟩
    exact ⟨habove, hholds, fun e n he hn hp => hlast e he ⟨n, hn, hp⟩⟩

instance (p : Node → Bool) (root : Node) (a d : List Nat) : Decidable (IsNearest p root a d) :=
  decidable_of_iff _ isNearest_iff.symm

theorem scopeEnd_of_opensNoScope (frame : Frame) (n : Node) (hn : n.opensScope = false) :
    (n.innerFrame source frame).scopeEnd = frame.scopeEnd := by
  rw [scopeEnd_innerFrame, hn]
  rfl

/-- The scope nearest to a place ends where its local variables stop being
visible. -/
theorem IsNearest.scopeEnd_eq
    {frame f : Frame} {root m n : Node} {a d : List Nat} (hd : IsNearest opensScope root a d)
    (hn : root.at? d = some n) (h : root.visit? source frame a = some (f, m)) :
    (m.innerFrame source f).scopeEnd = n.stop := by
  obtain ⟨n', hn', hscope⟩ := hd.holds
  obtain rfl := Option.some.inj (hn.symm.trans hn')
  rcases exists_nearest_or_none Frame.scopeEnd scopeEnd_of_opensNoScope h with
    ⟨e, g, k, he, hvisit, heq⟩ | ⟨hnone, -⟩
  · obtain rfl := hd.unique he
    obtain rfl := Option.some.inj (hn.symm.trans (at?_of_visit? hvisit))
    rw [heq, scopeEnd_innerFrame, if_pos hscope]
  · exact absurd hscope (by simp [hnone d n hd.above hn])

end Node

/-! ## The construct around a cursor -/

namespace Construct

theorem shorter_spec (a b : Span × Construct) :
    (shorter a b = a ∨ shorter a b = b) ∧ (shorter a b).1.length ≤ a.1.length ∧
      (shorter a b).1.length ≤ b.1.length := by
  unfold shorter
  split
  · exact ⟨Or.inr rfl, by omega, Nat.le_refl _⟩
  · exact ⟨Or.inl rfl, Nat.le_refl _, by omega⟩

theorem foldl_shorter_spec (a : Span × Construct) (cs : List (Span × Construct)) :
    cs.foldl shorter a ∈ a :: cs ∧ ∀ c ∈ a :: cs, (cs.foldl shorter a).1.length ≤ c.1.length := by
  induction cs generalizing a with
  | nil => simp
  | cons b cs ih =>
      obtain ⟨hmem, hshortest⟩ := ih (shorter a b)
      obtain ⟨hchoice, hleft, hright⟩ := shorter_spec a b
      have hhead := hshortest _ List.mem_cons_self
      rw [List.foldl_cons]
      refine ⟨?_, ?_⟩
      · rcases List.mem_cons.1 hmem with hmem | hmem
        · rw [hmem]
          rcases hchoice with h | h <;> simp [h]
        · simp [hmem]
      · intro c hc
        rcases List.mem_cons.1 hc with rfl | hc
        · omega
        rcases List.mem_cons.1 hc with rfl | hc
        · omega
        · exact hshortest c (List.mem_cons_of_mem _ hc)

/-- The construct around a cursor is the root, when no span surrounds the
cursor, or else comes with a span that does and is no longer than any other. -/
theorem innermost_cases (constructs : List (Span × Construct)) (o : Nat) :
    (innermost constructs o = root ∧ ∀ c ∈ constructs, c.1.surrounds o = false) ∨
      ∃ c ∈ constructs, innermost constructs o = c.2 ∧ c.1.surrounds o = true ∧
        ∀ d ∈ constructs, d.1.surrounds o = true → c.1.length ≤ d.1.length := by
  unfold innermost
  split
  · rename_i hnil
    have hnone := List.filter_eq_nil_iff.1 hnil
    exact Or.inl ⟨rfl, fun c hc => by simpa using hnone c hc⟩
  · rename_i a cs hcons
    obtain ⟨hmem, hshortest⟩ := foldl_shorter_spec a cs
    rw [← hcons] at hmem hshortest
    obtain ⟨hmem, hsurrounds⟩ := List.mem_filter.1 hmem
    exact Or.inr ⟨_, hmem, rfl, hsurrounds,
      fun d hd hd' => hshortest d (List.mem_filter.2 ⟨hd, hd'⟩)⟩

end Construct

end Caret
