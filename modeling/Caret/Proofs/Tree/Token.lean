import Caret.Proofs.Tree.Layers
import Caret.Tree.Source
import Mathlib.Data.List.InsertIdx

/-!
# The token at an offset

The search for the token at an offset goes by a range without width.  It can end in a
node without width that stands in front of the token, in the node around a gap between
two tokens, or at the root.  A token that starts before the offset and ends behind it is
found nonetheless, and one that starts at the offset need not be: the answer is the
offset either way.
-/

namespace Caret

namespace Node

/-! ## Childless nodes around an offset -/

theorem eq_nil_of_childless
    {n m : Node} {b : List Nat} (hn : n.children = []) (h : n.at? b = some m) :
    b = [] := by
  cases b with
  | nil => rfl
  | cons i b =>
      obtain ⟨c, hc, -⟩ := at?_cons_eq_some_iff.1 h
      rw [hn] at hc
      exact absurd hc (Option.some_ne_none c).symm

theorem eq_of_childless_above
    {root n m : Node} {a b : List Nat} (ha : root.at? a = some n) (hb : root.at? b = some m)
    (hn : n.children = []) (habove : a <+: b) :
    a = b := by
  obtain ⟨c, rfl⟩ := habove
  rw [at?_append, ha, Option.bind_some] at hb
  rw [eq_nil_of_childless hn hb, List.append_nil]

theorem eq_of_childless_of_takes
    {source : List Char} {root n m : Node} (hroot : root.wellNested source = true)
    {a b : List Nat} (ha : root.at? a = some n) (hb : root.at? b = some m)
    (hn : n.children = []) (hm : m.children = []) {o : Nat} (hno : n.takes o = true)
    (hmo : m.takes o = true) :
    a = b := by
  rcases above_or_above_of_takes hroot ha hb hno hmo with habove | habove
  · exact eq_of_childless_above ha hb hn habove
  · exact (eq_of_childless_above hb ha hm habove).symm

/-! ## The way down to a token -/

theorem descendant_of_childless {n : Node} (hn : n.children = []) (lo hi : Nat) :
    n.descendant lo hi = n := by
  rw [descendant, enclosing, spine_eq, hn, spineBelow]
  rfl

/-- A search that enters a child ends where a search from the child does. -/
theorem descendant_of_spineBelow
    {n c : Node} {lo hi : Nat} (h : spineBelow lo hi n.children = c.spine lo hi) :
    n.descendant lo hi = c.descendant lo hi := by
  rw [descendant, enclosing, spine_eq, h, descendant, enclosing, List.reverse_cons]
  cases hspine : (c.spine lo hi).reverse with
  | nil => simp [spine_eq] at hspine
  | cons m ms => rfl

/-- A search reaches the childless node around its range. -/
theorem descendant_of_around
    {source : List Char} {root x : Node} (hroot : root.wellNested source = true) {a : List Nat}
    (hx : root.at? a = some x) (hleaf : x.children = []) {lo hi : Nat} (hstart : x.start ≤ lo)
    (hbefore : x.start < hi) (hbehind : lo < x.stop) (hstop : hi ≤ x.stop) :
    root.descendant lo hi = x := by
  induction a generalizing root with
  | nil =>
      obtain rfl := Option.some.inj hx
      exact descendant_of_childless hleaf lo hi
  | cons i a ih =>
      obtain ⟨c, hc, hx⟩ := at?_cons_eq_some_iff.1 hx
      have hwell := wellNested_iff.1 hroot
      have hmem := List.mem_of_getElem? hc
      have hcwell := hwell.children_wellNested c hmem
      have hinside := (wellNested_at? hcwell hx).2
      have hdown : spineBelow lo hi root.children = c.spine lo hi :=
        spineBelow_of_around hwell.children_ordered hmem (by omega) (by omega) (by omega) (by omega)
      rw [descendant_of_spineBelow hdown]
      exact ih hcwell hx

/-! ## The answer -/

/-- The token at an offset starts where a childless node around the offset does, or at the
offset. -/
theorem tokenStart_cases {root : Node} (hroot : root.children ≠ []) (o : Nat) :
    (∃ a x, root.at? a = some x ∧ x.children = [] ∧ x.takes o = true ∧
        root.tokenStart o = x.start) ∨
      root.tokenStart o = o := by
  obtain ⟨a, ha, hentered⟩ := root.exists_at?_descendant o o
  unfold tokenStart
  dsimp only
  generalize root.descendant o o = m at ha hentered
  split_ifs with hm
  · simp only [Bool.and_eq_true, List.isEmpty_iff, decide_eq_true_eq] at hm
    obtain ⟨hleaf, hstart⟩ := hm
    rcases hentered with rfl | ⟨hends, -⟩
    · obtain rfl := Option.some.inj ha
      exact absurd hleaf hroot
    · simp only [endsBefore, Bool.or_eq_false_iff, Bool.and_eq_false_iff, decide_eq_false_iff_not,
        beq_eq_false_iff_ne, bne_eq_false_iff_eq] at hends
      by_cases hwidth : o < m.stop
      · exact Or.inl ⟨a, m, ha, hleaf, takes_iff.2 ⟨hstart, hwidth⟩, rfl⟩
      · exact Or.inr (by omega)
  · exact Or.inr rfl

theorem tokenStart_of_takes
    {source : List Char} {root x : Node} (hroot : root.wellNested source = true)
    (hchild : root.children ≠ []) {a : List Nat} (hx : root.at? a = some x)
    (hleaf : x.children = []) {o : Nat} (hxo : x.takes o = true) :
    root.tokenStart o = x.start := by
  obtain ⟨hstart, hstop⟩ := takes_iff.1 hxo
  rcases Nat.eq_or_lt_of_le hstart with heq | hlt
  · rcases tokenStart_cases hchild o with ⟨b, y, hy, hyleaf, hyo, htoken⟩ | htoken
    · obtain rfl := eq_of_childless_of_takes hroot hx hy hleaf hyleaf hxo hyo
      obtain rfl := Option.some.inj (hx.symm.trans hy)
      exact htoken
    · rw [htoken, heq]
  · have hfound := descendant_of_around hroot hx hleaf hstart hlt hstop (Nat.le_of_lt hstop)
    unfold tokenStart
    simp [hfound, hleaf, hstart]

/-! ## Trees with the same tokens -/

/-- A childless node around the offset `o` starts at `k`. -/
def HasToken (root : Node) (o k : Nat) : Prop :=
  ∃ a x, root.at? a = some x ∧ x.children = [] ∧ x.takes o = true ∧ x.start = k

/-- The token around an offset is a childless node itself or lies in one of the children. -/
theorem hasToken_iff {n : Node} {o k : Nat} :
    n.HasToken o k ↔
      (n.children = [] ∧ n.takes o = true ∧ n.start = k) ∨ ∃ c ∈ n.children, c.HasToken o k := by
  constructor
  · rintro ⟨a, x, hx, hleaf, hxo, hstart⟩
    cases a with
    | nil =>
        obtain rfl := Option.some.inj hx
        exact Or.inl ⟨hleaf, hxo, hstart⟩
    | cons i a =>
        obtain ⟨c, hc, hx⟩ := at?_cons_eq_some_iff.1 hx
        exact Or.inr ⟨c, List.mem_of_getElem? hc, a, x, hx, hleaf, hxo, hstart⟩
  · rintro (⟨hleaf, hno, hstart⟩ | ⟨c, hc, a, x, hx, hrest⟩)
    · exact ⟨[], n, rfl, hleaf, hno, hstart⟩
    · obtain ⟨i, hi⟩ := List.getElem?_of_mem hc
      exact ⟨i :: a, x, at?_cons_eq_some_iff.2 ⟨c, hi, hx⟩, hrest⟩

theorem not_hasToken_of_empty
    {source : List Char} {e : Node} (he : e.wellNested source = true) (hempty : e.start = e.stop)
    (o k : Nat) :
    ¬e.HasToken o k := by
  rintro ⟨a, x, hx, -, hxo, -⟩
  have heo := takes_iff.1 (takes_of_at? he hx hxo)
  omega

theorem tokenStart_of_hasToken
    {source : List Char} {root : Node} (hroot : root.wellNested source = true)
    (hchild : root.children ≠ []) {o k : Nat} (h : root.HasToken o k) :
    root.tokenStart o = k := by
  obtain ⟨a, x, hx, hleaf, hxo, rfl⟩ := h
  exact tokenStart_of_takes hroot hchild hx hleaf hxo

theorem tokenStart_of_no_token
    {root : Node} (hchild : root.children ≠ []) {o : Nat} (h : ∀ k, ¬root.HasToken o k) :
    root.tokenStart o = o := by
  rcases tokenStart_cases hchild o with ⟨a, x, hx, hleaf, hxo, -⟩ | htoken
  · exact absurd ⟨a, x, hx, hleaf, hxo, rfl⟩ (h x.start)
  · exact htoken

/-- Only the childless nodes around an offset count. -/
theorem tokenStart_congr
    {source source' : List Char} {root root' : Node} (hroot : root.wellNested source = true)
    (hroot' : root'.wellNested source' = true) (hchild : root.children ≠ [])
    (hchild' : root'.children ≠ []) {o : Nat}
    (hsame : ∀ k, root.HasToken o k ↔ root'.HasToken o k) :
    root.tokenStart o = root'.tokenStart o := by
  by_cases htoken : ∃ k, root.HasToken o k
  · obtain ⟨k, hk⟩ := htoken
    rw [tokenStart_of_hasToken hroot hchild hk,
      tokenStart_of_hasToken hroot' hchild' ((hsame k).1 hk)]
  · rw [not_exists] at htoken
    rw [tokenStart_of_no_token hchild htoken,
      tokenStart_of_no_token hchild' fun k hk => htoken k ((hsame k).2 hk)]

/-! ## One more node without width -/

/-- The tree in which the node at a place has one more child, `e`, with the number `i`. -/
def insertAt (root : Node) (a : List Nat) (i : Nat) (e : Node) : Node :=
  match a with
  | [] => { root with children := root.children.insertIdx i e }
  | j :: a => { root with children := root.children.modify j fun c => c.insertAt a i e }

theorem exists_mem_insertIdx_iff
    {α : Type} {p : α → Prop} {l : List α} {e : α} (he : ¬p e) (i : Nat) :
    (∃ c ∈ l.insertIdx i e, p c) ↔ ∃ c ∈ l, p c := by
  constructor
  · rintro ⟨c, hc, hp⟩
    rcases List.eq_or_mem_of_mem_insertIdx hc with rfl | hc
    · exact absurd hp he
    · exact ⟨c, hc, hp⟩
  · rintro ⟨c, hc, hp⟩
    exact ⟨c, List.subset_insertIdx l i e hc, hp⟩

theorem exists_mem_modify_iff
    {α : Type} {p : α → Prop} {f : α → α} {l : List α} {j : Nat}
    (hf : ∀ c ∈ l[j]?, p (f c) ↔ p c) :
    (∃ c ∈ l.modify j f, p c) ↔ ∃ c ∈ l, p c := by
  induction l generalizing j with
  | nil => simp
  | cons d l ih =>
      cases j with
      | zero => simp [hf d rfl]
      | succ j => simp [ih fun c hc => hf c (by simpa using hc)]

/-- A node that has children keeps them. -/
theorem children_insertAt_ne_nil
    {root : Node} (hchild : root.children ≠ []) (a : List Nat) (i : Nat) (e : Node) :
    (root.insertAt a i e).children ≠ [] := by
  cases a with
  | nil =>
      intro hnil
      have hsubset : root.children ⊆ (root.insertAt [] i e).children :=
        List.subset_insertIdx root.children i e
      rw [hnil] at hsubset
      exact hchild (List.subset_nil.1 hsubset)
  | cons j a => simpa [insertAt] using hchild

/-- A node without tokens adds none to a tree, and takes none away unless it is put into
one. -/
theorem hasToken_insertAt_iff
    {n m e : Node} {a : List Nat} (hm : n.at? a = some m) {o k : Nat}
    (hfree : m.children = [] → m.takes o = false) (he : ¬e.HasToken o k) (i : Nat) :
    (n.insertAt a i e).HasToken o k ↔ n.HasToken o k := by
  induction a generalizing n with
  | nil =>
      obtain rfl := Option.some.inj hm
      have hown : n.children = [] → ¬(n.takes o = true ∧ n.start = k) := by
        intro hleaf htakes
        exact absurd htakes.1 (by simp [hfree hleaf])
      have hinserted : (n.insertAt [] i e).children = [] → n.children = [] := by
        intro hnil
        by_contra hchild
        exact children_insertAt_ne_nil hchild [] i e hnil
      rw [hasToken_iff, hasToken_iff, or_iff_right fun h => hown (hinserted h.1) h.2,
        or_iff_right fun h => hown h.1 h.2]
      exact exists_mem_insertIdx_iff (p := fun c : Node => c.HasToken o k) he i
  | cons j a ih =>
      obtain ⟨c, hc, hm⟩ := at?_cons_eq_some_iff.1 hm
      have hchild : n.children ≠ [] := List.ne_nil_of_mem (List.mem_of_getElem? hc)
      rw [hasToken_iff, hasToken_iff,
        or_iff_right fun h => children_insertAt_ne_nil hchild (j :: a) i e h.1,
        or_iff_right fun h => hchild h.1]
      apply exists_mem_modify_iff
      intro d hd
      obtain rfl := Option.some.inj (hc.symm.trans hd)
      exact ih hm

end Node

namespace Source

open Node

/-- The token at an offset is the only childless node around the offset, if there is one,
and begins at the offset otherwise.  So it begins no later than the offset, and nowhere
that a node with children begins unless a token does.  One more node without width makes no
difference wherever it stands, a token apart, which it would make a node with a child. -/
theorem tokenStart_eq_leaf
    {s : Source} {text : List Char} (hs : s.root.wellNested text = true)
    (hroot : s.root.children ≠ []) (o : Nat) :
    (∀ a x, s.root.at? a = some x → x.children = [] → x.takes o = true →
        s.toBuffer.tokenStart o = x.start ∧
          ∀ b y, s.root.at? b = some y → y.children = [] → y.takes o = true → a = b) ∧
      ((∀ a x, s.root.at? a = some x → x.children = [] → x.takes o = false) →
        s.toBuffer.tokenStart o = o) ∧
      s.toBuffer.tokenStart o ≤ o ∧
      (s.toBuffer.tokenStart o ≠ o → s.root.HasToken o (s.toBuffer.tokenStart o)) ∧
      ∀ a m i e, s.root.at? a = some m → (m.children = [] → m.start = m.stop) →
        e.wellNested text = true → e.start = e.stop →
          (s.root.insertAt a i e).wellNested text = true →
            (Source.mk s.text (s.root.insertAt a i e)).toBuffer.tokenStart o =
              s.toBuffer.tokenStart o := by
  refine ⟨fun a x hx hleaf hxo => ⟨?_, fun b y hy hyleaf hyo => ?_⟩, fun hnone => ?_, ?_,
    fun htoken => ?_, fun a m i e hm hfree he hempty hinserted => ?_⟩
  · exact tokenStart_of_takes hs hroot hx hleaf hxo
  · exact eq_of_childless_of_takes hs hx hy hleaf hyleaf hxo hyo
  · apply tokenStart_of_no_token hroot
    rintro k ⟨a, x, hx, hleaf, hxo, -⟩
    exact absurd hxo (by simp [hnone a x hx hleaf])
  · exact s.root.tokenStart_le o
  · rcases tokenStart_cases hroot o with ⟨a, x, hx, hleaf, hxo, hstart⟩ | hoffset
    · exact ⟨a, x, hx, hleaf, hxo, hstart.symm⟩
    · exact absurd hoffset htoken
  · apply tokenStart_congr hinserted hs (children_insertAt_ne_nil hroot a i e) hroot
    intro k
    apply hasToken_insertAt_iff hm _ (not_hasToken_of_empty he hempty o k)
    intro hleaf
    rw [Bool.eq_false_iff, Ne, takes_iff]
    have hwidth := hfree hleaf
    omega

/-- A call whose bracket is not closed, above a name. -/
def callAboveName : Source where
  text := "foo(é\n  z".toList
  root :=
    ⟨"program", 0, 10, true, none,
      [⟨"call", 0, 6, true, none,
          [⟨"identifier", 0, 3, true, some "method", []⟩,
            ⟨"argument_list", 3, 6, true, some "arguments",
              [⟨"(", 3, 4, false, none, []⟩,
                ⟨"identifier", 4, 6, true, none, []⟩,
                ⟨")", 6, 6, false, none, []⟩]⟩]⟩,
        ⟨"identifier", 9, 10, true, none, []⟩]⟩

/-- Inside a name of two bytes, between the lines, behind the text, and at a name with one
more missing node in front of it. -/
theorem tokenStart_callAboveName :
    let s := callAboveName
    let missing : Node := ⟨"identifier", 9, 9, true, none, []⟩
    s.root.wellNested s.text = true ∧ s.root.children ≠ [] ∧
      s.toBuffer.tokenStart 5 = 4 ∧ s.toBuffer.tokenStart 7 = 7 ∧
      s.toBuffer.tokenStart 42 = 42 ∧
      (s.root.insertAt [] 1 missing).wellNested s.text = true ∧
      ∀ o, (Source.mk s.text (s.root.insertAt [] 1 missing)).toBuffer.tokenStart o =
        s.toBuffer.tokenStart o := by
  intro s missing
  have hs : s.root.wellNested s.text = true := by decide
  have hroot : s.root.children ≠ [] := List.cons_ne_nil _ _
  have hinserted : (s.root.insertAt [] 1 missing).wellNested s.text = true := by decide
  have hname : s.root.at? [0, 1, 1] = some ⟨"identifier", 4, 6, true, none, []⟩ := rfl
  obtain ⟨hinside, -⟩ := tokenStart_eq_leaf hs hroot 5
  obtain ⟨-, hgap, -⟩ := tokenStart_eq_leaf hs hroot 7
  obtain ⟨-, hbeyond, -⟩ := tokenStart_eq_leaf hs hroot 42
  have hbetween : ∀ o ∈ [7, 42], ∀ a x, s.root.at? a = some x → x.children = [] →
      x.takes o = false := by
    intro o ho a x hx hleaf
    have hall : ∀ o ∈ [7, 42], ∀ a ∈ s.root.places,
        (s.root.at? a).all fun x => !x.children.isEmpty || !x.takes o := by
      decide
    have hfree := hall o ho a (mem_places_iff.2 ⟨x, hx⟩)
    simpa [hx, hleaf] using hfree
  refine ⟨hs, hroot, (hinside _ _ hname rfl rfl).1, hgap (hbetween 7 (by decide)),
    hbeyond (hbetween 42 (by decide)), hinserted, fun o => ?_⟩
  · obtain ⟨-, -, -, -, hsame⟩ := tokenStart_eq_leaf hs hroot o
    exact hsame [] s.root 1 missing rfl (fun h => absurd h hroot) (by decide) rfl hinserted

end Source

end Caret
