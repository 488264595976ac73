import Caret.Proofs.Text.Lines
import Caret.Proofs.Tree.Layers
import Caret.Tree.Source
import Mathlib.Data.List.TakeWhile

/-!
# The literal before a cursor

The search for the last byte in front of a cursor enters the nodes around that byte, one
in the other, down to the last one.  On the way back the nodes that end with the byte
come first, since no node reaches further than the one it lies in.  So the first
literal among them is the deepest one that ends there, however deep its last token
is, and a node that goes on behind the byte does not count.
-/

namespace Caret

namespace Node

/-! ## The search for one byte -/

theorem endsBefore_byte_iff {n : Node} {i : Nat} :
    n.endsBefore i (i + 1) = true ↔ n.stop ≤ i := by
  simp only [endsBefore, Bool.or_eq_true, Bool.and_eq_true, decide_eq_true_eq, beq_iff_eq,
    bne_iff_ne]
  omega

theorem spineBelow_of_takes
    {ns : List Node} (hns : ns.Pairwise fun c d => c.stop ≤ d.start) {c : Node} (hc : c ∈ ns)
    {i : Nat} (hci : c.takes i = true) :
    spineBelow i (i + 1) ns = c.spine i (i + 1) := by
  rw [takes_iff] at hci
  exact spineBelow_of_around hns hc hci.1 (Nat.lt_succ_of_le hci.1) hci.2 hci.2

theorem spineBelow_eq_nil
    {ns : List Node} {i : Nat} (hns : ∀ c ∈ ns, c.takes i = false) :
    spineBelow i (i + 1) ns = [] := by
  induction ns with
  | nil => rw [spineBelow]
  | cons d ns ih =>
      obtain ⟨hd, hns⟩ := List.forall_mem_cons.1 hns
      rw [spineBelow, ih hns]
      by_cases hends : d.endsBefore i (i + 1) = true
      · rw [if_pos hends]
      · have hbehind : i < d.start := by
          rw [endsBefore_byte_iff] at hends
          rw [Bool.eq_false_iff, Ne, takes_iff] at hd
          omega
        rw [if_neg hends, if_pos hbehind]

section

variable {source : List Char} {n c : Node} {i : Nat}

theorem enclosing_of_child
    (hn : n.wellNested source = true) (hc : c ∈ n.children) (hci : c.takes i = true) :
    n.enclosing i (i + 1) = c.enclosing i (i + 1) ++ [n] := by
  have hordered := (wellNested_iff.1 hn).children_ordered
  rw [enclosing, spine_eq, spineBelow_of_takes hordered hc hci, List.reverse_cons]
  rfl

theorem enclosing_of_no_child (hnone : ∀ c ∈ n.children, c.takes i = false) :
    n.enclosing i (i + 1) = [n] := by
  rw [enclosing, spine_eq, spineBelow_eq_nil hnone]
  rfl

/-- The nodes that the search enters from one around the byte are around it, too, and
reach no further. -/
theorem stop_of_mem_enclosing
    (hn : n.wellNested source = true) (hni : n.takes i = true) {m : Node}
    (hm : m ∈ n.enclosing i (i + 1)) :
    i < m.stop ∧ m.stop ≤ n.stop := by
  obtain ⟨a, ha, hentered⟩ := exists_at?_of_mem_spine (List.mem_reverse.1 hm)
  refine ⟨?_, (wellNested_at? hn ha).2.2⟩
  rcases hentered with rfl | ⟨hends, -⟩
  · obtain rfl := Option.some.inj ha
    exact (takes_iff.1 hni).2
  · rw [Bool.eq_false_iff, Ne, endsBefore_byte_iff] at hends
    omega

/-! ## The smallest literal that ends with the byte -/

/-- The type of the smallest literal among the nodes around a byte, as far as they end
with the byte. -/
def literalThrough (i : Nat) (n : Node) : Option String :=
  ((n.enclosing i (i + 1)).takeWhile (·.stop == i + 1)).findSome? fun m => literalType m.kind

/-- Whether a node is a literal of some width that ends at an offset. -/
def isLiteralUpTo (t : Nat) (n : Node) : Bool :=
  (literalType n.kind).isSome && decide (n.start < t) && n.stop == t

theorem takes_of_isLiteralUpTo (m : Node) (hm : m.isLiteralUpTo (i + 1) = true) :
    m.takes i = true := by
  simp only [isLiteralUpTo, Bool.and_eq_true, decide_eq_true_eq, beq_iff_eq] at hm
  rw [takes_iff]
  omega

/-- What a node adds itself when it is reached on the way back. -/
def ownLiteral (i : Nat) (n : Node) : Option String :=
  if n.stop = i + 1 then literalType n.kind else none

theorem literalThrough_of_no_child (hnone : ∀ c ∈ n.children, c.takes i = false) :
    n.literalThrough i = n.ownLiteral i := by
  rw [literalThrough, enclosing_of_no_child hnone, ownLiteral]
  by_cases hstop : n.stop = i + 1
  · simp [hstop]
  · simp [hstop]

/-- On the way back a node comes after the child around the byte. -/
theorem literalThrough_of_child
    (hn : n.wellNested source = true) (hc : c ∈ n.children) (hci : c.takes i = true) :
    n.literalThrough i = (c.literalThrough i).or (n.ownLiteral i) := by
  have hwell := wellNested_iff.1 hn
  have hcwell := hwell.children_wellNested c hc
  rw [literalThrough, literalThrough, enclosing_of_child hn hc hci, ownLiteral]
  by_cases hstop : n.stop = i + 1
  · have hall : ∀ m ∈ c.enclosing i (i + 1), (m.stop == i + 1) = true := by
      intro m hm
      have hinside := hwell.children_inside c hc
      have hm := stop_of_mem_enclosing hcwell hci hm
      rw [beq_iff_eq]
      omega
    rw [List.takeWhile_append_of_pos hall, List.takeWhile_eq_self_iff.2 hall,
      List.findSome?_append, if_pos hstop]
    simp [hstop]
  · have hlast : [n].takeWhile (·.stop == i + 1) = [] := by simp [hstop]
    rw [List.takeWhile_append, hlast, List.append_nil, if_neg hstop, Option.or_none]
    split
    · rename_i hlength
      rw [(List.takeWhile_prefix _).eq_of_length hlength]
    · rfl

theorem bind_own (hni : n.takes i = true ∨ literalType n.kind = none) :
    (n.own (isLiteralUpTo (i + 1))).bind (fun m => literalType m.kind) = n.ownLiteral i := by
  rw [own, ownLiteral]
  cases hkind : literalType n.kind with
  | none => simp [isLiteralUpTo, hkind]
  | some type =>
      have hstart : n.start < i + 1 := by
        have hni := hni.resolve_right (by simp [hkind])
        rw [takes_iff] at hni
        omega
      by_cases hstop : n.stop = i + 1
      · simp [isLiteralUpTo, hkind, hstart, hstop]
      · simp [isLiteralUpTo, hkind, hstop]

/-- The way back finds the deepest literal that ends with the byte.  A root that is no
literal need not take the byte. -/
theorem exists_deepestIs_literalThrough
    (hn : n.wellNested source = true) (hni : n.takes i = true ∨ literalType n.kind = none) :
    ∃ o, n.DeepestIs (isLiteralUpTo (i + 1)) o ∧
      n.literalThrough i = o.bind fun m => literalType m.kind := by
  induction n using induct with
  | step n ih =>
      by_cases hchild : ∃ c ∈ n.children, c.takes i = true
      · obtain ⟨c, hc, hci⟩ := hchild
        have hcwell := (wellNested_iff.1 hn).children_wellNested c hc
        obtain ⟨o, ho, heq⟩ := ih c hc hcwell (Or.inl hci)
        refine ⟨_, deepestIs_of_child hn takes_of_isLiteralUpTo hc hci ho, ?_⟩
        rw [literalThrough_of_child hn hc hci, heq, ← bind_own hni]
        cases o with
        | none => rfl
        | some m =>
            obtain ⟨d, hd⟩ := ho
            have hliteral := hd.holds
            simp only [isLiteralUpTo, Bool.and_eq_true] at hliteral
            rw [Option.some_or, Option.bind_some, Option.or_of_isSome hliteral.1.1]
      · have hnone : ∀ c ∈ n.children, c.takes i = false := by
          intro c hc
          by_contra hci
          exact hchild ⟨c, hc, eq_true_of_ne_false hci⟩
        refine ⟨_, deepestIs_of_no_child hn takes_of_isLiteralUpTo hnone, ?_⟩
        rw [literalThrough_of_no_child hnone, bind_own hni]

end

end Node

/-! ## The text before a cursor -/

theorem Text.trimEnd_append
    {kept blank : List Char} (hblank : ∀ c ∈ blank, isWhiteSpace c = true)
    (hkept : ∀ c ∈ kept.getLast?, isWhiteSpace c = false) :
    trimEnd (kept ++ blank) = kept := by
  have hstops : kept.reverse.dropWhile isWhiteSpace = kept.reverse := by
    rw [← List.head?_reverse] at hkept
    cases hreverse : kept.reverse with
    | nil => rfl
    | cons c rest =>
        rw [hreverse] at hkept
        exact List.dropWhile_cons_of_neg (by simp [hkept c rfl])
  rw [trimEnd, List.reverse_append,
    List.dropWhile_append_of_pos fun c hc => hblank c (List.mem_reverse.1 hc), hstops,
    List.reverse_reverse]

namespace Source

open Node

variable {s : Source}

theorem literalBefore_of_not_isBoundary {o : Nat} (ho : ¬Text.IsBoundary s.text o) :
    s.toBuffer.literalBefore o = none := by
  rw [← Text.splitAt?_isSome_iff, Option.not_isSome_iff_eq_none] at ho
  simp [toBuffer, Node.literalBefore, ho]

/-- At a valid offset the search goes for the last byte that is no white space. -/
theorem literalBefore_of_text_eq
    {before after : List Char} (htext : s.text = before ++ after) :
    s.toBuffer.literalBefore (Text.byteLength before) =
      match Text.byteLength (Text.trimEnd before) with
      | 0 => none
      | i + 1 => s.root.literalThrough i := by
  have hcut := (Text.splitAt?_eq_some_iff s.text (Text.byteLength before) before after).2
    ⟨htext, rfl⟩
  simp only [toBuffer, Node.literalBefore, hcut]
  cases Text.byteLength (Text.trimEnd before) with
  | zero => rfl
  | succ i => rfl

/-- An offset that is not valid, or behind nothing but white space, has no literal before
it.  Behind other text the one deepest literal of some width counts that ends where this
text ends, and there is none if no literal does. -/
theorem literalBefore_eq_deepest
    {text : List Char} (hs : s.root.wellNested text = true)
    (hroot : literalType s.root.kind = none) (o : Nat) :
    (¬Text.IsBoundary s.text o → s.toBuffer.literalBefore o = none) ∧
      ∀ before after, s.text = before ++ after → Text.byteLength before = o →
        ((∀ c ∈ before, Text.isWhiteSpace c = true) → s.toBuffer.literalBefore o = none) ∧
        ∀ kept blank c, before = kept ++ blank → (∀ c ∈ blank, Text.isWhiteSpace c = true) →
          kept.getLast? = some c → Text.isWhiteSpace c = false →
            (∃ d n, IsDeepest (isLiteralUpTo (Text.byteLength kept)) s.root d n ∧
                (∀ e m, IsDeepest (isLiteralUpTo (Text.byteLength kept)) s.root e m →
                  d = e ∧ n = m) ∧
                s.toBuffer.literalBefore o = literalType n.kind) ∨
              (∀ a n, s.root.at? a = some n → n.isLiteralUpTo (Text.byteLength kept) = false) ∧
                s.toBuffer.literalBefore o = none := by
  refine ⟨literalBefore_of_not_isBoundary, ?_⟩
  rintro before after htext rfl
  rw [literalBefore_of_text_eq htext]
  constructor
  · intro hblank
    have htrim : Text.trimEnd ([] ++ before) = [] := Text.trimEnd_append hblank (by simp)
    rw [List.nil_append] at htrim
    rw [htrim]
    rfl
  · rintro kept blank c rfl hblank hlast hc
    have htrim : Text.trimEnd (kept ++ blank) = kept := by
      apply Text.trimEnd_append hblank
      intro d hd
      obtain rfl := Option.some.inj (hlast.symm.trans hd)
      exact hc
    have hne : kept ≠ [] := by
      rintro rfl
      exact absurd hlast (by simp)
    obtain ⟨i, hi⟩ := Nat.exists_eq_succ_of_ne_zero (Nat.ne_of_gt (Text.byteLength_pos hne))
    rw [htrim, hi]
    obtain ⟨found, hfound, hliteral⟩ :=
      exists_deepestIs_literalThrough (i := i) hs (Or.inr hroot)
    dsimp only
    rw [hliteral]
    cases found with
    | none => exact Or.inr ⟨hfound, rfl⟩
    | some n =>
        obtain ⟨d, hd⟩ := hfound
        refine Or.inl ⟨d, n, hd, fun e m he => ?_, rfl⟩
        exact hd.unique_of_takes hs takes_of_isLiteralUpTo he

/-- A list with a literal in it, assigned and then left. -/
def assignedList : Source where
  text := "é = [nil]\n ".toList
  root :=
    ⟨"program", 0, 10, true, none,
      [⟨"assignment", 0, 10, true, none,
          [⟨"identifier", 0, 2, true, some "left", []⟩,
            ⟨"=", 3, 4, false, none, []⟩,
            ⟨"array", 5, 10, true, some "right",
              [⟨"[", 5, 6, false, none, []⟩,
                ⟨"nil", 6, 9, true, none, []⟩,
                ⟨"]", 9, 10, false, none, []⟩]⟩]⟩]⟩

/-- Behind the list and some white space the list counts, though its last token is no
literal, and the literal in it does not.  Inside a character there is nothing. -/
theorem literalBefore_assignedList :
    let s := assignedList
    s.root.wellNested s.text = true ∧ literalType s.root.kind = none ∧
      (∃ d n, IsDeepest (isLiteralUpTo 10) s.root d n ∧
        s.toBuffer.literalBefore 12 = literalType n.kind) ∧
      s.toBuffer.literalBefore 12 = some "Array" ∧
      ¬Text.IsBoundary s.text 1 ∧ s.toBuffer.literalBefore 1 = none := by
  intro s
  have hs : s.root.wellNested s.text = true := by decide
  have hroot : literalType s.root.kind = none := by decide
  have hinside : ¬Text.IsBoundary s.text 1 := fun h =>
    absurd ((Text.splitAt?_isSome_iff s.text 1).2 h) (by decide)
  have hlength : Text.byteLength s.text = 12 := by decide
  have hfound : s.toBuffer.literalBefore 12 = some "Array" := by decide +kernel
  have hblank : ∀ c ∈ "\n ".toList, Text.isWhiteSpace c = true :=
    Signature.forall_mem_of_all (by decide)
  obtain ⟨hinvalid, -⟩ := literalBefore_eq_deepest hs hroot 1
  obtain ⟨-, hvalid⟩ := literalBefore_eq_deepest hs hroot 12
  obtain ⟨-, hbehind⟩ := hvalid s.text [] (List.append_nil s.text).symm hlength
  refine ⟨hs, hroot, ?_, hfound, hinside, hinvalid hinside⟩
  rcases hbehind "é = [nil]".toList "\n ".toList ']' rfl hblank rfl (by decide) with
    hdeepest | ⟨-, hnone⟩
  · obtain ⟨d, n, hd, -, htype⟩ := hdeepest
    exact ⟨d, n, hd, htype⟩
  · rw [hfound] at hnone
    exact absurd hnone (Option.some_ne_none _)

end Source

end Caret
