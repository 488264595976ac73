import Caret.Proofs.Signature.Code

/-!
# Crossing well-nested text

A text is well nested when its brackets of the three kinds pair up.  Inside a
bracket group the walk crosses such a text from its end to its beginning and
comes out in the nesting it went in with.  What it may pick up on the way is
one `.[]` for each square group that stands in no other square group.
-/

namespace Caret.Signature

inductive Bracket where
  | round
  | square
  | curly
deriving DecidableEq, Repr

namespace Bracket

def opener : Bracket → Char
  | round => '('
  | square => '['
  | curly => '\x7b'

def closer : Bracket → Char
  | round => ')'
  | square => ']'
  | curly => '\x7d'

/-- The characters that are brackets of some kind. -/
def all : List Char :=
  ['(', ')', '[', ']', '\x7b', '\x7d']

theorem toNat_opener_lt (k : Bracket) : k.opener.toNat < 128 := by
  cases k <;> decide

theorem toNat_closer_lt (k : Bracket) : k.closer.toNat < 128 := by
  cases k <;> decide

theorem opener_mem_all (k : Bracket) : k.opener ∈ all := by
  cases k <;> decide

theorem closer_mem_all (k : Bracket) : k.closer ∈ all := by
  cases k <;> decide

end Bracket

/-- Texts in which the brackets of the three kinds pair up. -/
inductive Nested : List Char → Prop
  | nil : Nested []
  | plain {c : Char} {w : List Char} : c ∉ Bracket.all → Nested w → Nested (c :: w)
  | group {v w : List Char} (k : Bracket) :
      Nested v → Nested w → Nested (k.opener :: (v ++ k.closer :: w))

theorem Nested.append_plain
    {v w : List Char} (hw : Nested w) (hv : ∀ c ∈ v, c ∉ Bracket.all) :
    Nested (v ++ w) := by
  induction v with
  | nil => exact hw
  | cons c v ih =>
      exact .plain (hv c List.mem_cons_self) (ih fun d hd => hv d (List.mem_cons_of_mem c hd))

theorem toNat_lt_of_mem_all {c : Char} (hc : c ∈ Bracket.all) : c.toNat < 128 :=
  forall_mem_of_all (p := fun c => c.toNat < 128) (by decide) c hc

/-- The bytes of a well-nested text are well nested, since brackets are single
bytes and no byte of another character looks like one. -/
theorem Nested.bytes {w : List Char} (hw : Nested w) : Nested (bytes w) := by
  induction hw with
  | nil => exact .nil
  | @plain c w hc hw ih =>
      rw [bytes_cons]
      refine ih.append_plain ?_
      intro x hx hbracket
      by_cases hascii : c.toNat < 128
      · rw [bytes_singleton_of_ascii hascii, List.mem_singleton] at hx
        exact hc (hx ▸ hbracket)
      · have := ascii_le_of_mem_bytes_singleton (by omega) hx
        have := toNat_lt_of_mem_all hbracket
        omega
  | @group v w k hv hw ihv ihw =>
      rw [bytes_cons_of_ascii k.toNat_opener_lt, bytes_append,
        bytes_cons_of_ascii k.toNat_closer_lt]
      exact .group k ihv ihw

/-! ## Nestings inside of brackets -/

/-- No counter is positive and some counter is negative: the walk has crossed
closers and looks for their openers. -/
structure Nesting.Inside (n : Nesting) : Prop where
  round : n.round ≤ 0
  square : n.square ≤ 0
  curly : n.curly ≤ 0
  some_neg : n.round < 0 ∨ n.square < 0 ∨ n.curly < 0

namespace Nesting

variable {n : Nesting}

theorem Inside.balanced_eq_false (h : n.Inside) : n.balanced = false := by
  have := h.some_neg
  simp only [balanced, Bool.and_eq_false_iff, beq_eq_false_iff_ne]
  omega

theorem Inside.unclosed_eq_false (h : n.Inside) : n.unclosed = false := by
  have := h.round
  have := h.square
  have := h.curly
  simp only [unclosed, Bool.or_eq_false_iff, decide_eq_false_iff_not]
  omega

/-- A closer leads inside, unless an opener was crossed before it. -/
theorem inside_cross_closer (h : n.unclosed = false) (k : Bracket) :
    (n.cross k.closer).Inside := by
  simp only [unclosed, Bool.or_eq_false_iff, decide_eq_false_iff_not] at h
  cases k <;> constructor <;> simp only [Bracket.closer, cross] <;> omega

theorem cross_opener_cross_closer (n : Nesting) (k : Bracket) :
    (n.cross k.closer).cross k.opener = n := by
  cases k <;> simp [Bracket.closer, Bracket.opener, cross]

theorem cross_of_not_bracket {c : Char} (hc : c ∉ Bracket.all) (n : Nesting) :
    n.cross c = n := by
  simp only [Bracket.all, List.mem_cons, List.not_mem_nil, or_false, not_or] at hc
  unfold cross
  split <;> simp_all

end Nesting

/-! ## What is picked up on the way -/

/-- The number of square closers crossed less square openers crossed, after one
more character on the way to the left. -/
def squareDepth (depth : Nat) (c : Char) : Nat :=
  if c = ']' then depth + 1 else if c = '[' then depth - 1 else depth

/-- The number of square groups in a text, given nearest character first, that
end a square depth of one and open no percent literal.  Behind the text stand
the bytes `left`. -/
def indexCount (depth : Nat) (left : List Cell) : List Char → Nat
  | [] => 0
  | c :: near =>
    let here := c = '[' ∧ depth = 1 ∧ opensPercentLiteral (near.map code ++ left) = false
    (if here then 1 else 0) + indexCount (squareDepth depth c) left near

/-- The chain picked up at so many square groups. -/
def indexMarks (n : Nat) : List Char :=
  (List.replicate n ['.', '[', ']']).flatten

theorem indexMarks_add (m n : Nat) : indexMarks (m + n) = indexMarks m ++ indexMarks n := by
  rw [indexMarks, List.replicate_add, List.flatten_append]
  rfl

theorem length_indexMarks (n : Nat) : (indexMarks n).length = 3 * n := by
  simp [indexMarks, Nat.mul_comm]

theorem indexMarks_inj {m n : Nat} : indexMarks m = indexMarks n ↔ m = n := by
  refine ⟨fun h => ?_, fun h => h ▸ rfl⟩
  have hlength := congrArg List.length h
  rw [length_indexMarks, length_indexMarks] at hlength
  omega

theorem indexCount_append (depth : Nat) (left : List Cell) (u v : List Char) :
    indexCount depth left (u ++ v) =
      indexCount depth (v.map code ++ left) u + indexCount (u.foldl squareDepth depth) left v := by
  induction u generalizing depth with
  | nil => simp [indexCount]
  | cons c u ih =>
      simp only [List.cons_append, indexCount, List.map_append, List.append_assoc, ih,
        List.foldl_cons]
      omega

theorem squareDepth_closer_opener (depth : Nat) (k : Bracket) :
    squareDepth (squareDepth depth k.closer) k.opener = depth := by
  cases k <;> simp [squareDepth, Bracket.closer, Bracket.opener]

theorem squareDepth_of_not_bracket {c : Char} (hc : c ∉ Bracket.all) (depth : Nat) :
    squareDepth depth c = depth := by
  have hopen : c ≠ '[' := fun h => hc (h ▸ by decide)
  have hclose : c ≠ ']' := fun h => hc (h ▸ by decide)
  simp [squareDepth, hopen, hclose]

/-- A well-nested text leaves the square depth as it was. -/
theorem foldl_squareDepth_of_nested {w : List Char} (hw : Nested w) (depth : Nat) :
    w.reverse.foldl squareDepth depth = depth := by
  induction hw generalizing depth with
  | nil => rfl
  | plain hc hw ih =>
      simp [ih, squareDepth_of_not_bracket hc]
  | group k hv hw ihv ihw =>
      simp [ihv, ihw, squareDepth_closer_opener]

theorem indexCount_eq_zero_of_not_mem
    {w : List Char} (hw : '[' ∉ w) (depth : Nat) (left : List Cell) :
    indexCount depth left w = 0 := by
  induction w generalizing depth with
  | nil => rfl
  | cons c w ih =>
      have hc : c ≠ '[' := fun h => hw (h ▸ List.mem_cons_self)
      simp [indexCount, hc, ih fun h => hw (List.mem_cons_of_mem c h)]

/-- Neither is anything picked up at a square depth of one or more, which is
where the text of a square group begins. -/
theorem indexCount_succ_of_nested
    {w : List Char} (hw : Nested w) (depth : Nat) (left : List Cell) :
    indexCount (depth + 1) left w.reverse = 0 := by
  induction hw generalizing depth left with
  | nil => rfl
  | @plain c w hc hw ih =>
      have hopen : c ≠ '[' := fun h => hc (h ▸ by decide)
      rw [List.reverse_cons, indexCount_append, ih]
      simp [indexCount, hopen]
  | @group v w k hv hw ihv ihw =>
      simp only [List.reverse_cons, List.reverse_append, List.append_assoc]
      rw [indexCount_append, indexCount_append, indexCount_append, ihw,
        foldl_squareDepth_of_nested hw]
      cases k with
      | square =>
          simp [indexCount, squareDepth, Bracket.closer, Bracket.opener, ihv,
            foldl_squareDepth_of_nested hv]
      | round | curly =>
          simp [indexCount, squareDepth, Bracket.closer, Bracket.opener, ihv]

/-- The square depth of a nesting in which no square opener is unclosed. -/
def Nesting.depth (n : Nesting) : Nat :=
  (-n.square).toNat

theorem Nesting.depth_cross
    {n : Nesting} (h : n.square ≤ 0) (c : Char) :
    (n.cross c).depth = squareDepth n.depth c := by
  unfold Nesting.cross
  split <;> simp_all only [Nesting.depth, squareDepth]
  all_goals simp_all
  all_goals omega

theorem Nesting.square_nonpos {n : Nesting} (h : n.unclosed = false) : n.square ≤ 0 := by
  simp only [unclosed, Bool.or_eq_false_iff, decide_eq_false_iff_not] at h
  omega

/-! ## The walk inside of brackets -/

theorem isTerminator_opener (k : Bracket) : isTerminator k.opener = false := by
  cases k <;> decide

theorem isMember_opener (k : Bracket) : isMember k.opener = false := by
  cases k <;> decide

theorem State.pass_members
    {s : State} (hs : s.nesting.square ≤ 0) (c : Char) (left : List Cell) :
    (s.pass c left).members =
      indexMarks (indexCount s.nesting.depth left [c]) ++ s.members := by
  by_cases hopen : c = '['
  · subst hopen
    have hdepth : (s.nesting.cross '[').square = 0 ↔ s.nesting.depth = 1 := by
      have := hs
      simp only [Nesting.cross, Nesting.depth]
      omega
    by_cases hindex : s.nesting.depth = 1 ∧ opensPercentLiteral left = false
    · obtain ⟨hone, hpercent⟩ := hindex
      simp [State.pass, State.addIndex, code, State.prepend, indexCount, indexMarks, hdepth.2 hone, hone, hpercent]
    · rw [not_and] at hindex
      by_cases hone : s.nesting.depth = 1
      · simp [State.pass, State.addIndex, code, indexCount, indexMarks, hindex hone]
      · simp [State.pass, State.addIndex, code, indexCount, indexMarks, hdepth, hone]
  · simp [State.pass, State.addIndex, code, indexCount, indexMarks, hopen]

/-- The walk crosses a text and nothing but its indexes joins the chain. -/
structure Collects
    (s : State) (left : List Cell) (w : List Char) (right : List Cell) (s' : State) : Prop where
  crosses : Crosses s left w right s'
  inBlanks : s'.inBlanks = false
  depth : s'.nesting.depth = w.reverse.foldl squareDepth s.nesting.depth
  members :
    s'.members = indexMarks (indexCount s.nesting.depth left w.reverse) ++ s.members

theorem Collects.append
    {s s₁ s₂ : State} {left right : List Cell} {v w : List Char}
    (hw : Collects s (v.reverse.map code ++ left) w right s₁)
    (hv : Collects s₁ left v (w.map code ++ right) s₂) :
    Collects s left (v ++ w) right s₂ where
  crosses := hw.crosses.append hv.crosses
  inBlanks := hv.inBlanks
  depth := by
    rw [hv.depth, hw.depth, List.reverse_append, List.foldl_append]
  members := by
    rw [hv.members, hw.members, hw.depth, List.reverse_append, indexCount_append, Nat.add_comm,
      indexMarks_add, List.append_assoc]

/-- A byte is crossed when it comes under the rules for code and keeps the walk
in brackets, or leads out of them as a bracket does. -/
theorem Collects.singleton
    {s : State} {right : List Cell} {c : Char} (left : List Cell)
    (hcode : s.nesting.balanced = false ∨
      Text.isBlank c = false ∧ (c = '.' ∨ s.Unblocked right))
    (hs : s.nesting.unclosed = false) (hunclosed : (s.nesting.cross c).unclosed = false)
    (hplain : (s.nesting.cross c).balanced = true → isTerminator c = false ∧ isMember c = false) :
    Collects s left [c] right (s.pass c left) where
  crosses := by
    apply Crosses.of_step
    rw [step_eq_crossCode left hcode]
    exact crossCode_eq_next left hunclosed hplain
  inBlanks := State.pass_inBlanks s c left
  depth := by
    rw [State.pass_nesting, Nesting.depth_cross (Nesting.square_nonpos hs)]
    rfl
  members := State.pass_members (Nesting.square_nonpos hs) c left

/-- Inside of brackets the walk crosses the text, whatever stands around it, and
comes out in the nesting it went in with. -/
def CrossedInside (w : List Char) : Prop :=
  ∀ {s : State}, s.nesting.Inside → s.inBlanks = false →
    ∀ left right, ∃ s', Collects s left w right s' ∧ s'.nesting = s.nesting

/-- A bracket group is crossed when its text is, from inside of brackets or from
a place where nothing blocks the walk. -/
theorem collects_group
    {v : List Char} (hv : CrossedInside v) (k : Bracket)
    {s : State} (hs : s.nesting.unclosed = false) {right : List Cell}
    (hready : s.nesting.balanced = false ∨ s.Unblocked right) (left : List Cell) :
    ∃ s', Collects s left ([k.opener] ++ (v ++ [k.closer])) right s' ∧
      s'.nesting = s.nesting := by
  have hinside := Nesting.inside_cross_closer hs k
  let s₁ := s.pass k.closer (v.reverse.map code ++ ([k.opener].reverse.map code ++ left))
  have hclose : Collects s (v.reverse.map code ++ ([k.opener].reverse.map code ++ left))
      [k.closer] right s₁ := by
    apply Collects.singleton _ _ hs hinside.unclosed_eq_false
    · rw [hinside.balanced_eq_false]
      exact fun h => absurd h (by decide)
    · exact hready.imp id fun h => ⟨by cases k <;> decide, Or.inr h⟩
  have hnesting₁ : s₁.nesting = s.nesting.cross k.closer := State.pass_nesting ..
  obtain ⟨s₂, hv₂, hnesting₂⟩ :=
    hv (hnesting₁ ▸ hinside) hclose.inBlanks ([k.opener].reverse.map code ++ left)
      ([k.closer].map code ++ right)
  rw [hnesting₁] at hnesting₂
  have hback : s₂.nesting.cross k.opener = s.nesting := by
    rw [hnesting₂, Nesting.cross_opener_cross_closer]
  have hopen : Collects s₂ left [k.opener] ((v ++ [k.closer]).map code ++ right)
      (s₂.pass k.opener left) := by
    apply Collects.singleton left
    · exact Or.inl (hnesting₂ ▸ hinside.balanced_eq_false)
    · rw [hnesting₂, hinside.unclosed_eq_false]
    · rw [hback, hs]
    · exact fun _ => ⟨isTerminator_opener k, isMember_opener k⟩
  refine ⟨s₂.pass k.opener left, (hclose.append hv₂).append hopen, ?_⟩
  rw [State.pass_nesting, hback]

/-- Inside of brackets the walk crosses every well-nested text. -/
theorem crossedInside_of_nested {w : List Char} (hw : Nested w) : CrossedInside w := by
  -- The text grows forward and is walked backward, so the rest of it is crossed first.
  induction hw with
  | nil =>
      intro s hs hblanks left right
      exact ⟨s, ⟨.nil s left right, hblanks, rfl, rfl⟩, rfl⟩
  | @plain c w hc hw ih =>
      intro s hs hblanks left right
      obtain ⟨s₁, h₁, hnesting₁⟩ := ih hs hblanks ([c].reverse.map code ++ left) right
      have hsame : s₁.nesting.cross c = s.nesting := by
        rw [Nesting.cross_of_not_bracket hc, hnesting₁]
      have hstep : Collects s₁ left [c] (w.map code ++ right) (s₁.pass c left) := by
        apply Collects.singleton left
        · exact Or.inl (hnesting₁ ▸ hs.balanced_eq_false)
        · rw [hnesting₁, hs.unclosed_eq_false]
        · rw [hsame, hs.unclosed_eq_false]
        · rw [hsame, hs.balanced_eq_false]
          exact fun h => absurd h (by decide)
      refine ⟨s₁.pass c left, h₁.append hstep, ?_⟩
      rw [State.pass_nesting, hsame]
  | @group v w k hv hw ihv ihw =>
      intro s hs hblanks left right
      obtain ⟨s₁, h₁, hnesting₁⟩ :=
        ihw hs hblanks (([k.opener] ++ (v ++ [k.closer])).reverse.map code ++ left) right
      have hs₁ : s₁.nesting.Inside := hnesting₁ ▸ hs
      obtain ⟨s₂, h₂, hnesting₂⟩ :=
        collects_group ihv k hs₁.unclosed_eq_false (Or.inl hs₁.balanced_eq_false) left
      refine ⟨s₂, ?_, hnesting₂.trans hnesting₁⟩
      simpa using h₁.append h₂

end Caret.Signature
