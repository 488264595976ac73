import Caret.Proofs.Signature.Arguments

/-!
# What one byte does to the walk

Whatever the regions around it, a byte does one of a few things: the walk goes
on behind it, with at most one more piece in front of the chain, or it ends
there in one of five ways.
-/

namespace Caret.Signature

/-- Characters that can join a chain, as a member or as an index. -/
def joinsChain (c : Char) : Bool :=
  isMember c || c == '['

/-- What a character joins a chain as. -/
def piece (c : Char) : List Char :=
  if c == '[' then ['.', '[', ']'] else [c]

def isSigil (c : Char) : Bool :=
  c == '$' || c == '@'

/-- The walk crosses the byte `c` and goes on. -/
structure GoesOn (c : Cell) (s s' : State) : Prop where
  outside_comment : c.inComment = false
  nesting : s'.nesting = if c.inString then s.nesting else s.nesting.cross c.char
  unclosed : s'.nesting.unclosed = false
  members : s'.members = s.members ∨
    c.inString = false ∧ joinsChain c.char = true ∧ isSigil c.char = false ∧
      s'.members = piece c.char ++ s.members

/-- The ways in which the walk ends at the byte `c`, with the start of the chain
and what is in it: behind the byte, behind the blanks that follow the byte, or
on a sigil.  A sigil that follows a percent sign is left out of the chain. -/
inductive EndsAt (c : Cell) (left right : List Cell) (s : State) : Nat → List Char → Prop where
  | behind : EndsAt c left right s (left.length + 1) s.members
  | behindBlanks : EndsAt c left right s (left.length + 1 + leadingBlanks right) s.members
  | beforeSigil : c.inComment = false → c.inString = false → isSigil c.char = true →
      EndsAt c left right s left.length s.members
  | onSigil : c.inComment = false → c.inString = false → isSigil c.char = true →
      EndsAt c left right s left.length (c.char :: s.members)
  | onDoubleSigil : c.inComment = false → c.inString = false → c.char = '@' →
      followsAt left = true → EndsAt c left right s (left.length - 1) ('@' :: '@' :: s.members)

/-! ## Brackets, blanks and sigils -/

theorem piece_of_isMember {c : Char} (hc : isMember c = true) : piece c = [c] := by
  have hopen : c ≠ '[' := by
    rintro rfl
    exact absurd hc (by decide)
  simp [piece, hopen]

theorem piece_of_isSigil {c : Char} (hc : isSigil c = true) : piece c = [c] := by
  simp only [isSigil, Bool.or_eq_true, beq_iff_eq] at hc
  rcases hc with rfl | rfl <;> rfl

theorem not_mem_all_of_isSigil {c : Char} (hc : isSigil c = true) : c ∉ Bracket.all := by
  simp only [isSigil, Bool.or_eq_true, beq_iff_eq] at hc
  rcases hc with rfl | rfl <;> decide

theorem not_mem_all_of_isBlank {c : Char} (hc : Text.isBlank c = true) : c ∉ Bracket.all := by
  simp only [Text.isBlank, Bool.or_eq_true, beq_iff_eq] at hc
  rcases hc with ((rfl | rfl) | rfl) | rfl <;> decide

theorem joinsChain_of_isSigil {c : Char} (hc : isSigil c = true) : joinsChain c = true := by
  simp only [isSigil, Bool.or_eq_true, beq_iff_eq] at hc
  rcases hc with rfl | rfl <;> decide

theorem joinsChain_of_isBlank {c : Char} (hc : Text.isBlank c = true) : joinsChain c = false := by
  simp only [Text.isBlank, Bool.or_eq_true, beq_iff_eq] at hc
  rcases hc with ((rfl | rfl) | rfl) | rfl <;> decide

/-- The first opener without its closer is no index. -/
theorem square_ne_zero_of_unclosed
    {n : Nesting} (hn : n.unclosed = false) (hunclosed : (n.cross '[').unclosed = true) :
    (n.cross '[').square ≠ 0 := by
  simp only [Nesting.unclosed, Nesting.cross, Bool.or_eq_false_iff, decide_eq_false_iff_not,
    Bool.or_eq_true, decide_eq_true_eq] at hn hunclosed ⊢
  omega

/-! ## Counters -/

def Nesting.counter (n : Nesting) : Bracket → Int
  | .round => n.round
  | .square => n.square
  | .curly => n.curly

theorem Bracket.forall_iff {p : Bracket → Prop} :
    (∀ k, p k) ↔ (p .round ∧ p .square) ∧ p .curly := by
  refine ⟨fun h => ⟨⟨h .round, h .square⟩, h .curly⟩, ?_⟩
  rintro ⟨⟨hround, hsquare⟩, hcurly⟩ k
  cases k with
  | round => exact hround
  | square => exact hsquare
  | curly => exact hcurly

theorem Nesting.unclosed_eq_false_iff {n : Nesting} :
    n.unclosed = false ↔ ∀ k, n.counter k ≤ 0 := by
  simp only [unclosed, Bracket.forall_iff, counter, Bool.or_eq_false_iff,
    decide_eq_false_iff_not, Int.not_lt]

theorem Nesting.balanced_iff {n : Nesting} : n.balanced = true ↔ ∀ k, n.counter k = 0 := by
  simp only [balanced, Bracket.forall_iff, counter, Bool.and_eq_true, beq_iff_eq]

/-- Crossing a character changes a counter by what the character opens less what
it closes. -/
theorem Nesting.counter_cross (n : Nesting) (c : Char) (k : Bracket) :
    (n.cross c).counter k = n.counter k + [c].count k.opener - [c].count k.closer := by
  by_cases hc : c ∈ Bracket.all
  · simp only [Bracket.all, List.mem_cons, List.not_mem_nil, or_false] at hc
    rcases hc with rfl | rfl | rfl | rfl | rfl | rfl <;> cases k <;>
      simp [cross, counter, Bracket.opener, Bracket.closer]
  · have hopener : k.opener ∉ [c] := by
      rw [List.mem_singleton]
      rintro rfl
      exact hc k.opener_mem_all
    have hcloser : k.closer ∉ [c] := by
      rw [List.mem_singleton]
      rintro rfl
      exact hc k.closer_mem_all
    rw [cross_of_not_bracket hc, List.count_eq_zero_of_not_mem hopener,
      List.count_eq_zero_of_not_mem hcloser]
    omega

theorem Nesting.cross_opener {n : Nesting} {k : Bracket} (hn : n.counter k = 0) :
    (n.cross k.opener).balanced = false ∧ (n.cross k.opener).unclosed = true := by
  cases k <;> simp_all [cross, counter, Bracket.opener, balanced, unclosed]

theorem Nesting.exists_opener_of_unclosed
    {n : Nesting} {c : Char} (hn : n.unclosed = false) (hc : (n.cross c).unclosed = true) :
    ∃ k : Bracket, c = k.opener ∧ n.counter k = 0 := by
  have hopen : ¬∀ k, (n.cross c).counter k ≤ 0 := by
    rw [← Nesting.unclosed_eq_false_iff, hc]
    decide
  obtain ⟨k, hk⟩ := not_forall.1 hopen
  have hle := Nesting.unclosed_eq_false_iff.1 hn k
  have hcross := n.counter_cross c k
  have hcount : [c].count k.opener ≤ [c].length := List.count_le_length
  rw [List.length_singleton] at hcount
  refine ⟨k, ?_, by omega⟩
  by_contra hne
  rw [List.count_eq_zero_of_not_mem fun hmem => hne (List.mem_singleton.1 hmem).symm] at hcross
  omega

/-! ## What joins the chain -/

theorem State.addIndex_members (s : State) (c : Cell) (left : List Cell) :
    (s.addIndex c left).members = s.members ∨
      c.char = '[' ∧ (s.nesting.cross c.char).square = 0 ∧
        (s.addIndex c left).members = piece c.char ++ s.members := by
  unfold State.addIndex
  dsimp only
  split
  · rename_i h
    simp only [Bool.and_eq_true, beq_iff_eq] at h
    exact Or.inr ⟨h.1.1, h.1.2, by simp [State.prepend, piece, h.1.1]⟩
  · exact Or.inl rfl

theorem State.addIndex_members_of_ne
    (s : State) {c : Cell} (hc : c.char ≠ '[') (left : List Cell) :
    (s.addIndex c left).members = s.members := by
  rcases s.addIndex_members c left with h | ⟨hopen, -, -⟩
  · exact h
  · exact absurd hopen hc

theorem State.addMember_members (s : State) (c : Cell) (left : List Cell) :
    (s.addMember c left).members = s.members ∨
      isMember c.char = true ∧ (s.addMember c left).members = c.char :: s.members := by
  unfold State.addMember
  split
  · rename_i h
    rw [Bool.and_eq_true] at h
    exact Or.inr ⟨h.1, rfl⟩
  · exact Or.inl rfl

/-- A byte is an index, or a member, or neither, and never both. -/
theorem State.members_of_both (s : State) (c : Cell) (left : List Cell) :
    ((s.addIndex c left).addMember c left).members = s.members ∨
      joinsChain c.char = true ∧
        ((s.addIndex c left).addMember c left).members = piece c.char ++ s.members := by
  rcases (s.addIndex c left).addMember_members c left with h | ⟨hmember, h⟩
  · rw [h]
    rcases s.addIndex_members c left with h | ⟨hopen, -, h⟩
    · exact Or.inl h
    · exact Or.inr ⟨by simp [joinsChain, hopen], h⟩
  · have hopen : c.char ≠ '[' := by
      intro hopen
      rw [hopen] at hmember
      exact absurd hmember (by decide)
    rw [h, s.addIndex_members_of_ne hopen, piece_of_isMember hmember]
    exact Or.inr ⟨by simp [joinsChain, hmember], rfl⟩

theorem State.members_of_followsAt
    (s : State) {c : Cell} {left : List Cell} (hc : c.char = '@') (hleft : followsAt left = true) :
    ((s.addIndex c left).addMember c left).members = '@' :: s.members := by
  have hpercent : followsPercent left = false := by
    cases left with
    | nil => simp [followsAt] at hleft
    | cons d left =>
        simp only [followsAt, beq_iff_eq] at hleft
        simp [followsPercent, hleft]
  have hmember : isMember c.char = true := by
    rw [hc]
    decide
  rw [State.addMember, hmember, hpercent]
  simp [State.prepend, s.addIndex_members_of_ne, hc]

/-! ## One step -/

theorem goesOn_of_crossCode
    {c : Cell} {left : List Cell} {s s' : State} (hcomment : c.inComment = false)
    (hstring : c.inString = false) (h : crossCode c left s = .next s') :
    GoesOn c s s' := by
  have hunclosed := unclosed_of_crossCode h
  rw [crossCode_eq] at h
  dsimp only at h
  split_ifs at h with hbalanced hterminator hdollar hat _ hopen
  · obtain rfl := Step.next.inj h
    refine ⟨hcomment, by simp [hstring], hunclosed, ?_⟩
    rcases s.members_of_both c left with hmembers | ⟨hjoins, hmembers⟩
    · exact Or.inl hmembers
    · exact Or.inr ⟨hstring, hjoins, by simp [isSigil, hdollar, hat], hmembers⟩
  · obtain rfl := Step.next.inj h
    refine ⟨hcomment, by simp [hstring], hunclosed, ?_⟩
    rcases s.addIndex_members c left with hmembers | ⟨hbracket, -, hmembers⟩
    · exact Or.inl hmembers
    · exact Or.inr ⟨hstring, by simp [joinsChain, hbracket], by simp [isSigil, hbracket], hmembers⟩

/-- A byte that lets the walk go on is no comment, counts as a bracket where it
is no string, and joins the chain only where it is no string and no sigil. -/
theorem goesOn_of_step
    {c : Cell} {left right : List Cell} {s s' : State} (hs : s.nesting.unclosed = false)
    (h : step c left right s = .next s') :
    GoesOn c s s' := by
  unfold step at h
  split_ifs at h with hcomment hskip hblank hblocked hstring
  · obtain rfl := Step.next.inj h
    rw [Bool.and_eq_true] at hskip
    exact ⟨eq_false_of_ne_true hcomment, by simp [hskip.1], hs, Or.inl rfl⟩
  · obtain rfl := Step.next.inj h
    rw [Bool.and_eq_true] at hblank
    have hcross := Nesting.cross_of_not_bracket (not_mem_all_of_isBlank hblank.2) s.nesting
    exact ⟨eq_false_of_ne_true hcomment, by simp [hcross], hs, Or.inl rfl⟩
  · obtain rfl := Step.next.inj h
    exact ⟨eq_false_of_ne_true hcomment, by simp [hstring], hs, Or.inl rfl⟩
  · exact goesOn_of_crossCode (eq_false_of_ne_true hcomment) (eq_false_of_ne_true hstring) h

theorem endsAt_of_isSigil
    {c : Cell} {left right : List Cell} {s : State} (hcomment : c.inComment = false)
    (hstring : c.inString = false) (hsigil : isSigil c.char = true) :
    EndsAt c left right s left.length ((s.addIndex c left).addMember c left).members := by
  rcases s.members_of_both c left with hmembers | ⟨-, hmembers⟩
  · rw [hmembers]
    exact .beforeSigil hcomment hstring hsigil
  · rw [hmembers, piece_of_isSigil hsigil]
    exact .onSigil hcomment hstring hsigil

theorem endsAt_of_crossCode
    {c : Cell} {left right : List Cell} {s s' : State} {start : Nat}
    (hs : s.nesting.unclosed = false) (hcomment : c.inComment = false)
    (hstring : c.inString = false) (h : crossCode c left s = .done start s') :
    EndsAt c left right s start s'.members := by
  rw [crossCode_eq] at h
  dsimp only at h
  split_ifs at h with hbalanced hterminator hdollar hat hfollows hunclosed
  · obtain ⟨rfl, rfl⟩ := Step.done.inj h
    have hopen : c.char ≠ '[' := by
      intro hopen
      rw [hopen] at hterminator
      exact absurd hterminator (by decide)
    rw [s.addIndex_members_of_ne hopen]
    exact .behind
  · obtain ⟨rfl, rfl⟩ := Step.done.inj h
    exact endsAt_of_isSigil hcomment hstring (by simp [isSigil, hdollar])
  · obtain ⟨rfl, rfl⟩ := Step.done.inj h
    dsimp only
    rw [s.members_of_followsAt (beq_iff_eq.1 hat) hfollows]
    exact .onDoubleSigil hcomment hstring (beq_iff_eq.1 hat) hfollows
  · obtain ⟨rfl, rfl⟩ := Step.done.inj h
    exact endsAt_of_isSigil hcomment hstring (by simp [isSigil, hat])
  · obtain ⟨rfl, rfl⟩ := Step.done.inj h
    rcases s.addIndex_members c left with hmembers | ⟨hopen, hsquare, -⟩
    · rw [hmembers]
      exact .behind
    · rw [hopen] at hunclosed hsquare
      exact absurd hsquare (square_ne_zero_of_unclosed hs hunclosed)

theorem endsAt_of_step
    {c : Cell} {left right : List Cell} {s s' : State} {start : Nat}
    (hs : s.nesting.unclosed = false) (h : step c left right s = .done start s') :
    EndsAt c left right s start s'.members := by
  unfold step at h
  split_ifs at h with hcomment hskip hblank hblocked hstring
  · obtain ⟨rfl, rfl⟩ := Step.done.inj h
    exact .behind
  · obtain ⟨rfl, rfl⟩ := Step.done.inj h
    exact .behindBlanks
  · exact endsAt_of_crossCode hs (eq_false_of_ne_true hcomment) (eq_false_of_ne_true hstring) h

end Caret.Signature
