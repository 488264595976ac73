import Caret.Proofs.Signature.Layout
import Caret.Proofs.Signature.Lookahead
import Caret.Proofs.Signature.Steps
import Caret.Proofs.Signature.WordEnd
import Caret.Proofs.Text.Slice

/-!
# A phrase read alone

The phrase before a cursor is the text from the start of the signature to the cursor.
Nothing on its left has a part in the signature: a walk over the phrase alone finds the
same chain and ends at its beginning.
-/

namespace Caret.Signature

variable {s s' : State} {left left' right right' : List Cell}

/-! ## Where the walk over plain code ends -/

/-- The bytes that end the walk right behind themselves: a terminator outside of all
brackets, and an opener without its closer. -/
inductive Marks (c : Char) (n : Nesting) : Prop where
  | terminator : isTerminator c = true → n.balanced = true → Marks c n
  | opener (k : Bracket) : c = k.opener → n.counter k = 0 → Marks c n

/-- The ways in which the walk over plain code ends at the byte `c`: the chain starts behind
the blanks that were crossed, behind a mark, or with a sigil. -/
inductive StopsAt (c : Char) (left : List Char) (right : List Cell) (s : State) : Step → Prop where
  | behindBlanks : s.inBlanks = true →
      StopsAt c left right s (.done (left.length + 1 + leadingBlanks right) s)
  | behindMark {s' : State} : Marks c s.nesting →
      (s.nesting.balanced = true → s.Unblocked right) → s'.members = s.members →
      StopsAt c left right s (.done (left.length + 1) s')
  | onSigil {s' : State} (sigil : Sigil) (far : List Char) : sigil ≠ .none →
      c :: left = sigil.text.reverse ++ far →
      (sigil = .single → followsAt (far.map code) = false) → s.nesting = {} →
      s.Unblocked right → StopsAt c left right s (.done far.length s')

theorem classes_of_isTerminator {c : Char} (hc : isTerminator c = true) :
    c.toNat < 128 ∧ (c = '%' ∨ cutsView c = true) ∧ Text.isBlank c = false ∧ c ≠ '.' ∧
      c ∉ Bracket.all := by
  simp only [isTerminator, Bool.or_eq_true, beq_iff_eq] at hc
  rcases hc with (((rfl | rfl) | rfl) | rfl) | rfl <;> decide

theorem Marks.classes {c : Char} {n : Nesting} (h : Marks c n) :
    c.toNat < 128 ∧ (c = '%' ∨ cutsView c = true) ∧ Text.isBlank c = false ∧ c ≠ '.' := by
  cases h with
  | terminator hc _ =>
      obtain ⟨hascii, hview, hblank, hdot, -⟩ := classes_of_isTerminator hc
      exact ⟨hascii, hview, hblank, hdot⟩
  | opener k hc _ =>
      subst hc
      cases k <;> decide

/-- A mark ends the walk that comes to it. -/
theorem Marks.exists_step
    {c : Char} (h : Marks c s.nesting) (hgo : s.nesting.balanced = true → s.Unblocked right)
    (left : List Cell) :
    ∃ s', step (code c) left right s = .done (left.length + 1) s' := by
  obtain ⟨-, -, hblank, -⟩ := h.classes
  have hcode : step (code c) left right s = crossCode (code c) left s := by
    apply step_eq_crossCode
    by_cases hbalanced : s.nesting.balanced = true
    · exact Or.inr ⟨hblank, Or.inr (hgo hbalanced)⟩
    · exact Or.inl (eq_false_of_ne_true hbalanced)
  refine ⟨s.addIndex (code c) left, ?_⟩
  rw [hcode, crossCode_eq]
  cases h with
  | terminator hc hbalanced =>
      obtain ⟨-, -, -, -, hplain⟩ := classes_of_isTerminator hc
      have hcross := Nesting.cross_of_not_bracket hplain s.nesting
      simp [code, hcross, hbalanced, hc]
  | opener k hc hcounter =>
      obtain ⟨hbalanced, hunclosed⟩ := Nesting.cross_opener hcounter
      simp [code, hc, hbalanced, hunclosed]

theorem exists_at_of_followsAt {left : List Char} (h : followsAt (left.map code) = true) :
    ∃ far, left = '@' :: far := by
  cases left with
  | nil => simp [followsAt] at h
  | cons c far =>
      have hc : c = '@' := beq_iff_eq.1 h
      exact ⟨far, by rw [hc]⟩

theorem stopsAt_of_crossCode
    {c : Char} {left : List Char} {start : Nat} (hs : s.nesting.unclosed = false)
    (hgo : s.nesting.balanced = true → c ≠ '.' → s.Unblocked right)
    (h : crossCode (code c) (left.map code) s = .done start s') :
    StopsAt c left right s (.done start s') := by
  have hsigil (hbalanced : (s.nesting.cross c).balanced = true) (hc : isSigil c = true) :
      s.nesting = {} ∧ s.Unblocked right := by
    rw [Nesting.cross_of_not_bracket (not_mem_all_of_isSigil hc)] at hbalanced
    refine ⟨Nesting.eq_of_balanced hbalanced, hgo hbalanced ?_⟩
    rintro rfl
    exact absurd hc (by decide)
  rw [crossCode_eq] at h
  dsimp only at h
  split_ifs at h with hbalanced hterminator hdollar hat hfollows hunclosed
  · obtain ⟨rfl, rfl⟩ := Step.done.inj h
    obtain ⟨-, -, -, hdot, hplain⟩ := classes_of_isTerminator hterminator
    rw [List.length_map]
    refine .behindMark (.terminator hterminator ?_) (hgo · hdot) (s.addIndex_members_of_ne ?_ _)
    · rwa [← Nesting.cross_of_not_bracket hplain s.nesting]
    · rintro hopen
      exact hplain (hopen ▸ Bracket.opener_mem_all .square)
  · obtain ⟨rfl, rfl⟩ := Step.done.inj h
    obtain rfl : c = '$' := beq_iff_eq.1 hdollar
    obtain ⟨hnesting, hfree⟩ := hsigil hbalanced (by decide)
    rw [List.length_map]
    exact .onSigil .dollar left (by decide) rfl (by simp) hnesting hfree
  · obtain ⟨rfl, rfl⟩ := Step.done.inj h
    obtain rfl : c = '@' := beq_iff_eq.1 hat
    obtain ⟨far, rfl⟩ := exists_at_of_followsAt hfollows
    obtain ⟨hnesting, hfree⟩ := hsigil hbalanced (by decide)
    have hlength : (('@' :: far).map code).length - 1 = far.length := by simp
    rw [hlength]
    exact .onSigil .double far (by decide) rfl (by simp) hnesting hfree
  · obtain ⟨rfl, rfl⟩ := Step.done.inj h
    obtain rfl : c = '@' := beq_iff_eq.1 hat
    obtain ⟨hnesting, hfree⟩ := hsigil hbalanced (by decide)
    rw [List.length_map]
    exact .onSigil .single left (by decide) rfl (fun _ => eq_false_of_ne_true hfollows) hnesting
      hfree
  · obtain ⟨rfl, rfl⟩ := Step.done.inj h
    obtain ⟨k, hk, hcounter⟩ := Nesting.exists_opener_of_unclosed hs hunclosed
    have hmark : Marks c s.nesting := .opener k hk hcounter
    rw [List.length_map]
    refine .behindMark hmark (hgo · hmark.classes.2.2.2) ?_
    rcases s.addIndex_members (code c) (left.map code) with hmembers | ⟨hopen, hsquare, -⟩
    · exact hmembers
    · rw [show c = '[' from hopen] at hunclosed
      rw [hopen] at hsquare
      exact absurd hsquare (square_ne_zero_of_unclosed hs hunclosed)

theorem stopsAt_of_step
    {c : Char} {left : List Char} {start : Nat} (hs : s.nesting.unclosed = false)
    (h : step (code c) (left.map code) right s = .done start s') :
    StopsAt c left right s (.done start s') := by
  unfold step at h
  split_ifs at h with hcomment hskip hblank hblocked hstring
  · exact absurd hcomment (by simp [code])
  · obtain ⟨rfl, rfl⟩ := Step.done.inj h
    simp only [Bool.and_eq_true] at hblocked
    rw [List.length_map]
    exact .behindBlanks hblocked.1.1.2
  · apply stopsAt_of_crossCode hs _ h
    intro hbalanced hdot hin
    by_contra hchain
    exact hblocked (by simp [code, hbalanced, hdot, hin, eq_false_of_ne_true hchain])

/-- The walk over plain code passes all of it, or passes some of it and ends at the byte
in front. -/
theorem walk_cases (s : State) (l : List Char) (right : List Cell) :
    (∃ s', reach s [] (l.map code) right = some s' ∧
      walk s (l.map code) right = ⟨0, s'.members, s'.leftOfHead⟩) ∨
    ∃ near c far s₁ start s₂, l = near ++ c :: far ∧
      reach s ((c :: far).map code) (near.map code) right = some s₁ ∧
      step (code c) (far.map code) (near.reverse.map code ++ right) s₁ = .done start s₂ ∧
      walk s (l.map code) right = ⟨start, s₂.members, s₂.leftOfHead⟩ := by
  induction l generalizing s right with
  | nil => exact Or.inl ⟨s, rfl, rfl⟩
  | cons c l ih =>
      rw [List.map_cons, walk]
      cases hstep : step (code c) (l.map code) right s with
      | done start s₂ => exact Or.inr ⟨[], c, l, s, start, s₂, rfl, rfl, hstep, rfl⟩
      | next s₁ =>
          rcases ih s₁ (code c :: right) with
            ⟨s', hreach, hwalk⟩ | ⟨near, d, far, t, start, s₂, rfl, hreach, hdone, hwalk⟩
          · refine Or.inl ⟨s', ?_, hwalk⟩
            rw [reach, List.append_nil, hstep]
            exact hreach
          · refine Or.inr ⟨c :: near, d, far, t, start, s₂, rfl, ?_, ?_, hwalk⟩
            · change reach s _ (code c :: near.map code) right = some t
              rw [reach, ← List.map_append, hstep]
              exact hreach
            · simpa using hdone

/-! ## Blanks crossed -/

theorem reach_append (s : State) (left near far right : List Cell) :
    reach s left (near ++ far) right =
      (reach s (far ++ left) near right).bind fun s' =>
        reach s' left far (near.reverse ++ right) := by
  induction near generalizing s right with
  | nil => rfl
  | cons c near ih =>
      simp only [List.cons_append, reach, List.append_assoc]
      cases step c (near ++ (far ++ left)) right s with
      | done start s' => rfl
      | next s' =>
          dsimp only
          rw [ih, List.reverse_cons, List.append_assoc]
          rfl

theorem isBlank_of_step
    {c : Char} (h : step (code c) left right s = .next s') (hin : s'.inBlanks = true) :
    Text.isBlank c = true := by
  unfold step at h
  split_ifs at h with hcomment hskip hblank hblocked hstring
  · exact absurd hskip (by simp [code])
  · rw [Bool.and_eq_true] at hblank
    exact hblank.2
  · exact absurd hstring (by simp [code])
  · rw [crossCode_eq] at h
    dsimp only at h
    split_ifs at h
    · obtain rfl := Step.next.inj h
      exact Bool.noConfusion hin
    · obtain rfl := Step.next.inj h
      exact Bool.noConfusion hin

theorem exists_blank_of_reach
    {near : List Char} (h : reach s left (near.map code) right = some s')
    (hs : s.inBlanks = false) (hin : s'.inBlanks = true) :
    ∃ front c, near = front ++ [c] ∧ Text.isBlank c = true := by
  rcases List.eq_nil_or_concat near with rfl | ⟨front, c, rfl⟩
  · obtain rfl := Option.some.inj h
    exact absurd hin (by simp [hs])
  · rw [List.concat_eq_append] at h ⊢
    rw [List.map_append, reach_append, Option.bind_eq_some_iff] at h
    obtain ⟨s₁, -, hlast⟩ := h
    rw [List.map_singleton, reach, List.nil_append] at hlast
    cases hstep : step (code c) left ((front.map code).reverse ++ right) s₁ with
    | done start s₂ => simp [hstep] at hlast
    | next s₂ =>
        rw [hstep] at hlast
        obtain rfl := Option.some.inj hlast
        exact ⟨front, c, rfl, isBlank_of_step hstep hin⟩

theorem step_of_isBlank
    {c : Char} (hc : Text.isBlank c = true) (hs : s.nesting.unclosed = false)
    (left right : List Cell) :
    step (code c) left right s = .next { s with inBlanks := s.nesting.balanced } := by
  have hcross := Nesting.cross_of_not_bracket (not_mem_all_of_isBlank hc) s.nesting
  have hopen : c ≠ '[' := by
    rintro rfl
    exact absurd hc (by decide)
  cases hbalanced : s.nesting.balanced with
  | true => simp [step, code, hbalanced, hc]
  | false =>
      rw [step_eq_crossCode left (Or.inl hbalanced), crossCode_eq_next left (hcross.symm ▸ hs)
        fun h => absurd h (by rw [hcross, hbalanced]; decide)]
      simp [State.pass, State.addIndex, code, hcross, hopen]

/-- Blanks are crossed without a trace, but outside of brackets it is known that they were
there. -/
theorem reach_blanks
    {c : Char} {blanks : List Char} (hblanks : ∀ d ∈ c :: blanks, Text.isBlank d = true)
    (hs : s.nesting.unclosed = false) (left right : List Cell) :
    reach s left ((c :: blanks).map code) right =
      some { s with inBlanks := s.nesting.balanced } := by
  induction blanks generalizing c s right with
  | nil =>
      rw [List.map_singleton, reach, step_of_isBlank (hblanks c List.mem_cons_self) hs]
      rfl
  | cons d blanks ih =>
      rw [List.map_cons, reach, step_of_isBlank (hblanks c List.mem_cons_self) hs]
      exact ih (s := { s with inBlanks := s.nesting.balanced })
        (fun e he => hblanks e (List.mem_cons_of_mem c he)) hs (code c :: right)

/-- The blanks to the right are all of a text or end in it. -/
theorem min_leadingBlanks (w : List Char) (right : List Cell) :
    min (leadingBlanks (w.map code ++ right)) w.length = (w.takeWhile Text.isBlank).length := by
  induction w with
  | nil => simp
  | cons c w ih =>
      rw [List.map_cons, List.cons_append, leadingBlanks_cons, List.takeWhile_cons]
      cases hblank : Text.isBlank c with
      | false => simp [code, hblank]
      | true =>
          rw [if_pos (by exact hblank), if_pos rfl, List.length_cons, List.length_cons, ← ih]
          omega

/-! ## The phrase without what stands in front of it -/

/-- No byte but a letter can make a bracket on its right open a percent literal together
with a byte on its left. -/
theorem leftAlike_of_not_isAlpha
    {c : Char} (hc : c.isAlpha = false) (left left' : List Cell) :
    LeftAlike (code c :: left) (code c :: left') := by
  refine ⟨fun near => ?_, fun near => ?_, fun near => ?_⟩
  · cases near <;> rfl
  · cases near <;> rfl
  · match near with
    | [] => cases left <;> cases left' <;> simp [opensPercentLiteral, code, hc]
    | [_] => rfl
    | _ :: _ :: _ => rfl

/-- A character that cuts off the view looks to its right like the beginning of a text. -/
theorem leftAlike_nil_of_cutsView {c : Char} (hc : cutsView c = true) (left : List Cell) :
    LeftAlike (code c :: left) [] := by
  rw [cutsView_iff] at hc
  refine ⟨fun near => ?_, fun near => ?_, fun near => ?_⟩
  · cases near with
    | nil => exact hc.1
    | cons d near => rfl
  · cases near with
    | nil => exact hc.2.1
    | cons d near => rfl
  · match near with
    | [] => cases left <;> simp [opensPercentLiteral, code, hc]
    | [d] => simp [opensPercentLiteral, code, hc.1]
    | _ :: _ :: _ => rfl

theorem leftAlike_sigil {sigil : Sigil} (hsigil : sigil ≠ .none) (left : List Cell) :
    LeftAlike (sigil.text.reverse.map code ++ left) (sigil.text.reverse.map code ++ []) := by
  cases sigil with
  | none => exact absurd rfl hsigil
  | single => exact leftAlike_of_not_isAlpha (by decide) left []
  | double => exact leftAlike_of_not_isAlpha (by decide) (code '@' :: left) [code '@']
  | dollar => exact leftAlike_of_not_isAlpha (by decide) left []

/-- The chain that ends at a cursor does not go on behind it: no blank stands right before
the cursor, or no dot after any blanks behind. -/
def EndsHere (near : List Char) (right : List Cell) : Prop :=
  (∀ c ∈ near.head?, Text.isBlank c = false) ∨ continuesChain right = false

theorem EndsHere.of_append {near far : List Char} (h : EndsHere (near ++ far) right) :
    EndsHere near right := by
  rcases h with hblank | hright
  · refine Or.inl fun c hc => hblank c ?_
    cases near with
    | nil => simp at hc
    | cons d near => exact hc
  · exact Or.inr hright

theorem EndsHere.rightAlike {near : List Char} (h : EndsHere near right) :
    ∀ c ∈ (near.map code).head?, RightAlike (c :: right) [c] := by
  intro c hc
  apply rightAlike_of_continuesChain
  rcases h with hblank | hright
  · rw [List.head?_map, Option.mem_def, Option.map_eq_some_iff] at hc
    obtain ⟨d, hd, rfl⟩ := hc
    have hd : Text.isBlank (code d).char = false := hblank d hd
    rw [continuesChain_cons, continuesChain_cons, hd]
    rfl
  · rw [continuesChain_cons, continuesChain_cons, hright]
    rfl

/-- A walk passes bytes in front of which it sees nothing as it does with nothing behind
the cursor and something else in front of them. -/
theorem exists_reach_alone
    {near : List Char} (h : reach {} left (near.map code) right = some s)
    (hleft : LeftAlike left left') (hends : EndsHere near right) :
    ∃ t, reach {} left' (near.map code) [] = some t ∧ s.Abreast t ∧ s.members = t.members := by
  rcases reach_alike_of_first (s := {}) (t := {}) ⟨rfl, rfl⟩ hleft (fun h => Bool.noConfusion h)
      (near.map code) hends.rightAlike with
    ⟨hnone, -, -⟩ | ⟨s', t, hs, ht, hside, text, hms, hmt⟩
  · rw [hnone] at h
    exact absurd h (by simp)
  · rw [h] at hs
    obtain rfl := Option.some.inj hs
    exact ⟨t, ht, hside, hms.trans hmt.symm⟩

/-- Bytes that the walk passes are read alone as they are in front of a byte that cuts off
the view. -/
theorem walk_alone
    {near : List Char} (h : reach {} left (near.map code) right = some s)
    (hleft : LeftAlike left []) (hends : EndsHere near right) :
    (walk {} (near.map code) []).start = 0 ∧ (walk {} (near.map code) []).members = s.members := by
  obtain ⟨t, ht, -, hmembers⟩ := exists_reach_alone h hleft hends
  have hwalk := walk_of_reach ht
  rw [List.append_nil] at hwalk
  rw [hwalk, hmembers]
  exact ⟨rfl, rfl⟩

/-- What follows the bytes passed decides alike whether the chain goes on. -/
theorem EndsHere.unblocked
    {near : List Char} (hends : EndsHere near right) {t : State} (hside : s.Abreast t)
    (hnear : near = [] → s.inBlanks = false) (hgo : s.Unblocked (near.reverse.map code ++ right)) :
    t.Unblocked (near.reverse.map code) := by
  intro hin
  rw [← hside.inBlanks] at hin
  have hchain := hgo hin
  cases near with
  | nil => exact absurd hin (by simp [hnear rfl])
  | cons c near =>
      have hright := hends.rightAlike (code c) rfl (near.reverse.map code)
      rw [List.reverse_cons, List.map_append, List.append_assoc] at hchain
      rw [List.reverse_cons, List.map_append]
      exact hright.symm.trans hchain

/-- With its sigil a chain is read alone as it is behind any byte but a percent sign. -/
theorem walk_sigil_alone
    {near far : List Char} {sigil : Sigil} (hsigil : sigil ≠ .none)
    (h : reach {} ((sigil.text.reverse ++ far).map code) (near.map code) right = some s)
    (hat : sigil = .single → followsAt (far.map code) = false) (hnesting : s.nesting = {})
    (hgo : s.Unblocked (near.reverse.map code ++ right))
    (hpercent : followsPercent (far.map code) = false) (hends : EndsHere near right) :
    (walk {} ((near ++ sigil.text.reverse).map code) []).start = 0 ∧
      (walk {} ((near ++ sigil.text.reverse).map code) []).members =
        (walk s ((sigil.text.reverse ++ far).map code)
          (near.reverse.map code ++ right)).members := by
  rw [List.map_append] at h
  obtain ⟨t, ht, hside, hmembers⟩ := exists_reach_alone h (leftAlike_sigil hsigil _) hends
  have hfresh : near = [] → s.inBlanks = false := by
    rintro rfl
    obtain rfl := Option.some.inj h
    rfl
  have hfree := hends.unblocked hside hfresh hgo
  obtain ⟨-, hread⟩ := walk_sigil hnesting hsigil hgo hpercent hat
  have hnil : followsPercent [] = false := rfl
  obtain ⟨hstart, halone⟩ :=
    walk_sigil (hside.nesting ▸ hnesting) hsigil hfree hnil fun _ => rfl
  have hwalk := walk_of_reach ht
  rw [List.append_nil, ← List.map_append, List.append_nil, ← List.map_reverse] at hwalk
  rw [List.append_nil] at hstart halone
  rw [hwalk, List.map_append, hread, hstart, halone, hmembers]
  exact ⟨rfl, rfl⟩

/-- The walk crosses the bytes `near` and goes no further: there are no others, or the next
one is a mark at which it ends. -/
inductive EndsBehind (near : List Char) (right : List Cell) : List Char → Prop where
  | beginning {s : State} : reach {} [] (near.map code) right = some s → EndsBehind near right []
  | mark {s : State} {c : Char} {far : List Char} :
      reach {} ((c :: far).map code) (near.map code) right = some s → Marks c s.nesting →
      (s.nesting.balanced = true → s.Unblocked (near.reverse.map code ++ right)) →
      EndsBehind near right (c :: far)

/-- The bytes before a cursor, nearest first, are cut where the chain starts, and those near
the cursor are read alone as they are behind the others.  If they begin with a blank the
walk ends right behind the others. -/
structure CutAtStart (near far : List Char) (right : List Cell) : Prop where
  start : min (walk {} ((near ++ far).map code) right).start (near ++ far).length = far.length
  begins : (∀ c ∈ near.getLast?, Text.isBlank c = false) ∨ EndsBehind near right far
  boundary : far = [] ∨ ∃ x, x.toNat < 128 ∧ (far.head? = some x ∨ near.getLast? = some x)
  alone : followsPercent (far.map code) = false → EndsHere near right →
    (walk {} (near.map code) []).start = 0 ∧
      (walk {} (near.map code) []).members = (walk {} ((near ++ far).map code) right).members

/-- Behind blanks that were crossed the chain starts at the first byte that is none, if not
at the cursor. -/
theorem cutAtStart_blanks
    {near far : List Char} {c : Char}
    (hreach : reach {} ((c :: far).map code) (near.map code) right = some s)
    (hin : s.inBlanks = true)
    (hwalk : walk {} ((near ++ c :: far).map code) right =
      ⟨far.length + 1 + leadingBlanks (near.reverse.map code ++ right), s.members,
        s.leftOfHead⟩) :
    CutAtStart (near.reverse.dropWhile Text.isBlank).reverse
      ((near.reverse.takeWhile Text.isBlank).reverse ++ c :: far) right := by
  let core := (near.reverse.dropWhile Text.isBlank).reverse
  let blanks := (near.reverse.takeWhile Text.isBlank).reverse
  have hnear : near = core ++ blanks := by
    rw [← List.reverse_append, List.takeWhile_append_dropWhile, List.reverse_reverse]
  have hblanks : ∀ d ∈ blanks, Text.isBlank d = true := by
    intro d hd
    exact List.mem_takeWhile_imp (List.mem_reverse.1 hd)
  have hlength : min (leadingBlanks (near.reverse.map code ++ right)) near.length =
      blanks.length := by
    rw [List.length_reverse, ← min_leadingBlanks, List.length_reverse]
  obtain ⟨front, d, hfront, hd⟩ := exists_blank_of_reach hreach rfl hin
  obtain ⟨e, rest, hhead⟩ : ∃ e rest, blanks = e :: rest := by
    apply List.exists_cons_of_ne_nil
    simp [blanks, hfront, hd]
  have he : Text.isBlank e = true := hblanks e (hhead ▸ List.mem_cons_self)
  have hall : core ++ (blanks ++ c :: far) = near ++ c :: far := by
    rw [← List.append_assoc, ← hnear]
  change CutAtStart core (blanks ++ c :: far) right
  refine ⟨?_, Or.inl fun d hd => ?_,
    Or.inr ⟨e, toNat_lt_of_isBlank he, Or.inl (by rw [hhead]; rfl)⟩, fun _ hends => ?_⟩
  · rw [hall, hwalk]
    have htotal := congrArg List.length hnear
    simp only [List.length_append, List.length_cons] at htotal ⊢
    omega
  · rw [List.getLast?_reverse] at hd
    have hfirst := List.head?_dropWhile_not Text.isBlank near.reverse
    rw [hd] at hfirst
    simpa using hfirst
  · rw [hnear, List.map_append, reach_append, Option.bind_eq_some_iff] at hreach
    obtain ⟨s₁, hcore, hcrossed⟩ := hreach
    rw [hhead, reach_blanks (hhead ▸ hblanks) (unclosed_of_reach rfl hcore)] at hcrossed
    obtain rfl := Option.some.inj hcrossed
    rw [hall, hwalk]
    refine walk_alone hcore ?_ hends
    rw [hhead]
    exact leftAlike_nil_of_cutsView (cutsView_of_isBlank he) _

theorem exists_cutAtStart (l : List Char) (right : List Cell) :
    ∃ near far, l = near ++ far ∧ CutAtStart near far right := by
  rcases walk_cases {} l right with
    ⟨s, hreach, hwalk⟩ | ⟨near, c, far, s, start, s', rfl, hreach, hstep, hwalk⟩
  · refine ⟨l, [], (List.append_nil l).symm, ?_, Or.inr (.beginning hreach), Or.inl rfl,
      fun _ hends => ?_⟩
    · rw [List.append_nil, hwalk]
      exact Nat.zero_min _
    · rw [List.append_nil, hwalk]
      exact walk_alone hreach (.refl []) hends
  · have hstop := stopsAt_of_step (unclosed_of_reach rfl hreach) hstep
    cases hstop with
    | behindBlanks hin =>
        refine ⟨_, _, ?_, cutAtStart_blanks hreach hin hwalk⟩
        rw [← List.append_assoc, ← List.reverse_append, List.takeWhile_append_dropWhile,
          List.reverse_reverse]
    | behindMark hmark hgo hmembers =>
        obtain ⟨hascii, hview, -, -⟩ := hmark.classes
        refine ⟨near, c :: far, rfl, ?_, Or.inr (.mark hreach hmark hgo),
          Or.inr ⟨c, hascii, Or.inl rfl⟩, fun hpercent hends => ?_⟩
        · rw [hwalk]
          simp
        · have hc : cutsView c = true :=
            hview.resolve_left (beq_eq_false_iff_ne.1 hpercent)
          rw [hwalk, hmembers]
          exact walk_alone hreach (leftAlike_nil_of_cutsView hc _) hends
    | onSigil sigil rest hsigil hsplit hat hnesting hgo =>
        have hall : near ++ c :: far = near ++ sigil.text.reverse ++ rest := by
          rw [hsplit, List.append_assoc]
        refine ⟨near ++ sigil.text.reverse, rest, hall, ?_, Or.inl ?_, ?_, fun hpercent hends => ?_⟩
        · rw [← hall, hwalk, hall]
          simp only [List.length_append]
          omega
        · cases sigil with
          | none => exact absurd rfl hsigil
          | single => simp [Sigil.text, Text.isBlank]
          | double => simp [Sigil.text, Text.isBlank]
          | dollar => simp [Sigil.text, Text.isBlank]
        · cases sigil with
          | none => exact absurd rfl hsigil
          | single => exact Or.inr ⟨'@', by decide, Or.inr (by simp [Sigil.text])⟩
          | double => exact Or.inr ⟨'@', by decide, Or.inr (by simp [Sigil.text])⟩
          | dollar => exact Or.inr ⟨'$', by decide, Or.inr (by simp [Sigil.text])⟩
        · have hread : walk {} ((near ++ c :: far).map code) right =
              walk s ((c :: far).map code) (near.reverse.map code ++ right) := by
            rw [List.map_append, walk_of_reach hreach, List.map_reverse]
          rw [hsplit] at hreach hread
          rw [← hall, hsplit, hread]
          exact walk_sigil_alone hsigil hreach hat hnesting hgo hpercent hends.of_append

/-! ## Texts -/

/-- The text before a cursor is cut as its bytes are where the chain starts. -/
theorem CutAtStart.exists_parts
    {near far before : List Char} (h : CutAtStart near far right)
    (hbytes : (bytes before).reverse = near ++ far) :
    ∃ dropped phrase, before = dropped ++ phrase ∧ (bytes dropped).reverse = far ∧
      (bytes phrase).reverse = near := by
  have hforward : bytes before = far.reverse ++ near.reverse := by
    rw [← List.reverse_append, ← hbytes, List.reverse_reverse]
  rcases h.boundary with rfl | ⟨x, hx, hfar | hnear⟩
  · exact ⟨[], before, rfl, rfl, by rw [hbytes, List.append_nil]⟩
  · obtain ⟨rest, rfl⟩ := List.head?_eq_some_iff.1 hfar
    rw [List.reverse_cons, List.append_assoc, List.singleton_append] at hforward
    obtain ⟨u, v, rfl, hu, hv⟩ := Text.exists_cut_of_ascii hforward hx
    refine ⟨u ++ [x], v, by simp, ?_, by rw [hv, List.reverse_reverse]⟩
    rw [bytes_append, hu, bytes_singleton_of_ascii hx]
    simp
  · obtain ⟨rest, rfl⟩ := List.getLast?_eq_some_iff.1 hnear
    rw [List.reverse_append, List.reverse_singleton, List.singleton_append] at hforward
    obtain ⟨u, v, rfl, hu, hv⟩ := Text.exists_cut_of_ascii hforward hx
    refine ⟨u, x :: v, rfl, by rw [hu, List.reverse_reverse], ?_⟩
    rw [bytes_cons_of_ascii hx, hv]
    simp

theorem stands_of_isBare
    {b : Buffer} (hb : b.IsBare) {before after : List Char} (htext : b.text = before ++ after)
    (offset : Nat) :
    Stands b offset ((bytes before).reverse.map code) ((bytes after).map code) := by
  constructor
  have hscene : scene b offset = (bytes b.text).map code := by
    apply List.ext_getElem?
    intro i
    rw [scene, List.getElem?_mapIdx, List.getElem?_map, hb.comments i, hb.strings i]
    rfl
  rw [hscene, htext, bytes_append, List.map_append, ← List.map_reverse, List.reverse_reverse]

theorem endsHere_of_stands
    {b : Buffer} {offset : Nat} {near : List Char} (h : Stands b offset (near.map code) right)
    (hlength : near.length = offset)
    (hends : (∀ i c, i + 1 = offset → b.byte? i = some c → Text.isBlank c = false) ∨
      ¬b.GoesOnWithDot offset) :
    EndsHere near right := by
  rcases hends with hblank | hdot
  · refine Or.inl fun c hc => ?_
    obtain ⟨rest, rfl⟩ := List.head?_eq_some_iff.1 hc
    apply hblank (rest.map code).length c
    · rw [List.length_map]
      exact hlength
    · exact h.nearest.1
  · refine Or.inr (eq_false_of_ne_true fun hgo => hdot ?_)
    have hgoes := h.continuesChain_iff.1 hgo
    rwa [List.length_map, hlength] at hgoes

end Caret.Signature

namespace Caret

theorem Cursor.phrase_of_start
    {b : Buffer} {dropped phrase : List Char} (after : List Char)
    (hstart : min (Signature.walkFrom b (Text.byteLength (dropped ++ phrase))).start
      (Text.byteLength (dropped ++ phrase)) = Text.byteLength dropped) :
    Cursor.phrase ⟨dropped ++ phrase, after⟩ b = phrase ∧
      Cursor.signatureStart ⟨dropped ++ phrase, after⟩ b = Text.byteLength dropped := by
  have hsame : min (Signature.walkFrom b (Text.byteLength (dropped ++ phrase))).start
        (Text.byteLength (dropped ++ phrase)) =
      min (Text.byteLength dropped) (Text.byteLength (dropped ++ phrase)) := by
    rw [hstart, Text.byteLength_append]
    omega
  have hphrase : Cursor.phrase ⟨dropped ++ phrase, after⟩ b = phrase := by
    rw [Cursor.phrase, offset, Text.dropBytes_congr hsame, Text.dropBytes_append]
  refine ⟨hphrase, ?_⟩
  rw [signatureStart, hphrase, offset, Text.byteLength_append, Nat.add_sub_cancel]

theorem Cursor.phrase_of_cutAtStart
    {b : Buffer} (hb : b.IsBare) {dropped phrase after : List Char}
    (htext : b.text = dropped ++ phrase ++ after)
    (hcut : Signature.CutAtStart (Signature.bytes phrase).reverse (Signature.bytes dropped).reverse
      ((Signature.bytes after).map Signature.code)) :
    Cursor.phrase ⟨dropped ++ phrase, after⟩ b = phrase ∧
      Cursor.signatureStart ⟨dropped ++ phrase, after⟩ b = Text.byteLength dropped := by
  have hstart := hcut.start
  rw [← List.reverse_append, ← Signature.bytes_append, ← Signature.walkFrom_eq hb htext,
    List.length_reverse, List.length_reverse, Signature.length_bytes, Signature.length_bytes]
    at hstart
  exact phrase_of_start after hstart

/-- In a buffer of plain code the phrase before a cursor, in a buffer of its own, has the same
signature at its end and is the same phrase there, unless a percent sign stands in front of
it, or the cursor is behind a blank and a dot follows after any blanks. -/
theorem Cursor.phrase_selfContained
    {b b' : Buffer} (hb : b.IsBare) (hb' : b'.IsBare) {offset : Nat} {c : Cursor}
    (hc : b.cursor offset = .ok c)
    (hpercent : ∀ i, i + 1 = c.signatureStart b → b.byte? i ≠ some '%')
    (hends : (∀ i x, i + 1 = offset → b.byte? i = some x → Text.isBlank x = false) ∨
      ¬b.GoesOnWithDot offset)
    (htext' : b'.text = Text.slice b.text (c.signatureStart b) offset) :
    ∃ c', b'.cursor b'.length = .ok c' ∧ c'.signature b' = c.signature b ∧
      c'.signatureStart b' = 0 ∧ c'.phrase b' = c.phrase b ∧ c.phrase b = b'.text := by
  obtain ⟨htext, rfl⟩ := Buffer.cursor_eq_ok_iff.1 hc
  obtain ⟨before, after⟩ := c
  obtain ⟨near, far, hbytes, hcut⟩ :=
    Signature.exists_cutAtStart (Signature.bytes before).reverse
      ((Signature.bytes after).map Signature.code)
  obtain ⟨dropped, phrase, rfl, rfl, rfl⟩ := hcut.exists_parts hbytes
  obtain ⟨hphrase, hbegin⟩ := phrase_of_cutAtStart hb htext hcut
  have hslice : b'.text = phrase := by
    rw [htext', hbegin, htext, offset, Text.byteLength_append, List.append_assoc,
      Text.slice_byteLength]
  have hstands := Signature.stands_of_isBare hb htext (Text.byteLength (dropped ++ phrase))
  have hlength : (Signature.bytes (dropped ++ phrase)).reverse.length =
      Text.byteLength (dropped ++ phrase) := by
    rw [List.length_reverse, Signature.length_bytes]
  have hhere := Signature.endsHere_of_stands hstands hlength hends
  rw [hbytes] at hstands hhere
  rw [List.map_append] at hstands
  have hfront := Signature.followsPercent_eq_false hstands.cross fun i hi =>
    hpercent i (by simpa [hbegin] using hi)
  obtain ⟨hstart, hmembers⟩ := hcut.alone hfront hhere.of_append
  have halone : Signature.walkFrom b' (Cursor.offset ⟨b'.text, []⟩) =
      Signature.walk {} ((Signature.bytes phrase).reverse.map Signature.code) [] := by
    rw [← hslice]
    exact Signature.walkFrom_eq hb' (List.append_nil b'.text).symm
  have hphrase' : Cursor.phrase ⟨b'.text, []⟩ b' = phrase := by
    rw [Cursor.phrase, halone, hstart, hslice, Text.dropBytes]
  refine ⟨⟨b'.text, []⟩, b'.cursor_length, ?_, ?_, ?_, ?_⟩
  · rw [signature, signature, Signature.withReceiver_eq hb', Signature.withReceiver_eq hb, halone,
      hmembers, ← hbytes, offset, Signature.walkFrom_eq hb htext]
  · rw [signatureStart, hphrase', offset, hslice, Nat.sub_self]
  · rw [hphrase', hphrase]
  · rw [hphrase, hslice]

/-- A call over two lines on a class variable right behind a letter, with the next call behind
a blank. -/
theorem Cursor.phrase_behindLetter :
    let b := Sketch.toBuffer { text := "x = é@@list[f(%)]\n .map\x7b |v| v \x7d.fi .st".toList }
    let b' := Sketch.toBuffer { text := "@@list[f(%)]\n .map\x7b |v| v \x7d.fi".toList }
    b.IsBare ∧ b'.IsBare ∧ ∃ c, b.cursor 36 = .ok c ∧ c.signatureStart b = 6 ∧
      b.byte? 5 ≠ some '%' ∧ b.byte? 35 = some 'i' ∧ b'.text = Text.slice b.text 6 36 ∧
      ∃ c', b'.cursor 30 = .ok c' ∧ c'.signature b' = c.signature b ∧
        c'.signatureStart b' = 0 ∧ c'.phrase b' = c.phrase b ∧ c.phrase b = b'.text ∧
        c.signature b = "@@list.[].map.fi".toList := by
  intro b b'
  have hb : b.IsBare := Sketch.isBare_toBuffer _
  have hb' : b'.IsBare := Sketch.isBare_toBuffer _
  let c : Cursor := ⟨"x = é@@list[f(%)]\n .map\x7b |v| v \x7d.fi".toList, " .st".toList⟩
  have hcut : b.text = c.before ++ c.after := by decide
  have hc : b.cursor 36 = .ok c := Buffer.cursor_eq_ok_iff.2 ⟨hcut, by decide⟩
  have hstart : c.signatureStart b = 6 := by
    rw [signatureStart, phrase, offset, Signature.walkFrom_eq hb hcut]
    decide
  have hread : c.signature b = "@@list.[].map.fi".toList := by
    rw [signature, Signature.withReceiver_eq hb, offset, Signature.walkFrom_eq hb hcut]
    decide
  have hfront : b.byte? 5 ≠ some '%' := by decide
  have hlast : b.byte? 35 = some 'i' := by decide
  have htext : b'.text = Text.slice b.text 6 36 := by decide
  have hpercent : ∀ i, i + 1 = c.signatureStart b → b.byte? i ≠ some '%' := by
    intro i hi
    obtain rfl : i = 5 := by omega
    exact hfront
  have hends : ∀ i x, i + 1 = 36 → b.byte? i = some x → Text.isBlank x = false := by
    intro i x hi hx
    obtain rfl : i = 35 := by omega
    rw [hlast] at hx
    obtain rfl := Option.some.inj hx
    rfl
  obtain ⟨c', hc', hsignature, hstart', hphrase, hslice⟩ :=
    Cursor.phrase_selfContained hb hb' hc hpercent (Or.inl hends) (by rw [hstart]; exact htext)
  have hlength : b'.length = 30 := by decide
  rw [hlength] at hc'
  exact ⟨hb, hb', c, hc, hstart, hfront, hlast, htext, c', hc', hsignature, hstart', hphrase,
    hslice, hread⟩

end Caret
