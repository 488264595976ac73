import Caret.Proofs.Signature.Chain

/-!
# What arguments leave in a signature

Two walks over texts that differ only inside of one pair of round or curly
brackets are compared.  The signatures can differ in one way only: a square
group in the arguments leaves an index in the chain, although it is none of its
links.  The main statement says exactly when the signatures are equal.
-/

namespace Caret.Signature

/-! ## Two walks side by side -/

/-- Two states that differ at most in the chains found so far. -/
structure State.Abreast (s t : State) : Prop where
  nesting : s.nesting = t.nesting
  inBlanks : s.inBlanks = t.inBlanks

/-- Two states have become two others by the same addition to their chains. -/
def State.GrowAlike (s t s' t' : State) : Prop :=
  ∃ text, s'.members = text ++ s.members ∧ t'.members = text ++ t.members

theorem State.GrowAlike.trans
    {s t s₁ t₁ s₂ t₂ : State} (h₁ : s.GrowAlike t s₁ t₁) (h₂ : s₁.GrowAlike t₁ s₂ t₂) :
    s.GrowAlike t s₂ t₂ := by
  obtain ⟨text₁, hs₁, ht₁⟩ := h₁
  obtain ⟨text₂, hs₂, ht₂⟩ := h₂
  exact ⟨text₂ ++ text₁, by rw [hs₂, hs₁, List.append_assoc], by rw [ht₂, ht₁, List.append_assoc]⟩

/-- Steps that do the same to two states: both go on or both end the walk. -/
inductive Step.Alike (s t : State) : Step → Step → Prop
  | next {s' t' : State} : s'.Abreast t' → s.GrowAlike t s' t' → Alike s t (.next s') (.next t')
  | done {s' t' : State} (m n : Nat) : s.GrowAlike t s' t' → Alike s t (.done m s') (.done n t')

/-- Whatever stands in between, a byte sees the same to its left in front of
either list of bytes. -/
structure LeftAlike (left left' : List Cell) : Prop where
  percent : ∀ near, followsPercent (near ++ left) = followsPercent (near ++ left')
  sigil : ∀ near, followsAt (near ++ left) = followsAt (near ++ left')
  literal : ∀ near, opensPercentLiteral (near ++ left) = opensPercentLiteral (near ++ left')

/-- Whatever stands in between, the chain goes on to the right behind either
list of bytes, or behind none. -/
def RightAlike (right right' : List Cell) : Prop :=
  ∀ near, continuesChain (near ++ right) = continuesChain (near ++ right')

theorem LeftAlike.refl (left : List Cell) : LeftAlike left left :=
  ⟨fun _ => rfl, fun _ => rfl, fun _ => rfl⟩

theorem LeftAlike.append {left left' : List Cell} (h : LeftAlike left left') (near : List Cell) :
    LeftAlike (near ++ left) (near ++ left') where
  percent front := by simpa using h.percent (front ++ near)
  sigil front := by simpa using h.sigil (front ++ near)
  literal front := by simpa using h.literal (front ++ near)

theorem RightAlike.cons {right right' : List Cell} (h : RightAlike right right') (c : Cell) :
    RightAlike (c :: right) (c :: right') := by
  intro near
  simpa using h (near ++ [c])

/-- Blanks crossed do not change whether the chain goes on behind them. -/
theorem rightAlike_of_continuesChain
    {right right' : List Cell} (h : continuesChain right = continuesChain right') :
    RightAlike right right' := by
  intro near
  induction near with
  | nil => exact h
  | cons d near ih =>
      rw [List.cons_append, List.cons_append, continuesChain_cons, continuesChain_cons, ih]

theorem State.growAlike_prepend
    {s t s' t' : State} (h : s.GrowAlike t s' t') (text : List Char) (left left' : List Cell) :
    s.GrowAlike t (s'.prepend text left) (t'.prepend text left') := by
  obtain ⟨added, hs, ht⟩ := h
  exact ⟨text ++ added, by simp [prepend, hs], by simp [prepend, ht]⟩

theorem State.growAlike_addIndex
    {s t : State} (h : s.nesting = t.nesting) {left left' : List Cell}
    (hleft : LeftAlike left left') (c : Cell) :
    s.GrowAlike t (s.addIndex c left) (t.addIndex c left') := by
  have hliteral := hleft.literal []
  simp only [List.nil_append] at hliteral
  simp only [addIndex, h, hliteral]
  split
  · exact growAlike_prepend ⟨[], rfl, rfl⟩ _ _ _
  · exact ⟨[], rfl, rfl⟩

theorem State.growAlike_addMember
    (s t : State) {left left' : List Cell} (hleft : LeftAlike left left') (c : Cell) :
    s.GrowAlike t (s.addMember c left) (t.addMember c left') := by
  have hpercent := hleft.percent []
  simp only [List.nil_append] at hpercent
  simp only [addMember, hpercent]
  split
  · exact growAlike_prepend ⟨[], rfl, rfl⟩ _ _ _
  · exact ⟨[], rfl, rfl⟩

theorem crossCode_alike
    {s t : State} (h : s.nesting = t.nesting) {left left' : List Cell}
    (hleft : LeftAlike left left') (c : Cell) :
    Step.Alike s t (crossCode c left s) (crossCode c left' t) := by
  have hsigil := hleft.sigil []
  have hindex := State.growAlike_addIndex h hleft c
  have hmember := hindex.trans
    (State.growAlike_addMember (s.addIndex c left) (t.addIndex c left') hleft c)
  simp only [List.nil_append] at hsigil
  simp only [crossCode_eq, h, hsigil]
  split
  · split
    · exact .done _ _ hindex
    split
    · exact .done _ _ hmember
    split
    · split
      · exact .done _ _ (hmember.trans ⟨['@'], rfl, rfl⟩)
      · exact .done _ _ hmember
    · exact .next ⟨by simp [h], rfl⟩ hmember
  split
  · exact .done _ _ hindex
  · exact .next ⟨by simp [h], rfl⟩ hindex

/-- A step looks at the nesting, at blanks crossed, to the left, and behind blanks to the
right. -/
theorem step_alike
    {s t : State} (h : s.Abreast t) {left left' right right' : List Cell}
    (hleft : LeftAlike left left')
    (hright : s.inBlanks = true → continuesChain right = continuesChain right') (c : Cell) :
    Step.Alike s t (step c left right s) (step c left' right' t) := by
  have hcross := crossCode_alike h.nesting hleft c
  have hstay : s.GrowAlike t s t := ⟨[], rfl, rfl⟩
  have hblocked : (s.nesting.balanced && s.inBlanks && c.char != '.' && !continuesChain right) =
      (t.nesting.balanced && t.inBlanks && c.char != '.' && !continuesChain right') := by
    rw [← h.nesting, ← h.inBlanks]
    cases hin : s.inBlanks with
    | false => simp
    | true => rw [hright hin]
  simp only [step, hblocked]
  simp only [h.nesting, h.inBlanks]
  split
  · exact .done _ _ hstay
  split
  · exact .next h hstay
  split
  · exact .next ⟨rfl, rfl⟩ hstay
  split
  · exact .done _ _ hstay
  split
  · exact .next ⟨rfl, rfl⟩ hstay
  · exact hcross

/-- The state in which the walk leaves the bytes `near`, with `left` in front of
them, unless it ends among them. -/
def reach (s : State) (left : List Cell) : List Cell → List Cell → Option State
  | [], _ => some s
  | c :: near, right =>
    match step c (near ++ left) right s with
    | .next s' => reach s' left near (c :: right)
    | .done _ _ => none

theorem walk_of_reach
    {s s' : State} {left near right : List Cell} (h : reach s left near right = some s') :
    walk s (near ++ left) right = walk s' left (near.reverse ++ right) := by
  induction near generalizing s right with
  | nil =>
      obtain rfl := Option.some.inj h
      rfl
  | cons c near ih =>
      rw [reach] at h
      rw [List.cons_append, walk]
      cases hstep : step c (near ++ left) right s with
      | done start s₁ => simp [hstep] at h
      | next s₁ =>
          rw [hstep] at h
          simp only [ih h]
          simp

/-- Two walks over the same bytes either end among them with the same addition
to their chains, or leave them abreast, if behind the first byte they see the same. -/
theorem reach_alike_of_first
    {s t : State} (h : s.Abreast t) {left left' right right' : List Cell}
    (hleft : LeftAlike left left')
    (hright : s.inBlanks = true → continuesChain right = continuesChain right')
    (near : List Cell) (hfirst : ∀ c ∈ near.head?, RightAlike (c :: right) (c :: right')) :
    (reach s left near right = none ∧ reach t left' near right' = none ∧
      ∃ text, (walk s (near ++ left) right).members = text ++ s.members ∧
        (walk t (near ++ left') right').members = text ++ t.members) ∨
    ∃ s' t', reach s left near right = some s' ∧ reach t left' near right' = some t' ∧
      s'.Abreast t' ∧ s.GrowAlike t s' t' := by
  -- Each byte passed moves to the right of the walk, where it stays alike.
  induction near generalizing s t right right' with
  | nil => exact Or.inr ⟨s, t, rfl, rfl, h, [], rfl, rfl⟩
  | cons c near ih =>
      have hstep := step_alike h (hleft.append near) hright c
      have hbehind := hfirst c rfl
      have hchain : continuesChain (c :: right) = continuesChain (c :: right') := hbehind []
      simp only [reach, List.cons_append, walk]
      generalize step c (near ++ left) right s = x at hstep ⊢
      generalize step c (near ++ left') right' t = y at hstep ⊢
      cases hstep with
      | done m n hgrow => exact Or.inl ⟨rfl, rfl, hgrow⟩
      | @next s₁ t₁ hside hgrow =>
          rcases ih hside (fun _ => hchain) (fun d _ => hbehind.cons d) with
            ⟨hs, ht, text, hms, hmt⟩ | ⟨s', t', hs, ht, hside', hgrow'⟩
          · obtain ⟨added, hs₁, ht₁⟩ := hgrow
            refine Or.inl ⟨hs, ht, text ++ added, ?_, ?_⟩
            · rw [hms, hs₁, List.append_assoc]
            · rw [hmt, ht₁, List.append_assoc]
          · exact Or.inr ⟨s', t', hs, ht, hside', hgrow.trans hgrow'⟩

theorem reach_alike
    {s t : State} (h : s.Abreast t) {left left' right right' : List Cell}
    (hleft : LeftAlike left left') (hright : RightAlike right right') (near : List Cell) :
    (reach s left near right = none ∧ reach t left' near right' = none ∧
      ∃ text, (walk s (near ++ left) right).members = text ++ s.members ∧
        (walk t (near ++ left') right').members = text ++ t.members) ∨
    ∃ s' t', reach s left near right = some s' ∧ reach t left' near right' = some t' ∧
      s'.Abreast t' ∧ s.GrowAlike t s' t' :=
  reach_alike_of_first h hleft (fun _ => hright []) near fun c _ => hright.cons c

/-- Two walks over the same bytes to the beginning of the text make the same
addition to their chains. -/
theorem walk_alike
    {s t : State} (h : s.Abreast t) {right right' : List Cell} (hright : RightAlike right right')
    (near : List Cell) :
    ∃ text, (walk s near right).members = text ++ s.members ∧
      (walk t near right').members = text ++ t.members := by
  rcases reach_alike h (.refl []) hright near with
    ⟨-, -, hends⟩ | ⟨s', t', hs, ht, -, hgrow⟩
  · simpa using hends
  · have hws := walk_of_reach hs
    have hwt := walk_of_reach ht
    simp only [List.append_nil] at hws hwt
    rw [hws, hwt]
    exact hgrow

theorem unclosed_of_balanced {n : Nesting} (hn : n.balanced = true) : n.unclosed = false := by
  simp only [Nesting.balanced, Bool.and_eq_true, beq_iff_eq] at hn
  simp [Nesting.unclosed, hn]

theorem unclosed_of_crossCode
    {c : Cell} {left : List Cell} {s s' : State} (h : crossCode c left s = .next s') :
    s'.nesting.unclosed = false := by
  have hnesting (u : State) : ({ u with inBlanks := false } : State).nesting = u.nesting := rfl
  simp only [crossCode_eq] at h
  cases hbalanced : (s.nesting.cross c.char).balanced with
  | true =>
      simp only [hbalanced, if_true] at h
      split_ifs at h
      obtain rfl := Step.next.inj h
      rw [hnesting, State.addMember_nesting, State.addIndex_nesting]
      exact unclosed_of_balanced hbalanced
  | false =>
      simp only [hbalanced, Bool.false_eq_true, if_false] at h
      split_ifs at h with hunclosed
      obtain rfl := Step.next.inj h
      rw [hnesting, State.addIndex_nesting]
      exact eq_false_of_ne_true hunclosed

/-- No opener is unclosed while the walk goes on. -/
theorem unclosed_of_step
    {c : Cell} {left right : List Cell} {s s' : State} (hs : s.nesting.unclosed = false)
    (h : step c left right s = .next s') :
    s'.nesting.unclosed = false := by
  unfold step at h
  split_ifs at h
  · obtain rfl := Step.next.inj h
    exact hs
  · obtain rfl := Step.next.inj h
    exact hs
  · obtain rfl := Step.next.inj h
    exact hs
  · exact unclosed_of_crossCode h

theorem unclosed_of_reach
    {s s' : State} {left near right : List Cell} (hs : s.nesting.unclosed = false)
    (h : reach s left near right = some s') :
    s'.nesting.unclosed = false := by
  induction near generalizing s right with
  | nil =>
      obtain rfl := Option.some.inj h
      exact hs
  | cons c near ih =>
      rw [reach] at h
      cases hstep : step c (near ++ left) right s with
      | done start s₁ => simp [hstep] at h
      | next s₁ =>
          rw [hstep] at h
          exact ih (unclosed_of_step hs hstep) h

/-! ## Brackets cut off the view -/

/-- Characters that are no part of what a byte looks for to its left. -/
def cutsView (c : Char) : Bool :=
  c != '%' && c != '@' && !c.isAlpha

theorem cutsView_iff {c : Char} :
    cutsView c = true ↔ (c == '%') = false ∧ (c == '@') = false ∧ c.isAlpha = false := by
  simp [cutsView, and_assoc]

theorem cutsView_of_mem_all {c : Char} (hc : c ∈ Bracket.all) : cutsView c = true :=
  forall_mem_of_all (p := fun c => cutsView c = true) (by decide) c hc

theorem opensPercentLiteral_append_of_cutsView
    {c d : Char} (hc : cutsView c = true) (hd : cutsView d = true) (near left left' : List Cell) :
    opensPercentLiteral (near ++ (code c :: left)) =
      opensPercentLiteral (near ++ (code d :: left')) := by
  rw [cutsView_iff] at hc hd
  match near with
  | [] => cases left <;> cases left' <;> simp [opensPercentLiteral, code, hc, hd]
  | [e] => simp [opensPercentLiteral, code, hc.1, hd.1]
  | _ :: _ :: _ => rfl

/-- No byte sees past such a character to its left, nor which one it is. -/
theorem leftAlike_of_cutsView
    {c d : Char} (hc : cutsView c = true) (hd : cutsView d = true) (left left' : List Cell) :
    LeftAlike (code c :: left) (code d :: left') := by
  have hliteral := opensPercentLiteral_append_of_cutsView hc hd
  rw [cutsView_iff] at hc hd
  refine ⟨fun near => ?_, fun near => ?_, fun near => hliteral near left left'⟩
  · cases near with
    | nil => exact hc.1.trans hd.1.symm
    | cons e near => rfl
  · cases near with
    | nil => exact hc.2.1.trans hd.2.1.symm
    | cons e near => rfl

theorem leftAlike_bracket {c : Char} (hc : c ∈ Bracket.all) (left left' : List Cell) :
    LeftAlike (code c :: left) (code c :: left') :=
  leftAlike_of_cutsView (cutsView_of_mem_all hc) (cutsView_of_mem_all hc) left left'

theorem rightAlike_bracket {c : Char} (hc : c ∈ Bracket.all) (right right' : List Cell) :
    RightAlike (code c :: right) (code c :: right') := by
  have hblank : Text.isBlank c = false :=
    forall_mem_of_all (p := fun c => Text.isBlank c = false) (by decide) c hc
  apply rightAlike_of_continuesChain
  simp [continuesChain, code, hblank]

theorem indexCount_bracket
    {c d : Char} (hc : c ∈ Bracket.all) (hd : d ∈ Bracket.all)
    (depth : Nat) (left left' : List Cell) (near : List Char) :
    indexCount depth (code c :: left) near = indexCount depth (code d :: left') near := by
  induction near generalizing depth with
  | nil => rfl
  | cons e near ih =>
      simp only [indexCount, ih, opensPercentLiteral_append_of_cutsView
        (cutsView_of_mem_all hc) (cutsView_of_mem_all hd) _ left left']

/-! ## Arguments -/

/-- The number of square groups in the text between round or curly brackets that
stand in no other square group and open no percent literal. -/
def exposedIndexes (inner : List Char) : Nat :=
  indexCount 0 [code '('] (bytes inner).reverse

/-- The state in which the walk from the end of `after` comes to the bracket
group in front of it. -/
def reachGroup (k : Bracket) (after : List Char) : Option State :=
  reach {} [code k.closer] ((bytes after).reverse.map code) []

/-- Whether the walk from the end of `after` crosses the bracket group in front
of it, outside of square brackets. -/
def entersGroup (k : Bracket) (after : List Char) : Bool :=
  match reachGroup k after with
  | none => false
  | some s =>
    s.nesting.square == 0 &&
      (!s.nesting.balanced || !s.inBlanks || continuesChain ((bytes after).map code))

/-- What stands in front of a group has no part in a walk that ends behind it. -/
theorem members_of_reachGroup_eq_none
    {k : Bracket} {after : List Char} (h : reachGroup k after = none) (left : List Cell) :
    (walk {} ((bytes after).reverse.map code ++ (code k.closer :: left)) []).members =
      (walk {} ((bytes after).reverse.map code ++ [code k.closer]) []).members := by
  rcases reach_alike (s := {}) (t := {}) ⟨rfl, rfl⟩
      (leftAlike_bracket k.closer_mem_all left []) (fun _ => rfl : RightAlike [] [])
      ((bytes after).reverse.map code) with
    ⟨-, -, text, hs, ht⟩ | ⟨s, t, -, ht, -⟩
  · rw [hs, ht]
  · rw [reachGroup, ht] at h
    exact absurd h (by simp)

/-- A walk that comes to a group is in the same state whatever stands in front
of it. -/
theorem walk_of_reachGroup_eq_some
    {k : Bracket} {after : List Char} {t : State} (h : reachGroup k after = some t)
    (left : List Cell) :
    ∃ s, walk {} ((bytes after).reverse.map code ++ (code k.closer :: left)) [] =
        walk s (code k.closer :: left) ((bytes after).map code) ∧
      s.Abreast t ∧ s.members = t.members := by
  rcases reach_alike (s := {}) (t := {}) ⟨rfl, rfl⟩
      (leftAlike_bracket k.closer_mem_all left []) (fun _ => rfl : RightAlike [] [])
      ((bytes after).reverse.map code) with
    ⟨-, ht, -⟩ | ⟨s, t', hs, ht, habreast, text, hms, hmt⟩
  · rw [reachGroup, ht] at h
    exact absurd h (by simp)
  · rw [reachGroup, ht] at h
    obtain rfl := Option.some.inj h
    refine ⟨s, ?_, habreast, hms.trans hmt.symm⟩
    rw [walk_of_reach hs]
    simp

/-- The walk crosses a group of round or curly brackets that it comes to, unless
blanks behind the group end it. -/
theorem walk_group
    {k : Bracket} (hk : k ≠ .square) {inner : List Char} (hinner : Nested inner)
    {s : State} (hs : s.nesting.unclosed = false) {right : List Cell}
    (hready : s.nesting.balanced = false ∨ s.Unblocked right) (left : List Cell) :
    ∃ s', walk s (code k.closer :: ((bytes inner).reverse.map code ++ (code k.opener :: left)))
        right = walk s' left (code k.opener :: ((bytes inner).map code ++ (code k.closer :: right))) ∧
      s'.nesting = s.nesting ∧ s'.inBlanks = false ∧
      s'.members =
        indexMarks (indexCount s.nesting.depth [code '('] (bytes inner).reverse) ++ s.members := by
  obtain ⟨s', hcollects, hnesting⟩ :=
    collects_group (crossedInside_of_nested hinner.bytes) k hs hready left
  have hcrosses := hcollects.crosses
  refine ⟨s', ?_, hnesting, hcollects.inBlanks, ?_⟩
  · simpa [Crosses] using hcrosses
  · have hreverse : ([k.opener] ++ (bytes inner ++ [k.closer])).reverse =
        [k.closer] ++ ((bytes inner).reverse ++ [k.opener]) := by
      simp
    have hplain : k.closer ≠ '[' ∧ k.closer ≠ ']' ∧ k.opener ≠ '[' := by
      cases k with
      | square => exact absurd rfl hk
      | round | curly => decide
    rw [hcollects.members, hreverse, indexCount_append, indexCount_append]
    simp [indexCount, squareDepth, hplain,
      indexCount_bracket k.opener_mem_all (Bracket.opener_mem_all .round) _ left []]
    rfl

/-- Blanks behind a group end the walk, if the chain does not go on behind
them. -/
theorem walk_closer_blocked
    {k : Bracket} {s : State} (hbalanced : s.nesting.balanced = true) {right : List Cell}
    (hblanks : s.inBlanks = true) (hright : continuesChain right = false) (left : List Cell) :
    (walk s (code k.closer :: left) right).members = s.members := by
  have hcloser : Text.isBlank k.closer = false ∧ k.closer ≠ '.' := by cases k <;> decide
  have hstep : step (code k.closer) left right s =
      .done (left.length + 1 + leadingBlanks right) s := by
    simp [step, code, hbalanced, hblanks, hright, hcloser]
  rw [walk, hstep]

theorem indexMarks_depth
    {n : Nesting} (hn : n.unclosed = false) {inner : List Char} (hinner : Nested inner) :
    indexMarks (indexCount n.depth [code '('] (bytes inner).reverse) =
      if n.square == 0 then indexMarks (exposedIndexes inner) else [] := by
  have hnonpos := Nesting.square_nonpos hn
  by_cases hzero : n.square = 0
  · simp [Nesting.depth, exposedIndexes, hzero]
  · obtain ⟨d, hd⟩ : ∃ d, n.depth = d + 1 := ⟨n.depth - 1, by unfold Nesting.depth; omega⟩
    simp [hd, indexCount_succ_of_nested hinner.bytes, indexMarks, hzero]

/-- What the walk adds to the chain in front of a group it has crossed does not
depend on what stands in the group. -/
theorem exists_members_of_crossed_group
    {k : Bracket} (hk : k ≠ .square) {t : State} (ht : t.nesting.unclosed = false)
    {right : List Cell} (hready : t.nesting.balanced = false ∨ t.Unblocked right)
    (far : List Cell) :
    ∃ front, ∀ {inner : List Char}, Nested inner → ∀ {s : State}, s.Abreast t →
      (walk s (code k.closer :: ((bytes inner).reverse.map code ++ (code k.opener :: far)))
          right).members =
        front ++ ((if t.nesting.square == 0 then indexMarks (exposedIndexes inner) else []) ++
          s.members) := by
  let u : State := { nesting := t.nesting }
  refine ⟨(walk u far [code k.opener]).members, fun {inner} hinner {s} hs => ?_⟩
  have hready' : s.nesting.balanced = false ∨ s.Unblocked right := by
    unfold State.Unblocked at hready ⊢
    rwa [hs.nesting, hs.inBlanks]
  obtain ⟨s', hwalk, hnesting, hblanks, hmembers⟩ :=
    walk_group hk hinner (hs.nesting ▸ ht) hready' far
  have hside : s'.Abreast u := ⟨hnesting.trans hs.nesting, hblanks⟩
  obtain ⟨text, hs', hu⟩ :=
    walk_alike hside
      (rightAlike_bracket k.opener_mem_all
        ((bytes inner).map code ++ (code k.closer :: right)) []) far
  rw [List.append_nil] at hu
  rw [hwalk, hs', hu, hmembers, hs.nesting, indexMarks_depth ht hinner]

theorem entersGroup_of_ready
    {k : Bracket} {after : List Char} {t : State} (hreach : reachGroup k after = some t)
    (hready : t.nesting.balanced = false ∨ t.Unblocked ((bytes after).map code)) :
    entersGroup k after = (t.nesting.square == 0) := by
  have hgo : (!t.nesting.balanced || !t.inBlanks ||
      continuesChain ((bytes after).map code)) = true := by
    rcases hready with hinside | hgo
    · simp [hinside]
    · cases hblanks : t.inBlanks with
      | false => simp
      | true => simp [hgo hblanks]
  simp [entersGroup, hreach, hgo]

/-- The signature behind a bracket group is made of two parts that do not depend
on what stands in the group, and between them of the indexes exposed there, if
the walk enters the group at all. -/
theorem exists_members_of_group
    {k : Bracket} (hk : k ≠ .square) (before after : List Char) :
    ∃ front back, ∀ {inner : List Char}, Nested inner →
      (walk {} ((bytes (before ++ k.opener :: (inner ++ k.closer :: after))).reverse.map code)
          []).members =
        front ++ ((if entersGroup k after then indexMarks (exposedIndexes inner) else []) ++
          back) := by
  let far := (bytes before).reverse.map code
  have hsplit (inner : List Char) :
      (bytes (before ++ k.opener :: (inner ++ k.closer :: after))).reverse.map code =
        (bytes after).reverse.map code ++
          (code k.closer :: ((bytes inner).reverse.map code ++ (code k.opener :: far))) := by
    simp [far, bytes_cons_of_ascii k.toNat_opener_lt, bytes_cons_of_ascii k.toNat_closer_lt]
  cases hreach : reachGroup k after with
  | none =>
      refine ⟨[], (walk {} ((bytes after).reverse.map code ++ [code k.closer]) []).members,
        fun {inner} _ => ?_⟩
      rw [hsplit, members_of_reachGroup_eq_none hreach]
      simp [entersGroup, hreach]
  | some t =>
      have ht : t.nesting.unclosed = false := unclosed_of_reach rfl hreach
      by_cases hready : t.nesting.balanced = false ∨ t.Unblocked ((bytes after).map code)
      · obtain ⟨front, hfront⟩ := exists_members_of_crossed_group hk ht hready far
        refine ⟨front, t.members, fun {inner} hinner => ?_⟩
        obtain ⟨s, hwalk, hside, hmembers⟩ :=
          walk_of_reachGroup_eq_some hreach
            ((bytes inner).reverse.map code ++ (code k.opener :: far))
        rw [hsplit, hwalk, hfront hinner hside, hmembers, entersGroup_of_ready hreach hready]
      · refine ⟨[], t.members, fun {inner} _ => ?_⟩
        obtain ⟨s, hwalk, hside, hmembers⟩ :=
          walk_of_reachGroup_eq_some hreach
            ((bytes inner).reverse.map code ++ (code k.opener :: far))
        have hblocked : t.nesting.balanced = true ∧ t.inBlanks = true ∧
            continuesChain ((bytes after).map code) = false := by
          simpa [State.Unblocked] using hready
        obtain ⟨hbalanced, hblanks, hchain⟩ := hblocked
        rw [hsplit, hwalk,
          walk_closer_blocked (hside.nesting ▸ hbalanced) (hside.inBlanks ▸ hblanks) hchain, hmembers]
        simp [entersGroup, hreach, hbalanced, hblanks, hchain]

end Caret.Signature

namespace Caret

theorem Cursor.signature_eq_of_isBare {b : Buffer} (hb : b.IsBare) :
    (⟨b.text, []⟩ : Cursor).signature b =
      (Signature.walk {} ((Signature.bytes b.text).reverse.map Signature.code) []).members := by
  have hend : b.text = b.text ++ [] := (List.append_nil b.text).symm
  rw [Cursor.signature, Cursor.offset, Signature.withReceiver_eq hb, Signature.walkFrom_eq hb hend]
  rfl

/-- The signatures behind two bracket groups that differ in their text are equal
just when the groups expose as many indexes as each other, or the walk does not
enter the groups. -/
theorem Cursor.signature_group_eq_iff
    {b₁ b₂ : Buffer} (hb₁ : b₁.IsBare) (hb₂ : b₂.IsBare) {k : Signature.Bracket}
    (hk : k ≠ .square) {before after inner₁ inner₂ : List Char}
    (hinner₁ : Signature.Nested inner₁) (hinner₂ : Signature.Nested inner₂)
    (htext₁ : b₁.text = before ++ k.opener :: (inner₁ ++ k.closer :: after))
    (htext₂ : b₂.text = before ++ k.opener :: (inner₂ ++ k.closer :: after)) :
    ∃ c₁ c₂, b₁.cursor b₁.length = .ok c₁ ∧ b₂.cursor b₂.length = .ok c₂ ∧
      (c₁.signature b₁ = c₂.signature b₂ ↔
        (Signature.entersGroup k after = true →
          Signature.exposedIndexes inner₁ = Signature.exposedIndexes inner₂)) := by
  obtain ⟨front, back, hmembers⟩ := Signature.exists_members_of_group hk before after
  refine ⟨⟨b₁.text, []⟩, ⟨b₂.text, []⟩, b₁.cursor_length, b₂.cursor_length, ?_⟩
  rw [signature_eq_of_isBare hb₁, signature_eq_of_isBare hb₂, htext₁, htext₂, hmembers hinner₁,
    hmembers hinner₂, List.append_right_inj, List.append_left_inj]
  cases Signature.entersGroup k after with
  | false => simp
  | true => simpa using Signature.indexMarks_inj

/-- Two argument lists with one index each, the one in a list of its own and the
other behind a percent literal. -/
theorem Cursor.signature_group_eq_of_single_indexes :
    let b₁ := Sketch.toBuffer { text := "foo(x, [[2]]).bar".toList }
    let b₂ := Sketch.toBuffer { text := "foo(%w[a], y[0]).bar".toList }
    b₁.IsBare ∧ b₂.IsBare ∧ ∃ c₁ c₂, b₁.cursor b₁.length = .ok c₁ ∧ b₂.cursor b₂.length = .ok c₂ ∧
      c₁.signature b₁ = c₂.signature b₂ := by
  have hb₁ := Sketch.isBare_toBuffer "foo(x, [[2]]).bar".toList
  have hb₂ := Sketch.isBare_toBuffer "foo(%w[a], y[0]).bar".toList
  have hdigit {w : List Char} (c : Char) (hc : c ∉ Signature.Bracket.all)
      (hw : Signature.Nested w) : Signature.Nested ('[' :: (c :: ']' :: w)) :=
    .group .square (.plain hc .nil) hw
  have hinner₁ : Signature.Nested "x, [[2]]".toList :=
    Signature.Nested.append_plain (v := "x, ".toList)
      (.group .square (hdigit '2' (by decide) .nil) .nil)
      (Signature.forall_mem_of_all (by decide))
  have hinner₂ : Signature.Nested "%w[a], y[0]".toList :=
    Signature.Nested.append_plain (v := "%w".toList)
      (hdigit 'a' (by decide)
        (Signature.Nested.append_plain (v := ", y".toList)
          (hdigit '0' (by decide) .nil) (Signature.forall_mem_of_all (by decide))))
      (Signature.forall_mem_of_all (by decide))
  have htext₁ : "foo(x, [[2]]).bar".toList = "foo".toList ++
      Signature.Bracket.round.opener :: ("x, [[2]]".toList ++
        Signature.Bracket.round.closer :: ".bar".toList) := by
    decide
  have htext₂ : "foo(%w[a], y[0]).bar".toList = "foo".toList ++
      Signature.Bracket.round.opener :: ("%w[a], y[0]".toList ++
        Signature.Bracket.round.closer :: ".bar".toList) := by
    decide
  obtain ⟨c₁, c₂, h₁, h₂, hiff⟩ :=
    Cursor.signature_group_eq_iff hb₁ hb₂ (by decide) hinner₁ hinner₂ htext₁ htext₂
  exact ⟨hb₁, hb₂, c₁, c₂, h₁, h₂, hiff.2 fun _ => by decide⟩

/-- An argument in square brackets leaves an index in the signature. -/
theorem Cursor.signature_of_list_argument :
    let b₁ := Sketch.toBuffer { text := "foo([1]).bar".toList }
    let b₂ := Sketch.toBuffer { text := "foo(1).bar".toList }
    b₁.IsBare ∧ b₂.IsBare ∧ Signature.Nested "[1]".toList ∧ Signature.Nested "1".toList ∧
      ∃ c₁ c₂, b₁.cursor b₁.length = .ok c₁ ∧ b₂.cursor b₂.length = .ok c₂ ∧
        c₁.signature b₁ = "foo.[].bar".toList ∧ c₂.signature b₂ = "foo.bar".toList := by
  have hb₁ := Sketch.isBare_toBuffer "foo([1]).bar".toList
  have hb₂ := Sketch.isBare_toBuffer "foo(1).bar".toList
  have hone : Signature.Nested "1".toList := .plain (by decide) .nil
  refine ⟨hb₁, hb₂, .group .square hone .nil, hone, _, _, Buffer.cursor_length _,
    Buffer.cursor_length _, ?_, ?_⟩
  · rw [signature_eq_of_isBare hb₁]
    decide
  · rw [signature_eq_of_isBare hb₂]
    decide

end Caret
