import Caret.Proofs.Signature.Start

/-!
# What the text behind the cursor decides

The walk looks to its right in one place only: over blanks, for a dot.  Two
buffers that are the same before a cursor therefore have the same signature
there, if behind it both go on with a dot after any blanks or neither does.
-/

namespace Caret

/-- From an offset on the text goes on with a dot after any blanks. -/
def Buffer.GoesOnWithDot (b : Buffer) (offset : Nat) : Prop :=
  ∃ blanks rest, (Signature.bytes b.text).drop offset = blanks ++ '.' :: rest ∧
    ∀ c ∈ blanks, Text.isBlank c = true

/-- Two buffers look the same to everything before an offset. -/
structure Buffer.SameBefore (b b' : Buffer) (offset : Nat) : Prop where
  bytes : ∀ i, i < offset → b.byte? i = b'.byte? i
  comments : ∀ i, i < offset → b.comments.covers i = b'.comments.covers i
  strings : ∀ i, i < offset → b.strings.covers i = b'.strings.covers i
  literals : ∀ i, i ≤ offset → b.literalBefore i = b'.literalBefore i

namespace Signature

variable {b b' : Buffer} {offset : Nat} {left right right' : List Cell} {s : State}

/-! ## Looking ahead -/

theorem Stands.continuesChain_iff (h : Stands b offset left right) :
    continuesChain right = true ↔ b.GoesOnWithDot left.length := by
  have happend := List.takeWhile_append_dropWhile (p := fun c : Cell => Text.isBlank c.char)
    (l := right)
  rw [Buffer.GoesOnWithDot, ← h.chars_right]
  constructor
  · intro hgo
    rw [continuesChain] at hgo
    cases hrest : right.dropWhile (Text.isBlank ·.char) with
    | nil => simp [hrest] at hgo
    | cons c rest =>
        rw [hrest] at hgo happend
        have hdot : c.char = '.' := beq_iff_eq.1 hgo
        refine ⟨(right.takeWhile (Text.isBlank ·.char)).map Cell.char, rest.map Cell.char, ?_, ?_⟩
        · rw [← hdot, ← List.map_cons, ← List.map_append, happend]
        · intro x hx
          obtain ⟨d, hd, rfl⟩ := List.mem_map.1 hx
          exact List.mem_takeWhile_imp (p := fun d : Cell => Text.isBlank d.char) hd
  · rintro ⟨blanks, rest, hright, hblanks⟩
    obtain ⟨near, far, rfl, hnear, hfar⟩ := List.map_eq_append_iff.1 hright
    obtain ⟨c, tail, rfl, hdot, -⟩ := List.map_eq_cons_iff.1 hfar
    have hall : ∀ d ∈ near, Text.isBlank d.char = true := by
      intro d hd
      exact hblanks _ (hnear ▸ List.mem_map_of_mem hd)
    rw [continuesChain, List.dropWhile_append_of_pos hall]
    simp [hdot, Text.isBlank]

/-- Blanks are counted alike in front of two lists of bytes, or all bytes before
them are blanks. -/
theorem leadingBlanks_append_cases (near right right' : List Cell) :
    leadingBlanks (near ++ right) = leadingBlanks (near ++ right') ∨
      near.length ≤ leadingBlanks (near ++ right) ∧
        near.length ≤ leadingBlanks (near ++ right') := by
  induction near with
  | nil => exact Or.inr ⟨Nat.zero_le _, Nat.zero_le _⟩
  | cons d near ih =>
      simp only [List.cons_append, leadingBlanks_cons]
      split
      · simp only [List.length_cons]
        omega
      · exact Or.inl rfl

/-! ## Two walks over the same bytes -/

/-- Steps that do the same, but may end the walk at different places from a
limit on. -/
inductive Step.SameUpTo (limit : Nat) : Step → Step → Prop where
  | next (s : State) : SameUpTo limit (.next s) (.next s)
  | done (s : State) {m n : Nat} : min m limit = min n limit →
      SameUpTo limit (.done m s) (.done n s)

theorem Step.SameUpTo.refl (limit : Nat) (x : Step) : SameUpTo limit x x := by
  cases x with
  | next s => exact .next s
  | done start s => exact .done s rfl

/-- Outcomes that differ at most in where the chain starts, from a limit on. -/
structure Outcome.SameUpTo (limit : Nat) (o o' : Outcome) : Prop where
  start : min o.start limit = min o'.start limit
  members : o.members = o'.members
  leftOfHead : o.leftOfHead = o'.leftOfHead

/-- A step with the bytes `near` to its right sees what stands behind them only
in whether the chain goes on there. -/
theorem step_sameUpTo
    (hright : continuesChain right = continuesChain right') (c : Cell) (left near : List Cell)
    (s : State) :
    Step.SameUpTo (left.length + 1 + near.length) (step c left (near ++ right) s)
      (step c left (near ++ right') s) := by
  have hchain := rightAlike_of_continuesChain hright near
  have hblanks := leadingBlanks_append_cases near right right'
  simp only [step, hchain]
  split
  · exact .refl _ _
  split
  · exact .refl _ _
  split
  · exact .refl _ _
  split
  · apply Step.SameUpTo.done
    omega
  · exact .refl _ _

/-- Two walks over the same bytes end alike, if the chain goes on behind the
cursor in both texts or in neither. -/
theorem walk_sameUpTo
    (hright : continuesChain right = continuesChain right') (s : State) (left near : List Cell) :
    Outcome.SameUpTo (left.length + near.length) (walk s left (near ++ right))
      (walk s left (near ++ right')) := by
  induction left generalizing s near with
  | nil => exact ⟨rfl, rfl, rfl⟩
  | cons c left ih =>
      have hstep := step_sameUpTo hright c left near s
      rw [List.length_cons, walk, walk]
      generalize step c left (near ++ right) s = x at hstep ⊢
      generalize step c left (near ++ right') s = y at hstep ⊢
      cases hstep with
      | next s' =>
          have hrest := ih s' (c :: near)
          rwa [List.length_cons, ← Nat.add_assoc, Nat.add_right_comm] at hrest
      | done s' hstart => exact ⟨hstart, rfl, rfl⟩

/-! ## The head of the chain -/

theorem State.addIndex_leftOfHead (s : State) (c : Cell) (left : List Cell) :
    (s.addIndex c left).leftOfHead = s.leftOfHead ∨
      (s.addIndex c left).leftOfHead = some left := by
  unfold State.addIndex
  dsimp only
  split
  · exact Or.inr rfl
  · exact Or.inl rfl

theorem State.addMember_leftOfHead (s : State) (c : Cell) (left : List Cell) :
    (s.addMember c left).leftOfHead = s.leftOfHead ∨
      (s.addMember c left).leftOfHead = some left := by
  unfold State.addMember
  split
  · exact Or.inr rfl
  · exact Or.inl rfl

/-- The state in which a step goes on or ends the walk. -/
def Step.state : Step → State
  | .next s => s
  | .done _ s => s

theorem leftOfHead_crossCode (c : Cell) (left : List Cell) (s : State) :
    (crossCode c left s).state.leftOfHead = s.leftOfHead ∨
      (crossCode c left s).state.leftOfHead = some left := by
  have hindex := s.addIndex_leftOfHead c left
  have hboth : ((s.addIndex c left).addMember c left).leftOfHead = s.leftOfHead ∨
      ((s.addIndex c left).addMember c left).leftOfHead = some left := by
    rcases (s.addIndex c left).addMember_leftOfHead c left with h | h
    · rwa [h]
    · exact Or.inr h
  rw [crossCode_eq]
  dsimp only
  split_ifs
  · exact hindex
  · exact hboth
  · exact hboth
  · exact hboth
  · exact hboth
  · exact hindex
  · exact hindex

/-- A step leaves the head of the chain where it was or puts it at the byte
crossed. -/
theorem leftOfHead_step (c : Cell) (left right : List Cell) (s : State) :
    (step c left right s).state.leftOfHead = s.leftOfHead ∨
      (step c left right s).state.leftOfHead = some left := by
  unfold step
  split_ifs
  · exact Or.inl rfl
  · exact Or.inl rfl
  · exact Or.inl rfl
  · exact Or.inl rfl
  · exact Or.inl rfl
  · exact leftOfHead_crossCode c left s

theorem length_leftOfHead_walk_le
    {n : Nat} (hs : ∀ head ∈ s.leftOfHead, head.length ≤ n) (hn : left.length ≤ n)
    (right : List Cell) :
    ∀ head ∈ (walk s left right).leftOfHead, head.length ≤ n := by
  induction left generalizing s right with
  | nil => exact hs
  | cons c left ih =>
      rw [List.length_cons] at hn
      have hstate : ∀ head ∈ (step c left right s).state.leftOfHead, head.length ≤ n := by
        intro head hhead
        rcases leftOfHead_step c left right s with h | h
        · exact hs head (h ▸ hhead)
        · rw [h, Option.mem_some_iff] at hhead
          subst hhead
          omega
      rw [walk]
      cases hstep : step c left right s with
      | next s' =>
          rw [hstep] at hstate
          exact ih hstate (by omega) (c :: right)
      | done start s' =>
          rw [hstep] at hstate
          exact hstate

theorem withReceiver_congr
    {o o' : Outcome} (hmembers : o.members = o'.members)
    (hliteral : (o.leftOfHead.bind fun left => b.literalBefore left.length) =
      o'.leftOfHead.bind fun left => b'.literalBefore left.length) :
    withReceiver b o = withReceiver b' o' := by
  simp only [withReceiver, hmembers, hliteral]

/-! ## The same text before the cursor -/

theorem take_scene_eq (h : b.SameBefore b' offset) :
    (scene b offset).take offset = (scene b' offset).take offset := by
  apply List.ext_getElem?
  intro i
  by_cases hi : i < offset
  · have hbyte := h.bytes i hi
    simp only [Buffer.byte?] at hbyte
    simp only [List.getElem?_take, hi, if_true, scene, List.getElem?_mapIdx, hbyte,
      h.comments i hi, h.strings i hi]
  · rw [List.getElem?_take, List.getElem?_take, if_neg hi, if_neg hi]

/-- Two buffers that are the same before an offset have the same text there, if
the offset is valid in both. -/
theorem eq_of_sameBefore
    {before after before' after' : List Char} (htext : b.text = before ++ after)
    (htext' : b'.text = before' ++ after')
    (hlength : Text.byteLength before' = Text.byteLength before)
    (h : b.SameBefore b' (Text.byteLength before)) :
    before' = before := by
  apply Text.bytes_injective
  apply List.ext_getElem?
  intro i
  by_cases hi : i < Text.byteLength before
  · have hbyte := h.bytes i hi
    rw [Buffer.byte?, Buffer.byte?, htext, htext', bytes_append, bytes_append,
      List.getElem?_append_left (by rwa [length_bytes]),
      List.getElem?_append_left (by rwa [length_bytes, hlength])] at hbyte
    exact hbyte.symm
  · rw [List.getElem?_eq_none (by rw [length_bytes]; omega),
      List.getElem?_eq_none (by rw [length_bytes]; omega)]

/-- The walks from an offset in two buffers that are the same before it. -/
theorem walkFrom_sameUpTo
    (hoffset : offset ≤ b.length) (hoffset' : offset ≤ b'.length) (h : b.SameBefore b' offset)
    (hdot : b.GoesOnWithDot offset ↔ b'.GoesOnWithDot offset) :
    Outcome.SameUpTo offset (walkFrom b offset) (walkFrom b' offset) ∧
      withReceiver b (walkFrom b offset) = withReceiver b' (walkFrom b' offset) := by
  obtain ⟨left, right, hleft, hstands, hwalk⟩ := stands_walkFrom hoffset
  obtain ⟨left', right', hleft', hstands', hwalk'⟩ := stands_walkFrom hoffset'
  have hsame : left' = left := by
    have htake := take_scene_eq h
    rw [← hstands.scene_eq, ← hstands'.scene_eq, List.take_left' (by simpa using hleft),
      List.take_left' (by simpa using hleft')] at htake
    exact (List.reverse_inj.1 htake).symm
  subst hsame
  have hchain : continuesChain right = continuesChain right' := by
    rw [Bool.eq_iff_iff, hstands.continuesChain_iff, hstands'.continuesChain_iff, hleft]
    exact hdot
  have hends := walk_sameUpTo hchain {} left' []
  have hhead := length_leftOfHead_walk_le (s := {}) (by simp) (Nat.le_of_eq hleft) right
  simp only [List.nil_append, List.length_nil, Nat.add_zero, hleft] at hends
  rw [hwalk, hwalk']
  refine ⟨hends, withReceiver_congr hends.members ?_⟩
  rw [← hends.leftOfHead]
  cases hcases : (walk {} left' right).leftOfHead with
  | none => rfl
  | some head => exact h.literals _ (hhead head hcases)

end Signature

/-- Two buffers that are the same before a valid offset, and behind it both go
on with a dot after any blanks or neither does, have the same signature there
with the same start, and the same base, word and phrase. -/
theorem Buffer.fragment_eq_of_sameBefore
    {b b' : Buffer} {offset : Nat} (hoffset : Text.IsBoundary b.text offset)
    (hoffset' : Text.IsBoundary b'.text offset) (hsame : b.SameBefore b' offset)
    (hdot : b.GoesOnWithDot offset ↔ b'.GoesOnWithDot offset) :
    ∃ f f', b.fragment offset = .ok f ∧ b'.fragment offset = .ok f' ∧
      f.signature = f'.signature ∧ f.signatureStart = f'.signatureStart ∧ f.base = f'.base ∧
      f.word = f'.word ∧ f.phrase = f'.phrase := by
  obtain ⟨before, after, htext, rfl⟩ := hoffset
  obtain ⟨before', after', htext', hlength⟩ := hoffset'
  obtain rfl := Signature.eq_of_sameBefore htext htext' hlength hsame
  let c : Cursor := ⟨before', after⟩
  let c' : Cursor := ⟨before', after'⟩
  obtain ⟨hends, hsignature⟩ := Signature.walkFrom_sameUpTo (c.offset_le_length htext)
    (c'.offset_le_length htext') hsame hdot
  have hphrase : c.phrase b = c'.phrase b' := Text.dropBytes_congr hends.start
  have hstart : c.signatureStart b = c'.signatureStart b' := by
    rw [Cursor.signatureStart, Cursor.signatureStart, hphrase]
    rfl
  refine ⟨c.fragment b, c'.fragment b', fragment_of_cursor (cursor_of_text_eq htext),
    fragment_of_cursor (cursor_of_text_eq htext'), ?_, hstart, ?_, rfl, ?_⟩
  · exact congrArg String.ofList hsignature
  · exact congrArg (fun signature => String.ofList (Signature.base signature)) hsignature
  · exact congrArg String.ofList hphrase

/-- A call on a literal, with the next call in the line below and a comment
behind it. -/
def Buffer.callBelow : Buffer where
  text := "é.a \n .b # c".toList
  comments := ⟨[⟨10, 13⟩]⟩
  strings := SpanSet.empty
  constructs := []
  locals := []
  literalBefore i := if i = 2 then some "Float" else none
  tokenStart offset := offset

/-- The same call on the same literal, with a string in the next call. -/
def Buffer.callOfString : Buffer where
  text := "é.a .b('c')".toList
  comments := SpanSet.empty
  strings := ⟨[⟨8, 11⟩]⟩
  constructs := []
  locals := []
  literalBefore i := if i = 2 then some "Float" else if i = 11 then some "String" else none
  tokenStart _ := 0

theorem Buffer.fragment_eq_behindCall :
    Text.IsBoundary callBelow.text 5 ∧ Text.IsBoundary callOfString.text 5 ∧
      callBelow.SameBefore callOfString 5 ∧
      (callBelow.GoesOnWithDot 5 ↔ callOfString.GoesOnWithDot 5) ∧
      ∃ f f', callBelow.fragment 5 = .ok f ∧ callOfString.fragment 5 = .ok f' ∧
        f.signature = f'.signature ∧ f.signatureStart = f'.signatureStart ∧ f.base = f'.base ∧
        f.word = f'.word ∧ f.phrase = f'.phrase ∧ f.signature.toList = "Float.new.a".toList := by
  have hoffset : Text.IsBoundary callBelow.text 5 := ⟨"é.a ".toList, _, rfl, by decide⟩
  have hoffset' : Text.IsBoundary callOfString.text 5 := ⟨"é.a ".toList, _, rfl, by decide⟩
  have hsame : callBelow.SameBefore callOfString 5 :=
    ⟨by decide, by decide, by decide, by decide⟩
  have hgoes : callBelow.GoesOnWithDot 5 :=
    ⟨"\n ".toList, "b # c".toList, by decide, Signature.forall_mem_of_all (by decide)⟩
  have hgoes' : callOfString.GoesOnWithDot 5 :=
    ⟨[], "b('c')".toList, by decide, Signature.forall_mem_of_all (by decide)⟩
  have hdot := iff_of_true hgoes hgoes'
  obtain ⟨f, f', hf, hf', hsignature, hrest⟩ :=
    Buffer.fragment_eq_of_sameBefore hoffset hoffset' hsame hdot
  refine ⟨hoffset, hoffset', hsame, hdot, f, f', hf, hf', hsignature, hrest.1, hrest.2.1,
    hrest.2.2.1, hrest.2.2.2, ?_⟩
  have htext : callBelow.text = "é.a ".toList ++ "\n .b # c".toList := rfl
  have hcursor : callBelow.cursor 5 = .ok ⟨"é.a ".toList, "\n .b # c".toList⟩ :=
    cursor_of_text_eq htext
  obtain rfl := Except.ok.inj (hf.symm.trans (fragment_of_cursor hcursor))
  have hread : Cursor.signature ⟨"é.a ".toList, "\n .b # c".toList⟩ callBelow =
      "Float.new.a".toList := by
    decide
  exact String.toList_ofList.trans hread

end Caret
