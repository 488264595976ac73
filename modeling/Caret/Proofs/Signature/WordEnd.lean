import Caret.Proofs.Cursor.LongestWord
import Caret.Proofs.Signature.Provenance
import Caret.Proofs.Signature.Start

/-!
# The word at the end of a signature

Words and signatures are found by two scans with rules of their own for sigils,
colons and marks.  They agree on plain code: the signature ends in the word, but
for the mark that the word may end in, and starts no later than it.
-/

namespace Caret

open Signature

/-! ## What a word is made of -/

namespace Word

/-- A word without the mark at its end. -/
def stem (word : List Char) : List Char :=
  word.take (word.length - markLength word.reverse)

/-- A word is made of a sigil, characters that join a chain as they are, among
them a colon in front, and a mark.  An at sign in front has none before it. -/
structure MadeOf (first word : List Char) (sigil : Sigil) (plain mark : List Char) : Prop where
  word_eq : word = sigil.text ++ (plain ++ mark)
  joins : ∀ c ∈ plain, joinsPlainly c = true
  marks : ∀ c ∈ mark, isMark c = true
  marks_le : mark.length ≤ 1
  alone : sigil = .single → first.getLast? ≠ some '@'

/-- The word before a cursor, taken apart. -/
theorem exists_madeOf (c : Cursor) :
    ∃ first sigil plain mark,
      c.before = first ++ c.word ∧ MadeOf first c.word sigil plain mark := by
  obtain ⟨⟨first, hbefore, hword⟩, hlongest⟩ := isLongest_word c
  generalize c.word = word at hbefore hword hlongest ⊢
  obtain @⟨sigil, run, mark, hsigil, hrun, hmark⟩ := hword
  have hplain : ∀ x ∈ run, joinsPlainly x = true := by
    intro x hx
    exact joinsPlainly_of_isWordChar (hrun x hx)
  obtain ⟨hmarks, hle⟩ : (∀ x ∈ mark, isMark x = true) ∧ mark.length ≤ 1 := by
    rcases hmark with rfl | rfl | rfl <;> simp [isMark]
  cases hsigil with
  | none => exact ⟨first, .none, run, mark, hbefore, rfl, hplain, hmarks, hle, by simp⟩
  | single =>
      refine ⟨first, .single, run, mark, hbefore, rfl, hplain, hmarks, hle, ?_⟩
      intro _ hat
      obtain ⟨front, rfl⟩ := List.getLast?_eq_some_iff.1 hat
      have hdouble : c.before = front ++ (['@', '@'] ++ (run ++ mark)) := by
        rw [hbefore, List.append_assoc]
        rfl
      exact Nat.not_succ_le_self _ (hlongest front _ hdouble (.mk .double hrun hmark))
  | double => exact ⟨first, .double, run, mark, hbefore, rfl, hplain, hmarks, hle, by simp⟩
  | dollar => exact ⟨first, .dollar, run, mark, hbefore, rfl, hplain, hmarks, hle, by simp⟩
  | colon _ =>
      refine ⟨first, .none, ':' :: run, mark, hbefore, rfl, ?_, hmarks, hle, by simp⟩
      exact List.forall_mem_cons.2 ⟨by decide, hplain⟩

/-- Marks are neither blanks nor brackets, and neither end a chain nor join it. -/
theorem classes_of_isMark {c : Char} (hc : isMark c = true) :
    Text.isBlank c = false ∧ c ∉ Bracket.all ∧ isTerminator c = false ∧ isMember c = false := by
  simp only [isMark, Bool.or_eq_true, beq_iff_eq] at hc
  rcases hc with rfl | rfl <;> decide

theorem MadeOf.stem_eq
    {first word plain mark : List Char} {sigil : Sigil} (h : MadeOf first word sigil plain mark) :
    stem word = sigil.text ++ plain := by
  have hplain : ∀ c ∈ sigil.text ++ plain, isMark c = false := by
    intro c hc
    rw [List.mem_append] at hc
    rcases hc with hc | hc
    · cases sigil <;> simp_all [Sigil.text, isMark]
    · exact isMark_of_joinsPlainly (h.joins c hc)
  have hmark : markLength word.reverse = mark.length := by
    rw [h.word_eq, ← List.append_assoc, List.reverse_append, ← List.length_reverse]
    apply markLength_append
    · intro c hc
      exact h.marks c (List.mem_reverse.1 hc)
    · rw [List.length_reverse]
      exact h.marks_le
    · intro c hc
      exact hplain c (List.mem_reverse.1 (List.mem_of_mem_head? hc))
  rw [stem, hmark, h.word_eq, ← List.append_assoc, List.length_append, Nat.add_sub_cancel,
    List.take_left]

theorem MadeOf.bytes_word
    {first word plain mark : List Char} {sigil : Sigil} (h : MadeOf first word sigil plain mark) :
    bytes word = word := by
  have hsigil : ∀ c ∈ sigil.text, c.toNat < 128 := by
    cases sigil <;> exact forall_mem_of_all (by decide)
  apply bytes_of_ascii
  intro c hc
  rw [h.word_eq, List.mem_append, List.mem_append] at hc
  rcases hc with hc | hc | hc
  · exact hsigil c hc
  · exact toNat_lt_of_joinsPlainly (h.joins c hc)
  · exact toNat_lt_of_isMark (h.marks c hc)

end Word

/-! ## The walk over a word -/

namespace Signature

theorem joins_mark
    {s : State} (hs : s.nesting = {}) {mark : List Char} (hmark : ∀ c ∈ mark, Word.isMark c = true)
    {left right : List Cell} (hgo : s.Unblocked right) :
    ∃ s', Joins s left mark right [] s' := by
  induction mark generalizing left with
  | nil => exact ⟨s, .nil s left right, hs, hgo, rfl⟩
  | cons c mark ih =>
      obtain ⟨s₁, h₁⟩ : ∃ s₁, Joins s ([c].reverse.map code ++ left) mark right [] s₁ :=
        ih fun d hd => hmark d (List.mem_cons_of_mem c hd)
      obtain ⟨hblank, hbracket, hterminator, hmember⟩ :=
        Word.classes_of_isMark (hmark c List.mem_cons_self)
      have hnesting : s₁.nesting.cross c = {} := by
        rw [Nesting.cross_of_not_bracket hbracket, h₁.outside]
      have hstep : step (code c) left (mark.map code ++ right) s₁ = .next (s₁.pass c left) := by
        rw [step_eq_crossCode left (Or.inr ⟨hblank, Or.inr h₁.unblocked⟩)]
        apply crossCode_eq_next
        · rw [hnesting]
          rfl
        · intro _
          exact ⟨hterminator, hmember⟩
      have hopen : c ≠ '[' := fun h => hbracket (h ▸ by decide)
      have hpass : Joins s₁ left [c] (mark.map code ++ right) [] (s₁.pass c left) :=
        ⟨.of_step hstep, by rw [State.pass_nesting, hnesting], fun h => Bool.noConfusion h,
          s₁.addIndex_members_of_ne hopen left⟩
      exact ⟨_, h₁.append hpass⟩

/-- The walk reads a word of plain code, and then it ends or goes on to the left
of the word. -/
theorem walk_word
    {first word plain mark : List Char} {sigil : Sigil}
    (hword : Word.MadeOf first word sigil plain mark) {left : List Cell}
    (hpercent : followsPercent left = false) (hat : sigil = .single → followsAt left = false)
    (right : List Cell) :
    sigil.text ++ plain <:+ (walk {} (word.reverse.map code ++ left) right).members ∧
      (word ≠ [] → (walk {} (word.reverse.map code ++ left) right).start ≤ left.length) := by
  let start := sigil.text.reverse.map code ++ left
  have hstart : followsPercent start = false := by
    apply followsPercent_of_not_mem _ hpercent
    cases sigil <;> decide
  have hfresh : ({} : State).Unblocked right := fun h => Bool.noConfusion h
  obtain ⟨s₁, h₁⟩ : ∃ s₁, Joins {} (plain.reverse.map code ++ start) mark right [] s₁ :=
    joins_mark rfl hword.marks hfresh
  obtain ⟨s₂, h₂⟩ := joins_plainly h₁.outside hword.joins h₁.unblocked hstart
  have hjoins := h₁.append h₂
  have hmembers : s₂.members = plain := by simpa using hjoins.members
  have hreverse : word.reverse.map code ++ left = (plain ++ mark).reverse.map code ++ start := by
    rw [hword.word_eq]
    simp [start]
  rw [hreverse, hjoins.crosses]
  by_cases hbare : sigil = .none
  · subst hbare
    constructor
    · obtain ⟨front, hfront, -⟩ := walk_alike (s := s₂) (t := s₂) ⟨rfl, rfl⟩
        (fun _ => rfl : RightAlike ((plain ++ mark).map code ++ right) _) left
      rw [hmembers] at hfront
      exact ⟨front, hfront.symm⟩
    · intro hne
      have hle := start_walk_le s₂ left ((plain ++ mark).map code ++ right)
      have hnone : leadingBlanks ((plain ++ mark).map code ++ right) = 0 := by
        rw [hword.word_eq, Sigil.text, List.nil_append] at hne
        obtain ⟨c, rest, hfirst⟩ := List.exists_cons_of_ne_nil hne
        have hblank : Text.isBlank c = false := by
          have hc : c ∈ plain ++ mark := hfirst ▸ List.mem_cons_self
          rcases List.mem_append.1 hc with hc | hc
          · exact (classes_of_joinsPlainly (hword.joins c hc)).2.2.1
          · exact (Word.classes_of_isMark (hword.marks c hc)).1
        rw [hfirst]
        simp [leadingBlanks, code, hblank]
      rw [hnone] at hle
      exact hle
  · obtain ⟨hbegin, hread⟩ := walk_sigil h₂.outside hbare hjoins.unblocked hpercent hat
    constructor
    · rw [hmembers] at hread
      exact hread.symm ▸ List.suffix_refl (sigil.text ++ plain)
    · intro _
      exact Nat.le_of_eq hbegin

theorem Stands.map_code
    {b : Buffer} {offset : Nat} {near far right : List Cell} (h : Stands b offset (near ++ far) right)
    (hplain : ∀ i, far.length ≤ i → i < far.length + near.length →
      b.comments.covers i = false ∧ b.strings.covers i = false) :
    (near.map Cell.char).map code = near := by
  induction near generalizing right with
  | nil => rfl
  | cons c near ih =>
      rw [List.cons_append] at h
      obtain ⟨-, hcomment, hstring⟩ := h.nearest
      obtain ⟨hnoComment, hnoString⟩ := hplain (near ++ far).length
        (by rw [List.length_append]; omega) (by rw [List.length_append, List.length_cons]; omega)
      rw [hnoComment, Bool.false_and] at hcomment
      rw [hnoString] at hstring
      have hc : code c.char = c := by
        obtain ⟨x, inComment, inString⟩ := c
        subst hcomment hstring
        rfl
      have hrest := ih h.next fun i hi hlt => hplain i hi (by rw [List.length_cons]; omega)
      rw [List.map_cons, List.map_cons, hc, hrest]

theorem followsPercent_eq_false
    {b : Buffer} {offset : Nat} {left right : List Cell} (h : Stands b offset left right)
    (hpercent : ∀ i, i + 1 = left.length → b.byte? i ≠ some '%') :
    followsPercent left = false := by
  cases left with
  | nil => rfl
  | cons c left =>
      have hc := hpercent left.length rfl
      rw [h.nearest.1, Ne, Option.some_inj] at hc
      exact beq_eq_false_iff_ne.2 hc

theorem followsAt_eq_false
    {left : List Cell} {first : List Char} (hchars : left.map Cell.char = (bytes first).reverse)
    (hat : first.getLast? ≠ some '@') :
    followsAt left = false := by
  cases left with
  | nil => rfl
  | cons c left =>
      have hhead := congrArg List.head? hchars
      rw [Text.reverse_bytes, List.map_cons, List.head?_cons] at hhead
      rw [followsAt, beq_eq_false_iff_ne]
      intro hc
      rw [hc, eq_comm, Text.spellsOut_reverse_bytes.head?_flatMap_eq_iff (by decide),
        List.head?_reverse] at hhead
      exact hat hhead

end Signature

/-- The signature ends in the word before the cursor without the mark that the
word may end in, and starts no later than the word, if the word is plain code
and stands behind no percent sign. -/
theorem Cursor.signature_endsIn_word
    {b : Buffer} {offset : Nat} (hoffset : Text.IsBoundary b.text offset) :
    ∃ c, b.cursor offset = .ok c ∧
      ((∀ i, c.wordStart ≤ i → i < offset →
          b.comments.covers i = false ∧ b.strings.covers i = false) →
        (∀ i, i + 1 = c.wordStart → b.byte? i ≠ some '%') →
          Word.stem c.word <:+ c.signature b ∧ c.signatureStart b ≤ c.wordStart) := by
  obtain ⟨before, after, htext, rfl⟩ := hoffset
  let c : Cursor := ⟨before, after⟩
  refine ⟨c, Buffer.cursor_of_text_eq htext, ?_⟩
  change (∀ i, c.wordStart ≤ i → i < c.offset → _) → _
  intro hplain hpercent
  obtain ⟨first, sigil, plain, mark, hbefore, hword⟩ := Word.exists_madeOf c
  have hstart : c.wordStart = Text.byteLength first := by
    obtain ⟨first', hfirst', hstart⟩ := c.wordStart_eq
    rw [hstart, List.append_cancel_right (hfirst'.symm.trans hbefore)]
  obtain ⟨left, right, hleft, hstands, hwalk⟩ := stands_walkFrom (c.offset_le_length htext)
  have hchars : left.map Cell.char = c.word.reverse ++ (bytes first).reverse := by
    have htake := hstands.chars_left
    have hbytes : bytes before = bytes first ++ c.word := by
      rw [← hword.bytes_word, ← bytes_append]
      exact congrArg bytes hbefore
    rw [hleft, offset, htext, bytes_append, List.take_left' (length_bytes before), hbytes] at htake
    rw [← List.reverse_append, ← htake, List.reverse_reverse]
  obtain ⟨near, far, rfl, hnear, hfar⟩ := List.map_eq_append_iff.1 hchars
  have hfarLength : far.length = c.wordStart := by
    have hlength := congrArg List.length hfar
    rwa [List.length_map, List.length_reverse, length_bytes, ← hstart] at hlength
  rw [List.length_append, hfarLength, Nat.add_comm] at hleft
  have hcode := hstands.map_code fun i hi hlt => hplain i (by omega) (by omega)
  rw [hnear] at hcode
  obtain ⟨hread, hle⟩ := walk_word hword
    (followsPercent_eq_false hstands.cross fun i hi => hpercent i (by omega))
    (fun hsingle => followsAt_eq_false hfar (hword.alone hsingle)) right
  rw [hcode, ← hwalk, ← hword.stem_eq] at hread
  rw [hcode, ← hwalk, hfarLength] at hle
  constructor
  · rcases withReceiver_eq_or b (walkFrom b c.offset) with hsignature | ⟨type, hsignature⟩
    · rw [signature, hsignature]
      exact hread
    · rw [signature, hsignature]
      exact hread.trans (List.suffix_append _ _)
  · by_cases hempty : c.word = []
    · have hend : c.wordStart = c.offset := by
        rw [hstart, offset, hbefore, hempty, List.append_nil]
      rw [hend]
      exact Nat.sub_le _ _
    · apply (isLeast_signatureStart htext).2
      refine ⟨⟨first, c.word ++ after, ?_, hstart.symm⟩, ?_⟩
      · rw [htext, ← List.append_assoc]
        exact congrArg (· ++ after) hbefore
      · exact Nat.le_trans (Nat.min_le_left _ _) (hle hempty)

/-- A question on a class variable, in the line below a comment. -/
def Buffer.questionBelowComment : Buffer where
  text := "# é\n@@b?".toList
  comments := ⟨[⟨0, 4⟩]⟩
  strings := SpanSet.empty
  constructs := []
  locals := []
  literalBefore _ := none
  tokenStart offset := offset

theorem Cursor.signature_endsIn_questionBelowComment :
    let b := Buffer.questionBelowComment
    Text.IsBoundary b.text 9 ∧ ∃ c, b.cursor 9 = .ok c ∧
      (∀ i, c.wordStart ≤ i → i < 9 → b.comments.covers i = false ∧ b.strings.covers i = false) ∧
      (∀ i, i + 1 = c.wordStart → b.byte? i ≠ some '%') ∧
      c.word = "@@b?".toList ∧ "@@b".toList <:+ c.signature b ∧ c.signatureStart b ≤ 5 := by
  have hoffset : Text.IsBoundary Buffer.questionBelowComment.text 9 :=
    Text.isBoundary_byteLength Buffer.questionBelowComment.text
  obtain ⟨c, hc, hends⟩ := Cursor.signature_endsIn_word hoffset
  have hcursor : Buffer.questionBelowComment.cursor 9 = .ok ⟨"# é\n@@b?".toList, []⟩ :=
    Buffer.cursor_length Buffer.questionBelowComment
  obtain rfl := Except.ok.inj (hc.symm.trans hcursor)
  have hstart : Cursor.wordStart ⟨"# é\n@@b?".toList, []⟩ = 5 := by
    decide
  have hword : Cursor.word ⟨"# é\n@@b?".toList, []⟩ = "@@b?".toList := by
    decide
  rw [hstart, hword] at hends
  have hplain : ∀ i, 5 ≤ i → i < 9 → Buffer.questionBelowComment.comments.covers i = false ∧
      Buffer.questionBelowComment.strings.covers i = false := by
    intro i hle hlt
    revert hle
    revert i
    decide
  have hpercent : ∀ i, i + 1 = 5 → Buffer.questionBelowComment.byte? i ≠ some '%' := by
    intro i hi
    obtain rfl : i = 4 := by omega
    decide
  obtain ⟨hread, hle⟩ := hends hplain hpercent
  refine ⟨hoffset, _, hc, ?_, ?_, hword, hread, hle⟩
  · rwa [hstart]
  · rwa [hstart]

end Caret
