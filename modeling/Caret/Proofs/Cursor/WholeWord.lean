import Caret.Proofs.Cursor.LongestWord

/-!
# The whole word around a cursor

A cursor that goes on over letters, digits and underscores moves them from the rest
of the word to the word.  Nothing else changes, as long as the cursor does not come
from behind a mark: there the mark ends the word before the cursor, and further on it
stands in the middle, where no word has one.  So the whole word is the same from each
place in it.
-/

namespace Caret

namespace Word

variable {run : List Char} (hrun : ∀ c ∈ run, isWordChar c = true)
include hrun

/-- The word before a place goes on with letters, digits and underscores, unless there
is a mark before them. -/
theorem length_append
    {near : List Char} (hnear : ∀ c, near.head? = some c → isMark c = false) :
    length (run ++ near) = run.length + length near := by
  have hhead : ∀ c, (run ++ near).head? = some c → isMark c = false := by
    intro c hc
    cases run with
    | nil => exact hnear c hc
    | cons d run =>
        have hd : d = c := Option.some.inj hc
        exact isMark_of_isWordChar (hrun c (hd ▸ List.mem_cons_self))
  rw [length_of_head hhead, length_of_head hnear, stemLength_append hrun]

theorem remainder_append (after : List Char) :
    remainder (run ++ after) = run ++ remainder after := by
  apply List.takeWhile_append_of_pos
  intro c hc
  rw [hrun c hc, Bool.true_or]

end Word

/-! ## The cursor on both sides of a run -/

namespace Cursor

variable {before run : List Char} (hrun : ∀ c ∈ run, Word.isWordChar c = true)
include hrun

theorem length_word_append
    (hmark : ∀ c, before.getLast? = some c → Word.isMark c = false) :
    Word.length (before ++ run).reverse = run.length + Word.length before.reverse := by
  rw [List.reverse_append, ← List.length_reverse]
  apply Word.length_append
  · intro c hc
    exact hrun c (List.mem_reverse.1 hc)
  · intro c hc
    rw [List.head?_reverse] at hc
    exact hmark c hc

theorem word_append
    (hmark : ∀ c, before.getLast? = some c → Word.isMark c = false) (after : List Char) :
    word ⟨before ++ run, after⟩ = word ⟨before, run ++ after⟩ ++ run := by
  have hle := (Word.beginsAscii_length before.reverse).le_length
  rw [List.length_reverse] at hle
  have hdropped : (before ++ run).length - Word.length (before ++ run).reverse =
      before.length - Word.length before.reverse := by
    rw [length_word_append hrun hmark, List.length_append]
    omega
  rw [word, word, hdropped, List.drop_append_of_le_length (Nat.sub_le _ _)]

theorem wordStart_append
    (hmark : ∀ c, before.getLast? = some c → Word.isMark c = false) (after : List Char) :
    wordStart ⟨before ++ run, after⟩ = wordStart ⟨before, run ++ after⟩ := by
  have hbytes := Text.byteLength_of_ascii fun c hc =>
    Signature.toNat_lt_of_isWordChar (hrun c hc)
  rw [wordStart, wordStart, length_word_append hrun hmark, offset, offset,
    Text.byteLength_append, hbytes, Nat.add_comm, Nat.add_sub_add_left]

theorem wordStop_append (after : List Char) :
    wordStop ⟨before ++ run, after⟩ = wordStop ⟨before, run ++ after⟩ := by
  rw [wordStop, wordStop, remainder, remainder, Word.remainder_append hrun, offset, offset,
    Text.byteLength_append, Text.byteLength_append, Nat.add_assoc]

end Cursor

/-- The whole word and its range are the same at two offsets with nothing but letters,
digits and underscores between them, unless there is a mark before the first one. -/
theorem Buffer.fragment_wholeWord_congr
    {b : Buffer} {m n : Nat} (hlt : m < n)
    (hrun : ∀ i, m ≤ i → i < n → ∃ c, b.byte? i = some c ∧ Word.isWordChar c = true)
    (hmark : ∀ i, i + 1 = m → b.byte? i ≠ some '?' ∧ b.byte? i ≠ some '!') :
    ∃ f g, b.fragment m = .ok f ∧ b.fragment n = .ok g ∧
      f.wholeWord = g.wholeWord ∧ f.wholeWordRange = g.wholeWordRange := by
  obtain ⟨before, run, after, htext, rfl, rfl, hword⟩ :=
    Text.exists_run_of_bytes (fun c hc => Signature.toNat_lt_of_isWordChar hc) hlt hrun
  have hlast : ∀ c, before.getLast? = some c → Word.isMark c = false := by
    intro c hc
    obtain ⟨front, rfl⟩ := List.getLast?_eq_some_iff.1 hc
    by_contra hcmark
    rw [Bool.not_eq_false] at hcmark
    have hascii := Word.toNat_lt_of_isMark hcmark
    have hbyte : b.byte? (Text.byteLength front) = some c := by
      rw [byte?, htext, List.append_assoc, List.singleton_append]
      exact Text.getElem?_bytes_byteLength front hascii (run ++ after)
    have hnext : Text.byteLength front + 1 = Text.byteLength (front ++ [c]) := by
      rw [Text.byteLength_append, Text.byteLength_cons, Text.utf8Size_of_ascii hascii]
      rfl
    obtain ⟨hquestion, hexclamation⟩ := hmark _ hnext
    rw [hbyte, Ne, Option.some_inj] at hquestion hexclamation
    rw [Word.isMark, Bool.or_eq_true, beq_iff_eq, beq_iff_eq] at hcmark
    exact hcmark.elim hquestion hexclamation
  have hf := fragment_of_cursor (cursor_of_text_eq htext)
  have hg := fragment_of_cursor
    (cursor_of_text_eq (htext.trans (List.append_assoc before run after).symm))
  refine ⟨_, _, hf, hg, ?_, ?_⟩
  · apply congrArg String.ofList
    rw [Cursor.word_append hword hlast, Cursor.remainder, Cursor.remainder,
      Word.remainder_append hword, List.append_assoc]
  · rw [Cursor.fragment, Cursor.fragment, Cursor.wordStart_append hword hlast,
      Cursor.wordStop_append hword]

/-- A class variable with two marks behind an accented letter. -/
def Buffer.markedTwice : Buffer where
  text := "é@@foo1?!".toList
  comments := SpanSet.empty
  strings := SpanSet.empty
  constructs := []
  locals := []
  literalBefore _ := none
  tokenStart offset := offset

theorem Buffer.fragment_markedTwice :
    (∀ i, 4 ≤ i → i < 8 → ∃ c, Buffer.markedTwice.byte? i = some c ∧ Word.isWordChar c = true) ∧
      (∀ i, i + 1 = 4 → Buffer.markedTwice.byte? i ≠ some '?' ∧
        Buffer.markedTwice.byte? i ≠ some '!') ∧
      ∃ f g, Buffer.markedTwice.fragment 4 = .ok f ∧ Buffer.markedTwice.fragment 8 = .ok g ∧
        f.word = "@@" ∧ g.word = "@@foo1" ∧
        f.wholeWord = "@@foo1?!" ∧ g.wholeWord = "@@foo1?!" ∧
        f.wholeWordRange = g.wholeWordRange := by
  have hrun : ∀ i, 4 ≤ i → i < 8 →
      ∃ c, Buffer.markedTwice.byte? i = some c ∧ Word.isWordChar c = true := by
    intro i hle hlt
    apply (Option.any_eq_true _ _).1
    revert hle
    revert i
    decide
  have hmark : ∀ i, i + 1 = 4 → Buffer.markedTwice.byte? i ≠ some '?' ∧
      Buffer.markedTwice.byte? i ≠ some '!' := by
    intro i hi
    obtain rfl : i = 3 := Nat.succ.inj hi
    decide
  obtain ⟨f, g, hf, hg, hword, hrange⟩ :=
    Buffer.fragment_wholeWord_congr (by decide : 4 < 8) hrun hmark
  have hbefore : Buffer.markedTwice.text = "é@@".toList ++ "foo1?!".toList := rfl
  have hbehind : Buffer.markedTwice.text = "é@@foo1".toList ++ "?!".toList := rfl
  obtain rfl := Except.ok.inj
    (hf.symm.trans (Buffer.fragment_of_cursor (Buffer.cursor_of_text_eq hbefore)))
  obtain rfl := Except.ok.inj
    (hg.symm.trans (Buffer.fragment_of_cursor (Buffer.cursor_of_text_eq hbehind)))
  have hwhole : (Cursor.fragment ⟨"é@@".toList, "foo1?!".toList⟩ Buffer.markedTwice).wholeWord =
      "@@foo1?!" := by
    decide
  exact ⟨hrun, hmark, _, _, hf, hg, by decide, by decide, hwhole, hword ▸ hwhole, hrange⟩

end Caret
