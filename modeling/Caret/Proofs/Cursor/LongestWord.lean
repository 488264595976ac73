import Caret.Proofs.Cursor.Snapshot
import Mathlib.Data.List.Infix

/-!
# The word before a cursor is the longest possible one

A word is a sigil, a run of letters, digits and underscores, and a mark, where each
of the three may be missing.  The way back from the cursor takes a mark, the run and a
sigil, each as far as it goes.  No choice on the way can be regretted: a mark can only
be the last character, what is in front of a run is a sigil or nothing, and of two
sigils that fit the longer one is taken.  So no longer word ends at the cursor.
-/

namespace Caret

namespace Word

/-! ## The form of a word -/

/-- The sigils that a word may begin with behind a text. -/
inductive IsSigil (front : List Char) : List Char → Prop
  | none : IsSigil front []
  | single : IsSigil front ['@']
  | double : IsSigil front ['@', '@']
  | dollar : IsSigil front ['$']
  | colon : front.getLast? ≠ some ':' → IsSigil front [':']

/-- A sigil, letters, digits and underscores, and one mark, behind a text.  Each part
may be missing. -/
inductive IsWord (front : List Char) : List Char → Prop
  | mk {sigil run mark : List Char} :
      IsSigil front sigil → (∀ c ∈ run, isWordChar c = true) →
        mark = [] ∨ mark = ['?'] ∨ mark = ['!'] → IsWord front (sigil ++ (run ++ mark))

/-- The longest word that a text ends in. -/
structure IsLongest (before word : List Char) : Prop where
  ends : ∃ front, before = front ++ word ∧ IsWord front word
  longest : ∀ front w, before = front ++ w → IsWord front w → w.length ≤ word.length

/-! ## No longer word ends at the cursor -/

theorem IsSigil.classes {front sigil : List Char} (h : IsSigil front sigil) :
    ∀ c ∈ sigil, isWordChar c = false ∧ isMark c = false := by
  cases h with
  | none => simp
  | single | double | dollar | colon => simp [isWordChar, isMark]

theorem IsSigil.length_le {front sigil : List Char} (h : IsSigil front sigil) :
    sigil.length ≤ sigilLength (sigil.reverse ++ front.reverse) := by
  rw [sigilLength_eq]
  cases h with
  | none => exact Nat.zero_le _
  | single =>
      change 1 ≤ if front.reverse.head? = some '@' then 2 else 1
      split
      · exact Nat.le_succ 1
      · exact Nat.le_refl 1
  | double => exact Nat.le_refl 2
  | dollar => exact Nat.le_refl 1
  | colon hfront =>
      rw [← List.head?_reverse] at hfront
      exact Nat.le_of_eq (if_neg hfront).symm

/-- The length of what the way back takes after the mark. -/
def stemLength (near : List Char) : Nat :=
  let run := near.takeWhile isWordChar
  run.length + sigilLength (near.drop run.length)

theorem length_eq (near : List Char) :
    length near = markLength near + stemLength (near.drop (markLength near)) := by
  rw [length, stemLength, List.drop_drop, Nat.add_assoc]

theorem stemLength_append
    {run : List Char} (hrun : ∀ c ∈ run, isWordChar c = true) (near : List Char) :
    stemLength (run ++ near) = run.length + stemLength near := by
  rw [stemLength, stemLength, List.takeWhile_append_of_pos hrun, List.length_append,
    List.drop_length_add_append, Nat.add_assoc]

/-- The sigil and the run of a word are not longer than what is taken after the mark. -/
theorem IsSigil.length_le_stemLength
    {front sigil run : List Char} (h : IsSigil front sigil)
    (hrun : ∀ c ∈ run, isWordChar c = true) :
    (sigil ++ run).length ≤ stemLength ((sigil ++ run).reverse ++ front.reverse) := by
  have hreverse : ∀ c ∈ run.reverse, isWordChar c = true := by
    intro c hc
    exact hrun c (List.mem_reverse.1 hc)
  have hsigil : sigil.length ≤ stemLength (sigil.reverse ++ front.reverse) := by
    cases hfirst : sigil.reverse with
    | nil =>
        rw [List.reverse_eq_nil_iff.1 hfirst]
        exact Nat.zero_le _
    | cons c rest =>
        have hc : c ∈ sigil := List.mem_reverse.1 (hfirst ▸ List.mem_cons_self)
        have hstop : (c :: rest ++ front.reverse).takeWhile isWordChar = [] :=
          List.takeWhile_cons_of_neg (Bool.eq_false_iff.1 (h.classes c hc).1)
        rw [stemLength, hstop, List.length_nil, Nat.zero_add, List.drop_zero, ← hfirst]
        exact h.length_le
  rw [List.reverse_append, List.append_assoc, stemLength_append hreverse, List.length_append,
    List.length_reverse, Nat.add_comm]
  exact Nat.add_le_add_left hsigil run.length

theorem isMark_of_isWordChar {c : Char} (hc : isWordChar c = true) : isMark c = false :=
  isMark_of_joinsPlainly (Signature.joinsPlainly_of_isWordChar hc)

/-- At a place with no mark right before it no mark is taken. -/
theorem length_of_head
    {near : List Char} (hnear : ∀ c, near.head? = some c → isMark c = false) :
    length near = stemLength near := by
  have hzero : markLength near = 0 :=
    markLength_append (List.forall_mem_nil _) (Nat.zero_le 1) hnear
  rw [length_eq, hzero, Nat.zero_add, List.drop_zero]

/-- No word that fits is longer than what is taken. -/
theorem IsWord.length_le {front w : List Char} (h : IsWord front w) :
    w.length ≤ length (front ++ w).reverse := by
  obtain @⟨sigil, run, mark, hsigil, hrun, hmark⟩ := h
  have hstem := hsigil.length_le_stemLength hrun
  have hnear : (front ++ (sigil ++ (run ++ mark))).reverse =
      mark.reverse ++ ((sigil ++ run).reverse ++ front.reverse) := by
    simp
  rw [hnear, ← List.append_assoc, List.length_append]
  rcases hmark with rfl | rfl | rfl
  · rw [List.reverse_nil, List.nil_append, List.length_nil, Nat.add_zero]
    by_cases hnil : sigil ++ run = []
    · rw [hnil]
      exact Nat.zero_le _
    · rw [length_of_head]
      · exact hstem
      · intro c hc
        rw [List.head?_append_of_ne_nil _ (mt List.reverse_eq_nil_iff.1 hnil)] at hc
        have hmem := List.mem_reverse.1 (List.mem_of_mem_head? hc)
        rcases List.mem_append.1 hmem with hmem | hmem
        · exact (hsigil.classes c hmem).2
        · exact isMark_of_isWordChar (hrun c hmem)
  · rw [Nat.add_comm, length_eq]
    exact Nat.add_le_add_left hstem 1
  · rw [Nat.add_comm, length_eq]
    exact Nat.add_le_add_left hstem 1

/-! ## The word of a cursor has the form of a word -/

theorem exists_isSigil (near : List Char) :
    ∃ sigil rest, near = sigil.reverse ++ rest ∧ sigilLength near = sigil.length ∧
      IsSigil rest.reverse sigil := by
  fun_cases sigilLength near with
  | case1 rest => exact ⟨['@', '@'], rest, rfl, rfl, .double⟩
  | case2 rest => exact ⟨['@'], rest, rfl, rfl, .single⟩
  | case3 rest => exact ⟨['$'], rest, rfl, rfl, .dollar⟩
  | case4 rest => exact ⟨[], _, rfl, rfl, .none⟩
  | case5 rest hrest =>
      refine ⟨[':'], rest, rfl, rfl, .colon fun hcolon => ?_⟩
      rw [List.getLast?_reverse] at hcolon
      obtain ⟨tail, rfl⟩ := List.head?_eq_some_iff.1 hcolon
      exact hrest tail rfl
  | case6 => exact ⟨[], near, rfl, rfl, .none⟩

theorem exists_mark (near : List Char) :
    ∃ mark rest, near = mark.reverse ++ rest ∧ markLength near = mark.length ∧
      (mark = [] ∨ mark = ['?'] ∨ mark = ['!']) := by
  rw [markLength_eq]
  split
  · rename_i hmark
    rcases hmark with hmark | hmark
    · obtain ⟨rest, rfl⟩ := List.head?_eq_some_iff.1 hmark
      exact ⟨['?'], rest, rfl, rfl, Or.inr (Or.inl rfl)⟩
    · obtain ⟨rest, rfl⟩ := List.head?_eq_some_iff.1 hmark
      exact ⟨['!'], rest, rfl, rfl, Or.inr (Or.inr rfl)⟩
  · exact ⟨[], near, rfl, rfl, Or.inl rfl⟩

theorem exists_isWord (near : List Char) :
    ∃ w rest, near = w.reverse ++ rest ∧ length near = w.length ∧ IsWord rest.reverse w := by
  obtain ⟨mark, stem, rfl, hmarkLength, hmark⟩ := exists_mark near
  obtain ⟨sigil, rest, hrest, hsigilLength, hsigil⟩ :=
    exists_isSigil (stem.drop (stem.takeWhile isWordChar).length)
  have hrun : ∀ c ∈ (stem.takeWhile isWordChar).reverse, isWordChar c = true := fun c hc =>
    List.mem_takeWhile_imp (List.mem_reverse.1 hc)
  have hstem : stem = stem.takeWhile isWordChar ++ (sigil.reverse ++ rest) := by
    rw [← hrest]
    exact List.prefix_append_drop (List.takeWhile_prefix isWordChar)
  refine ⟨sigil ++ ((stem.takeWhile isWordChar).reverse ++ mark), rest, ?_, ?_,
    .mk hsigil hrun hmark⟩
  · nth_rewrite 1 [hstem]
    simp
  · rw [length_eq, hmarkLength, ← List.length_reverse, List.drop_left, stemLength, hsigilLength]
    simp
    omega

/-- The word before a cursor is the longest one that the text before it ends in. -/
theorem isLongest_word (c : Cursor) : IsLongest c.before c.word := by
  obtain ⟨w, rest, hnear, hlength, hw⟩ := exists_isWord c.before.reverse
  have hbefore : c.before = rest.reverse ++ w := by
    rw [← List.reverse_reverse c.before, hnear, List.reverse_append, List.reverse_reverse]
  have hword : c.word = w := by
    rw [Cursor.word, hlength, hbefore, List.length_append, Nat.add_sub_cancel, List.drop_left]
  constructor
  · exact ⟨rest.reverse, hword ▸ hbefore, hword ▸ hw⟩
  · intro front w' hbefore' hw'
    have hle := hw'.length_le
    rwa [← hbefore', hlength, ← hword] at hle

end Word

/-! ## The text at a range -/

/-- The text between the offsets of the ends of a range, if both ends have valid
offsets that are in order. -/
def Text.atRange? (cs : List Char) (r : Range) : Option (List Char) := do
  let start ← offsetAt? cs r.start
  let stop ← offsetAt? cs r.stop
  Guarded.slice? cs start stop

/-- The range of a part of a text leads back to the part. -/
theorem Text.atRange?_rangeBetween (before part after : List Char) :
    atRange? (before ++ (part ++ after))
        (rangeBetween (before ++ (part ++ after)) (byteLength before)
          (byteLength before + byteLength part)) =
      some part := by
  have hstart : IsBoundary (before ++ (part ++ after)) (byteLength before) :=
    ⟨before, part ++ after, rfl, rfl⟩
  have hstop : IsBoundary (before ++ (part ++ after)) (byteLength before + byteLength part) :=
    ⟨before ++ part, after, (List.append_assoc before part after).symm,
      byteLength_append before part⟩
  rw [atRange?, rangeBetween, offsetAt?_positionAt hstart, offsetAt?_positionAt hstop]
  exact Guarded.slice?_append before part after

namespace Cursor

variable {b : Buffer} {c : Cursor}

theorem atRange?_wordRange (htext : b.text = c.before ++ c.after) :
    Text.atRange? b.text (Text.rangeBetween b.text c.wordStart c.offset) = some c.word := by
  obtain ⟨first, hword, hstart⟩ := c.wordStart_eq
  have hback := Text.atRange?_rangeBetween first c.word c.after
  rwa [← List.append_assoc, ← hword, ← htext, ← Text.byteLength_append, ← hword, ← hstart]
    at hback

theorem atRange?_wholeWordRange (htext : b.text = c.before ++ c.after) :
    Text.atRange? b.text (Text.rangeBetween b.text c.wordStart c.wordStop) =
      some (c.word ++ c.remainder) := by
  obtain ⟨first, hword, hstart⟩ := c.wordStart_eq
  obtain ⟨rest, hrest⟩ := c.exists_after_remainder
  have hback := Text.atRange?_rangeBetween first (c.word ++ c.remainder) rest
  have hsplit : b.text = first ++ (c.word ++ c.remainder ++ rest) := by
    rw [htext, hrest, hword]
    simp
  have hstop : c.wordStop = Text.byteLength first + Text.byteLength (c.word ++ c.remainder) := by
    rw [wordStop, offset, ← Text.byteLength_append, ← Text.byteLength_append, hword]
    simp
  rwa [← hsplit, ← hstop, ← hstart] at hback

end Cursor

/-- The word at a valid offset is the longest word that the text before the offset
ends in.  The range of the word leads back to the word, and the range of the whole
word to the whole word. -/
theorem Buffer.fragment_word_isLongest
    {b : Buffer} {before after : List Char} (htext : b.text = before ++ after) :
    ∃ f, b.fragment (Text.byteLength before) = .ok f ∧
      Word.IsLongest before f.word.toList ∧
      Text.atRange? b.text f.wordRange = some f.word.toList ∧
      Text.atRange? b.text f.wholeWordRange = some f.wholeWord.toList := by
  let c : Cursor := ⟨before, after⟩
  refine ⟨c.fragment b, fragment_of_cursor (cursor_of_text_eq htext), ?_, ?_, ?_⟩
  · rw [Cursor.fragment, String.toList_ofList]
    exact Word.isLongest_word c
  · rw [Cursor.fragment, String.toList_ofList]
    exact c.atRange?_wordRange htext
  · rw [Cursor.fragment, String.toList_ofList]
    exact c.atRange?_wholeWordRange htext

/-- Three at signs before a word, behind a character of two UTF-16 units. -/
def Buffer.thirdAtSign : Buffer where
  text := "é\n😀@@@a1?!x".toList
  comments := SpanSet.empty
  strings := SpanSet.empty
  constructs := []
  locals := []
  literalBefore _ := none
  tokenStart offset := offset

theorem Buffer.fragment_thirdAtSign :
    ∃ f, Buffer.thirdAtSign.fragment 13 = .ok f ∧
      f.word = "@@a1?" ∧ f.wordRange = ⟨⟨1, 3⟩, ⟨1, 8⟩⟩ ∧
      Word.IsLongest "é\n😀@@@a1?".toList "@@a1?".toList ∧
      Text.atRange? Buffer.thirdAtSign.text ⟨⟨1, 3⟩, ⟨1, 8⟩⟩ = some "@@a1?".toList ∧
      Text.atRange? Buffer.thirdAtSign.text f.wholeWordRange = some "@@a1?!x".toList := by
  have htext : Buffer.thirdAtSign.text = "é\n😀@@@a1?".toList ++ "!x".toList := rfl
  obtain ⟨f, hf, hlongest, hword, hwhole⟩ := Buffer.fragment_word_isLongest htext
  have hc := Buffer.fragment_of_cursor (Buffer.cursor_of_text_eq htext)
  obtain rfl := Except.ok.inj (hf.symm.trans hc)
  have hwordEq :
      (Cursor.fragment ⟨"é\n😀@@@a1?".toList, "!x".toList⟩ Buffer.thirdAtSign).word = "@@a1?" := by
    decide
  have hrange :
      (Cursor.fragment ⟨"é\n😀@@@a1?".toList, "!x".toList⟩ Buffer.thirdAtSign).wordRange =
        ⟨⟨1, 3⟩, ⟨1, 8⟩⟩ := by
    decide
  have hwholeEq :
      (Cursor.fragment ⟨"é\n😀@@@a1?".toList, "!x".toList⟩ Buffer.thirdAtSign).wholeWord =
        "@@a1?!x" := by
    decide
  rw [hwordEq] at hlongest hword
  rw [hrange] at hword
  rw [hwholeEq] at hwhole
  exact ⟨_, hf, hwordEq, hrange, hlongest, hword, hwhole⟩

end Caret
