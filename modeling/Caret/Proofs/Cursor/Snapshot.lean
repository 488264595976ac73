import Caret.Proofs.Cursor.GuardedPosition
import Caret.Proofs.Cursor.GuardedScan
import Caret.Proofs.Text.Cut
import Caret.Tree.Source

/-!
# Every valid cursor has its fragment

The fragment of a cursor is put together once more from accesses that can fail.
At each valid offset none of them does, and the outcome is the fragment.
-/

namespace Caret

namespace Guarded

open Signature

/-- The first offset from `start` on at which a character begins or the text
ends. -/
def roundUp? (cs : List Char) (start : Nat) : Option Nat :=
  if Text.isCharStart cs start then some start
  else if start < Text.byteLength cs then roundUp? cs (start + 1)
  else none
termination_by Text.byteLength cs - start

/-- The class of the literal that ends right before an offset of a source, if there
is one. -/
def literalBefore? (s : Source) (offset : Nat) : Option (Option String) :=
  match Text.splitAt? s.text offset with
  | none => some none
  | some (before, _) =>
    let stop := Text.byteLength (Text.trimEnd before)
    if stop = 0 then
      some none
    else do
      let last ← sub? stop 1
      some (((s.root.enclosing last stop).takeWhile (·.stop == stop)).findSome?
        fun n => Node.literalType n.kind)

/-- The ways to look for literals in a buffer: its answers are taken as they are, or
they are searched for in the tree of a source. -/
inductive FindsLiterals : (Nat → Option (Option String)) → Buffer → Prop
  | answers (b : Buffer) : FindsLiterals (fun o => some (b.literalBefore o)) b
  | search (s : Source) : FindsLiterals (literalBefore? s) s.toBuffer

/-- The chain of a scan, with a literal receiver in front of a chain that begins
with a dot. -/
def chain? (literal? : Nat → Option (Option String)) (s : Scan) : Option (List Char) :=
  match s.members, s.head with
  | '.' :: _, some head => (literal? head).map fun
    | some literal => literal.toList ++ ".new".toList ++ s.members
    | none => s.members
  | _, _ => some s.members

def signature? (fits : Int → Bool) (literal? : Nat → Option (Option String)) (b : Buffer)
    (offset : Nat) : Option (Nat × List Char) := do
  let (start, s) ← scan? fits b offset offset {}
  let start ← roundUp? b.text (min start offset)
  some (start, ← chain? literal? s)

def shorter? (a b : Span × Construct) : Option (Span × Construct) := do
  let m ← sub? a.1.stop a.1.start
  let n ← sub? b.1.stop b.1.start
  some (if n < m then b else a)

def innermost? (constructs : List (Span × Construct)) (offset : Nat) : Option Construct :=
  match constructs.filter (·.1.surrounds offset) with
  | [] => some Construct.root
  | c :: cs => (cs.foldlM shorter? c).map Prod.snd

def range? (cs : List Char) (start stop : Nat) : Option Range := do
  let start ← position? cs start
  let stop ← position? cs stop
  some ⟨start, stop⟩

/-- What is known about the cursor at an offset.  Literals are looked for by
`literal?`.  Where a token starts is found by comparing offsets, so that there is
nothing to check. -/
def fragment? (fits : Int → Bool) (literal? : Nat → Option (Option String)) (b : Buffer)
    (offset : Nat) : Option Fragment := do
  let construct ← innermost? b.constructs offset
  let (start, signature) ← signature? fits literal? b offset
  let phrase ← slice? b.text start offset
  let wordStart ← wordStart? (bytes b.text) offset
  let word ← slice? b.text wordStart offset
  let wordStop ← wordStop? (bytes b.text) offset
  let remainder ← slice? b.text offset wordStop
  let wordRange ← range? b.text wordStart (max offset wordStart)
  let wholeWordRange ← range? b.text wordStart (max wordStop wordStart)
  let here ← position? b.text (b.tokenStart offset)
  let inString := b.strings.surrounds offset
  some
    { offset := offset
      namespaceName := construct.namespaceName
      scope := construct.scope
      signature := String.ofList signature
      base := String.ofList (Signature.base signature)
      word := String.ofList word
      remainder := String.ofList remainder
      wholeWord := String.ofList (word ++ remainder)
      wholeSignature := String.ofList (signature ++ remainder)
      phrase := String.ofList phrase
      signatureStart := start
      inString := inString
      inComment := !inString && b.comments.trails offset
      wordRange := wordRange
      wholeWordRange := wholeWordRange
      visibleLocals := (b.locals.filter fun pin =>
        pin.closurePath == construct.closurePath && pin.visibleFrom here).map Pin.name }

def fits32 (n : Int) : Bool :=
  decide (-0x80000000 ≤ n) && decide (n < 0x80000000)

/-! ## Constructs -/

theorem shorter?_eq
    {a b : Span × Construct} (ha : a.1.start ≤ a.1.stop) (hb : b.1.start ≤ b.1.stop) :
    shorter? a b = some (Construct.shorter a b) := by
  simp only [shorter?, sub?_of_le ha, sub?_of_le hb]
  rfl

theorem foldlM_shorter?_eq
    {c : Span × Construct} {cs : List (Span × Construct)}
    (h : ∀ d ∈ c :: cs, d.1.start ≤ d.1.stop) :
    cs.foldlM shorter? c = some (cs.foldl Construct.shorter c) := by
  induction cs generalizing c with
  | nil => rfl
  | cons d cs ih =>
      have hc := h c (by simp)
      have hd := h d (by simp)
      rw [List.foldlM_cons, shorter?_eq hc hd, List.foldl_cons, Option.bind_eq_bind,
        Option.bind_some]
      apply ih
      intro e he
      rcases List.mem_cons.1 he with rfl | he
      · unfold Construct.shorter
        split
        · exact hd
        · exact hc
      · exact h e (by simp [he])

theorem innermost?_eq (constructs : List (Span × Construct)) (offset : Nat) :
    innermost? constructs offset = some (Construct.innermost constructs offset) := by
  have hle : ∀ d ∈ constructs.filter (·.1.surrounds offset), d.1.start ≤ d.1.stop := by
    intro d hd
    have hsurrounds := (List.mem_filter.1 hd).2
    simp only [Span.surrounds, Bool.and_eq_true, decide_eq_true_eq] at hsurrounds
    omega
  rw [innermost?, Construct.innermost]
  cases hfilter : constructs.filter (·.1.surrounds offset) with
  | nil => rfl
  | cons c cs =>
      rw [hfilter] at hle
      dsimp only
      rw [foldlM_shorter?_eq hle]
      rfl

/-! ## The start of the signature -/

theorem roundUp?_eq
    {cs : List Char} {start r : Nat} (hr : Text.IsBoundary cs r) (hle : start ≤ r)
    (hnone : ∀ i, start ≤ i → i < r → ¬Text.IsBoundary cs i) :
    roundUp? cs start = some r := by
  obtain ⟨n, rfl⟩ := Nat.exists_eq_add_of_le hle
  induction n generalizing start with
  | zero =>
      rw [Nat.add_zero] at hr ⊢
      rw [roundUp?, if_pos (Text.isCharStart_iff.2 hr)]
  | succ n ih =>
      have hstart : ¬Text.isCharStart cs start = true := by
        rw [Text.isCharStart_iff]
        exact hnone start (Nat.le_refl _) (by omega)
      have hlt : start < Text.byteLength cs := by
        have := hr.le
        omega
      have hnext : start + (n + 1) = start + 1 + n := by omega
      rw [hnext] at hr hnone ⊢
      rw [roundUp?, if_neg hstart, if_pos hlt]
      exact ih hr (by omega) fun i hi hlt => hnone i (by omega) hlt

/-- A literal is looked for at a byte that is there. -/
theorem literalBefore?_eq (s : Source) (offset : Nat) :
    literalBefore? s offset = some (s.toBuffer.literalBefore offset) := by
  change literalBefore? s offset = some (s.root.literalBefore s.text offset)
  rw [literalBefore?, Node.literalBefore]
  cases Text.splitAt? s.text offset with
  | none => rfl
  | some cut =>
      dsimp only
      split_ifs with hstop
      · rfl
      · rw [sub?_of_le (Nat.one_le_iff_ne_zero.2 hstop)]
        rfl

theorem FindsLiterals.eq_some
    {literal? : Nat → Option (Option String)} {b : Buffer} (h : FindsLiterals literal? b) (o : Nat) :
    literal? o = some (b.literalBefore o) := by
  cases h with
  | answers => rfl
  | search s => exact literalBefore?_eq s o

theorem chain?_toScan
    {literal? : Nat → Option (Option String)} {b : Buffer}
    (hliteral : FindsLiterals literal? b) (start : Nat) (t : State) :
    chain? literal? (toScan t) = some (withReceiver b ⟨start, t.members, t.leftOfHead⟩) := by
  have hhead : (toScan t).head = t.leftOfHead.map List.length := rfl
  have hmembers : (toScan t).members = t.members := rfl
  rw [chain?, withReceiver, hhead, hmembers]
  by_cases hdot : ∃ rest, t.members = '.' :: rest
  · obtain ⟨rest, hrest⟩ := hdot
    cases t.leftOfHead with
    | none => rw [hrest]; rfl
    | some left =>
        simp only [hrest, Option.map_some, Option.bind_some, hliteral.eq_some]
        cases b.literalBefore left.length <;> rfl
  · split
    · exact absurd ⟨_, by assumption⟩ hdot
    · split
      · exact absurd ⟨_, by assumption⟩ hdot
      · rfl

end Guarded

/-! ## The three cuts -/

namespace Cursor

variable {b : Buffer} {c : Cursor}

theorem offset_le_length (htext : b.text = c.before ++ c.after) : c.offset ≤ b.length := by
  rw [Buffer.length, htext, Text.byteLength_append]
  exact Nat.le_add_right _ _

/-- The text before the start of the signature. -/
theorem exists_before_phrase (htext : b.text = c.before ++ c.after) :
    ∃ dropped, c.before = dropped ++ c.phrase b ∧ c.signatureStart b = Text.byteLength dropped ∧
      Guarded.roundUp? b.text (min (Signature.walkFrom b c.offset).start c.offset) =
        some (c.signatureStart b) := by
  obtain ⟨dropped, happend, hle, hnone⟩ :=
    Text.exists_dropped c.before (Signature.walkFrom b c.offset).start
  have hstart : c.signatureStart b = Text.byteLength dropped := by
    have hlength := congrArg Text.byteLength happend
    rw [Text.byteLength_append] at hlength
    rw [signatureStart, offset, phrase]
    omega
  have hoffset : Text.byteLength dropped ≤ c.offset := by
    rw [← hstart]
    exact Nat.sub_le _ _
  refine ⟨dropped, happend, hstart, ?_⟩
  rw [hstart]
  apply Guarded.roundUp?_eq
  · refine ⟨dropped, c.phrase b ++ c.after, ?_, rfl⟩
    rw [htext, ← List.append_assoc]
    exact congrArg (· ++ c.after) happend
  · exact hle
  · intro i hi hlt hboundary
    rw [htext] at hboundary
    exact hnone i (by omega) hlt (hboundary.of_append (by rw [← offset]; omega))

theorem wordStart_eq (c : Cursor) :
    ∃ first, c.before = first ++ c.word ∧ c.wordStart = Text.byteLength first := by
  have hword := Word.beginsAscii_length c.before.reverse
  have hle := hword.le_length
  rw [List.length_reverse] at hle
  have happend := (List.take_append_drop
    (c.before.length - Word.length c.before.reverse) c.before).symm
  refine ⟨_, happend, ?_⟩
  have hascii : ∀ x ∈ c.word, x.toNat < 128 := by
    intro x hx
    apply hword.ascii
    rw [List.take_reverse, List.mem_reverse]
    exact hx
  have hlength := congrArg Text.byteLength happend
  rw [Text.byteLength_append, ← word, Text.byteLength_of_ascii hascii, word,
    List.length_drop] at hlength
  rw [wordStart, offset]
  omega

theorem exists_after_remainder (c : Cursor) : ∃ rest, c.after = c.remainder ++ rest :=
  ⟨_, (List.takeWhile_append_dropWhile).symm⟩

end Cursor

namespace Guarded

open Signature

variable {b : Buffer} {c : Cursor} {fits : Int → Bool} {literal? : Nat → Option (Option String)}

theorem signature?_eq
    (hfits : ∀ n : Int, -(c.offset : Int) ≤ n → n ≤ 1 → fits n = true)
    (hliteral : FindsLiterals literal? b)
    (htext : b.text = c.before ++ c.after) :
    signature? fits literal? b c.offset = some (c.signatureStart b, c.signature b) := by
  obtain ⟨left, right, hleft, hstands, hwalk⟩ := stands_walkFrom (c.offset_le_length htext)
  obtain ⟨start, t, hscan, hend⟩ := scan?_of_stands hfits hstands (Nat.le_of_eq hleft)
    (s := {}) rfl (by intro k; rw [hleft]; cases k <;> simp [Nesting.counter])
  obtain ⟨dropped, -, -, hround⟩ := c.exists_before_phrase htext
  rw [hleft] at hscan
  rw [hend] at hwalk
  have hempty : toScan {} = {} := rfl
  rw [hempty] at hscan
  rw [hwalk] at hround
  rw [signature?, hscan]
  simp only [Option.bind_eq_bind, Option.bind_some, hround, chain?_toScan hliteral start t]
  rw [← hwalk]
  rfl

theorem wordStart?_of_text (htext : b.text = c.before ++ c.after) :
    wordStart? (bytes b.text) c.offset = some c.wordStart := by
  have hword := wordStart?_eq (bytes c.before).reverse (bytes c.after)
  rw [List.reverse_reverse, ← bytes_append, ← htext, List.length_reverse, length_bytes,
    Text.reverse_bytes, Word.length_flatMap Text.spellsOut_reverse_bytes] at hword
  exact hword

theorem wordStop?_of_text (htext : b.text = c.before ++ c.after) :
    wordStop? (bytes b.text) c.offset = some c.wordStop := by
  have hstop := wordStop?_eq (bytes c.before) (bytes c.after)
  rw [← bytes_append, ← htext, length_bytes, Text.bytes_eq_flatMap c.after,
    Word.remainder_flatMap Text.spellsOut_bytes] at hstop
  rw [← Cursor.offset] at hstop
  rw [hstop, Cursor.wordStop, Cursor.remainder,
    Text.byteLength_of_ascii (Word.ascii_of_mem_remainder c.after)]

theorem range?_eq (cs : List Char) (start stop : Nat) :
    range? cs start stop = some (Text.rangeBetween cs start stop) := by
  rw [range?, position?_eq, position?_eq]
  rfl

/-- Nothing fails at a valid cursor, and the outcome is the fragment. -/
theorem fragment?_eq
    (hfits : ∀ n : Int, -(c.offset : Int) ≤ n → n ≤ 1 → fits n = true)
    (hliteral : FindsLiterals literal? b)
    (htext : b.text = c.before ++ c.after) :
    fragment? fits literal? b c.offset = some (c.fragment b) := by
  obtain ⟨dropped, hphrase, hstart, -⟩ := c.exists_before_phrase htext
  obtain ⟨first, hword, hwordStart⟩ := c.wordStart_eq
  obtain ⟨rest, hrest⟩ := c.exists_after_remainder
  have hphraseCut : slice? b.text (c.signatureStart b) c.offset = some (c.phrase b) := by
    have hcut := slice?_append dropped (c.phrase b) c.after
    rwa [← List.append_assoc, ← hphrase, ← htext, ← Text.byteLength_append, ← hphrase,
      ← hstart] at hcut
  have hwordCut : slice? b.text c.wordStart c.offset = some c.word := by
    have hcut := slice?_append first c.word c.after
    rwa [← List.append_assoc, ← hword, ← htext, ← Text.byteLength_append, ← hword,
      ← hwordStart] at hcut
  have hremainderCut : slice? b.text c.offset c.wordStop = some c.remainder := by
    have hcut := slice?_append c.before c.remainder rest
    rwa [← hrest, ← htext] at hcut
  have hwordLe : c.wordStart ≤ c.offset := Nat.sub_le _ _
  have hwordStopLe : c.wordStart ≤ c.wordStop :=
    Nat.le_trans hwordLe (Nat.le_add_right _ _)
  rw [fragment?, innermost?_eq, signature?_eq hfits hliteral htext]
  simp only [Option.bind_eq_bind, Option.bind_some, hphraseCut, wordStart?_of_text htext, hwordCut,
    wordStop?_of_text htext, hremainderCut, Nat.max_eq_left hwordLe,
    Nat.max_eq_left hwordStopLe, range?_eq, position?_eq]
  rfl

end Guarded

/-! ## Valid offsets -/

theorem Buffer.cursor_eq_ok_iff {b : Buffer} {offset : Nat} {c : Cursor} :
    b.cursor offset = .ok c ↔ b.text = c.before ++ c.after ∧ c.offset = offset := by
  constructor
  · intro hc
    unfold cursor at hc
    split at hc
    · rename_i before after hcut
      obtain rfl := Except.ok.inj hc
      exact (Text.splitAt?_eq_some_iff _ _ _ _).1 hcut
    · simp at hc
  · rintro ⟨htext, rfl⟩
    exact cursor_of_text_eq htext

theorem Buffer.exists_cursor_iff {b : Buffer} {offset : Nat} :
    (∃ c, b.cursor offset = .ok c) ↔ Text.IsBoundary b.text offset := by
  constructor
  · rintro ⟨c, hc⟩
    obtain ⟨htext, hoffset⟩ := cursor_eq_ok_iff.1 hc
    exact ⟨c.before, c.after, htext, hoffset⟩
  · rintro ⟨before, after, htext, hoffset⟩
    exact ⟨⟨before, after⟩, cursor_eq_ok_iff.2 ⟨htext, hoffset⟩⟩

theorem Buffer.cursor_eq_error_of_not_isBoundary
    {b : Buffer} {offset : Nat} (h : ¬Text.IsBoundary b.text offset) :
    b.cursor offset = .error (.invalidOffset offset b.length) := by
  rw [← Text.splitAt?_isSome_iff, Option.not_isSome_iff_eq_none] at h
  rw [cursor, h]

theorem Buffer.valid_iff {b : Buffer} {offset : Nat} :
    (offset ≤ b.length ∧ Text.isCharStart b.text offset = true) ↔
      Text.IsBoundary b.text offset := by
  rw [Text.isCharStart_iff]
  exact ⟨fun h => h.2, fun h => ⟨h.le, h⟩⟩

/-- A fragment is known at the valid offsets and at no others, where the error
names the offset and the length of the text.  At a valid offset every byte that
is looked at is in bounds, no difference is below zero, in the search for a
literal neither, the texts of the phrase, the word and the rest of the word are
cut at ends that are in order and between characters, and counters of 32 bits are
enough for texts of less than two gigabytes. -/
theorem Buffer.snapshot_inBounds (b : Buffer) (offset : Nat) :
    ((∃ c, b.cursor offset = .ok c) ↔
        offset ≤ b.length ∧ Text.isCharStart b.text offset = true) ∧
      (∀ c, b.cursor offset = .ok c →
        b.snapshot offset = .ok (c.fragment b) ∧
          (∀ literal?, Guarded.FindsLiterals literal? b →
            Guarded.fragment? (fun _ => true) literal? b offset = some (c.fragment b) ∧
            (b.length < 0x80000000 →
              Guarded.fragment? Guarded.fits32 literal? b offset = some (c.fragment b))) ∧
          c.signatureStart b ≤ offset ∧ c.wordStart ≤ offset ∧ offset ≤ c.wordStop ∧
          Text.isCharStart b.text (c.signatureStart b) = true ∧
          Text.isCharStart b.text c.wordStart = true ∧
          Text.isCharStart b.text c.wordStop = true) ∧
      (¬(offset ≤ b.length ∧ Text.isCharStart b.text offset = true) →
        b.cursor offset = .error (.invalidOffset offset b.length) ∧
          b.snapshot offset = .error (.invalidOffset offset b.length)) := by
  rw [valid_iff]
  refine ⟨exists_cursor_iff, ?_, ?_⟩
  · intro c hc
    obtain ⟨htext, rfl⟩ := cursor_eq_ok_iff.1 hc
    obtain ⟨dropped, hphrase, hstart, -⟩ := c.exists_before_phrase htext
    obtain ⟨first, hword, hwordStart⟩ := c.wordStart_eq
    obtain ⟨rest, hrest⟩ := c.exists_after_remainder
    have hle := c.offset_le_length htext
    refine ⟨?_, fun literal? hliteral => ⟨?_, ?_⟩, Nat.sub_le _ _, Nat.sub_le _ _,
      Nat.le_add_right _ _, ?_, ?_, ?_⟩
    · rw [snapshot, fragment, hc]
      rfl
    · exact Guarded.fragment?_eq (fun n _ _ => rfl) hliteral htext
    · intro hlength
      apply Guarded.fragment?_eq _ hliteral htext
      intro n hn hn'
      simp only [Guarded.fits32, Bool.and_eq_true, decide_eq_true_eq]
      omega
    · rw [Text.isCharStart_iff, hstart]
      refine ⟨dropped, c.phrase b ++ c.after, ?_, rfl⟩
      rw [← List.append_assoc, ← hphrase, htext]
    · rw [Text.isCharStart_iff, hwordStart]
      refine ⟨first, c.word ++ c.after, ?_, rfl⟩
      rw [← List.append_assoc, ← hword, htext]
    · rw [Text.isCharStart_iff]
      refine ⟨c.before ++ c.remainder, rest, ?_, Text.byteLength_append _ _⟩
      rw [List.append_assoc, ← hrest, htext]
  · intro h
    have hcursor := cursor_eq_error_of_not_isBoundary h
    refine ⟨hcursor, ?_⟩
    rw [snapshot, fragment, hcursor]
    rfl

end Caret
