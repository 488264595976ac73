import Caret.Proofs.Signature.Chain
import Caret.Proofs.Text.Bytes

/-!
# The word at a cursor, found by offsets

The ends of a word are found once more on the bytes of the text, addressed by
their offsets.  A byte out of bounds, a difference below zero and a cut inside a
character have no result.  None of this ever happens, and the ends are those of
the word.
-/

namespace Caret

/-! ## Words among characters and among bytes -/

namespace Word

theorem toNat_lt_of_isMark {c : Char} (hc : isMark c = true) : c.toNat < 128 := by
  simp only [isMark, Bool.or_eq_true, beq_iff_eq] at hc
  rcases hc with rfl | rfl <;> decide

theorem markLength_eq (near : List Char) :
    markLength near = if near.head? = some '?' ∨ near.head? = some '!' then 1 else 0 := by
  cases near with
  | nil => simp [markLength]
  | cons c near => simp [markLength, isMark]

theorem isMark_of_joinsPlainly {c : Char} (hc : Signature.joinsPlainly c = true) :
    isMark c = false := by
  by_contra hmark
  simp only [isMark, Bool.not_eq_false, Bool.or_eq_true, beq_iff_eq] at hmark
  rcases hmark with rfl | rfl <;> exact absurd hc (by decide)

theorem markLength_append
    {mark rest : List Char} (hmark : ∀ c ∈ mark, isMark c = true) (hle : mark.length ≤ 1)
    (hrest : ∀ c, rest.head? = some c → isMark c = false) :
    markLength (mark ++ rest) = mark.length := by
  match mark with
  | [] =>
      cases rest with
      | nil => rfl
      | cons d rest => simp [markLength, hrest d rfl]
  | [c] => simp [markLength, hmark c List.mem_cons_self]

theorem sigilLength_eq (near : List Char) :
    sigilLength near =
      if near.head? = some '@' then if near.tail.head? = some '@' then 2 else 1
      else if near.head? = some '$' then 1
      else if near.head? = some ':' then if near.tail.head? = some ':' then 0 else 1
      else 0 := by
  fun_cases sigilLength near <;> simp_all [List.head?_eq_some_iff]

theorem ascii_of_isRemainder {c : Char} (hc : (isWordChar c || isMark c) = true) :
    c.toNat < 128 := by
  rw [Bool.or_eq_true] at hc
  rcases hc with hc | hc
  · exact Signature.toNat_lt_of_isWordChar hc
  · exact toNat_lt_of_isMark hc

theorem ascii_of_mem_remainder (after : List Char) : ∀ c ∈ remainder after, c.toNat < 128 := by
  intro c hc
  exact ascii_of_isRemainder (List.mem_takeWhile_imp (p := fun c => isWordChar c || isMark c) hc)

theorem beginsAscii_markLength (near : List Char) : Text.BeginsAscii near (markLength near) := by
  cases near with
  | nil => exact .zero []
  | cons c near =>
      rw [markLength]
      split
      · rename_i hc
        exact ⟨by simp, by simpa using toNat_lt_of_isMark hc⟩
      · exact .zero _

theorem beginsAscii_sigilLength (near : List Char) : Text.BeginsAscii near (sigilLength near) := by
  fun_cases sigilLength near <;> constructor <;> simp

theorem beginsAscii_length (near : List Char) : Text.BeginsAscii near (length near) := by
  have hrun := Text.beginsAscii_takeWhile (fun c hc => Signature.toNat_lt_of_isWordChar hc)
    (near.drop (markLength near))
  exact ((beginsAscii_markLength near).add hrun).add (beginsAscii_sigilLength _)

variable {spell : Char → List Char}

theorem markLength_flatMap (h : Text.SpellsOut spell) (near : List Char) :
    markLength (near.flatMap spell) = markLength near := by
  simp only [markLength_eq, h.head?_flatMap_eq_iff (show '?'.toNat < 128 by decide),
    h.head?_flatMap_eq_iff (show '!'.toNat < 128 by decide)]

theorem sigilLength_flatMap (h : Text.SpellsOut spell) (near : List Char) :
    sigilLength (near.flatMap spell) = sigilLength near := by
  have htail (x : Char) (hx : x.toNat < 128) (hhead : near.head? = some x) :
      (near.flatMap spell).tail.head? = some x ↔ near.tail.head? = some x := by
    obtain ⟨tail, rfl⟩ := List.head?_eq_some_iff.1 hhead
    rw [List.flatMap_cons, h.ascii x hx, List.singleton_append, List.tail_cons, List.tail_cons,
      h.head?_flatMap_eq_iff hx]
  simp only [sigilLength_eq, h.head?_flatMap_eq_iff (show '@'.toNat < 128 by decide),
    h.head?_flatMap_eq_iff (show '$'.toNat < 128 by decide),
    h.head?_flatMap_eq_iff (show ':'.toNat < 128 by decide)]
  by_cases hat : near.head? = some '@'
  · rw [if_pos hat, if_pos hat]
    simp only [htail '@' (by decide) hat]
  · rw [if_neg hat, if_neg hat]
    by_cases hcolon : near.head? = some ':'
    · simp only [htail ':' (by decide) hcolon]
    · rw [if_neg hcolon, if_neg hcolon]

/-- A word is as long in bytes as it is in characters. -/
theorem length_flatMap (h : Text.SpellsOut spell) (near : List Char) :
    length (near.flatMap spell) = length near := by
  have hword (c : Char) (hc : isWordChar c = true) : c.toNat < 128 :=
    Signature.toNat_lt_of_isWordChar hc
  have hmark := beginsAscii_markLength near
  have hrun := hmark.add (Text.beginsAscii_takeWhile hword (near.drop (markLength near)))
  simp only [length, markLength_flatMap h, h.drop_flatMap hmark, h.takeWhile_flatMap hword,
    h.drop_flatMap hrun, sigilLength_flatMap h]

theorem remainder_flatMap (h : Text.SpellsOut spell) (after : List Char) :
    remainder (after.flatMap spell) = remainder after := by
  exact h.takeWhile_flatMap (fun c hc => ascii_of_isRemainder hc) after

end Word

/-! ## Accesses that can fail -/

namespace Guarded

def sub? (m n : Nat) : Option Nat :=
  if n ≤ m then some (m - n) else none

/-- The text between two offsets, if they are valid and in order. -/
def slice? (cs : List Char) (start stop : Nat) : Option (List Char) := do
  let length ← sub? stop start
  let (_, rest) ← Text.splitAt? cs start
  let (middle, _) ← Text.splitAt? rest length
  some middle

/-- Whether the byte before an offset reads as `x`, if there is a byte. -/
def follows? (code : List Char) (x : Char) : Nat → Option Bool
  | 0 => some false
  | i + 1 => (code[i]?).map (· == x)

/-- The offset before the mark that ends there, if one does. -/
def markStart? (code : List Char) : Nat → Option Nat
  | 0 => some 0
  | i + 1 => do
    let c ← code[i]?
    some (if Word.isMark c then i else i + 1)

/-- The offset before the letters, digits and underscores that end there. -/
def runStart? (code : List Char) : Nat → Option Nat
  | 0 => some 0
  | i + 1 => do
    let c ← code[i]?
    if Word.isWordChar c then runStart? code i else some (i + 1)

/-- The offset before the sigil that ends there, if one does. -/
def sigilStart? (code : List Char) : Nat → Option Nat
  | 0 => some 0
  | i + 1 => do
    let c ← code[i]?
    let afterAt ← follows? code '@' i
    let afterColon ← follows? code ':' i
    if c == '@' && afterAt then sub? (i + 1) 2
    else if c == '@' || c == '$' || c == ':' && !afterColon then sub? (i + 1) 1
    else some (i + 1)

def wordStart? (code : List Char) (offset : Nat) : Option Nat := do
  let i ← markStart? code offset
  let i ← runStart? code i
  sigilStart? code i

def wordStop? (code : List Char) (offset : Nat) : Option Nat :=
  if offset < code.length then do
    let c ← code[offset]?
    if Word.isWordChar c || Word.isMark c then wordStop? code (offset + 1) else some offset
  else
    some offset
termination_by code.length - offset

/-! ## The bytes before an offset, nearest first -/

theorem sub?_of_le {m n : Nat} (h : n ≤ m) : sub? m n = some (m - n) := by
  rw [sub?, if_pos h]

theorem slice?_append (before middle after : List Char) :
    slice? (before ++ (middle ++ after)) (Text.byteLength before)
        (Text.byteLength before + Text.byteLength middle) = some middle := by
  have hfirst := (Text.splitAt?_eq_some_iff (before ++ (middle ++ after))
    (Text.byteLength before) before (middle ++ after)).2 ⟨rfl, rfl⟩
  have hsecond := (Text.splitAt?_eq_some_iff (middle ++ after)
    (Text.byteLength middle) middle after).2 ⟨rfl, rfl⟩
  simp [slice?, sub?_of_le, hfirst, hsecond]

-- A cut inside a character has no result.
example : slice? "né".toList 0 2 = none := by decide

variable (near rest : List Char)

theorem getElem?_nearest (c : Char) :
    ((c :: near).reverse ++ rest)[near.length]? = some c := by
  simp

theorem follows?_eq (x : Char) :
    follows? (near.reverse ++ rest) x near.length = some (near.head? == some x) := by
  cases near with
  | nil => rfl
  | cons c near =>
      rw [List.length_cons, follows?, getElem?_nearest]
      rfl

theorem markStart?_eq :
    markStart? (near.reverse ++ rest) near.length = some (near.length - Word.markLength near) := by
  cases near with
  | nil => rfl
  | cons c near =>
      rw [List.length_cons, markStart?, getElem?_nearest, Option.bind_eq_bind, Option.bind_some,
        Word.markLength]
      split <;> rfl

theorem runStart?_eq :
    runStart? (near.reverse ++ rest) near.length =
      some (near.length - (near.takeWhile Word.isWordChar).length) := by
  induction near generalizing rest with
  | nil => rfl
  | cons c near ih =>
      rw [List.length_cons, runStart?, getElem?_nearest, Option.bind_eq_bind, Option.bind_some,
        List.takeWhile_cons]
      by_cases hc : Word.isWordChar c = true
      · have happend : (c :: near).reverse ++ rest = near.reverse ++ c :: rest := by simp
        rw [if_pos hc, if_pos hc, happend, ih, List.length_cons, Nat.add_sub_add_right]
      · rw [if_neg hc, if_neg hc]
        rfl

theorem sigilStart?_eq :
    sigilStart? (near.reverse ++ rest) near.length =
      some (near.length - Word.sigilLength near) := by
  cases near with
  | nil => rfl
  | cons c near =>
      have happend : (c :: near).reverse ++ rest = near.reverse ++ c :: rest := by simp
      rw [List.length_cons, sigilStart?, getElem?_nearest, happend, follows?_eq, follows?_eq,
        Word.sigilLength_eq]
      simp only [Option.bind_eq_bind, Option.bind_some, List.head?_cons, List.tail_cons,
        Option.some_inj]
      by_cases hat : c = '@'
      · subst hat
        by_cases hdouble : near.head? = some '@'
        · obtain ⟨tail, rfl⟩ := List.head?_eq_some_iff.1 hdouble
          simp [sub?]
        · simp [sub?, hdouble]
      · by_cases hcolon : c = ':'
        · subst hcolon
          by_cases hdouble : near.head? = some ':'
          · simp [hdouble]
          · simp [sub?, hdouble]
        · by_cases hdollar : c = '$'
          · simp [sub?, hdollar]
          · simp [hat, hcolon, hdollar]

theorem drop_reverse_append (n : Nat) :
    near.reverse ++ rest = (near.drop n).reverse ++ ((near.take n).reverse ++ rest) := by
  rw [← List.append_assoc, ← List.reverse_append, List.take_append_drop]

theorem wordStart?_eq :
    wordStart? (near.reverse ++ rest) near.length = some (near.length - Word.length near) := by
  rw [wordStart?, markStart?_eq, Option.bind_eq_bind, Option.bind_some,
    drop_reverse_append near rest (Word.markLength near), ← List.length_drop, runStart?_eq,
    Option.bind_some, List.length_drop, Nat.sub_sub, ← drop_reverse_append,
    drop_reverse_append near rest (Word.markLength near +
      ((near.drop (Word.markLength near)).takeWhile Word.isWordChar).length),
    ← List.length_drop, sigilStart?_eq, List.length_drop, Nat.sub_sub, Word.length]

theorem wordStop?_eq (before after : List Char) :
    wordStop? (before ++ after) before.length =
      some (before.length + (Word.remainder after).length) := by
  induction after generalizing before with
  | nil =>
      rw [wordStop?, if_neg (by simp)]
      rfl
  | cons c after ih =>
      have hlt : before.length < (before ++ c :: after).length := by simp
      have hget : (before ++ c :: after)[before.length]? = some c := by simp
      rw [wordStop?, if_pos hlt, hget, Option.bind_eq_bind, Option.bind_some, Word.remainder,
        List.takeWhile_cons]
      by_cases hc : (Word.isWordChar c || Word.isMark c) = true
      · have hnext := ih (before ++ [c])
        rw [List.append_assoc, List.singleton_append, List.length_append,
          List.length_singleton] at hnext
        rw [if_pos hc, if_pos hc, hnext, List.length_cons, Word.remainder]
        apply congrArg some
        omega
      · rw [if_neg hc, if_neg hc]
        rfl

end Guarded

end Caret
