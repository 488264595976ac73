import Caret.Decimal.Nearest
import Caret.Json.Basic

/-!
# Reading JSON

A strict reader: no comments, no trailing commas, blanks are space, tab, line
feed and carriage return, and nothing but blanks may follow the value.  What is
well formed but cannot be kept becomes `Json.unreadable`, so a caller that does
not look at it is not disturbed by it.
-/

namespace Caret.Json

def dropBlanks (cs : List Char) : List Char :=
  cs.dropWhile fun c => c == ' ' || c == '\t' || c == '\n' || c == '\r'

/-! ### Strings -/

/-- What one element of a quoted string stands for: a character, or half of a
surrogate pair. -/
inductive Piece where
  | char (c : Char)
  | high (n : Nat)
  | low (n : Nat)
deriving DecidableEq, Repr

def hexValue? (c : Char) : Option Nat :=
  if '0' ≤ c ∧ c ≤ '9' then some (c.toNat - '0'.toNat)
  else if 'a' ≤ c ∧ c ≤ 'f' then some (c.toNat - 'a'.toNat + 10)
  else if 'A' ≤ c ∧ c ≤ 'F' then some (c.toNat - 'A'.toNat + 10)
  else none

/-- The piece that four hexadecimal digits name. -/
def Piece.ofHex? (a b c d : Char) : Option Piece := do
  let n := (← hexValue? a) * 4096 + (← hexValue? b) * 256 + (← hexValue? c) * 16 + (← hexValue? d)
  if 0xD800 ≤ n ∧ n < 0xDC00 then some (.high (n - 0xD800))
  else if 0xDC00 ≤ n ∧ n < 0xE000 then some (.low (n - 0xDC00))
  else some (.char (Char.ofNat n))

/-- The character that a letter behind a backslash names. -/
def unescape? (c : Char) : Option Char :=
  if c = '"' ∨ c = '\\' ∨ c = '/' then some c
  else if c = 'b' then some (Char.ofNat 0x08)
  else if c = 'f' then some (Char.ofNat 0x0C)
  else if c = 'n' then some '\n'
  else if c = 'r' then some '\r'
  else if c = 't' then some '\t'
  else none

/-- The pieces up to the closing quote, and the text behind it. -/
def readPieces : List Char → Option (List Piece × List Char)
  | [] => none
  | '"' :: cs => some ([], cs)
  | '\\' :: 'u' :: a :: b :: c :: d :: cs => do
    let piece ← Piece.ofHex? a b c d
    let (pieces, cs) ← readPieces cs
    some (piece :: pieces, cs)
  | '\\' :: c :: cs => do
    let c ← unescape? c
    let (pieces, cs) ← readPieces cs
    some (.char c :: pieces, cs)
  | c :: cs =>
    if c.toNat < 0x20 then
      none
    else do
      let (pieces, cs) ← readPieces cs
      some (.char c :: pieces, cs)

/-- The text that pieces spell, unless a half of a pair stands alone. -/
def joinPieces : List Piece → Option (List Char)
  | [] => some []
  | .char c :: pieces => (joinPieces pieces).map (c :: ·)
  | .high h :: .low l :: pieces =>
    (joinPieces pieces).map (Char.ofNat (0x10000 + h * 0x400 + l) :: ·)
  | _ => none

/-- The string after an opening quote, if it spells a text, and what follows. -/
def readString (cs : List Char) : Option (Option String × List Char) :=
  (readPieces cs).map fun (pieces, cs) => ((joinPieces pieces).map String.ofList, cs)

/-! ### Numbers -/

/-- The digits that a text begins with, at least one, and what follows. -/
def readDigits (cs : List Char) : Option (List Char × List Char) :=
  match cs.takeWhile Char.isDigit with
  | [] => none
  | digits => some (digits, cs.dropWhile Char.isDigit)

/-- The digits before the point: a lone zero, or no zero in front. -/
def readInteger : List Char → Option (List Char × List Char)
  | '0' :: cs => some (['0'], cs)
  | cs => readDigits cs

/-- The digits behind the point, if there is a point. -/
def readFraction : List Char → Option (List Char × List Char)
  | '.' :: cs => readDigits cs
  | cs => some ([], cs)

def readExponent : List Char → Option (Option Int × List Char)
  | c :: cs =>
    if c = 'e' ∨ c = 'E' then
      let (negative, cs) :=
        match cs with
        | '-' :: cs => (true, cs)
        | '+' :: cs => (false, cs)
        | cs => (false, cs)
      (readDigits cs).map fun (digits, cs) =>
        let n : Int := Nat.ofDigitChars 10 digits 0
        (some (if negative then -n else n), cs)
    else
      some (none, c :: cs)
  | [] => some (none, [])

/-- The number that the digits behind `n` lead to, as many of them as fit in 64
bits, and how many are left. -/
def leadingDigits (n : Nat) : List Char → Nat × Nat
  | [] => (n, 0)
  | c :: cs =>
    let m := 10 * n + (c.toNat - '0'.toNat)
    if m < Nat.pow 2 64 then leadingDigits m cs else (n, cs.length + 1)

/-- Whether a number times a power of ten lies past every double when it is
made of two doubles, one for each factor.  The largest power of ten that is a
double has the exponent 308. -/
def overflowsDouble (n : Nat) (exponent : Int) : Bool :=
  if n = 0 ∨ exponent < 0 then
    false
  else if 308 < exponent then
    true
  else
    Decimal.isPastDoubles
      (Decimal.nearestDouble n * Decimal.nearestDouble (Nat.pow 10 exponent.toNat))

/-- The number that a text begins with.  Counts fit in 64 bits, and of any
other number the digits that do not fit in 64 bits count as zeros. -/
def readNumber (cs : List Char) : Option (Json × List Char) := do
  let (negative, cs) :=
    match cs with
    | '-' :: cs => (true, cs)
    | cs => (false, cs)
  let (integer, cs) ← readInteger cs
  let (fraction, cs) ← readFraction cs
  let (exponent, cs) ← readExponent cs
  let (n, left) := leadingDigits 0 (integer ++ fraction)
  if !negative && fraction.isEmpty && exponent.isNone && left = 0 then
    some (.count n, cs)
  else if overflowsDouble n (exponent.getD 0 + left - fraction.length) then
    some (.unreadable, cs)
  else
    some (.otherNumber, cs)

/-! ### Values -/

/-- A container that `room` levels of nesting are left for. -/
def nested (room : Nat) (j : Json) : Json :=
  if room = 0 then .unreadable else j

/-- The object with the given members, if all keys spell a text. -/
def ofMembers (members : List (Option String × Json)) : Json :=
  match members.mapM fun (key, j) => key.map (·, j) with
  | some members => .object members
  | none => .unreadable

/-- The text behind a word that it begins with. -/
def dropWord? : List Char → List Char → Option (List Char)
  | [], cs => some cs
  | w :: ws, c :: cs => if w = c then dropWord? ws cs else none
  | _ :: _, [] => none

mutual

/-- The value that a text begins with and what follows.  `fuel` bounds the
characters still to be read and `room` the levels of nesting that are kept. -/
def readValue : Nat → Nat → List Char → Option (Json × List Char)
  | 0, _, _ => none
  | fuel + 1, room, cs =>
    match dropBlanks cs with
    | '\x7b' :: cs =>
      match dropBlanks cs with
      | '\x7d' :: cs => some (nested room (.object []), cs)
      | cs => (readMembers fuel (room - 1) cs).map fun (ms, cs) => (nested room (ofMembers ms), cs)
    | '[' :: cs =>
      match dropBlanks cs with
      | ']' :: cs => some (nested room (.array []), cs)
      | cs => (readItems fuel (room - 1) cs).map fun (js, cs) => (nested room (.array js), cs)
    | '"' :: cs =>
      (readString cs).map fun (s, cs) =>
        match s with
        | some s => (.string s, cs)
        | none => (.unreadable, cs)
    | 'n' :: cs => (dropWord? "ull".toList cs).map (.null, ·)
    | 't' :: cs => (dropWord? "rue".toList cs).map (.bool true, ·)
    | 'f' :: cs => (dropWord? "alse".toList cs).map (.bool false, ·)
    | cs => readNumber cs

def readItems : Nat → Nat → List Char → Option (List Json × List Char)
  | 0, _, _ => none
  | fuel + 1, room, cs => do
    let (j, cs) ← readValue fuel room cs
    match dropBlanks cs with
    | ']' :: cs => some ([j], cs)
    | ',' :: cs => do
      let (js, cs) ← readItems fuel room cs
      some (j :: js, cs)
    | _ => none

def readMembers : Nat → Nat → List Char → Option (List (Option String × Json) × List Char)
  | 0, _, _ => none
  | fuel + 1, room, cs =>
    match dropBlanks cs with
    | '"' :: cs => do
      let (key, cs) ← readString cs
      match dropBlanks cs with
      | ':' :: cs => do
        let (j, cs) ← readValue fuel room cs
        match dropBlanks cs with
        | '\x7d' :: cs => some ([(key, j)], cs)
        | ',' :: cs => do
          let (ms, cs) ← readMembers fuel room cs
          some ((key, j) :: ms, cs)
        | _ => none
      | _ => none
    | _ => none

end

/-- Containers nested deeper than this are not kept. -/
def nestingLimit : Nat := 127

/-- The value that a whole text spells, with containers kept up to a depth. -/
def parseWithin? (limit : Nat) (text : String) : Option Json :=
  let cs := text.toList
  match readValue (2 * cs.length + 1) limit cs with
  | some (j, cs) => if dropBlanks cs = [] then some j else none
  | none => none

/-- The value that a whole text spells. -/
def parse? (text : String) : Option Json :=
  parseWithin? nestingLimit text

end Caret.Json
