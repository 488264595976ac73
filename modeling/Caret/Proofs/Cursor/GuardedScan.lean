import Caret.Proofs.Cursor.GuardedWord
import Caret.Proofs.Signature.Scene
import Caret.Proofs.Signature.Steps

/-!
# The walk before a cursor, followed by offsets

The walk is followed once more on the bytes of the text, addressed by their
offsets.  A byte out of bounds, a difference below zero and a counter out of its
range have no result.  The two walks keep in step, so that none of this happens.
-/

namespace Caret.Guarded

open Signature

/-- What the scan knows on its way, the leftmost byte in the chain given by its
offset. -/
structure Scan where
  nesting : Nesting := {}
  inBlanks : Bool := false
  members : List Char := []
  head : Option Nat := none

def Scan.prepend (s : Scan) (text : List Char) (index : Nat) : Scan :=
  { s with members := text ++ s.members, head := some index }

/-- The outcome of one byte: the scan goes on, or it ends and the chain starts at
an offset. -/
inductive Turn where
  | next (s : Scan)
  | done (start : Nat) (s : Scan)

/-- The counters after a character, if all of them fit. -/
def cross? (fits : Int → Bool) (n : Nesting) (c : Char) : Option Nesting :=
  let n := n.cross c
  if fits n.round && fits n.square && fits n.curly then some n else none

/-- Whether the bytes before an offset make a bracket there open a percent
literal. -/
def opensPercentLiteral? (code : List Char) : Nat → Option Bool
  | 0 => some false
  | 1 => (code[0]?).map (· == '%')
  | i + 2 => do
    let c ← code[i + 1]?
    let d ← code[i]?
    some (c == '%' || (d == '%' && c.isAlpha))

def suffix? (code : List Char) (i : Nat) : Option (List Char) :=
  if i ≤ code.length then some (code.drop i) else none

/-- Where the chain starts if it ends at the byte at an offset since nothing
goes on over the blanks behind. -/
def blocked? (code : List Char) (index : Nat) (c : Char) (s : Scan) : Option (Option Nat) :=
  if s.nesting.balanced && s.inBlanks then do
    let rest ← suffix? code (index + 1)
    let blanks := (rest.takeWhile Text.isBlank).length
    some (if c != '.' && rest[blanks]? != some '.' then some (index + 1 + blanks) else none)
  else
    some none

/-- The scan with an index in the chain, if the byte at an offset opens one. -/
def addIndex? (code : List Char) (index : Nat) (c : Char) (s : Scan) : Option Scan :=
  if c == '[' && s.nesting.square == 0 then do
    let percent ← opensPercentLiteral? code index
    some (if percent then s else s.prepend ['.', '[', ']'] index)
  else
    some s

/-- The scan with the byte at an offset in the chain, if it is a member. -/
def addMember? (code : List Char) (index : Nat) (c : Char) (s : Scan) : Option Scan :=
  if isMember c then do
    let percent ← follows? code '%' index
    some (if percent then s else s.prepend [c] index)
  else
    some s

def crossCode? (fits : Int → Bool) (code : List Char) (index : Nat) (c : Char) (s : Scan) :
    Option Turn := do
  let nesting ← cross? fits s.nesting c
  let s ← addIndex? code index c { s with nesting := nesting }
  if nesting.balanced then
    if isTerminator c then
      some (.done (index + 1) s)
    else do
      let s ← addMember? code index c s
      if c == '$' then
        some (.done index s)
      else if c == '@' then do
        let double ← follows? code '@' index
        if double then do
          let start ← sub? index 1
          some (.done start { s with members := '@' :: s.members })
        else
          some (.done index s)
      else
        some (.next { s with inBlanks := false })
  else if nesting.unclosed then
    some (.done (index + 1) s)
  else
    some (.next { s with inBlanks := false })

def scanByte? (fits : Int → Bool) (b : Buffer) (offset index : Nat) (s : Scan) : Option Turn :=
  if decide (index + 1 ≠ offset) && b.comments.covers index then
    some (.done (index + 1) s)
  else if b.strings.covers index && !s.inBlanks then
    some (.next s)
  else do
    let c ← b.byte? index
    if s.nesting.balanced && Text.isBlank c then
      some (.next { s with inBlanks := true })
    else do
      match ← blocked? (bytes b.text) index c s with
      | some start => some (.done start s)
      | none =>
        if b.strings.covers index then
          some (.next { s with inBlanks := false })
        else
          crossCode? fits (bytes b.text) index c s

def scan? (fits : Int → Bool) (b : Buffer) (offset : Nat) : Nat → Scan → Option (Nat × Scan)
  | 0, s => some (0, s)
  | index + 1, s => do
    match ← scanByte? fits b offset index s with
    | .next s => scan? fits b offset index s
    | .done start s => some (start, s)

/-! ## Keeping in step -/

def toScan (s : State) : Scan :=
  ⟨s.nesting, s.inBlanks, s.members, s.leftOfHead.map List.length⟩

def toTurn : Step → Turn
  | .next s => .next (toScan s)
  | .done start s => .done start (toScan s)

theorem cross?_of_fits
    {fits : Int → Bool} {n : Nesting} {c : Char} (h : ∀ k, fits ((n.cross c).counter k) = true) :
    cross? fits n c = some (n.cross c) := by
  have hround := h .round
  have hsquare := h .square
  have hcurly := h .curly
  simp only [Nesting.counter] at hround hsquare hcurly
  simp [cross?, hround, hsquare, hcurly]

variable {b : Buffer} {offset : Nat} {left right : List Cell} {c : Cell}

theorem follows?_of_stands (h : Stands b offset left right) (x : Char) :
    follows? (bytes b.text) x left.length = some ((left.map Cell.char).head? == some x) := by
  have hfollows := follows?_eq (left.map Cell.char) (right.map Cell.char) x
  rwa [List.length_map, ← h.bytes_eq] at hfollows

theorem opensPercentLiteral?_of_stands (h : Stands b offset left right) :
    opensPercentLiteral? (bytes b.text) left.length = some (opensPercentLiteral left) := by
  rw [h.bytes_eq]
  match left with
  | [] => rfl
  | [c] => rfl
  | c :: d :: left => simp [opensPercentLiteral?, opensPercentLiteral]

theorem suffix?_of_stands (h : Stands b offset left right) :
    suffix? (bytes b.text) left.length = some (right.map Cell.char) := by
  have hle : left.length ≤ (bytes b.text).length := by
    rw [h.bytes_eq, List.length_append, List.length_reverse, List.length_map]
    exact Nat.le_add_right _ _
  rw [suffix?, if_pos hle, h.chars_right]

theorem leadingBlanks_eq (right : List Cell) :
    leadingBlanks right = ((right.map Cell.char).takeWhile Text.isBlank).length := by
  rw [List.takeWhile_map, List.length_map]
  rfl

theorem continuesChain_eq (right : List Cell) :
    continuesChain right = ((right.map Cell.char)[leadingBlanks right]? == some '.') := by
  have hget : (right.takeWhile (Text.isBlank ·.char) ++ right.dropWhile (Text.isBlank ·.char))[
      leadingBlanks right]? = (right.dropWhile (Text.isBlank ·.char)).head? := by
    rw [leadingBlanks, List.getElem?_append_right (Nat.le_refl _), Nat.sub_self,
      List.head?_eq_getElem?]
  rw [List.takeWhile_append_dropWhile] at hget
  rw [List.getElem?_map, hget, continuesChain]
  cases right.dropWhile (Text.isBlank ·.char) with
  | nil => rfl
  | cons d rest => rfl

theorem blocked?_of_stands (h : Stands b offset (c :: left) right) (s : State) :
    blocked? (bytes b.text) left.length c.char (toScan s) =
      some (if s.nesting.balanced && s.inBlanks && c.char != '.' && !continuesChain right then
        some (left.length + 1 + leadingBlanks right) else none) := by
  have hsuffix := suffix?_of_stands h
  rw [List.length_cons] at hsuffix
  rw [blocked?, hsuffix, continuesChain_eq]
  simp only [Option.bind_eq_bind, Option.bind_some, ← leadingBlanks_eq, toScan]
  cases s.nesting.balanced && s.inBlanks with
  | true => rfl
  | false => rfl

theorem addIndex?_of_stands (h : Stands b offset left right) (s : State) :
    addIndex? (bytes b.text) left.length c.char
        (toScan { s with nesting := s.nesting.cross c.char }) =
      some (toScan (s.addIndex c left)) := by
  rw [addIndex?, State.addIndex]
  dsimp only
  by_cases hindex : (c.char == '[' && (s.nesting.cross c.char).square == 0) = true
  · rw [toScan, if_pos hindex, opensPercentLiteral?_of_stands h, hindex, Bool.true_and]
    cases opensPercentLiteral left <;> rfl
  · rw [toScan, if_neg hindex, eq_false_of_ne_true hindex, Bool.false_and]
    rfl

theorem addMember?_of_stands (h : Stands b offset left right) (s : State) :
    addMember? (bytes b.text) left.length c.char (toScan s) =
      some (toScan (s.addMember c left)) := by
  rw [addMember?, State.addMember]
  by_cases hmember : isMember c.char = true
  · rw [if_pos hmember, hmember, Bool.true_and, follows?_of_stands h]
    cases left with
    | nil => rfl
    | cons d left =>
        cases hd : d.char == '%' <;>
          simp [followsPercent, hd, toScan, State.prepend, Scan.prepend]
  · rw [if_neg hmember, eq_false_of_ne_true hmember, Bool.false_and]
    rfl

variable {fits : Int → Bool}

theorem crossCode?_of_stands
    (h : Stands b offset left right) {s : State}
    (hfits : ∀ k, fits ((s.nesting.cross c.char).counter k) = true) :
    crossCode? fits (bytes b.text) left.length c.char (toScan s) =
      some (toTurn (crossCode c left s)) := by
  have hcross : cross? fits (toScan s).nesting c.char = some (s.nesting.cross c.char) :=
    cross?_of_fits hfits
  have hindex : addIndex? (bytes b.text) left.length c.char
      { toScan s with nesting := s.nesting.cross c.char } = some (toScan (s.addIndex c left)) :=
    addIndex?_of_stands h s
  have hmember := addMember?_of_stands (c := c) h (s.addIndex c left)
  have hat := follows?_of_stands h '@'
  rw [crossCode?, crossCode_eq]
  simp only [Option.bind_eq_bind, hcross, Option.bind_some, hindex]
  by_cases hbalanced : (s.nesting.cross c.char).balanced = true
  · rw [if_pos hbalanced, if_pos hbalanced]
    by_cases hterminator : isTerminator c.char = true
    · rw [if_pos hterminator, if_pos hterminator]
      rfl
    · rw [if_neg hterminator, if_neg hterminator, hmember, Option.bind_some]
      by_cases hdollar : (c.char == '$') = true
      · rw [if_pos hdollar, if_pos hdollar]
        rfl
      · rw [if_neg hdollar, if_neg hdollar]
        by_cases hatChar : (c.char == '@') = true
        · rw [if_pos hatChar, if_pos hatChar, hat, Option.bind_some]
          cases left with
          | nil => rfl
          | cons d left =>
              cases hd : d.char == '@' <;> simp [followsAt, hd, toTurn, toScan, sub?]
        · rw [if_neg hatChar, if_neg hatChar]
          rfl
  · rw [if_neg hbalanced, if_neg hbalanced]
    by_cases hunclosed : (s.nesting.cross c.char).unclosed = true
    · rw [if_pos hunclosed, if_pos hunclosed]
      rfl
    · rw [if_neg hunclosed, if_neg hunclosed]
      rfl

theorem scanByte?_of_stands
    (h : Stands b offset (c :: left) right) {s : State}
    (hfits : ∀ k, fits ((s.nesting.cross c.char).counter k) = true) :
    scanByte? fits b offset left.length (toScan s) = some (toTurn (step c left right s)) := by
  obtain ⟨hbyte, hcomment, hstring⟩ := h.nearest
  have hcross := crossCode?_of_stands h.next hfits
  have hnesting : (toScan s).nesting = s.nesting := rfl
  have hinBlanks : (toScan s).inBlanks = s.inBlanks := rfl
  rw [scanByte?, step, ← hstring, Bool.and_comm, ← hcomment, hnesting, hinBlanks]
  by_cases hincomment : c.inComment = true
  · rw [if_pos hincomment, if_pos hincomment]
    rfl
  rw [if_neg hincomment, if_neg hincomment]
  by_cases hskip : (c.inString && !s.inBlanks) = true
  · rw [if_pos hskip, if_pos hskip]
    rfl
  rw [if_neg hskip, if_neg hskip, hbyte]
  simp only [Option.bind_eq_bind, Option.bind_some]
  by_cases hblank : (s.nesting.balanced && Text.isBlank c.char) = true
  · rw [if_pos hblank, if_pos hblank]
    rfl
  rw [if_neg hblank, if_neg hblank]
  rw [blocked?_of_stands h, Option.bind_some]
  by_cases hends : (s.nesting.balanced && s.inBlanks && c.char != '.' &&
      !continuesChain right) = true
  · rw [if_pos hends, if_pos hends]
    rfl
  rw [if_neg hends, if_neg hends]
  by_cases hinstring : c.inString = true
  · simp only [hinstring, if_true]
    rfl
  · simp only [hinstring]
    exact hcross

/-- The scan comes out where the walk does.  With each byte no counter falls by
more than one, and before each byte no counter is positive. -/
theorem scan?_of_stands
    (hfits : ∀ n : Int, -(offset : Int) ≤ n → n ≤ 1 → fits n = true)
    (h : Stands b offset left right) (hle : left.length ≤ offset) {s : State}
    (hunclosed : s.nesting.unclosed = false)
    (hcounters : ∀ k, (left.length : Int) - offset ≤ s.nesting.counter k) :
    ∃ start t, scan? fits b offset left.length (toScan s) = some (start, toScan t) ∧
      walk s left right = ⟨start, t.members, t.leftOfHead⟩ := by
  induction left generalizing s right with
  | nil => exact ⟨0, s, rfl, rfl⟩
  | cons c left ih =>
      have hcross (k : Bracket) :
          (left.length : Int) - offset ≤ (s.nesting.cross c.char).counter k ∧
            (s.nesting.cross c.char).counter k ≤ 1 := by
        have := s.nesting.counter_cross c.char k
        have := hcounters k
        have := Nesting.unclosed_eq_false_iff.1 hunclosed k
        have := List.count_le_length (a := k.opener) (l := [c.char])
        have := List.count_le_length (a := k.closer) (l := [c.char])
        simp only [List.length_cons, List.length_nil] at *
        omega
      have hturn := scanByte?_of_stands h (s := s) fun k =>
        hfits _ (by have := hcross k; omega) (hcross k).2
      rw [List.length_cons, scan?, hturn, walk]
      cases hstep : step c left right s with
      | done start t => exact ⟨start, t, rfl, rfl⟩
      | next t =>
          have hgoes := goesOn_of_step hunclosed hstep
          refine ih h.next (Nat.le_of_lt hle) hgoes.unclosed ?_
          intro k
          rw [hgoes.nesting]
          split
          · have := hcounters k
            rw [List.length_cons] at this
            omega
          · exact (hcross k).1

end Caret.Guarded
