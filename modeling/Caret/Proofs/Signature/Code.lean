import Caret.Buffer.Sketch
import Caret.Cursor.Fragment
import Mathlib.Data.List.Basic

/-!
# The walk over plain code

In a buffer without comments and strings every byte is code.  This module turns
the walk for such a buffer into a walk over the bytes of its text, and says
what one byte does to the walk when it neither ends it nor joins the chain.
-/

namespace Caret

/-- A buffer in which no byte is in a comment or a string, and no literal is
known to end anywhere. -/
structure Buffer.IsBare (b : Buffer) : Prop where
  comments : ∀ i, b.comments.covers i = false
  strings : ∀ i, b.strings.covers i = false
  literals : ∀ i, b.literalBefore i = none

theorem Sketch.isBare_toBuffer (text : List Char) : (Sketch.toBuffer { text := text }).IsBare where
  comments i := by simp [toBuffer, SpanSet.ofList, SpanSet.covers]
  strings i := by simp [toBuffer, SpanSet.ofList, SpanSet.covers]
  literals i := by simp [toBuffer, literalBefore]

namespace Signature

theorem forall_mem_of_all
    {p : Char → Prop} [DecidablePred p] {cs : List Char} (h : cs.all (fun c => decide (p c)) = true) :
    ∀ c ∈ cs, p c := by
  simpa using h

def code (c : Char) : Cell :=
  ⟨c, false, false⟩

def bytes (cs : List Char) : List Char :=
  (Text.encode cs).map fun byte => Char.ofNat byte.toNat

@[simp] theorem bytes_nil : bytes [] = [] := rfl

@[simp] theorem bytes_append (cs ds : List Char) :
    bytes (cs ++ ds) = bytes cs ++ bytes ds := by
  simp [bytes, Text.encode]

theorem bytes_cons (c : Char) (cs : List Char) :
    bytes (c :: cs) = bytes [c] ++ bytes cs := by
  simp [bytes, Text.encode]

@[simp] theorem length_bytes (cs : List Char) :
    (bytes cs).length = Text.byteLength cs := by
  induction cs with
  | nil => rfl
  | cons c cs ih =>
      rw [bytes_cons, List.length_append, ih]
      simp [bytes, Text.encode]

theorem toNat_ofNat_toNat (byte : UInt8) :
    (Char.ofNat byte.toNat).toNat = byte.toNat := by
  have hlt : byte.toNat < 256 := byte.toNat_lt
  have hvalid : byte.toNat.isValidChar := Or.inl (by omega)
  rw [Char.ofNat, dif_pos hvalid]
  rfl

theorem bytes_singleton_ne_nil (c : Char) : bytes [c] ≠ [] := by
  simp [bytes, Text.encode, String.utf8EncodeChar_ne_nil]

theorem bytes_singleton_of_ascii {c : Char} (hc : c.toNat < 128) :
    bytes [c] = [c] := by
  have hval : c.toNat ≤ 0x7f := by omega
  have hbyte : c.toNat % 256 = c.toNat := by omega
  simp [bytes, Text.encode, String.utf8EncodeChar, hval, hbyte]

theorem bytes_cons_of_ascii {c : Char} (hc : c.toNat < 128) (cs : List Char) :
    bytes (c :: cs) = c :: bytes cs := by
  rw [bytes_cons, bytes_singleton_of_ascii hc]
  rfl

/-- No byte of any other character reads as an ASCII character. -/
theorem ascii_le_of_mem_bytes_singleton
    {c x : Char} (hc : 128 ≤ c.toNat) (hx : x ∈ bytes [c]) :
    128 ≤ x.toNat := by
  obtain ⟨byte, hbyte, rfl⟩ := List.mem_map.1 hx
  rw [toNat_ofNat_toNat]
  have hval : ¬c.val.toNat ≤ 0x7f := by
    change ¬c.toNat ≤ 0x7f
    omega
  have hmem : byte ∈ String.utf8EncodeChar c := by
    simpa [Text.encode] using hbyte
  simp only [String.utf8EncodeChar, hval, if_false] at hmem
  split at hmem
  · simp only [List.mem_cons, List.not_mem_nil, or_false] at hmem
    rcases hmem with rfl | rfl <;> simp only [UInt8.toNat_ofNat'] <;> omega
  · split at hmem
    · simp only [List.mem_cons, List.not_mem_nil, or_false] at hmem
      rcases hmem with rfl | rfl | rfl <;> simp only [UInt8.toNat_ofNat'] <;> omega
    · simp only [List.mem_cons, List.not_mem_nil, or_false] at hmem
      rcases hmem with rfl | rfl | rfl | rfl <;> simp only [UInt8.toNat_ofNat'] <;> omega

/-- The walk for a buffer without comments and strings reads plain code. -/
theorem cells_eq {b : Buffer} (hb : b.IsBare) :
    cells b = (bytes b.text).map code := by
  simp only [cells, bytes, List.map_map]
  conv_rhs => rw [← List.zipIdx_map_fst 0 (Text.encode b.text), List.map_map]
  apply List.map_congr_left
  rintro ⟨byte, i⟩ -
  simp [code, hb.comments i, hb.strings i]

theorem exemptNearest_map_code (cs : List Char) :
    exemptNearest (cs.map code) = cs.map code := by
  cases cs with
  | nil => rfl
  | cons c cs => rfl

theorem walkFrom_eq
    {b : Buffer} (hb : b.IsBare) {before after : List Char} (htext : b.text = before ++ after) :
    walkFrom b (Text.byteLength before) =
      walk {} ((bytes before).reverse.map code) ((bytes after).map code) := by
  have hlen : Text.byteLength before = ((bytes before).map code).length := by simp
  simp only [walkFrom, cells_eq hb, htext, bytes_append, List.map_append]
  rw [hlen, List.take_left, List.drop_left, ← List.map_reverse, exemptNearest_map_code]

theorem withReceiver_eq {b : Buffer} (hb : b.IsBare) (o : Outcome) :
    withReceiver b o = o.members := by
  have hnone : (o.leftOfHead.bind fun left => b.literalBefore left.length) = none := by
    cases o.leftOfHead with
    | none => rfl
    | some left => exact hb.literals left.length
  simp [withReceiver, hnone]

/-! ## Crossing one byte of code -/

/-- The state after the nesting has changed at a byte, with an index in the
chain if the byte opens one. -/
def State.addIndex (s : State) (c : Cell) (left : List Cell) : State :=
  let s' := { s with nesting := s.nesting.cross c.char }
  if c.char == '[' && s'.nesting.square == 0 && !opensPercentLiteral left then
    s'.prepend ['.', '[', ']'] left
  else
    s'

/-- The state with a byte in the chain if it is a member of one. -/
def State.addMember (s : State) (c : Cell) (left : List Cell) : State :=
  if isMember c.char && !followsPercent left then s.prepend [c.char] left else s

@[simp] theorem State.addIndex_nesting (s : State) (c : Cell) (left : List Cell) :
    (s.addIndex c left).nesting = s.nesting.cross c.char := by
  unfold State.addIndex
  dsimp only
  split <;> rfl

@[simp] theorem State.addMember_nesting (s : State) (c : Cell) (left : List Cell) :
    (s.addMember c left).nesting = s.nesting := by
  unfold State.addMember
  split <;> rfl

theorem crossCode_eq (c : Cell) (left : List Cell) (s : State) :
    crossCode c left s =
      let s₁ := s.addIndex c left
      let s₂ := s₁.addMember c left
      if (s.nesting.cross c.char).balanced then
        if isTerminator c.char then
          .done (left.length + 1) s₁
        else if c.char == '$' then
          .done left.length s₂
        else if c.char == '@' then
          if followsAt left then
            .done (left.length - 1) { s₂ with members := '@' :: s₂.members }
          else
            .done left.length s₂
        else
          .next { s₂ with inBlanks := false }
      else if (s.nesting.cross c.char).unclosed then
        .done (left.length + 1) s₁
      else
        .next { s₁ with inBlanks := false } :=
  rfl

/-- The state after a byte of code that does not end the walk and does not
join the chain as itself. -/
def State.pass (s : State) (c : Char) (left : List Cell) : State :=
  { s.addIndex (code c) left with inBlanks := false }

@[simp] theorem State.pass_nesting (s : State) (c : Char) (left : List Cell) :
    (s.pass c left).nesting = s.nesting.cross c :=
  State.addIndex_nesting s (code c) left

@[simp] theorem State.pass_inBlanks (s : State) (c : Char) (left : List Cell) :
    (s.pass c left).inBlanks = false := rfl

theorem leadingBlanks_cons (c : Cell) (right : List Cell) :
    leadingBlanks (c :: right) = if Text.isBlank c.char then leadingBlanks right + 1 else 0 := by
  rw [leadingBlanks, List.takeWhile_cons]
  split <;> rfl

theorem continuesChain_cons (c : Cell) (right : List Cell) :
    continuesChain (c :: right) =
      if Text.isBlank c.char then continuesChain right else c.char == '.' := by
  rw [continuesChain, List.dropWhile_cons]
  cases Text.isBlank c.char <;> rfl

/-- Blanks do not hold up the walk: there are none, or the chain goes on behind
them. -/
def State.Unblocked (s : State) (right : List Cell) : Prop :=
  s.inBlanks = true → continuesChain right = true

/-- A byte reaches the rules for code when it stands in brackets, or is no
blank and nothing blocks the walk. -/
theorem step_eq_crossCode
    {s : State} {right : List Cell} {c : Char} (left : List Cell)
    (h : s.nesting.balanced = false ∨
      Text.isBlank c = false ∧ (c = '.' ∨ s.Unblocked right)) :
    step (code c) left right s = crossCode (code c) left s := by
  simp only [step, code]
  rcases h with hbalanced | ⟨hblank, hdot | hgo⟩
  · simp [hbalanced]
  · subst hdot
    simp [hblank]
  · cases hin : s.inBlanks with
    | false => simp [hblank]
    | true => simp [hblank, hgo hin]

/-- A byte that leaves the walk in brackets, or is no terminator and no member,
is passed over. -/
theorem crossCode_eq_next
    {s : State} {c : Char} (left : List Cell)
    (hunclosed : (s.nesting.cross c).unclosed = false)
    (hplain : (s.nesting.cross c).balanced = true → isTerminator c = false ∧ isMember c = false) :
    crossCode (code c) left s = .next (s.pass c left) := by
  have hsigil (hmember : isMember c = false) : c ≠ '$' ∧ c ≠ '@' := by
    constructor <;> rintro rfl <;> exact absurd hmember (by decide)
  rw [crossCode_eq]
  cases hbalanced : (s.nesting.cross c).balanced with
  | false => simp [code, State.pass, hbalanced, hunclosed]
  | true =>
      obtain ⟨hterminator, hmember⟩ := hplain hbalanced
      obtain ⟨hdollar, hat⟩ := hsigil hmember
      simp [code, State.pass, State.addMember, hbalanced, hterminator, hmember, hdollar, hat]

/-! ## Crossing a text -/

/-- In state `s` the walk stands behind the text `w`, with the bytes `left` and
`right` around it, and it comes out in front of `w` in state `s'`. -/
def Crosses (s : State) (left : List Cell) (w : List Char) (right : List Cell) (s' : State) :
    Prop :=
  walk s (w.reverse.map code ++ left) right = walk s' left (w.map code ++ right)

namespace Crosses

variable {s s₁ s₂ : State} {left right : List Cell}

theorem nil (s : State) (left right : List Cell) : Crosses s left [] right s := rfl

theorem of_step {c : Char} (h : step (code c) left right s = .next s₁) :
    Crosses s left [c] right s₁ := by
  simp only [Crosses, List.reverse_singleton, List.map_singleton, List.singleton_append]
  rw [walk, h]

theorem append {v w : List Char}
    (hw : Crosses s (v.reverse.map code ++ left) w right s₁)
    (hv : Crosses s₁ left v (w.map code ++ right) s₂) :
    Crosses s left (v ++ w) right s₂ := by
  simp only [Crosses, List.reverse_append, List.map_append, List.append_assoc] at hw hv ⊢
  rw [hw, hv]

end Crosses

end Signature

end Caret
