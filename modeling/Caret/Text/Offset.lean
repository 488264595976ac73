/-!
# Byte offsets into a text

A text is a list of characters, and a place in it is counted in bytes of its
UTF-8 form.  An offset is *valid* when it falls between two characters or at
an end.  `splitAt?` cuts at valid offsets only; `dropBytes` goes on to the next
boundary when the offset falls inside a character.
-/

namespace Caret.Text

/-- The number of bytes of the UTF-8 form. -/
def byteLength : List Char → Nat
  | [] => 0
  | c :: cs => c.utf8Size + byteLength cs

def encode (cs : List Char) : List UInt8 :=
  cs.flatMap String.utf8EncodeChar

/-- The text on either side of a byte offset, if the offset is valid. -/
def splitAt? : List Char → Nat → Option (List Char × List Char)
  | cs, 0 => some ([], cs)
  | [], _ + 1 => none
  | c :: cs, n + 1 =>
    if c.utf8Size ≤ n + 1 then
      (splitAt? cs (n + 1 - c.utf8Size)).map fun (before, after) => (c :: before, after)
    else
      none

/-- The text from the first character boundary at or after a byte offset. -/
def dropBytes : List Char → Nat → List Char
  | cs, 0 => cs
  | [], _ + 1 => []
  | c :: cs, n + 1 => dropBytes cs (n + 1 - c.utf8Size)

/-- A byte offset is valid when it falls between two characters or at an end. -/
def IsBoundary (cs : List Char) (n : Nat) : Prop :=
  ∃ before after, cs = before ++ after ∧ byteLength before = n

/-- The text between two byte offsets, empty unless both are valid and in
order. -/
def slice (cs : List Char) (start stop : Nat) : List Char :=
  match splitAt? cs start with
  | none => []
  | some (_, rest) =>
    if start ≤ stop then
      match splitAt? rest (stop - start) with
      | none => []
      | some (middle, _) => middle
    else
      []

@[simp] theorem byteLength_nil : byteLength [] = 0 := rfl

@[simp] theorem byteLength_cons (c : Char) (cs : List Char) :
    byteLength (c :: cs) = c.utf8Size + byteLength cs := rfl

@[simp] theorem byteLength_append (cs ds : List Char) :
    byteLength (cs ++ ds) = byteLength cs + byteLength ds := by
  induction cs with
  | nil => simp
  | cons c cs ih => simp [ih, Nat.add_assoc]

/-- What a cut returns, put together again, is the text, and the first part has
the length asked for. -/
theorem splitAt?_eq_some_iff
    (cs : List Char) (n : Nat) (before after : List Char) :
    splitAt? cs n = some (before, after) ↔
      cs = before ++ after ∧ byteLength before = n := by
  fun_induction splitAt? cs n generalizing before after with
  | case1 cs =>
      constructor
      · intro h
        simp only [Option.some.injEq, Prod.mk.injEq] at h
        obtain ⟨rfl, rfl⟩ := h
        simp
      · rintro ⟨rfl, hlen⟩
        cases before with
        | nil => simp
        | cons c cs =>
            have := Char.utf8Size_pos c
            simp at hlen
            omega
  | case2 n =>
      simp only [reduceCtorEq, false_iff, not_and]
      intro h
      obtain ⟨rfl, rfl⟩ := List.append_eq_nil_iff.1 h.symm
      simp
  | case3 c cs n hle ih =>
      constructor
      · intro h
        obtain ⟨⟨b, a⟩, hb, hcons⟩ := Option.map_eq_some_iff.1 h
        simp only [Prod.mk.injEq] at hcons
        obtain ⟨rfl, rfl⟩ := hcons
        obtain ⟨rfl, hlen⟩ := (ih b a).1 hb
        refine ⟨rfl, ?_⟩
        simp only [byteLength_cons]
        omega
      · rintro ⟨happ, hlen⟩
        cases before with
        | nil => simp at hlen
        | cons d before =>
            simp only [List.cons_append, List.cons.injEq] at happ
            obtain ⟨rfl, rfl⟩ := happ
            simp only [byteLength_cons] at hlen
            have hcut := (ih before after).2 ⟨rfl, by omega⟩
            simp [hcut]
  | case4 c cs n hle =>
      simp only [reduceCtorEq, false_iff, not_and]
      intro happ hlen
      cases before with
      | nil => simp at hlen
      | cons d before =>
          simp only [List.cons_append, List.cons.injEq] at happ
          obtain ⟨rfl, rfl⟩ := happ
          simp only [byteLength_cons] at hlen
          omega

/-- A cut succeeds exactly at the valid offsets. -/
theorem splitAt?_isSome_iff (cs : List Char) (n : Nat) :
    (splitAt? cs n).isSome ↔ IsBoundary cs n := by
  simp only [Option.isSome_iff_exists, Prod.exists, splitAt?_eq_some_iff, IsBoundary]

end Caret.Text
