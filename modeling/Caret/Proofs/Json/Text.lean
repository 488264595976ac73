import Caret.Json.Reader
import Caret.Json.Writer
import Mathlib.Data.List.Basic

/-!
# JSON texts are read back

Every value that can be written without loss is read back from its compact text, if its
containers are not nested deeper than the reader keeps them.
-/

namespace Caret.Json

/-! ## Strings -/

theorem ofHex?_of_lt {n : Nat} (hn : n < 0x20) :
    Piece.ofHex? '0' '0' (hexDigit (n / 16)) (hexDigit (n % 16)) =
      some (.char (Char.ofNat n)) := by
  have hall : ∀ m : Fin 32, Piece.ofHex? '0' '0' (hexDigit (m / 16)) (hexDigit (m % 16)) =
      some (.char (Char.ofNat m)) := by
    decide
  exact hall ⟨n, hn⟩

theorem readPieces_cons
    {c : Char} (hquote : c ≠ '"') (hslash : c ≠ '\\') (hc : ¬c.toNat < 0x20) (cs : List Char) :
    readPieces (c :: cs) = (readPieces cs).map fun (pieces, rest) => (.char c :: pieces, rest) := by
  rw [readPieces.eq_def]
  split
  · rename_i h
    exact absurd h (by simp)
  · rename_i h
    exact absurd (List.cons.inj h).1 hquote
  · rename_i h
    exact absurd (List.cons.inj h).1 hslash
  · rename_i h
    exact absurd (List.cons.inj h).1 hslash
  · rename_i h
    obtain ⟨rfl, rfl⟩ := List.cons.inj h
    rw [if_neg hc]
    cases readPieces cs <;> rfl

/-- A letter behind a backslash names a character. -/
theorem readPieces_named
    {c d : Char} (hd : d ≠ 'u') (h : unescape? d = some c) (cs : List Char) :
    readPieces ('\\' :: d :: cs) =
      (readPieces cs).map fun (pieces, rest) => (.char c :: pieces, rest) := by
  rw [readPieces.eq_def]
  split
  · rename_i heq
    exact absurd heq (by simp)
  · rename_i heq
    exact absurd (List.cons.inj heq).1 (by decide)
  · rename_i heq
    exact absurd (List.cons.inj (List.cons.inj heq).2).1 hd
  · rename_i heq
    obtain ⟨-, heq⟩ := List.cons.inj heq
    obtain ⟨rfl, rfl⟩ := List.cons.inj heq
    rw [h]
    cases readPieces cs <;> rfl
  · rename_i hother heq
    obtain ⟨hslash, hrest⟩ := List.cons.inj heq
    exact absurd hrest.symm fun h => hother d cs hslash.symm h

/-- Each character is read back from what stands for it in a string. -/
theorem readPieces_escapeChar (c : Char) (cs : List Char) :
    readPieces (escapeChar c ++ cs) =
      (readPieces cs).map fun (pieces, rest) => (.char c :: pieces, rest) := by
  unfold escapeChar
  split_ifs with hquote hslash hfeed hreturn htab hback hform hlow
  · exact readPieces_named (by decide) (by rw [hquote]; rfl) cs
  · exact readPieces_named (by decide) (by rw [hslash]; rfl) cs
  · exact readPieces_named (by decide) (by rw [hfeed]; rfl) cs
  · exact readPieces_named (by decide) (by rw [hreturn]; rfl) cs
  · exact readPieces_named (by decide) (by rw [htab]; rfl) cs
  · refine readPieces_named (by decide) ?_ cs
    rw [← Char.ofNat_toNat c, hback]
    rfl
  · refine readPieces_named (by decide) ?_ cs
    rw [← Char.ofNat_toNat c, hform]
    rfl
  · simp only [List.cons_append, List.nil_append]
    rw [readPieces, ofHex?_of_lt hlow, Char.ofNat_toNat]
    cases readPieces cs <;> rfl
  · exact readPieces_cons hquote hslash hlow cs

theorem readPieces_quoted (cs rest : List Char) :
    readPieces (cs.flatMap escapeChar ++ '"' :: rest) = some (cs.map .char, rest) := by
  induction cs with
  | nil => rfl
  | cons c cs ih =>
      rw [List.flatMap_cons, List.append_assoc, readPieces_escapeChar, ih]
      rfl

theorem joinPieces_chars (cs : List Char) : joinPieces (cs.map .char) = some cs := by
  induction cs with
  | nil => rfl
  | cons c cs ih =>
      rw [List.map_cons, joinPieces, ih]
      rfl

theorem readString_quoted (s : String) (rest : List Char) :
    readString (s.toList.flatMap escapeChar ++ '"' :: rest) = some (some s, rest) := by
  rw [readString, readPieces_quoted, Option.map_some]
  dsimp only
  rw [joinPieces_chars, Option.map_some, String.ofList_toList]

/-! ## Numbers -/

/-- Texts that no number goes on with. -/
def EndsNumber (rest : List Char) : Prop :=
  ∀ c ∈ rest.head?, c.isDigit = false ∧ c ≠ '.' ∧ c ≠ 'e' ∧ c ≠ 'E'

theorem EndsNumber.nil : EndsNumber [] := by
  intro c hc
  simp at hc

theorem EndsNumber.cons {c : Char} (hc : c.isDigit = false ∧ c ≠ '.' ∧ c ≠ 'e' ∧ c ≠ 'E')
    (rest : List Char) : EndsNumber (c :: rest) := by
  rintro d hd
  obtain rfl := Option.some.inj hd
  exact hc

theorem isDigit_of_mem_toDigits {n : Nat} {c : Char} (hc : c ∈ Nat.toDigits 10 n) :
    c.isDigit = true :=
  Nat.isDigit_of_mem_toDigits (by decide) (by decide) hc

theorem exists_toDigits_cons (n : Nat) :
    ∃ d ds, Nat.toDigits 10 n = d :: ds ∧ d.isDigit = true := by
  obtain ⟨d, ds, hdigits⟩ := List.exists_cons_of_ne_nil (Nat.toDigits_ne_nil (n := n) (b := 10))
  have hd : d ∈ Nat.toDigits 10 n := by
    rw [hdigits]
    exact List.mem_cons_self
  exact ⟨d, ds, hdigits, isDigit_of_mem_toDigits hd⟩

/-- No number but zero is written with a zero in front. -/
theorem head?_toDigits_ne {n : Nat} (hn : 0 < n) : (Nat.toDigits 10 n).head? ≠ some '0' := by
  induction n using Nat.strongRecOn with
  | ind n ih =>
      by_cases hlt : n < 10
      · have hall : ∀ m : Fin 10, 0 < m.val → (Nat.toDigits 10 m).head? ≠ some '0' := by decide
        exact hall ⟨n, hlt⟩ hn
      · rw [Nat.toDigits_of_base_le (by decide) (by omega),
          List.head?_append_of_ne_nil _ Nat.toDigits_ne_nil]
        exact ih (n / 10) (by omega) (by omega)

theorem readDigits_append
    {digits rest : List Char} (hne : digits ≠ []) (hdigits : ∀ c ∈ digits, c.isDigit = true)
    (hrest : EndsNumber rest) : readDigits (digits ++ rest) = some (digits, rest) := by
  have htake : rest.takeWhile Char.isDigit = [] ∧ rest.dropWhile Char.isDigit = rest := by
    cases rest with
    | nil => exact ⟨rfl, rfl⟩
    | cons c rest =>
        have hc := (hrest c rfl).1
        simp [hc]
  rw [readDigits, List.takeWhile_append_of_pos hdigits, List.dropWhile_append_of_pos hdigits,
    htake.1, htake.2, List.append_nil]
  cases digits with
  | nil => exact absurd rfl hne
  | cons c digits => rfl

theorem readInteger_toDigits (n : Nat) {rest : List Char} (hrest : EndsNumber rest) :
    readInteger (Nat.toDigits 10 n ++ rest) = some (Nat.toDigits 10 n, rest) := by
  by_cases hn : n = 0
  · rw [hn, Nat.toDigits_zero]
    rfl
  · have hhead := head?_toDigits_ne (Nat.pos_of_ne_zero hn)
    rw [readInteger.eq_def]
    split
    · rename_i heq
      exfalso
      apply hhead
      rw [← List.head?_append_of_ne_nil _ Nat.toDigits_ne_nil, heq]
      rfl
    · exact readDigits_append Nat.toDigits_ne_nil (fun c hc => isDigit_of_mem_toDigits hc) hrest

theorem readFraction_of_endsNumber {rest : List Char} (hrest : EndsNumber rest) :
    readFraction rest = some ([], rest) := by
  rw [readFraction.eq_def]
  split
  · rename_i cs
    exact absurd rfl (hrest '.' rfl).2.1
  · rfl

theorem readExponent_of_endsNumber {rest : List Char} (hrest : EndsNumber rest) :
    readExponent rest = some (none, rest) := by
  cases rest with
  | nil => rfl
  | cons c rest =>
      obtain ⟨-, -, hlower, hupper⟩ := hrest c rfl
      rw [readExponent.eq_def]
      dsimp only
      rw [if_neg (by simp [hlower, hupper])]

theorem leadingDigits_eq {digits : List Char} {n : Nat}
    (h : Nat.ofDigitChars 10 digits n < Nat.pow 2 64) :
    leadingDigits n digits = (Nat.ofDigitChars 10 digits n, 0) := by
  induction digits generalizing n with
  | nil => rfl
  | cons c digits ih =>
      rw [Nat.ofDigitChars_cons] at h
      have hle : 10 * n + (c.toNat - '0'.toNat) ≤
          Nat.ofDigitChars 10 digits (10 * n + (c.toNat - '0'.toNat)) := by
        rw [Nat.ofDigitChars_eq_ofDigitChars_zero]
        exact Nat.le_add_right_of_le (Nat.le_mul_of_pos_left _ (Nat.pow_pos (by decide)))
      rw [leadingDigits, if_pos (Nat.lt_of_le_of_lt hle h), ih h, Nat.ofDigitChars_cons]

theorem readNumber_toDigits {n : Nat} (hn : n < Nat.pow 2 64) {rest : List Char}
    (hrest : EndsNumber rest) :
    readNumber (Nat.toDigits 10 n ++ rest) = some (.count n, rest) := by
  obtain ⟨d, ds, hdigits, hd⟩ := exists_toDigits_cons n
  have hsign : d ≠ '-' := by
    rintro rfl
    exact absurd hd (by decide)
  have hlead : leadingDigits 0 (Nat.toDigits 10 n ++ []) = (n, 0) := by
    rw [List.append_nil, leadingDigits_eq, Nat.ofDigitChars_ten_toDigits]
    rwa [Nat.ofDigitChars_ten_toDigits]
  have hread := readInteger_toDigits n hrest
  rw [hdigits] at hread
  rw [List.cons_append] at hread
  rw [hdigits, List.cons_append, readNumber]
  · simp only [hread, Option.bind_eq_bind, Option.bind_some, readFraction_of_endsNumber hrest,
      readExponent_of_endsNumber hrest, ← hdigits, hlead]
    rfl
  · exact fun cs h => hsign (List.cons.inj h).1

/-! ## Values -/

mutual

/-- Whether all parts of a value can be read, and all numbers in it are counts that fit. -/
def isPlain (fits : Nat → Bool) : Json → Bool
  | .count n => fits n
  | .otherNumber | .unreadable => false
  | .array items => allPlain fits items
  | .object members => allMembersPlain fits members
  | _ => true

def allPlain (fits : Nat → Bool) : List Json → Bool
  | [] => true
  | j :: rest => j.isPlain fits && allPlain fits rest

def allMembersPlain (fits : Nat → Bool) : List (String × Json) → Bool
  | [] => true
  | (_, j) :: rest => j.isPlain fits && allMembersPlain fits rest

end

def fitsWord (n : Nat) : Bool :=
  n < Nat.pow 2 64

def beginsValue (c : Char) : Bool :=
  c.isDigit || c == '"' || c == '[' || c == '\x7b' || c == 'n' || c == 't' || c == 'f'

theorem exists_render_cons {fits : Nat → Bool} {j : Json} (hj : j.isPlain fits = true) :
    ∃ c cs, j.render = c :: cs ∧ beginsValue c = true := by
  cases j with
  | null => exact ⟨'n', _, rfl, rfl⟩
  | bool b =>
      cases b with
      | true => exact ⟨'t', _, rfl, rfl⟩
      | false => exact ⟨'f', _, rfl, rfl⟩
  | count n =>
      obtain ⟨d, ds, hdigits, hd⟩ := exists_toDigits_cons n
      exact ⟨d, ds, Nat.toList_repr.trans hdigits, by simp [beginsValue, hd]⟩
  | string s => exact ⟨'"', _, rfl, rfl⟩
  | array items => exact ⟨'[', _, rfl, rfl⟩
  | object members => exact ⟨'\x7b', _, rfl, rfl⟩
  | otherNumber => exact absurd hj (by simp [isPlain])
  | unreadable => exact absurd hj (by simp [isPlain])

theorem dropBlanks_cons
    {c : Char} (hc : (c == ' ' || c == '\t' || c == '\n' || c == '\r') = false) (cs : List Char) :
    dropBlanks (c :: cs) = c :: cs := by
  rw [dropBlanks, List.dropWhile_cons, hc]
  rfl

theorem dropBlanks_of_beginsValue {c : Char} (hc : beginsValue c = true) (cs : List Char) :
    dropBlanks (c :: cs) = c :: cs := by
  apply dropBlanks_cons
  by_contra hblank
  simp only [Bool.not_eq_false, Bool.or_eq_true, beq_iff_eq] at hblank
  rcases hblank with ((rfl | rfl) | rfl) | rfl <;> exact absurd hc (by decide)

theorem readValue_digit {d : Char} (hd : d.isDigit = true) (fuel room : Nat) (cs : List Char) :
    readValue (fuel + 1) room (d :: cs) = readNumber (d :: cs) := by
  have hplain : d ≠ '\x7b' ∧ d ≠ '[' ∧ d ≠ '"' ∧ d ≠ 'n' ∧ d ≠ 't' ∧ d ≠ 'f' := by
    refine ⟨?_, ?_, ?_, ?_, ?_, ?_⟩ <;> (rintro rfl; exact absurd hd (by decide))
  have hbegins : beginsValue d = true := by simp [beginsValue, hd]
  rw [readValue, dropBlanks_of_beginsValue hbegins]
  split <;> simp_all

theorem readValue_array
    {c : Char} (hc : beginsValue c = true) (fuel room : Nat) (cs : List Char) :
    readValue (fuel + 1) room ('[' :: c :: cs) =
      (readItems fuel (room - 1) (c :: cs)).map fun (js, cs) => (nested room (.array js), cs) := by
  rw [readValue, dropBlanks_cons rfl]
  simp only [dropBlanks_of_beginsValue hc]
  split
  · rename_i heq
    obtain ⟨rfl, -⟩ := List.cons.inj heq
    exact absurd hc (by decide)
  · rfl

theorem readValue_object (fuel room : Nat) (cs : List Char) :
    readValue (fuel + 1) room ('\x7b' :: '"' :: cs) =
      (readMembers fuel (room - 1) ('"' :: cs)).map fun (ms, cs) =>
        (nested room (ofMembers ms), cs) := by
  rfl

theorem nested_of_pos {room : Nat} (h : 0 < room) (j : Json) : nested room j = j := by
  rw [nested, if_neg (by omega)]

theorem mapM_keys (members : List (String × Json)) :
    (members.map fun (key, j) => (some key, j)).mapM
      (fun ((key, j) : Option String × Json) => key.map (·, j)) = some members := by
  induction members with
  | nil => rfl
  | cons m members ih =>
      rw [List.map_cons, List.mapM_cons, ih]
      rfl

theorem ofMembers_keys (members : List (String × Json)) :
    ofMembers (members.map fun (key, j) => (some key, j)) = .object members := by
  rw [ofMembers, mapM_keys]

/-! ## Values, items and members -/

theorem readValue_count
    {n : Nat} (hn : n < Nat.pow 2 64) {rest : List Char} (hrest : EndsNumber rest)
    (fuel room : Nat) :
    readValue (fuel + 1) room ((Json.count n).render ++ rest) = some (.count n, rest) := by
  obtain ⟨d, ds, hdigits, hd⟩ := exists_toDigits_cons n
  have hrender : (Json.count n).render = d :: ds := Nat.toList_repr.trans hdigits
  have hread := readNumber_toDigits hn hrest
  rw [hdigits] at hread
  rw [hrender, List.cons_append, readValue_digit hd]
  exact hread

theorem readValue_string (s : String) (rest : List Char) (fuel room : Nat) :
    readValue (fuel + 1) room ((Json.string s).render ++ rest) = some (.string s, rest) := by
  have hquote : (Json.string s).render ++ rest =
      '"' :: (s.toList.flatMap escapeChar ++ '"' :: rest) := by
    change '"' :: s.toList.flatMap escapeChar ++ ['"'] ++ rest = _
    simp
  rw [hquote, readValue, dropBlanks_cons rfl]
  simp only [readString_quoted]
  rfl

theorem readItems_last
    {j : Json} {fuel room : Nat} {rest : List Char}
    (hj : readValue fuel room (j.render ++ ']' :: rest) = some (j, ']' :: rest)) :
    readItems (fuel + 1) room (renderItems [j] ++ ']' :: rest) = some ([j], rest) := by
  have hrender : renderItems [j] = j.render := rfl
  rw [hrender, readItems, hj]
  rfl

theorem readItems_cons
    {j k : Json} {items : List Json} {fuel room : Nat} {rest : List Char}
    (hj : readValue fuel room (j.render ++ ',' :: (renderItems (k :: items) ++ ']' :: rest)) =
      some (j, ',' :: (renderItems (k :: items) ++ ']' :: rest)))
    (hitems : readItems fuel room (renderItems (k :: items) ++ ']' :: rest) =
      some (k :: items, rest)) :
    readItems (fuel + 1) room (renderItems (j :: k :: items) ++ ']' :: rest) =
      some (j :: k :: items, rest) := by
  have hrender : renderItems (j :: k :: items) ++ ']' :: rest =
      j.render ++ ',' :: (renderItems (k :: items) ++ ']' :: rest) := by
    change j.render ++ ',' :: renderItems (k :: items) ++ ']' :: rest = _
    simp
  rw [hrender, readItems, hj]
  simp only [Option.bind_eq_bind, Option.bind_some, dropBlanks_cons (c := ',') rfl, hitems]

theorem readMembers_key (key : String) (fuel room : Nat) (cs : List Char) :
    readMembers (fuel + 1) room (quote key ++ ':' :: cs) =
      (readValue fuel room cs).bind fun (j, cs) =>
        match dropBlanks cs with
        | '\x7d' :: cs => some ([(some key, j)], cs)
        | ',' :: cs =>
            (readMembers fuel room cs).bind fun (ms, cs) => some ((some key, j) :: ms, cs)
        | _ => none := by
  have hquote : quote key ++ ':' :: cs =
      '"' :: (key.toList.flatMap escapeChar ++ '"' :: ':' :: cs) := by
    simp [quote]
  rw [hquote, readMembers, dropBlanks_cons rfl]
  simp only [readString_quoted]
  rfl

theorem readMembers_last
    {key : String} {j : Json} {fuel room : Nat} {rest : List Char}
    (hj : readValue fuel room (j.render ++ '\x7d' :: rest) = some (j, '\x7d' :: rest)) :
    readMembers (fuel + 1) room (renderMembers [(key, j)] ++ '\x7d' :: rest) =
      some ([(some key, j)], rest) := by
  have hrender : renderMembers [(key, j)] ++ '\x7d' :: rest =
      quote key ++ ':' :: (j.render ++ '\x7d' :: rest) := by
    change quote key ++ ':' :: j.render ++ '\x7d' :: rest = _
    simp
  rw [hrender, readMembers_key, hj]
  rfl

theorem readMembers_cons
    {key : String} {j : Json} {m : String × Json} {members : List (String × Json)}
    {read : List (Option String × Json)} {fuel room : Nat} {rest : List Char}
    (hj : readValue fuel room
        (j.render ++ ',' :: (renderMembers (m :: members) ++ '\x7d' :: rest)) =
      some (j, ',' :: (renderMembers (m :: members) ++ '\x7d' :: rest)))
    (hmembers : readMembers fuel room (renderMembers (m :: members) ++ '\x7d' :: rest) =
      some (read, rest)) :
    readMembers (fuel + 1) room (renderMembers ((key, j) :: m :: members) ++ '\x7d' :: rest) =
      some ((some key, j) :: read, rest) := by
  have hrender : renderMembers ((key, j) :: m :: members) ++ '\x7d' :: rest =
      quote key ++ ':' ::
        (j.render ++ ',' :: (renderMembers (m :: members) ++ '\x7d' :: rest)) := by
    change quote key ++ ':' :: j.render ++ ',' :: renderMembers (m :: members) ++ '\x7d' :: rest = _
    simp
  rw [hrender, readMembers_key, hj, Option.bind_some]
  simp only [dropBlanks_cons (c := ',') rfl, hmembers, Option.bind_some]

theorem readValue_items
    {fits : Nat → Bool} {i : Json} {items : List Json} (hi : i.isPlain fits = true)
    {fuel room : Nat} (hroom : 0 < room) {rest : List Char}
    (h : readItems fuel (room - 1) (renderItems (i :: items) ++ ']' :: rest) =
      some (i :: items, rest)) :
    readValue (fuel + 1) room ((Json.array (i :: items)).render ++ rest) =
      some (.array (i :: items), rest) := by
  obtain ⟨c, cs, hbegin, hc⟩ := exists_render_cons hi
  obtain ⟨tail, htail⟩ : ∃ tail, renderItems (i :: items) ++ ']' :: rest = c :: tail := by
    cases items with
    | nil => exact ⟨cs ++ ']' :: rest, by change i.render ++ _ = _; rw [hbegin]; rfl⟩
    | cons k items =>
        refine ⟨cs ++ ',' :: renderItems (k :: items) ++ ']' :: rest, ?_⟩
        change i.render ++ _ ++ _ = _
        rw [hbegin]
        rfl
  have hrender : (Json.array (i :: items)).render ++ rest = '[' :: c :: tail := by
    rw [← htail]
    change '[' :: renderItems (i :: items) ++ [']'] ++ rest = _
    simp
  rw [hrender, readValue_array hc, ← htail, h, Option.map_some]
  exact congrArg (fun j => some (j, rest)) (nested_of_pos hroom _)

theorem readValue_members
    {m : String × Json} {members : List (String × Json)} {fuel room : Nat} (hroom : 0 < room)
    {rest : List Char}
    (h : readMembers fuel (room - 1) (renderMembers (m :: members) ++ '\x7d' :: rest) =
      some ((m :: members).map fun (key, j) => (some key, j), rest)) :
    readValue (fuel + 1) room ((Json.object (m :: members)).render ++ rest) =
      some (.object (m :: members), rest) := by
  obtain ⟨tail, htail⟩ : ∃ tail, renderMembers (m :: members) ++ '\x7d' :: rest = '"' :: tail := by
    cases members with
    | nil => exact ⟨_, rfl⟩
    | cons n members => exact ⟨_, rfl⟩
  have hrender : (Json.object (m :: members)).render ++ rest = '\x7b' :: '"' :: tail := by
    rw [← htail]
    change '\x7b' :: renderMembers (m :: members) ++ ['\x7d'] ++ rest = _
    simp
  rw [hrender, readValue_object, ← htail, h, Option.map_some]
  dsimp only
  rw [ofMembers_keys, nested_of_pos hroom]

mutual

/-- A value is read back from its compact text, whatever follows that no number goes on with. -/
theorem readValue_render
    (j : Json) (hj : j.isPlain fitsWord = true) {fuel room : Nat} (hfuel : j.render.length ≤ fuel)
    (hroom : j.depth ≤ room) {rest : List Char} (hrest : EndsNumber rest) :
    readValue fuel room (j.render ++ rest) = some (j, rest) := by
  obtain ⟨c, cs, hrender, -⟩ := exists_render_cons hj
  obtain ⟨fuel, rfl⟩ : ∃ n, fuel = n + 1 := ⟨fuel - 1, by simp [hrender] at hfuel; omega⟩
  match j with
  | .null => rfl
  | .bool true => rfl
  | .bool false => rfl
  | .count n => exact readValue_count (by simpa [isPlain, fitsWord] using hj) hrest fuel room
  | .string s => exact readValue_string s rest fuel room
  | .array [] =>
      rw [depth] at hroom
      exact congrArg (fun j => some (j, rest)) (nested_of_pos (by omega) _)
  | .array (i :: items) =>
      have hlength : (Json.array (i :: items)).render.length =
          (renderItems (i :: items)).length + 2 := by
        change ('[' :: renderItems (i :: items) ++ [']']).length = _
        simp
      rw [depth] at hroom
      have hitems : allPlain fitsWord (i :: items) = true := hj
      have hi : i.isPlain fitsWord = true := by
        rw [allPlain, Bool.and_eq_true] at hitems
        exact hitems.1
      exact readValue_items hi (by omega)
        (readItems_render (i :: items) (by simp) hitems (by omega) (by omega) rest)
  | .object [] =>
      rw [depth] at hroom
      exact congrArg (fun j => some (j, rest)) (nested_of_pos (by omega) _)
  | .object (m :: members) =>
      have hlength : (Json.object (m :: members)).render.length =
          (renderMembers (m :: members)).length + 2 := by
        change ('\x7b' :: renderMembers (m :: members) ++ ['\x7d']).length = _
        simp
      rw [depth] at hroom
      exact readValue_members (by omega)
        (readMembers_render (m :: members) (by simp) hj (by omega) (by omega) rest)
  | .otherNumber => exact absurd hj (by simp [isPlain])
  | .unreadable => exact absurd hj (by simp [isPlain])
termination_by structural j

theorem readItems_render
    (items : List Json) (hne : items ≠ []) (hitems : allPlain fitsWord items = true)
    {fuel room : Nat} (hfuel : (renderItems items).length < fuel)
    (hroom : depthOfItems items ≤ room) (rest : List Char) :
    readItems fuel room (renderItems items ++ ']' :: rest) = some (items, rest) := by
  obtain ⟨fuel, rfl⟩ : ∃ n, fuel = n + 1 := ⟨fuel - 1, by omega⟩
  match items with
  | [] => exact absurd rfl hne
  | [j] =>
      have hj : j.isPlain fitsWord = true := by simpa [allPlain] using hitems
      have hlength : (renderItems [j]).length = j.render.length := rfl
      rw [depthOfItems] at hroom
      exact readItems_last
        (readValue_render j hj (by omega) (by omega) (.cons (by decide) rest))
  | j :: k :: items =>
      have hlength : (renderItems (j :: k :: items)).length =
          j.render.length + (renderItems (k :: items)).length + 1 := by
        change (j.render ++ ',' :: renderItems (k :: items)).length = _
        rw [List.length_append, List.length_cons, Nat.add_assoc]
      rw [allPlain, Bool.and_eq_true] at hitems
      rw [depthOfItems] at hroom
      exact readItems_cons
        (readValue_render j hitems.1 (by omega) (by omega) (.cons (by decide) _))
        (readItems_render (k :: items) (by simp) hitems.2 (by omega) (by omega) rest)
termination_by structural items

theorem readMembers_render
    (members : List (String × Json)) (hne : members ≠ [])
    (hmembers : allMembersPlain fitsWord members = true) {fuel room : Nat}
    (hfuel : (renderMembers members).length < fuel) (hroom : depthOfMembers members ≤ room)
    (rest : List Char) :
    readMembers fuel room (renderMembers members ++ '\x7d' :: rest) =
      some (members.map fun (key, j) => (some key, j), rest) := by
  obtain ⟨fuel, rfl⟩ : ∃ n, fuel = n + 1 := ⟨fuel - 1, by omega⟩
  match members with
  | [] => exact absurd rfl hne
  | [(key, j)] =>
      have hj : j.isPlain fitsWord = true := by simpa [allMembersPlain] using hmembers
      have hlength : (renderMembers [(key, j)]).length =
          (quote key).length + j.render.length + 1 := by
        change (quote key ++ ':' :: j.render).length = _
        rw [List.length_append, List.length_cons, Nat.add_assoc]
      rw [depthOfMembers] at hroom
      exact readMembers_last
        (readValue_render j hj (by omega) (by omega) (.cons (by decide) rest))
  | (key, j) :: m :: members =>
      have hlength : (renderMembers ((key, j) :: m :: members)).length =
          (quote key).length + j.render.length + (renderMembers (m :: members)).length + 2 := by
        change (quote key ++ ':' :: j.render ++ ',' :: renderMembers (m :: members)).length = _
        simp only [List.length_append, List.length_cons]
        omega
      rw [allMembersPlain, Bool.and_eq_true] at hmembers
      rw [depthOfMembers] at hroom
      exact readMembers_cons
        (readValue_render j hmembers.1 (by omega) (by omega) (.cons (by decide) _))
        (readMembers_render (m :: members) (by simp) hmembers.2 (by omega) (by omega) rest)
termination_by structural members

end

/-- A value that has no numbers but counts of 64 bits, and is not nested too deep, is read back
from its compact text. -/
theorem parse?_compact
    {j : Json} (hj : j.isPlain fitsWord = true) (hdepth : j.depth ≤ nestingLimit) :
    parse? j.compact = some j := by
  have hread : readValue (2 * j.render.length + 1) nestingLimit (j.render ++ []) = some (j, []) :=
    readValue_render j hj (by omega) hdepth .nil
  rw [List.append_nil] at hread
  rw [parse?, parseWithin?, compact, String.toList_ofList, hread]
  rfl

end Caret.Json
