import Caret.Proofs.Text.Boundary
import Mathlib.Data.List.TakeWhile

/-!
# Reading a text byte by byte

Offsets are valid where a character begins or the text ends, which shows in the
byte at the offset.  ASCII characters are bytes that read as themselves, and
bytes of other characters never read as ASCII, so that a run of ASCII characters
is the same run among the characters as among the bytes, in either direction.
-/

namespace Caret.Text

/-- Whether a character begins at an offset, or the text ends there. -/
def isCharStart (cs : List Char) (i : Nat) : Bool :=
  match (encode cs)[i]? with
  | some byte => decide byte.IsUTF8FirstByte
  | none => i == byteLength cs

theorem isCharStart_iff {cs : List Char} {i : Nat} :
    isCharStart cs i = true ↔ IsBoundary cs i := by
  induction cs generalizing i with
  | nil => simp [isCharStart, encode, isBoundary_nil_iff]
  | cons c cs ih =>
      have hsize : (String.utf8EncodeChar c).length = c.utf8Size := String.length_utf8EncodeChar c
      have hpos := Char.utf8Size_pos c
      have hencode : encode (c :: cs) = String.utf8EncodeChar c ++ encode cs := List.flatMap_cons
      rw [isBoundary_cons_iff, isCharStart, hencode]
      by_cases hi : i < c.utf8Size
      · rw [List.getElem?_append_left (by omega), List.getElem?_eq_getElem (by omega)]
        dsimp only
        rw [decide_eq_true_iff, UInt8.isUTF8FirstByte_getElem_utf8EncodeChar]
        omega
      · have hlength : (i == byteLength (c :: cs)) = (i - c.utf8Size == byteLength cs) := by
          rw [byteLength_cons, Bool.eq_iff_iff, beq_iff_eq, beq_iff_eq]
          omega
        rw [List.getElem?_append_right (by omega), hsize, hlength, ← ih]
        have hzero : i ≠ 0 := by omega
        have hle : c.utf8Size ≤ i := by omega
        simp [hzero, hle, isCharStart]

theorem ofNat_toNat_injective : Function.Injective fun byte : UInt8 => Char.ofNat byte.toNat := by
  intro x y hxy
  rw [← UInt8.toNat_inj, ← Signature.toNat_ofNat_toNat x, ← Signature.toNat_ofNat_toNat y]
  exact congrArg Char.toNat hxy

theorem bytes_injective : Function.Injective Signature.bytes := by
  intro cs ds h
  have hencode : cs.utf8Encode = ds.utf8Encode :=
    congrArg List.toByteArray (List.map_injective_iff.2 ofNat_toNat_injective h)
  have hdecode := congrArg ByteArray.utf8Decode? hencode
  rw [List.utf8Decode?_utf8Encode, List.utf8Decode?_utf8Encode] at hdecode
  simpa using hdecode

theorem isBoundary_congr
    {cs ds : List Char} {i : Nat} (hlength : byteLength cs = byteLength ds)
    (hbyte : (Signature.bytes cs)[i]? = (Signature.bytes ds)[i]?) :
    IsBoundary cs i ↔ IsBoundary ds i := by
  rw [Signature.bytes, Signature.bytes, List.getElem?_map, List.getElem?_map] at hbyte
  have hget := Option.map_injective ofNat_toNat_injective hbyte
  rw [← isCharStart_iff, ← isCharStart_iff, isCharStart, isCharStart, hget, hlength]

/-! ## Runs of ASCII characters -/

/-- The first `n` characters are there and are ASCII. -/
structure BeginsAscii (cs : List Char) (n : Nat) : Prop where
  le_length : n ≤ cs.length
  ascii : ∀ c ∈ cs.take n, c.toNat < 128

theorem BeginsAscii.zero (cs : List Char) : BeginsAscii cs 0 :=
  ⟨Nat.zero_le _, by simp⟩

theorem BeginsAscii.add
    {cs : List Char} {m n : Nat} (hm : BeginsAscii cs m) (hn : BeginsAscii (cs.drop m) n) :
    BeginsAscii cs (m + n) := by
  have hmle := hm.le_length
  have hnle := hn.le_length
  rw [List.length_drop] at hnle
  refine ⟨by omega, fun c hc => ?_⟩
  rw [List.take_add, List.mem_append] at hc
  exact hc.elim (hm.ascii c) (hn.ascii c)

theorem beginsAscii_takeWhile
    {p : Char → Bool} (hp : ∀ c, p c = true → c.toNat < 128) (cs : List Char) :
    BeginsAscii cs (cs.takeWhile p).length := by
  have hinitial := cs.takeWhile_prefix p
  refine ⟨hinitial.length_le, fun c hc => ?_⟩
  rw [List.prefix_iff_eq_take.1 hinitial |>.symm] at hc
  exact hp c (List.mem_takeWhile_imp hc)

theorem count_bytes {x : Char} (hx : x.toNat < 128) (cs : List Char) :
    (Signature.bytes cs).count x = cs.count x := by
  induction cs with
  | nil => rfl
  | cons c cs ih =>
      rw [Signature.bytes_cons, List.count_append, ih, List.count_cons]
      by_cases hc : c.toNat < 128
      · rw [Signature.bytes_singleton_of_ascii hc, List.count_singleton]
        omega
      · have hnot : x ∉ Signature.bytes [c] := by
          intro hmem
          have := Signature.ascii_le_of_mem_bytes_singleton (by omega) hmem
          omega
        have hne : c ≠ x := by
          rintro rfl
          exact hc hx
        simp [List.count_eq_zero_of_not_mem hnot, hne]

/-- A way to spell characters out by bytes, each read as a character of its
own, in one order or another. -/
structure SpellsOut (spell : Char → List Char) : Prop where
  ascii : ∀ c, c.toNat < 128 → spell c = [c]
  other : ∀ c, 128 ≤ c.toNat → ∃ x tail, spell c = x :: tail ∧ 128 ≤ x.toNat

theorem bytes_eq_flatMap (cs : List Char) :
    Signature.bytes cs = cs.flatMap fun c => Signature.bytes [c] := by
  induction cs with
  | nil => rfl
  | cons c cs ih => rw [Signature.bytes_cons, List.flatMap_cons, ih]

theorem reverse_bytes (cs : List Char) :
    (Signature.bytes cs).reverse = cs.reverse.flatMap fun c => (Signature.bytes [c]).reverse := by
  rw [bytes_eq_flatMap, List.reverse_flatMap]
  rfl

theorem spellsOut_bytes : SpellsOut fun c => Signature.bytes [c] where
  ascii _ hc := Signature.bytes_singleton_of_ascii hc
  other c hc := by
    obtain ⟨x, tail, hbytes⟩ := List.exists_cons_of_ne_nil (Signature.bytes_singleton_ne_nil c)
    refine ⟨x, tail, hbytes, Signature.ascii_le_of_mem_bytes_singleton hc ?_⟩
    rw [hbytes]
    exact List.mem_cons_self

theorem spellsOut_reverse_bytes : SpellsOut fun c => (Signature.bytes [c]).reverse where
  ascii c hc := by rw [Signature.bytes_singleton_of_ascii hc, List.reverse_singleton]
  other c hc := by
    have hne : (Signature.bytes [c]).reverse ≠ [] := by
      rw [Ne, List.reverse_eq_nil_iff]
      exact Signature.bytes_singleton_ne_nil c
    obtain ⟨x, tail, hbytes⟩ := List.exists_cons_of_ne_nil hne
    refine ⟨x, tail, hbytes, Signature.ascii_le_of_mem_bytes_singleton hc ?_⟩
    rw [← List.mem_reverse, hbytes]
    exact List.mem_cons_self

namespace SpellsOut

variable {spell : Char → List Char} (h : SpellsOut spell)
include h

theorem takeWhile_flatMap
    {p : Char → Bool} (hp : ∀ c, p c = true → c.toNat < 128) (cs : List Char) :
    (cs.flatMap spell).takeWhile p = cs.takeWhile p := by
  have hother (c : Char) (hc : 128 ≤ c.toNat) : p c = false := by
    by_contra hpc
    have := hp c (eq_true_of_ne_false hpc)
    omega
  induction cs with
  | nil => rfl
  | cons c cs ih =>
      rw [List.flatMap_cons]
      by_cases hc : c.toNat < 128
      · rw [h.ascii c hc, List.singleton_append, List.takeWhile_cons, List.takeWhile_cons, ih]
      · obtain ⟨x, tail, hspell, hx⟩ := h.other c (by omega)
        rw [hspell, List.cons_append, List.takeWhile_cons, List.takeWhile_cons, hother x hx,
          hother c (by omega)]
        rfl

/-- The first character is the first byte if one of them is ASCII. -/
theorem head?_flatMap_eq_iff {x : Char} (hx : x.toNat < 128) (cs : List Char) :
    (cs.flatMap spell).head? = some x ↔ cs.head? = some x := by
  cases cs with
  | nil => simp
  | cons c cs =>
      rw [List.flatMap_cons]
      by_cases hc : c.toNat < 128
      · rw [h.ascii c hc]
        simp
      · obtain ⟨y, tail, hspell, hy⟩ := h.other c (by omega)
        rw [hspell, List.cons_append, List.head?_cons, List.head?_cons, Option.some_inj,
          Option.some_inj]
        constructor
        · rintro rfl
          omega
        · rintro rfl
          omega

theorem flatMap_of_ascii {cs : List Char} (hcs : ∀ c ∈ cs, c.toNat < 128) :
    cs.flatMap spell = cs := by
  induction cs with
  | nil => rfl
  | cons c cs ih =>
      rw [List.flatMap_cons, h.ascii c (hcs c List.mem_cons_self),
        ih fun d hd => hcs d (List.mem_cons_of_mem c hd)]
      rfl

/-- As many characters as bytes can be left out at the front where they are
ASCII. -/
theorem drop_flatMap {cs : List Char} {n : Nat} (hcs : BeginsAscii cs n) :
    (cs.flatMap spell).drop n = (cs.drop n).flatMap spell := by
  have hlength : (cs.take n).length = n := List.length_take_of_le hcs.le_length
  conv_lhs => rw [← List.take_append_drop n cs, List.flatMap_append, h.flatMap_of_ascii hcs.ascii]
  rw [List.drop_append_of_le_length (by omega), List.drop_eq_nil_of_le (by omega),
    List.nil_append]

end SpellsOut

theorem getElem?_bytes_byteLength
    (before : List Char) {c : Char} (hc : c.toNat < 128) (after : List Char) :
    (Signature.bytes (before ++ c :: after))[byteLength before]? = some c := by
  rw [Signature.bytes_append, Signature.bytes_cons, Signature.bytes_singleton_of_ascii hc,
    ← Signature.length_bytes before]
  simp

section Run

variable {p : Char → Bool} (hp : ∀ c, p c = true → c.toNat < 128)
include hp

/-- First bytes that read as ASCII characters of one class are such characters. -/
theorem exists_firstRun_of_bytes
    {cs : List Char} {k : Nat}
    (hbytes : ∀ i < k, ∃ c, (Signature.bytes cs)[i]? = some c ∧ p c = true) :
    ∃ run after, cs = run ++ after ∧ run.length = k ∧ ∀ c ∈ run, p c = true := by
  have hrun : ∀ c ∈ (Signature.bytes cs).take k, p c = true := by
    intro c hc
    obtain ⟨i, hi⟩ := List.mem_iff_getElem?.1 hc
    rw [List.getElem?_take] at hi
    split at hi
    · rename_i hlt
      obtain ⟨d, hd, hpd⟩ := hbytes i hlt
      rw [hd] at hi
      exact Option.some.inj hi ▸ hpd
    · simp at hi
  have hlength : ((Signature.bytes cs).take k).length = k := by
    apply List.length_take_of_le
    by_contra hlt
    obtain ⟨c, hc, -⟩ := hbytes (Signature.bytes cs).length (by omega)
    simp at hc
  have htake : cs.takeWhile p =
      (Signature.bytes cs).take k ++ ((Signature.bytes cs).drop k).takeWhile p := by
    rw [← List.takeWhile_append_of_pos hrun, List.take_append_drop, bytes_eq_flatMap,
      spellsOut_bytes.takeWhile_flatMap hp]
  refine ⟨_, ((Signature.bytes cs).drop k).takeWhile p ++ cs.dropWhile p, ?_, hlength, hrun⟩
  rw [← List.append_assoc, ← htake, List.takeWhile_append_dropWhile]

/-- Bytes that read as ASCII characters of one class are a part of the text that
consists of such characters. -/
theorem exists_run_of_bytes
    {cs : List Char} {m n : Nat} (hlt : m < n)
    (hbytes : ∀ i, m ≤ i → i < n → ∃ c, (Signature.bytes cs)[i]? = some c ∧ p c = true) :
    ∃ before run after, cs = before ++ (run ++ after) ∧ byteLength before = m ∧
      byteLength (before ++ run) = n ∧ ∀ c ∈ run, p c = true := by
  obtain ⟨c, hc, hpc⟩ := hbytes m (Nat.le_refl m) hlt
  obtain ⟨before, rest, rfl, rfl⟩ := isBoundary_of_ascii hc (hp c hpc)
  have hrest : ∀ i < n - byteLength before,
      ∃ c, (Signature.bytes rest)[i]? = some c ∧ p c = true := by
    intro i hi
    have hbyte := hbytes (byteLength before + i) (Nat.le_add_right _ _) (by omega)
    rwa [Signature.bytes_append, ← Signature.length_bytes before,
      List.getElem?_append_right (Nat.le_add_right _ _), Nat.add_sub_cancel_left] at hbyte
  obtain ⟨run, after, rfl, hlength, hrun⟩ := exists_firstRun_of_bytes hp hrest
  refine ⟨before, run, after, rfl, rfl, ?_, hrun⟩
  rw [byteLength_append, byteLength_of_ascii fun c hc => hp c (hrun c hc), hlength]
  exact Nat.add_sub_cancel' (Nat.le_of_lt hlt)

end Run

end Caret.Text
