import Caret.Proofs.Cursor.GuardedWord
import Caret.Proofs.Text.Lines

/-!
# Lines and columns, found by offsets

A position is found once more on the bytes of the text: the line breaks before
the offset are counted, and the line is cut off the text behind the last of them.
That cut falls between two characters, even if the offset does not.
-/

namespace Caret

namespace Guarded

def firstBytes? (code : List Char) (i : Nat) : Option (List Char) :=
  if i ≤ code.length then some (code.take i) else none

def lastLineStart (before : List Char) : Nat :=
  before.length - (before.reverse.takeWhile (· != '\n')).length

/-- The UTF-16 units of the characters that begin before `stop`, in a text that
begins at `start`. -/
def unitsBefore (stop : Nat) : Nat → List Char → Nat
  | _, [] => 0
  | start, c :: cs =>
    if stop ≤ start then 0 else Text.units16 c + unitsBefore stop (start + c.utf8Size) cs

def position? (cs : List Char) (offset : Nat) : Option Position := do
  let offset := min offset (Text.byteLength cs)
  let before ← firstBytes? (Signature.bytes cs) offset
  let start := lastLineStart before
  let (_, line) ← Text.splitAt? cs start
  some ⟨before.count '\n', unitsBefore offset start line⟩

theorem unitsBefore_append
    {stop start : Nat} {line rest : List Char}
    (hline : ∀ u v, line = u ++ v → v ≠ [] → start + Text.byteLength u < stop)
    (hrest : rest = [] ∨ stop ≤ start + Text.byteLength line) :
    unitsBefore stop start (line ++ rest) = Text.width line := by
  induction line generalizing start with
  | nil =>
      cases rest with
      | nil => rfl
      | cons c rest =>
          rcases hrest with hnil | hstop
          · simp at hnil
          · exact if_pos hstop
  | cons c line ih =>
      have hlt := hline [] (c :: line) rfl (by simp)
      rw [Text.byteLength_nil, Nat.add_zero] at hlt
      rw [List.cons_append, unitsBefore, if_neg (by omega), Text.width, ih]
      · intro u v happend hv
        have := hline (c :: u) v (by rw [happend, List.cons_append]) hv
        rw [Text.byteLength_cons] at this
        omega
      · rw [Text.byteLength_cons, ← Nat.add_assoc] at hrest
        exact hrest

theorem lastLineStart_append
    {lines line : List Char} (hlines : Text.EndsLine lines) (hline : '\n' ∉ line) :
    lastLineStart (Signature.bytes lines ++ line) = Text.byteLength lines := by
  have hall : ∀ c ∈ line.reverse, (c != '\n') = true := by
    intro c hc
    rw [bne_iff_ne]
    rintro rfl
    exact hline (List.mem_reverse.1 hc)
  have hstops : (Signature.bytes lines).reverse.takeWhile (· != '\n') = [] := by
    rcases hlines with rfl | ⟨first, rfl⟩
    · rfl
    · have hbreak : Signature.bytes ['\n'] = ['\n'] :=
        Signature.bytes_singleton_of_ascii (by decide)
      simp [hbreak]
  rw [lastLineStart, List.reverse_append, List.takeWhile_append_of_pos hall, hstops,
    List.append_nil, List.length_append, List.length_reverse, Signature.length_bytes,
    Nat.add_sub_cancel]

theorem take_bytes_append
    {lines line rest : List Char} {m : Nat} (hle : Text.byteLength lines ≤ m)
    (hm : m ≤ Text.byteLength (lines ++ line)) :
    (Signature.bytes (lines ++ line ++ rest)).take m =
      Signature.bytes lines ++ (Signature.bytes line).take (m - Text.byteLength lines) := by
  rw [Signature.bytes_append, List.take_append_of_le_length (by rwa [Signature.length_bytes]),
    Signature.bytes_append, List.take_append,
    List.take_of_length_le (by rwa [Signature.length_bytes]), Signature.length_bytes]

theorem byteLength_le_of_endsLine
    {lines line : List Char} {n : Nat} (hlines : Text.EndsLine lines)
    (hbegin : ∀ u v, lines ++ line = u ++ v → v ≠ [] → Text.byteLength u < n) :
    Text.byteLength lines ≤ n := by
  rcases hlines with rfl | ⟨first, rfl⟩
  · exact Nat.zero_le _
  · have hbreak : Text.byteLength ['\n'] = 1 := by decide
    rw [Text.byteLength_append, hbreak]
    exact hbegin first (['\n'] ++ line) (List.append_assoc _ _ _) (by simp)

theorem position?_eq (cs : List Char) (n : Nat) : position? cs n = some (Text.positionAt cs n) := by
  obtain ⟨begun, rest, rfl, hposition, hle, hbegin⟩ := Text.exists_begun cs n ⟨0, 0⟩
  obtain ⟨lines, line, rfl, hlines, hline⟩ := Text.exists_lastLine begun
  have hlength := Text.byteLength_append (lines ++ line) rest
  have hlengthBegun := Text.byteLength_append lines line
  have hlinesLe := byteLength_le_of_endsLine hlines hbegin
  obtain ⟨m, hm⟩ : ∃ m, m = min n (Text.byteLength (lines ++ line ++ rest)) := ⟨_, rfl⟩
  rw [← hm] at hle
  have hfirst : firstBytes? (Signature.bytes (lines ++ line ++ rest)) m =
      some (Signature.bytes lines ++
        (Signature.bytes line).take (m - Text.byteLength lines)) := by
    rw [firstBytes?, if_pos (by rw [Signature.length_bytes]; omega),
      take_bytes_append (by omega) hle]
  have hbreak : '\n' ∉ (Signature.bytes line).take (m - Text.byteLength lines) := by
    intro hmem
    exact hline (Signature.mem_of_mem_bytes (by decide) (List.mem_of_mem_take hmem))
  have hcut : Text.splitAt? (lines ++ line ++ rest) (Text.byteLength lines) =
      some (lines, line ++ rest) :=
    (Text.splitAt?_eq_some_iff _ _ _ _).2 ⟨List.append_assoc lines line rest, rfl⟩
  have hunits : unitsBefore m (Text.byteLength lines) (line ++ rest) =
      Text.width line := by
    apply unitsBefore_append
    · intro u v happend hv
      have hlt := hbegin (lines ++ u) v (by rw [happend, List.append_assoc]) hv
      have hsplit := congrArg Text.byteLength happend
      have hpos := Text.byteLength_pos hv
      rw [Text.byteLength_append] at hlt hsplit
      omega
    · exact Or.inr (by omega)
  rw [position?, ← hm]
  simp only [Option.bind_eq_bind, Option.bind_some, hfirst, lastLineStart_append hlines hbreak,
    hcut, hunits, List.count_append, Text.count_bytes (show '\n'.toNat < 128 by decide),
    List.count_eq_zero_of_not_mem hbreak, Nat.add_zero]
  rw [Text.positionAt, hposition, List.foldl_append, Text.foldl_advance_of_endsLine hlines,
    Text.foldl_advance_of_not_mem hline, Nat.zero_add]

end Guarded

end Caret
