import Caret.Proofs.Text.Boundary
import Caret.Proofs.Text.Cut
import Mathlib.Data.List.Induction
import Mathlib.Order.Bounds.Defs

/-!
# Lines of a text

A text is cut into lines at its line breaks, and a line into characters that
begin at columns.  The position behind a part of a text tells the line breaks in
that part and the UTF-16 units of its last line.  From the other side, a line
number and a column lead back to the part of the text before them.
-/

namespace Caret.Text

/-! ## The last line of a text -/

/-- Nothing, or a text that ends in a line break. -/
def EndsLine (cs : List Char) : Prop :=
  cs = [] ∨ ∃ first, cs = first ++ ['\n']

theorem exists_lastLine (cs : List Char) :
    ∃ lines line, cs = lines ++ line ∧ EndsLine lines ∧ '\n' ∉ line := by
  induction cs using List.reverseRecOn with
  | nil => exact ⟨[], [], rfl, Or.inl rfl, by simp⟩
  | append_singleton cs c ih =>
      by_cases hc : c = '\n'
      · exact ⟨cs ++ [c], [], by simp, Or.inr ⟨cs, by rw [hc]⟩, by simp⟩
      · obtain ⟨lines, line, rfl, hlines, hline⟩ := ih
        refine ⟨lines, line ++ [c], by simp, hlines, ?_⟩
        simp [hline, Ne.symm hc]

def width : List Char → Nat
  | [] => 0
  | c :: cs => units16 c + width cs

theorem foldl_advance_of_not_mem
    {line : List Char} (hline : '\n' ∉ line) (p : Position) :
    line.foldl advance p = ⟨p.line, p.col + width line⟩ := by
  induction line generalizing p with
  | nil => rfl
  | cons c line ih =>
      rw [List.mem_cons, not_or] at hline
      rw [List.foldl_cons, ih hline.2, advance, if_neg (Ne.symm hline.1), width, Nat.add_assoc]

theorem line_foldl_advance (cs : List Char) (p : Position) :
    (cs.foldl advance p).line = p.line + cs.count '\n' := by
  induction cs generalizing p with
  | nil => rfl
  | cons c cs ih =>
      rw [List.foldl_cons, ih, advance, List.count_cons]
      by_cases hc : c = '\n'
      · simp [hc]
        omega
      · simp [hc]

theorem foldl_advance_of_endsLine {lines : List Char} (hlines : EndsLine lines) :
    lines.foldl advance ⟨0, 0⟩ = ⟨lines.count '\n', 0⟩ := by
  rcases hlines with rfl | ⟨first, rfl⟩
  · rfl
  · have hline := line_foldl_advance first ⟨0, 0⟩
    simp [advance, hline]

theorem positionAt_byteLength
    {lines line : List Char} (hlines : EndsLine lines) (hline : '\n' ∉ line) (after : List Char) :
    positionAt (lines ++ line ++ after) (byteLength (lines ++ line)) =
      ⟨lines.count '\n', width line⟩ := by
  rw [positionAt, positionFrom_byteLength, List.foldl_append, foldl_advance_of_endsLine hlines,
    foldl_advance_of_not_mem hline, Nat.zero_add]

/-! ## What comes before an offset -/

theorem byteLength_pos {cs : List Char} (hcs : cs ≠ []) : 0 < byteLength cs := by
  cases cs with
  | nil => exact absurd rfl hcs
  | cons c cs =>
      rw [byteLength_cons]
      exact Nat.lt_add_right _ (Char.utf8Size_pos c)

/-- The characters that begin before an offset. -/
theorem exists_begun (cs : List Char) (n : Nat) (p : Position) :
    ∃ begun rest, cs = begun ++ rest ∧ positionFrom p cs n = begun.foldl advance p ∧
      min n (byteLength cs) ≤ byteLength begun ∧
      ∀ u v, begun = u ++ v → v ≠ [] → byteLength u < n := by
  induction cs generalizing n p with
  | nil =>
      refine ⟨[], [], rfl, by cases n <;> rfl, by simp, ?_⟩
      intro u v happend hv
      exact absurd (List.append_eq_nil_iff.1 happend.symm).2 hv
  | cons c cs ih =>
      cases n with
      | zero =>
          refine ⟨[], c :: cs, rfl, rfl, by simp, ?_⟩
          intro u v happend hv
          exact absurd (List.append_eq_nil_iff.1 happend.symm).2 hv
      | succ n =>
          obtain ⟨begun, rest, rfl, hposition, hle, hbegin⟩ :=
            ih (n + 1 - c.utf8Size) (advance p c)
          refine ⟨c :: begun, rest, rfl, hposition, ?_, ?_⟩
          · rw [byteLength_cons, byteLength_cons]
            omega
          · intro u v happend hv
            cases u with
            | nil => exact Nat.succ_pos n
            | cons d u =>
                obtain ⟨rfl, hbegun⟩ := List.cons.inj happend
                have := hbegin u v hbegun hv
                rw [byteLength_cons]
                omega

/-- Where the characters that begin before an offset end, there is the first
boundary from the offset on, or from the end of the text. -/
theorem isLeast_byteLength_begun
    {begun rest : List Char} {n : Nat}
    (hle : min n (byteLength (begun ++ rest)) ≤ byteLength begun)
    (hbegin : ∀ u v, begun = u ++ v → v ≠ [] → byteLength u < n) :
    IsLeast {b | IsBoundary (begun ++ rest) b ∧ min n (byteLength (begun ++ rest)) ≤ b}
      (byteLength begun) := by
  constructor
  · exact ⟨⟨begun, rest, rfl, rfl⟩, hle⟩
  · rintro b ⟨⟨before, after, htext, rfl⟩, hb⟩
    rcases List.prefix_or_prefix_of_prefix (List.prefix_append begun rest)
        (htext ▸ List.prefix_append before after) with ⟨more, rfl⟩ | ⟨more, rfl⟩
    · rw [byteLength_append]
      exact Nat.le_add_right _ _
    · by_cases hmore : more = []
      · simp [hmore]
      · have hlt := hbegin before more rfl hmore
        have hpos := byteLength_pos hmore
        simp only [byteLength_append] at hb
        omega

/-! ## Lines by their numbers -/

/-- The line of a text with a number, between what stands before it and after
it.  As many line breaks stand before a line as its number says, the last of them
right before it, and it goes on up to the next line break or to the end of the
text. -/
structure IsLine (cs : List Char) (number : Nat) (before line after : List Char) : Prop where
  text_eq : cs = before ++ line ++ after
  begins : EndsLine before
  number_eq : before.count '\n' = number
  unbroken : '\n' ∉ line
  stops : after = [] ∨ ∃ rest, after = '\n' :: rest

theorem count_pos_of_endsLine
    {lines : List Char} (hlines : EndsLine lines) (hne : lines ≠ []) : 0 < lines.count '\n' := by
  rcases hlines with rfl | ⟨first, rfl⟩
  · exact absurd rfl hne
  · simp

theorem dropLines_append
    {lines : List Char} (hlines : EndsLine lines) (rest : List Char) :
    dropLines (lines.count '\n') (lines ++ rest) = some (byteLength lines, rest) := by
  induction lines with
  | nil => cases rest <;> rfl
  | cons c lines ih =>
      have htail : EndsLine lines := by
        rcases hlines with hnil | ⟨first, hfirst⟩
        · simp at hnil
        · cases first with
          | nil => exact Or.inl (List.cons.inj hfirst).2
          | cons d first => exact Or.inr ⟨first, (List.cons.inj hfirst).2⟩
      obtain ⟨n, hn⟩ := Nat.exists_eq_add_of_lt (count_pos_of_endsLine hlines (by simp))
      have hnext : (if c = '\n' then 0 + n else 0 + n + 1) = lines.count '\n' := by
        rw [List.count_cons] at hn
        by_cases hc : c = '\n'
        · simp only [hc, beq_self_eq_true, if_true] at hn ⊢
          omega
        · simp only [hc, beq_iff_eq, if_false] at hn ⊢
          omega
      rw [hn, List.cons_append, dropLines, hnext, ih htail]
      rfl

/-- A text has the lines up to the number of its line breaks, and no more. -/
theorem dropLines_eq_none_iff {number : Nat} {cs : List Char} :
    dropLines number cs = none ↔ cs.count '\n' < number := by
  induction cs generalizing number with
  | nil => cases number <;> simp [dropLines]
  | cons c cs ih =>
      cases number with
      | zero => simp [dropLines]
      | succ number =>
          rw [dropLines, Option.map_eq_none_iff, ih, List.count_cons]
          by_cases hc : c = '\n'
          · simp only [hc, beq_self_eq_true, if_true]
            omega
          · simp only [hc, beq_iff_eq, if_false]
            omega

theorem exists_lines_of_dropLines
    {number k : Nat} {cs rest : List Char} (h : dropLines number cs = some (k, rest)) :
    ∃ lines, cs = lines ++ rest ∧ EndsLine lines ∧ lines.count '\n' = number := by
  fun_induction dropLines number cs generalizing k rest with
  | case1 cs =>
      obtain ⟨rfl, rfl⟩ := Prod.mk.inj (Option.some.inj h)
      exact ⟨[], rfl, Or.inl rfl, rfl⟩
  | case2 number => simp at h
  | case3 number c cs ih =>
      obtain ⟨⟨k', rest'⟩, hrest, heq⟩ := Option.map_eq_some_iff.1 h
      obtain ⟨-, rfl⟩ := Prod.mk.inj heq
      obtain ⟨lines, rfl, hlines, hnumber⟩ := ih hrest
      have hcount : (c :: lines).count '\n' = number + 1 := by
        rw [List.count_cons, hnumber]
        by_cases hc : c = '\n' <;> simp [hc]
      refine ⟨c :: lines, rfl, ?_, hcount⟩
      rcases hlines with rfl | ⟨first, rfl⟩
      · have hbreak : c = '\n' := by
          by_contra hc
          simp [hc] at hcount
        exact Or.inr ⟨[], by rw [hbreak]; rfl⟩
      · exact Or.inr ⟨c :: first, rfl⟩

theorem firstLine_append
    {line after : List Char} (hline : '\n' ∉ line)
    (hafter : after = [] ∨ ∃ rest, after = '\n' :: rest) :
    firstLine (line ++ after) = line := by
  have hall : ∀ c ∈ line, decide (c ≠ '\n') = true := by
    intro c hc
    rw [decide_eq_true_iff]
    rintro rfl
    exact hline hc
  have hnone : after.takeWhile (fun c => decide (c ≠ '\n')) = [] := by
    rcases hafter with rfl | ⟨rest, rfl⟩ <;> rfl
  rw [firstLine, List.takeWhile_append_of_pos hall, hnone, List.append_nil]

theorem exists_firstLine (cs : List Char) :
    ∃ line after, cs = line ++ after ∧ '\n' ∉ line ∧
      (after = [] ∨ ∃ rest, after = '\n' :: rest) := by
  induction cs with
  | nil => exact ⟨[], [], rfl, by simp, Or.inl rfl⟩
  | cons c cs ih =>
      by_cases hc : c = '\n'
      · exact ⟨[], c :: cs, rfl, by simp, Or.inr ⟨cs, by rw [hc]⟩⟩
      · obtain ⟨line, after, rfl, hline, hafter⟩ := ih
        exact ⟨c :: line, after, rfl, by simp [hline, Ne.symm hc], hafter⟩

/-- The line with a number is there if enough line breaks are. -/
theorem exists_isLine {cs : List Char} {number : Nat} (h : number ≤ cs.count '\n') :
    ∃ before line after, IsLine cs number before line after := by
  cases hdrop : dropLines number cs with
  | none =>
      have := dropLines_eq_none_iff.1 hdrop
      omega
  | some dropped =>
      obtain ⟨lines, rfl, hlines, hnumber⟩ := exists_lines_of_dropLines hdrop
      obtain ⟨line, after, heq, hline, hafter⟩ := exists_firstLine dropped.2
      exact ⟨lines, line, after, by rw [heq, List.append_assoc], hlines, hnumber, hline, hafter⟩

/-- An offset is looked up in the line of its position. -/
theorem IsLine.offsetAt?_eq
    {cs before line after : List Char} {p : Position} (h : IsLine cs p.line before line after) :
    offsetAt? cs p = some (byteLength before + columnBytes p.col line) := by
  have hdrop := dropLines_append h.begins (line ++ after)
  rw [h.number_eq, ← List.append_assoc, ← h.text_eq] at hdrop
  rw [offsetAt?, hdrop, Option.map_some]
  simp only [firstLine_append h.unbroken h.stops]

/-! ## Columns -/

/-- A character of a line begins at a column. -/
def BeginsAt (line : List Char) (col : Nat) : Prop :=
  ∃ u c v, line = u ++ c :: v ∧ width u = col

/-- The least column from `col` on at which a character of a line begins, or the
column behind the line if none begins there or further on. -/
def IsNextColumn (line : List Char) (col next : Nat) : Prop :=
  IsLeast {k | col ≤ k ∧ BeginsAt line k} next ∨
    (∀ k, col ≤ k → ¬BeginsAt line k) ∧ next = width line

theorem width_append (u v : List Char) : width (u ++ v) = width u + width v := by
  induction u with
  | nil => exact (Nat.zero_add _).symm
  | cons c u ih => rw [List.cons_append, width, width, ih, Nat.add_assoc]

/-- The characters that begin before a column, and how many bytes they take. -/
theorem exists_columnBytes (col : Nat) (line : List Char) :
    ∃ u v, line = u ++ v ∧ columnBytes col line = byteLength u ∧ (v = [] ∨ col ≤ width u) ∧
      ∀ u' c w, u = u' ++ c :: w → width u' < col := by
  induction line generalizing col with
  | nil => exact ⟨[], [], rfl, by cases col <;> rfl, Or.inl rfl, by simp⟩
  | cons d line ih =>
      cases col with
      | zero => exact ⟨[], d :: line, rfl, rfl, Or.inr (Nat.zero_le _), by simp⟩
      | succ col =>
          obtain ⟨u, v, rfl, hbytes, hstop, hbegin⟩ := ih (col + 1 - units16 d)
          refine ⟨d :: u, v, rfl, by rw [columnBytes, hbytes, byteLength_cons], ?_, ?_⟩
          · refine hstop.imp_right fun hle => ?_
            rw [width]
            omega
          · intro u' c w happend
            cases u' with
            | nil => exact Nat.succ_pos col
            | cons d' u' =>
                obtain ⟨rfl, hu⟩ := List.cons.inj happend
                have := hbegin u' c w hu
                rw [width]
                omega

/-- As many bytes as the characters before a column that is the width of them. -/
theorem columnBytes_width (u v : List Char) : columnBytes (width u) (u ++ v) = byteLength u := by
  induction u with
  | nil => cases v <;> rfl
  | cons c u ih =>
      obtain ⟨n, hn⟩ := Nat.exists_eq_add_of_lt (units16_pos c)
      have hwidth : width (c :: u) = n + width u + 1 := by
        rw [width]
        omega
      have hrest : n + width u + 1 - units16 c = width u := by omega
      rw [hwidth, List.cons_append, columnBytes, hrest, ih, byteLength_cons]

/-- Behind the characters that begin before a column is the next one. -/
theorem isNextColumn_width
    {u v : List Char} {col : Nat} (hstop : v = [] ∨ col ≤ width u)
    (hbegin : ∀ u' c w, u = u' ++ c :: w → width u' < col) :
    IsNextColumn (u ++ v) col (width u) := by
  have hright (k : Nat) (hk : col ≤ k) (hbegins : BeginsAt (u ++ v) k) :
      ∃ x c w, v = x ++ c :: w ∧ k = width (u ++ x) := by
    obtain ⟨y, c, w, happend, rfl⟩ := hbegins
    rcases List.append_eq_append_iff.1 happend with ⟨x, rfl, hv⟩ | ⟨x, rfl, hx⟩
    · exact ⟨x, c, w, hv, rfl⟩
    · cases x with
      | nil => exact ⟨[], c, w, hx.symm, by simp⟩
      | cons d x =>
          have := hbegin y d x rfl
          omega
  cases v with
  | nil =>
      refine Or.inr ⟨fun k hk hbegins => ?_, by rw [List.append_nil]⟩
      obtain ⟨x, c, w, hnil, -⟩ := hright k hk hbegins
      simp at hnil
  | cons c v =>
      have hle : col ≤ width u := hstop.resolve_left (by simp)
      refine Or.inl ⟨⟨hle, u, c, v, rfl, rfl⟩, ?_⟩
      rintro k ⟨hk, hbegins⟩
      obtain ⟨x, -, -, -, rfl⟩ := hright k hk hbegins
      rw [width_append]
      exact Nat.le_add_right _ _

/-! ## Positions and offsets -/

/-- The offset of the position of an offset is the first boundary from there on. -/
theorem exists_offsetAt?_positionAt (cs : List Char) (o : Nat) :
    ∃ b, offsetAt? cs (positionAt cs o) = some b ∧
      IsLeast {n | IsBoundary cs n ∧ min o (byteLength cs) ≤ n} b := by
  obtain ⟨begun, rest, rfl, hposition, hle, hbegin⟩ := exists_begun cs o ⟨0, 0⟩
  obtain ⟨lines, start, rfl, hlines, hstart⟩ := exists_lastLine begun
  obtain ⟨line, after, rfl, hline, hafter⟩ := exists_firstLine rest
  have hwhole : IsLine (lines ++ start ++ (line ++ after)) (lines.count '\n') lines (start ++ line)
      after := ⟨by simp only [List.append_assoc], hlines, rfl, by simp [hstart, hline], hafter⟩
  have hpos : positionAt (lines ++ start ++ (line ++ after)) o =
      ⟨lines.count '\n', width start⟩ := by
    rw [positionAt, hposition, List.foldl_append, foldl_advance_of_endsLine hlines,
      foldl_advance_of_not_mem hstart, Nat.zero_add]
  refine ⟨byteLength (lines ++ start), ?_, isLeast_byteLength_begun hle hbegin⟩
  rw [hpos, IsLine.offsetAt?_eq (p := ⟨lines.count '\n', width start⟩) hwhole, columnBytes_width,
    byteLength_append]

/-- The position of a valid offset leads back to the offset. -/
theorem offsetAt?_positionAt {cs : List Char} {o : Nat} (ho : IsBoundary cs o) :
    offsetAt? cs (positionAt cs o) = some o := by
  obtain ⟨b, hb, hleast⟩ := exists_offsetAt?_positionAt cs o
  rw [Nat.min_eq_left ho.le] at hleast
  rw [hb, Nat.le_antisymm (hleast.2 ⟨ho, Nat.le_refl o⟩) hleast.1.2]

/-- The position of the offset of a position is on the same line, in the column
where the next character begins. -/
theorem IsLine.exists_offsetAt?
    {cs before line after : List Char} {p : Position} (h : IsLine cs p.line before line after) :
    ∃ u v next, line = u ++ v ∧ offsetAt? cs p = some (byteLength (before ++ u)) ∧
      positionAt cs (byteLength (before ++ u)) = ⟨p.line, next⟩ ∧
      IsNextColumn line p.col next := by
  obtain ⟨u, v, rfl, hbytes, hstop, hbegin⟩ := exists_columnBytes p.col line
  have hu : '\n' ∉ u := fun hmem => h.unbroken (List.mem_append_left v hmem)
  refine ⟨u, v, width u, rfl, ?_, ?_, isNextColumn_width hstop hbegin⟩
  · rw [h.offsetAt?_eq, hbytes, byteLength_append]
  · have hposition := positionAt_byteLength h.begins hu (v ++ after)
    have htext : cs = before ++ u ++ (v ++ after) := by rw [h.text_eq]; simp
    rw [h.number_eq, ← htext] at hposition
    exact hposition

end Caret.Text
