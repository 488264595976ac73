import Caret.Proofs.Text.Cut
import Mathlib.Data.Prod.Lex
import Mathlib.Order.Monotone.Basic

/-!
# Positions in the order of offsets

Positions are ordered by line and column.  On valid offsets the order of
positions is the order of offsets, so that a range of positions holds exactly
the offsets between its ends, both ends included.
-/

namespace Caret

namespace Position

theorem le_iff {p q : Position} :
    p ≤ q ↔ p.line < q.line ∨ p.line = q.line ∧ p.col ≤ q.col :=
  Iff.rfl

theorem lt_iff {p q : Position} :
    p < q ↔ p.line < q.line ∨ p.line = q.line ∧ p.col < q.col :=
  Iff.rfl

theorem le_iff_toLex (p q : Position) : p ≤ q ↔ toLex (p.line, p.col) ≤ toLex (q.line, q.col) := by
  rw [le_iff, Prod.Lex.toLex_le_toLex]

theorem lt_iff_toLex (p q : Position) : p < q ↔ toLex (p.line, p.col) < toLex (q.line, q.col) := by
  rw [lt_iff, Prod.Lex.toLex_lt_toLex]

instance : Preorder Position where
  le_refl p := by simp [le_iff]
  le_trans p q r hpq hqr := by
    rw [le_iff] at hpq hqr ⊢
    omega
  lt_iff_le_not_ge p q := by
    rw [le_iff, le_iff, lt_iff]
    omega

end Position

theorem Range.contains_iff {r : Range} {p : Position} :
    r.contains p = true ↔ r.start ≤ p ∧ p ≤ r.stop := by
  simp only [contains, Bool.and_eq_true, Bool.not_eq_true', Bool.or_eq_false_iff,
    Bool.and_eq_false_iff, decide_eq_false_iff_not, beq_eq_false_iff_ne, Position.le_iff]
  omega

namespace Text

theorem lt_advance (p : Position) (c : Char) : p < advance p c := by
  rw [Position.lt_iff]
  unfold advance
  split
  · exact Or.inl (Nat.lt_succ_self _)
  · exact Or.inr ⟨rfl, Nat.lt_add_of_pos_right (units16_pos c)⟩

theorem lt_foldl_advance (p : Position) {cs : List Char} (hcs : cs ≠ []) :
    p < cs.foldl advance p := by
  induction cs generalizing p with
  | nil => exact absurd rfl hcs
  | cons c cs ih =>
      rw [List.foldl_cons]
      by_cases hnil : cs = []
      · subst hnil
        exact lt_advance p c
      · exact lt_trans (lt_advance p c) (ih _ hnil)

theorem strictMonoOn_positionAt (cs : List Char) :
    StrictMonoOn (positionAt cs) {n | IsBoundary cs n} := by
  rintro m ⟨before, after, rfl, rfl⟩ n ⟨before', after', htext, rfl⟩ hlt
  have hprefix : before <+: before' := by
    rcases List.prefix_or_prefix_of_prefix (List.prefix_append before after)
        (htext ▸ List.prefix_append before' after') with h | ⟨middle, rfl⟩
    · exact h
    · rw [byteLength_append] at hlt
      omega
  obtain ⟨middle, rfl⟩ := hprefix
  have hne : middle ≠ [] := by
    rintro rfl
    rw [List.append_nil] at hlt
    exact absurd hlt (lt_irrefl _)
  rw [positionAt, positionFrom_byteLength, htext, positionAt, positionFrom_byteLength,
    List.foldl_append]
  exact lt_foldl_advance _ hne

/-- A range between valid offsets holds just the offsets between them. -/
theorem contains_rangeBetween_iff
    {cs : List Char} {start stop o : Nat} (hstart : IsBoundary cs start)
    (hstop : IsBoundary cs stop) (ho : IsBoundary cs o) :
    (rangeBetween cs start stop).contains (positionAt cs o) = true ↔ start ≤ o ∧ o ≤ stop := by
  rw [Range.contains_iff]
  exact and_congr ((strictMonoOn_positionAt cs).le_iff_le hstart ho)
    ((strictMonoOn_positionAt cs).le_iff_le ho hstop)

/-- Positions are in the lexicographic order of line and column.  Those of valid
offsets are ordered as the offsets are, and a range between two valid offsets
holds the positions of the offsets between them, both ends included.  Any range
at all, a reversed one too, holds what comes neither before its start nor after
its stop. -/
theorem positionAt_lt_iff_contains_iff (cs : List Char) :
    (∀ p q : Position, p < q ↔ toLex (p.line, p.col) < toLex (q.line, q.col)) ∧
      (∀ a b, IsBoundary cs a → IsBoundary cs b → (positionAt cs a < positionAt cs b ↔ a < b)) ∧
      (∀ start stop o, IsBoundary cs start → IsBoundary cs stop → IsBoundary cs o →
        ((rangeBetween cs start stop).contains (positionAt cs o) = true ↔
          start ≤ o ∧ o ≤ stop)) ∧
      ∀ (r : Range) (p : Position), r.contains p = true ↔
        toLex (r.start.line, r.start.col) ≤ toLex (p.line, p.col) ∧
          toLex (p.line, p.col) ≤ toLex (r.stop.line, r.stop.col) := by
  refine ⟨Position.lt_iff_toLex, ?_, ?_, ?_⟩
  · intro a b ha hb
    exact (strictMonoOn_positionAt cs).lt_iff_lt ha hb
  · intro start stop o hstart hstop ho
    exact contains_rangeBetween_iff hstart hstop ho
  · intro r p
    rw [Range.contains_iff, Position.le_iff_toLex, Position.le_iff_toLex]

/-- The middle of two lines, from behind a character that takes two columns. -/
theorem contains_positionAt_lineBreak :
    let cs := "é😀\n😀x".toList
    IsBoundary cs 2 ∧ IsBoundary cs 6 ∧ IsBoundary cs 11 ∧
      positionAt cs 6 < positionAt cs 11 ∧
      (rangeBetween cs 2 11).contains (positionAt cs 6) = true ∧
      (rangeBetween cs 11 2).contains (positionAt cs 6) = false := by
  intro cs
  have hboundary (n : Nat) (h : (splitAt? cs n).isSome = true) : IsBoundary cs n :=
    (splitAt?_isSome_iff cs n).1 h
  have h2 := hboundary 2 (by decide)
  have h6 := hboundary 6 (by decide)
  have h11 := hboundary 11 (by decide)
  obtain ⟨-, hlt, hcontains, -⟩ := positionAt_lt_iff_contains_iff cs
  refine ⟨h2, h6, h11, (hlt 6 11 h6 h11).2 (by decide), (hcontains 2 11 6 h2 h11 h6).2 (by decide),
    ?_⟩
  by_contra h
  rw [Bool.not_eq_false] at h
  exact absurd ((hcontains 11 2 6 h11 h2 h6).1 h) (by decide)

end Text

end Caret
