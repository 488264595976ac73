import Caret.Command.Run
import Caret.Proofs.Cursor.Snapshot
import Caret.Proofs.Text.Lines

/-!
# Where a line and a column put the cursor

Looking up the offset of a position undoes looking up the position of an offset,
and the other way round, up to the next place at which a character begins.  So a
line that is there and any column in it lead to a valid offset, which every
command accepts.
-/

namespace Caret

namespace Source

variable {s : Source} {n : Nat}

theorem exists_snapshot (hn : Text.IsBoundary s.text n) :
    ∃ fragment, s.toBuffer.snapshot n = .ok fragment := by
  obtain ⟨c, hc⟩ := Buffer.exists_cursor_iff.2 (show Text.IsBoundary s.toBuffer.text n from hn)
  refine ⟨c.fragment s.toBuffer, ?_⟩
  rw [Buffer.snapshot, Buffer.fragment, hc]
  rfl

theorem exists_visibleLocals
    (hn : Text.IsBoundary s.text n) (samples : Samples) (infer : LocalPin → TypeExpr) :
    ∃ reports, s.visibleLocals n samples infer = .ok reports := by
  obtain ⟨c, hc⟩ := Buffer.exists_cursor_iff.2 (show Text.IsBoundary s.toBuffer.text n from hn)
  rw [visibleLocals, hc]
  exact ⟨_, rfl⟩

end Source

namespace Command

variable {s : Source} {n : Nat}

theorem exists_listLocals
    (hn : Text.IsBoundary s.text n) (grammar : Grammar) (samples : Samples) (all : Bool) :
    ∃ reports, listLocals grammar s n samples all = .ok reports := by
  cases all with
  | true => exact ⟨_, rfl⟩
  | false =>
      obtain ⟨reports, hreports⟩ := Source.exists_visibleLocals hn samples (·.assignedType grammar)
      refine ⟨reports, ?_⟩
      simp only [listLocals, hreports]
      rfl

theorem eq_notVisible_of_findLocal_eq_error
    (hn : Text.IsBoundary s.text n) {grammar : Grammar} {samples : Samples} {name : String}
    {failure : Failure} (h : findLocal grammar s n samples name = .error failure) :
    failure = .notVisible name n := by
  obtain ⟨reports, hreports⟩ := Source.exists_visibleLocals hn samples (·.assignedType grammar)
  simp only [findLocal, Source.localNamed?, hreports, Except.map] at h
  split at h
  · simp at h
  · exact (Except.error.inj h).symm
  · rename_i herror
    simp at herror

end Command

/-- The offset of the position of an offset is the first boundary from there on,
the same offset if that is valid.  A position has no offset if its line is past
the last one.  Otherwise its offset is one between characters of the line, and
has the position where the next character of the line begins, or the line ends.
So each command goes on with a cursor that is given as an existing line and any
column. -/
theorem Text.offsetAt?_positionAt_inverse (cs : List Char) :
    (∀ o, ∃ b, offsetAt? cs (positionAt cs o) = some b ∧
        IsLeast {n | IsBoundary cs n ∧ min o (byteLength cs) ≤ n} b) ∧
      (∀ o, IsBoundary cs o → offsetAt? cs (positionAt cs o) = some o) ∧
      (∀ p, offsetAt? cs p = none ↔ cs.count '\n' < p.line) ∧
      (∀ p, p.line ≤ cs.count '\n' → ∃ before line after u v next,
        IsLine cs p.line before line after ∧ line = u ++ v ∧
          offsetAt? cs p = some (byteLength (before ++ u)) ∧
          positionAt cs (byteLength (before ++ u)) = ⟨p.line, next⟩ ∧
          IsNextColumn line p.col next) ∧
      ∀ p, p.line ≤ cs.count '\n' → ∀ s : Source, s.text = cs →
        ∃ n, Command.Place.offsetIn cs (.lineColumn p) = .ok n ∧
          (∃ fragment, s.toBuffer.snapshot n = .ok fragment) ∧
          (∀ grammar samples all,
            ∃ reports, Command.listLocals grammar s n samples all = .ok reports) ∧
          ∀ grammar samples name failure,
            Command.findLocal grammar s n samples name = .error failure →
              failure = .notVisible name n := by
  refine ⟨exists_offsetAt?_positionAt cs, ?_, ?_, ?_, ?_⟩
  · intro o ho
    obtain ⟨b, hb, hleast⟩ := exists_offsetAt?_positionAt cs o
    have hmin : min o (byteLength cs) = o := Nat.min_eq_left ho.le
    rw [hmin] at hleast
    have heq : b = o := Nat.le_antisymm (hleast.2 ⟨ho, Nat.le_refl o⟩) hleast.1.2
    rw [hb, heq]
  · intro p
    rw [offsetAt?, Option.map_eq_none_iff]
    exact dropLines_eq_none_iff
  · intro p hp
    obtain ⟨before, line, after, hline⟩ := exists_isLine hp
    obtain ⟨u, v, next, happend, hoffset, hposition, hnext⟩ := hline.exists_offsetAt?
    exact ⟨before, line, after, u, v, next, hline, happend, hoffset, hposition, hnext⟩
  · rintro p hp s rfl
    obtain ⟨before, line, after, hline⟩ := exists_isLine hp
    obtain ⟨u, v, next, rfl, hoffset, -, -⟩ := hline.exists_offsetAt?
    have hvalid : IsBoundary s.text (byteLength (before ++ u)) :=
      ⟨before ++ u, v ++ after, by rw [hline.text_eq]; simp, rfl⟩
    refine ⟨byteLength (before ++ u), ?_, Source.exists_snapshot hvalid, ?_, ?_⟩
    · rw [Command.Place.offsetIn, hoffset]
    · intro grammar samples all
      exact Command.exists_listLocals hvalid grammar samples all
    · intro grammar samples name failure hfailure
      exact Command.eq_notVisible_of_findLocal_eq_error hvalid hfailure

/-- A column in the middle of a surrogate pair on the second line, and an offset
inside the character before it. -/
theorem Text.offsetAt?_insidePair :
    let cs := "a\né😀b".toList
    1 ≤ cs.count '\n' ∧
      (∃ n, Command.Place.offsetIn cs (.lineColumn ⟨1, 2⟩) = .ok n ∧
        ∃ fragment, (Source.mk cs ⟨"program", 0, 9, true, none, []⟩).toBuffer.snapshot n =
          .ok fragment) ∧
      (∃ before line after b next, IsLine cs 1 before line after ∧ offsetAt? cs ⟨1, 2⟩ = some b ∧
        positionAt cs b = ⟨1, next⟩ ∧ IsNextColumn line 2 next) ∧
      ∃ b, offsetAt? cs (positionAt cs 3) = some b ∧ 3 ≤ b ∧ IsBoundary cs b := by
  intro cs
  have hline : 1 ≤ cs.count '\n' := by decide
  obtain ⟨hoffsets, -, -, hpositions, haccepted⟩ := offsetAt?_positionAt_inverse cs
  refine ⟨hline, ?_, ?_, ?_⟩
  · obtain ⟨n, hn, hsnapshot, -⟩ :=
      haccepted ⟨1, 2⟩ hline ⟨cs, ⟨"program", 0, 9, true, none, []⟩⟩ rfl
    exact ⟨n, hn, hsnapshot⟩
  · obtain ⟨before, line, after, u, v, next, hline', -, hoffset, hposition, hnext⟩ :=
      hpositions ⟨1, 2⟩ hline
    exact ⟨before, line, after, byteLength (before ++ u), next, hline', hoffset, hposition, hnext⟩
  · obtain ⟨b, hb, hleast⟩ := hoffsets 3
    exact ⟨b, hb, hleast.1.2, hleast.1.1⟩

end Caret
