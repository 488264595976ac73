import Caret.Proofs.Cursor.Snapshot

/-!
# Where the signature starts

The walk ends right behind a comment, behind the blanks that follow a byte, or
at a byte of code.  The signature starts at the first boundary between
characters from there on.
-/

namespace Caret

namespace Signature

variable {c : Cell} {left right : List Cell} {s s' : State} {start : Nat}

/-- Where the chain starts if the walk ends at the byte `c`. -/
inductive StartsAt (c : Cell) (left right : List Cell) (s : State) : Nat → Prop where
  | behindComment : c.inComment = true → StartsAt c left right s (left.length + 1)
  | behindBlanks : s.inBlanks = true →
      StartsAt c left right s (left.length + 1 + leadingBlanks right)
  | behindCode : c.inString = false → StartsAt c left right s (left.length + 1)
  | onCode : c.inString = false → StartsAt c left right s left.length
  | onDoubleSigil : c.inString = false → followsAt left = true →
      StartsAt c left right s (left.length - 1)

theorem startsAt_of_crossCode
    (hstring : c.inString = false) (h : crossCode c left s = .done start s') :
    StartsAt c left right s start := by
  rw [crossCode_eq] at h
  dsimp only at h
  split_ifs at h with _ _ _ _ hfollows
  · obtain ⟨rfl, -⟩ := Step.done.inj h
    exact .behindCode hstring
  · obtain ⟨rfl, -⟩ := Step.done.inj h
    exact .onCode hstring
  · obtain ⟨rfl, -⟩ := Step.done.inj h
    exact .onDoubleSigil hstring hfollows
  · obtain ⟨rfl, -⟩ := Step.done.inj h
    exact .onCode hstring
  · obtain ⟨rfl, -⟩ := Step.done.inj h
    exact .behindCode hstring

theorem startsAt_of_step (h : step c left right s = .done start s') :
    StartsAt c left right s start := by
  unfold step at h
  split_ifs at h with hcomment _ _ hblocked hstring
  · obtain ⟨rfl, -⟩ := Step.done.inj h
    exact .behindComment hcomment
  · obtain ⟨rfl, -⟩ := Step.done.inj h
    simp only [Bool.and_eq_true] at hblocked
    exact .behindBlanks hblocked.1.1.2
  · exact startsAt_of_crossCode (eq_false_of_ne_true hstring) h

/-- The walk goes to the right only over blanks. -/
theorem start_walk_le (s : State) (left right : List Cell) :
    (walk s left right).start ≤ left.length + leadingBlanks right := by
  induction left generalizing s right with
  | nil => exact Nat.zero_le _
  | cons c left ih =>
      rw [walk, List.length_cons]
      cases hstep : step c left right s with
      | next s' =>
          have hrest := ih s' (c :: right)
          rw [leadingBlanks_cons] at hrest
          dsimp only
          split at hrest <;> omega
      | done start s' => cases startsAt_of_step hstep <;> dsimp only <;> omega

end Signature

/-- The signature starts at the first boundary from the end of the walk on. -/
theorem Cursor.isLeast_signatureStart
    {b : Buffer} {c : Cursor} (htext : b.text = c.before ++ c.after) :
    IsLeast {n | Text.IsBoundary b.text n ∧ min (Signature.walkFrom b c.offset).start c.offset ≤ n}
      (c.signatureStart b) := by
  obtain ⟨dropped, happend, hle, hnone⟩ :=
    Text.exists_dropped c.before (Signature.walkFrom b c.offset).start
  rw [← phrase] at happend
  have hlength : c.offset = Text.byteLength dropped + Text.byteLength (c.phrase b) := by
    rw [← Text.byteLength_append, ← happend, offset]
  have hstart : c.signatureStart b = Text.byteLength dropped := by
    rw [signatureStart, hlength, Nat.add_sub_cancel]
  rw [hstart]
  constructor
  · refine ⟨⟨dropped, c.phrase b ++ c.after, ?_, rfl⟩, hle⟩
    rw [htext, ← List.append_assoc, ← happend]
  · intro n hn
    obtain ⟨hboundary, hfrom⟩ := hn
    by_contra hlt
    rw [htext] at hboundary
    have hbefore := hboundary.of_append (by rw [← offset]; omega)
    exact hnone n (by omega) (by omega) hbefore

end Caret
