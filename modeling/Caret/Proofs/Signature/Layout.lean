import Caret.Proofs.Signature.Arguments

/-!
# Blanks around a dot

A chain of calls can be laid out over several lines with the dots at the beginning of
the lines or at the end.  Wherever the walk stands, in brackets or outside of them, the
blanks next to a dot leave no trace in what it finds.
-/

namespace Caret.Signature

/-! ## The dot with its blanks -/

theorem Nesting.inside_of_not_balanced
    {n : Nesting} (hunclosed : n.unclosed = false) (hbalanced : n.balanced = false) : n.Inside := by
  simp only [unclosed, balanced, Bool.or_eq_false_iff, Bool.and_eq_false_iff,
    decide_eq_false_iff_not, beq_eq_false_iff_ne] at hunclosed hbalanced
  constructor <;> omega

theorem Nesting.eq_of_balanced {n : Nesting} (h : n.balanced = true) : n = {} := by
  obtain ⟨round, square, curly⟩ := n
  simp only [balanced, Bool.and_eq_true, beq_iff_eq] at h
  obtain ⟨⟨rfl, rfl⟩, rfl⟩ := h
  rfl

/-- Inside of brackets a text without brackets leaves no trace. -/
theorem exists_crosses_inside
    {s : State} (hs : s.nesting.Inside) {w : List Char} (hw : ∀ c ∈ w, c ∉ Bracket.all)
    (left right : List Cell) :
    ∃ s', Crosses s left w right s' ∧ s'.nesting = s.nesting ∧ s'.members = s.members ∧
      (w ≠ [] → s'.inBlanks = false) := by
  induction w generalizing left with
  | nil => exact ⟨s, .nil s left right, rfl, rfl, fun h => absurd rfl h⟩
  | cons c w ih =>
      have hc := hw c List.mem_cons_self
      obtain ⟨s₁, hcross, hnesting, hmembers, -⟩ :=
        ih (fun d hd => hw d (List.mem_cons_of_mem c hd)) ([c].reverse.map code ++ left)
      have hs₁ : s₁.nesting.Inside := hnesting ▸ hs
      have hsame : s₁.nesting.cross c = s₁.nesting := Nesting.cross_of_not_bracket hc _
      have hstep : Collects s₁ left [c] (w.map code ++ right) (s₁.pass c left) := by
        apply Collects.singleton left (Or.inl hs₁.balanced_eq_false) hs₁.unclosed_eq_false
        · rw [hsame, hs₁.unclosed_eq_false]
        · rw [hsame, hs₁.balanced_eq_false]
          exact fun h => absurd h (by decide)
      have hopen : '[' ∉ [c].reverse := by
        rw [List.reverse_singleton, List.mem_singleton]
        rintro rfl
        exact hc (by decide)
      refine ⟨_, hcross.append hstep.crosses, ?_, ?_, fun _ => hstep.inBlanks⟩
      · rw [State.pass_nesting, hsame, hnesting]
      · rw [hstep.members, indexCount_eq_zero_of_not_mem hopen, hmembers]
        rfl

/-- The walk crosses a dot with the blanks around it.  Outside of brackets the dot joins
the chain, and what stands in front of the dot is not held up by blanks. -/
theorem exists_crosses_dot
    {s : State} (hs : s.nesting.unclosed = false) (before after : Blanks) {left : List Cell}
    (hleft : followsPercent left = false) (right : List Cell) :
    ∃ s', Crosses s left (before.chars ++ (['.'] ++ after.chars)) right s' ∧
      s'.nesting = s.nesting ∧
      s'.members = (if s.nesting.balanced then ['.'] else []) ++ s.members ∧
      s'.Unblocked ((before.chars ++ (['.'] ++ after.chars)).map code ++ right) := by
  cases hbalanced : s.nesting.balanced with
  | true =>
      have hnesting := Nesting.eq_of_balanced hbalanced
      obtain ⟨s', h⟩ := joins_dot hnesting before after hleft right
      exact ⟨s', h.crosses, h.outside.trans hnesting.symm, h.members, h.unblocked⟩
  | false =>
      have hplain : ∀ c ∈ before.chars ++ (['.'] ++ after.chars), c ∉ Bracket.all := by
        intro c hc hbracket
        rw [List.mem_append, List.mem_append, List.mem_singleton] at hc
        have hblank : Text.isBlank c = true ∨ c = '.' := by
          rcases hc with hc | hc | hc
          · exact Or.inl (before.all_blank c hc)
          · exact Or.inr hc
          · exact Or.inl (after.all_blank c hc)
        exact absurd hblank
          (forall_mem_of_all (p := fun c => ¬(Text.isBlank c = true ∨ c = '.')) (by decide) c
            hbracket)
      obtain ⟨s', hcross, hnesting, hmembers, hblanks⟩ :=
        exists_crosses_inside (Nesting.inside_of_not_balanced hs hbalanced) hplain left right
      refine ⟨s', hcross, hnesting, hmembers, fun h => ?_⟩
      rw [hblanks (by simp)] at h
      exact Bool.noConfusion h

theorem continuesChain_dot (before : Blanks) (after : List Char) (right : List Cell) :
    continuesChain ((before.chars ++ (['.'] ++ after)).map code ++ right) = true := by
  rw [List.map_append, List.append_assoc, continuesChain_blanks before.all_blank]
  rfl

/-! ## Two walks in front of the dot -/

/-- If nothing blocks either of two walks it makes no difference whether they are in
blanks. -/
theorem step_alike_of_unblocked
    {s t : State} (h : s.nesting = t.nesting) {right right' : List Cell}
    (hs : s.Unblocked right) (ht : t.Unblocked right') (c : Char) (left : List Cell) :
    Step.Alike s t (step (code c) left right s) (step (code c) left right' t) := by
  by_cases hblank : s.nesting.balanced = true ∧ Text.isBlank c = true
  · have hstep {u : State} (hu : u.nesting = s.nesting) (near : List Cell) :
        step (code c) left near u = .next { u with inBlanks := true } := by
      simp [step, code, hu, hblank]
    rw [hstep rfl, hstep h.symm]
    exact .next ⟨h, rfl⟩ ⟨[], rfl, rfl⟩
  · have hcode {u : State} (hu : u.nesting = s.nesting) {near : List Cell}
        (hgo : u.Unblocked near) : step (code c) left near u = crossCode (code c) left u := by
      apply step_eq_crossCode
      rw [hu]
      by_cases hbalanced : s.nesting.balanced = true
      · exact Or.inr ⟨eq_false_of_ne_true fun hc => hblank ⟨hbalanced, hc⟩, Or.inr hgo⟩
      · exact Or.inl (eq_false_of_ne_true hbalanced)
    rw [hcode rfl hs, hcode h.symm ht]
    exact crossCode_alike h (.refl left) (code c)

theorem walk_alike_of_unblocked
    {s t : State} (h : s.nesting = t.nesting) {right right' : List Cell}
    (hs : s.Unblocked right) (ht : t.Unblocked right') (hright : RightAlike right right')
    (near : List Char) :
    ∃ text, (walk s (near.map code) right).members = text ++ s.members ∧
      (walk t (near.map code) right').members = text ++ t.members := by
  cases near with
  | nil => exact ⟨[], rfl, rfl⟩
  | cons c near =>
      have hstep := step_alike_of_unblocked h hs ht c (near.map code)
      rw [List.map_cons, walk, walk]
      generalize step (code c) (near.map code) right s = x at hstep ⊢
      generalize step (code c) (near.map code) right' t = y at hstep ⊢
      cases hstep with
      | done m n hgrow => exact hgrow
      | @next s₁ t₁ hside hgrow =>
          obtain ⟨added, hs₁, ht₁⟩ := hgrow
          obtain ⟨text, hws, hwt⟩ := walk_alike hside (hright.cons (code c)) (near.map code)
          refine ⟨text ++ added, ?_, ?_⟩
          · rw [List.append_assoc, ← hs₁, ← hws]
          · rw [List.append_assoc, ← ht₁, ← hwt]

/-! ## Texts with a dot -/

theorem followsPercent_bytes {u : List Char} (hu : u.getLast? ≠ some '%') :
    followsPercent ((bytes u).reverse.map code) = false := by
  rcases List.eq_nil_or_concat u with rfl | ⟨w, c, rfl⟩
  · rfl
  · rw [List.concat_eq_append] at hu ⊢
    have hpercent : '%' ∉ (bytes [c]).reverse := by
      intro hmem
      have hc := mem_of_mem_bytes (by decide) (List.mem_reverse.1 hmem)
      exact hu (by rw [List.mem_singleton.1 hc, List.getLast?_concat])
    have hne : (bytes [c]).reverse ≠ [] := by
      rw [Ne, List.reverse_eq_nil_iff]
      exact bytes_singleton_ne_nil c
    obtain ⟨x, rest, hlast⟩ := List.exists_cons_of_ne_nil hne
    rw [bytes_append, List.reverse_append, hlast, List.cons_append, List.map_cons]
    rw [hlast] at hpercent
    exact beq_eq_false_iff_ne.2 fun h => hpercent (h ▸ List.mem_cons_self)

theorem cutsView_of_isBlank {c : Char} (hc : Text.isBlank c = true) : cutsView c = true := by
  simp only [Text.isBlank, Bool.or_eq_true, beq_iff_eq] at hc
  rcases hc with ((rfl | rfl) | rfl) | rfl <;> decide

/-- Behind blanks and a dot nothing in front of them can be seen. -/
theorem leftAlike_dot (after : Blanks) (left left' : List Cell) :
    LeftAlike (after.chars.reverse.map code ++ (code '.' :: left)) (code '.' :: left') := by
  cases hchars : after.chars.reverse with
  | nil => exact leftAlike_of_cutsView (by decide) (by decide) left left'
  | cons c rest =>
      have hblank : Text.isBlank c = true := by
        apply after.all_blank
        rw [← List.mem_reverse, hchars]
        exact List.mem_cons_self
      exact leftAlike_of_cutsView (cutsView_of_isBlank hblank) (by decide) _ left'

theorem Blanks.isBlank_of_mem_nil : ∀ c ∈ [], Text.isBlank c = true :=
  fun _ hc => absurd hc List.not_mem_nil

def Blanks.none : Blanks := ⟨[], isBlank_of_mem_nil⟩

/-- Two walks that come abreast to a dot, with blanks around it in the one text only, find
the same in front of it. -/
theorem members_walk_dot_of_abreast
    {s t : State} (hside : s.Abreast t) (hmembers : s.members = t.members)
    (hs : s.nesting.unclosed = false) (before after : Blanks) {u : List Char}
    (hu : followsPercent (u.map code) = false) (right : List Cell) :
    (walk s ((before.chars ++ (['.'] ++ after.chars)).reverse.map code ++ u.map code)
        right).members =
      (walk t (code '.' :: u.map code) right).members := by
  obtain ⟨s₁, hcross, hnesting, hmembers₁, hgo⟩ := exists_crosses_dot hs before after hu right
  obtain ⟨t₁, hcross', hnesting', hmembers', hgo'⟩ :=
    exists_crosses_dot (hside.nesting ▸ hs) .none .none hu right
  have hright : RightAlike ((before.chars ++ (['.'] ++ after.chars)).map code ++ right)
      ((Blanks.none.chars ++ (['.'] ++ Blanks.none.chars)).map code ++ right) := by
    apply rightAlike_of_continuesChain
    rw [continuesChain_dot, continuesChain_dot]
  have hsame : s₁.nesting = t₁.nesting := by rw [hnesting, hnesting', hside.nesting]
  obtain ⟨text, hfront, hfront'⟩ := walk_alike_of_unblocked hsame hgo hgo' hright u
  have hdot : code '.' :: u.map code =
      (Blanks.none.chars ++ (['.'] ++ Blanks.none.chars)).reverse.map code ++ u.map code := rfl
  rw [hcross, hdot, hcross', hfront, hfront', hmembers₁, hmembers', hside.nesting, hmembers]

/-- The blanks around a dot make no difference to what the walk finds. -/
theorem members_walk_dot
    {u : List Char} (hu : followsPercent (u.map code) = false) (before after : Blanks)
    (near right : List Cell) :
    (walk {} (near ++ ((before.chars ++ (['.'] ++ after.chars)).reverse.map code ++ u.map code))
        right).members =
      (walk {} (near ++ code '.' :: u.map code) right).members := by
  have hleft : (before.chars ++ (['.'] ++ after.chars)).reverse.map code ++ u.map code =
      after.chars.reverse.map code ++
        (code '.' :: (before.chars.reverse.map code ++ u.map code)) := by
    simp
  rcases reach_alike (s := {}) (t := {}) ⟨rfl, rfl⟩
      (hleft ▸ leftAlike_dot after (before.chars.reverse.map code ++ u.map code) (u.map code))
      (fun _ => rfl : RightAlike right right) near with
    ⟨-, -, text, hs, ht⟩ | ⟨s, t, hs, ht, hside, text, hms, hmt⟩
  · rw [hs, ht]
  · rw [walk_of_reach hs, walk_of_reach ht]
    exact members_walk_dot_of_abreast hside (hms.trans hmt.symm) (unclosed_of_reach rfl hs) before
      after hu (near.reverse ++ right)

end Caret.Signature

namespace Caret

/-- In buffers of plain code the signature behind a dot is the same whatever blanks stand
around the dot, unless a percent sign stands in front of them. -/
theorem Cursor.signature_eq_of_blanksAroundDot
    {b₁ b₂ : Buffer} (hb₁ : b₁.IsBare) (hb₂ : b₂.IsBare) {u v rest : List Char}
    (hu : u.getLast? ≠ some '%') (before after : Signature.Blanks)
    (htext₁ : b₁.text = u ++ before.chars ++ ['.'] ++ after.chars ++ v ++ rest)
    (htext₂ : b₂.text = u ++ ['.'] ++ v ++ rest) :
    ∃ c₁ c₂,
      b₁.cursor (Text.byteLength (u ++ before.chars ++ ['.'] ++ after.chars ++ v)) = .ok c₁ ∧
      b₂.cursor (Text.byteLength (u ++ ['.'] ++ v)) = .ok c₂ ∧
      c₁.signature b₁ = c₂.signature b₂ := by
  refine ⟨_, _, Buffer.cursor_of_text_eq htext₁, Buffer.cursor_of_text_eq htext₂, ?_⟩
  rw [signature, signature, Signature.withReceiver_eq hb₁, Signature.withReceiver_eq hb₂, offset,
    offset, Signature.walkFrom_eq hb₁ htext₁, Signature.walkFrom_eq hb₂ htext₂]
  have hwalk := Signature.members_walk_dot (Signature.followsPercent_bytes hu) before after
    ((Signature.bytes v).reverse.map Signature.code) ((Signature.bytes rest).map Signature.code)
  have hdot (cs : List Char) : Signature.bytes ('.' :: cs) = '.' :: Signature.bytes cs :=
    Signature.bytes_cons_of_ascii (by decide) cs
  simpa [hdot] using hwalk

/-- A call with a block below a call with an index, and both on one line. -/
theorem Cursor.signature_callBelowIndex :
    let u := "x = é.list[0]".toList
    let v := "map\x7b |y| y .z \x7d.fir".toList
    let before : Signature.Blanks := ⟨" \n\t".toList, Signature.forall_mem_of_all (by decide)⟩
    let after : Signature.Blanks := ⟨"\r\n ".toList, Signature.forall_mem_of_all (by decide)⟩
    let b₁ := Sketch.toBuffer
      { text := u ++ before.chars ++ ['.'] ++ after.chars ++ v ++ "st # z".toList }
    let b₂ := Sketch.toBuffer { text := u ++ ['.'] ++ v ++ "st # z".toList }
    b₁.IsBare ∧ b₂.IsBare ∧ u.getLast? ≠ some '%' ∧
      ∃ c₁ c₂, b₁.cursor 40 = .ok c₁ ∧ b₂.cursor 34 = .ok c₂ ∧
        c₁.signature b₁ = c₂.signature b₂ ∧ c₂.signature b₂ = ".list.[].map.fir".toList := by
  intro u v before after b₁ b₂
  have hb₁ : b₁.IsBare := Sketch.isBare_toBuffer _
  have hb₂ : b₂.IsBare := Sketch.isBare_toBuffer _
  have hu : u.getLast? ≠ some '%' := by decide
  have hlength₁ :
      Text.byteLength (u ++ before.chars ++ ['.'] ++ after.chars ++ v) = 40 := by
    decide
  have hlength₂ : Text.byteLength (u ++ ['.'] ++ v) = 34 := by decide
  obtain ⟨c₁, c₂, hc₁, hc₂, hsignature⟩ :=
    Cursor.signature_eq_of_blanksAroundDot hb₁ hb₂ hu before after rfl rfl
  rw [hlength₁] at hc₁
  rw [hlength₂] at hc₂
  refine ⟨hb₁, hb₂, hu, c₁, c₂, hc₁, hc₂, hsignature, ?_⟩
  have htext₂ : b₂.text = u ++ ['.'] ++ v ++ "st # z".toList := rfl
  have hcursor := Buffer.cursor_of_text_eq htext₂
  rw [hlength₂, hc₂] at hcursor
  rw [Except.ok.inj hcursor, signature, Signature.withReceiver_eq hb₂, offset,
    Signature.walkFrom_eq hb₂ htext₂]
  decide

end Caret
