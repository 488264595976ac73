import Caret.Proofs.Signature.Phrase

/-!
# Blanks in front of a signature

Where the walk ends on blanks, the signature starts behind them.  At the beginning of the
text, behind a terminator and behind an opener without its closer nothing is skipped, and
blanks that stand there become part of the phrase.  This module says, in terms of the text
alone, what a walk gets past and where it leaves blanks in front of a phrase.
-/

namespace Caret

namespace Text

def BeginsBlank (cs : List Char) : Prop :=
  ∃ c ∈ cs.head?, isBlank c = true

@[simp] theorem beginsBlank_nil : ¬BeginsBlank [] := by
  simp [BeginsBlank]

@[simp] theorem beginsBlank_cons {c : Char} {cs : List Char} :
    BeginsBlank (c :: cs) ↔ isBlank c = true := by
  simp [BeginsBlank]

theorem beginsBlank_bytes_iff (cs : List Char) :
    BeginsBlank (Signature.bytes cs) ↔ BeginsBlank cs := by
  apply exists_congr
  intro c
  apply and_congr_left
  intro hc
  rw [bytes_eq_flatMap]
  exact spellsOut_bytes.head?_flatMap_eq_iff (Signature.toNat_lt_of_isBlank hc) cs

end Text

namespace Signature

variable {s s' : State} {left right : List Cell} {c : Char} {v near after : List Char}

/-! ## Passing one byte -/

/-- As many brackets of one kind are opened in a text as are closed. -/
def Level (w : List Char) (k : Bracket) : Prop :=
  w.count k.opener = w.count k.closer

/-- A walk that has crossed the bytes `v`, with the bytes `after` behind them, gets past the
byte `c`: no opener lacks its closer; outside of all brackets the byte is no terminator and no
sigil; and blanks crossed there have a dot on one side. -/
structure Passable (c : Char) (v after : List Char) : Prop where
  closed : ∀ k : Bracket, (c :: v).count k.opener ≤ (c :: v).count k.closer
  plain : (∀ k, Level (c :: v) k) → isTerminator c = false ∧ isSigil c = false
  unblocked : (∀ k, Level v k) → Text.BeginsBlank v →
    Text.isBlank c = true ∨ c = '.' ∨ continuesChain ((v ++ after).map code) = true

/-- What the walk knows of the bytes `v` that it has crossed. -/
structure Knows (s : State) (v : List Char) : Prop where
  unclosed : s.nesting.unclosed = false
  counters : ∀ k, s.nesting.counter k = v.count k.opener - v.count k.closer
  inBlanks : s.inBlanks = true ↔ (∀ k, Level v k) ∧ Text.BeginsBlank v

theorem Knows.initial : Knows {} [] where
  unclosed := rfl
  counters k := by cases k <;> rfl
  inBlanks := by simp

theorem Knows.counter_eq_zero_iff (h : Knows s v) (k : Bracket) :
    s.nesting.counter k = 0 ↔ Level v k := by
  rw [h.counters, Level]
  omega

theorem Knows.balanced_iff (h : Knows s v) :
    s.nesting.balanced = true ↔ ∀ k, Level v k := by
  rw [Nesting.balanced_iff]
  exact forall_congr' h.counter_eq_zero_iff

theorem Knows.counter_cross (h : Knows s v) (c : Char) (k : Bracket) :
    (s.nesting.cross c).counter k = (c :: v).count k.opener - (c :: v).count k.closer := by
  have hcount (x : Char) : (c :: v).count x = [c].count x + v.count x := by
    rw [← List.count_append, List.singleton_append]
  rw [s.nesting.counter_cross, h.counters, hcount, hcount]
  omega

theorem Knows.balanced_cross_iff (h : Knows s v) (c : Char) :
    (s.nesting.cross c).balanced = true ↔ ∀ k, Level (c :: v) k := by
  rw [Nesting.balanced_iff]
  apply forall_congr'
  intro k
  rw [h.counter_cross, Level]
  omega

theorem Knows.unclosed_cross_iff (h : Knows s v) (c : Char) :
    (s.nesting.cross c).unclosed = false ↔
      ∀ k : Bracket, (c :: v).count k.opener ≤ (c :: v).count k.closer := by
  rw [Nesting.unclosed_eq_false_iff]
  apply forall_congr'
  intro k
  rw [h.counter_cross]
  omega

/-- The rules for code let the walk go on just at a byte that leaves no opener without its
closer, and outside of all brackets is no terminator and no sigil. -/
theorem crossCode_eq_next_iff :
    (∃ s', crossCode (code c) left s = .next s') ↔
      (s.nesting.cross c).unclosed = false ∧
        ((s.nesting.cross c).balanced = true → isTerminator c = false ∧ isSigil c = false) := by
  constructor
  · rintro ⟨s', h⟩
    rw [crossCode_eq] at h
    dsimp only at h
    split_ifs at h with hbalanced hterminator hdollar hat _ hunclosed
    · refine ⟨unclosed_of_balanced hbalanced, fun _ => ⟨eq_false_of_ne_true hterminator, ?_⟩⟩
      simpa [isSigil, code] using And.intro hdollar hat
    · exact ⟨eq_false_of_ne_true hunclosed, fun h => absurd h hbalanced⟩
  · rintro ⟨hunclosed, hplain⟩
    rw [crossCode_eq]
    cases hbalanced : (s.nesting.cross c).balanced with
    | true =>
        obtain ⟨hterminator, hsigil⟩ := hplain hbalanced
        simp only [isSigil, Bool.or_eq_false_iff, beq_eq_false_iff_ne] at hsigil
        simp [code, hbalanced, hterminator, hsigil]
    | false => simp [code, hbalanced, hunclosed]

theorem passable_of_isBlank (h : Knows s v) (hc : Text.isBlank c = true) : Passable c v after where
  closed := by
    rw [← h.unclosed_cross_iff, Nesting.cross_of_not_bracket (not_mem_all_of_isBlank hc)]
    exact h.unclosed
  plain _ := by
    simp only [Text.isBlank, Bool.or_eq_true, beq_iff_eq] at hc
    rcases hc with ((rfl | rfl) | rfl) | rfl <;> decide
  unblocked _ _ := Or.inl hc

/-- The walk passes what is passable and nothing else. -/
theorem Knows.step_eq_next_iff (h : Knows s v) (c : Char) (after : List Char) (left : List Cell) :
    (∃ s', step (code c) left ((v ++ after).map code) s = .next s') ↔ Passable c v after := by
  by_cases hblank : Text.isBlank c = true
  · exact iff_of_true ⟨_, step_of_isBlank hblank h.unclosed left _⟩ (passable_of_isBlank h hblank)
  rw [Bool.not_eq_true] at hblank
  by_cases hgo : s.nesting.balanced = true → c = '.' ∨ s.Unblocked ((v ++ after).map code)
  · have hcode : step (code c) left ((v ++ after).map code) s = crossCode (code c) left s := by
      apply step_eq_crossCode
      cases hbalanced : s.nesting.balanced with
      | true => exact Or.inr ⟨hblank, hgo hbalanced⟩
      | false => exact Or.inl rfl
    rw [hcode, crossCode_eq_next_iff, h.unclosed_cross_iff, h.balanced_cross_iff]
    refine ⟨fun ⟨hclosed, hplain⟩ => ⟨hclosed, hplain, fun hlevel hhead => Or.inr ?_⟩,
      fun hpass => ⟨hpass.closed, hpass.plain⟩⟩
    exact (hgo (h.balanced_iff.2 hlevel)).imp_right fun hgo => hgo (h.inBlanks.2 ⟨hlevel, hhead⟩)
  · simp only [State.Unblocked, not_forall, not_or, Bool.not_eq_true] at hgo
    obtain ⟨hbalanced, hdot, hin, hchain⟩ := hgo
    refine iff_of_false ?_ fun hpass => ?_
    · generalize (v ++ after).map code = right at hchain
      simp [step, code, hbalanced, hblank, hin, hdot, hchain]
    · have hhead := h.inBlanks.1 hin
      rcases hpass.unblocked hhead.1 hhead.2 with hc | hc | hc
      · exact Bool.noConfusion (hblank.symm.trans hc)
      · exact hdot hc
      · exact Bool.noConfusion (hchain.symm.trans hc)

theorem Knows.next
    (h : Knows s v) (hstep : step (code c) left right s = .next s') : Knows s' (c :: v) := by
  have hgo := goesOn_of_step h.unclosed hstep
  have hnesting : s'.nesting = s.nesting.cross c := hgo.nesting
  refine ⟨hgo.unclosed, fun k => by rw [hnesting, h.counter_cross], ?_⟩
  rw [← h.balanced_cross_iff, ← hnesting]
  by_cases hblank : Text.isBlank c = true
  · rw [step_of_isBlank hblank h.unclosed] at hstep
    obtain rfl := Step.next.inj hstep
    simp [hblank]
  · refine iff_of_false (fun hin => hblank (isBlank_of_step hstep hin)) ?_
    rintro ⟨-, hbegins⟩
    exact hblank (Text.beginsBlank_cons.1 hbegins)

/-! ## Crossing a text -/

theorem knows_of_reach
    (h : Knows s v) (hreach : reach s left (near.map code) right = some s') :
    Knows s' (near.reverse ++ v) := by
  induction near generalizing s v right with
  | nil =>
      obtain rfl := Option.some.inj hreach
      exact h
  | cons c near ih =>
      rw [List.map_cons, reach] at hreach
      cases hstep : step (code c) (near.map code ++ left) right s with
      | done start s₁ => simp [hstep] at hreach
      | next s₁ =>
          rw [hstep] at hreach
          rw [List.reverse_cons, List.append_assoc]
          exact ih (h.next hstep) hreach

/-- The walk crosses bytes of which each is passable behind the others, and no others. -/
theorem Knows.reach_isSome_iff
    (h : Knows s v) (near after : List Char) (left : List Cell) :
    (reach s left (near.map code) ((v ++ after).map code)).isSome = true ↔
      ∀ w c u, near = w ++ c :: u → Passable c (w.reverse ++ v) after := by
  induction near generalizing s v with
  | nil => simp [reach]
  | cons c near ih =>
      have hpass := h.step_eq_next_iff c after (near.map code ++ left)
      rw [List.map_cons, reach]
      cases hstep : step (code c) (near.map code ++ left) ((v ++ after).map code) s with
      | done start s₁ =>
          rw [hstep] at hpass
          refine iff_of_false (by simp) fun hall => ?_
          exact absurd (hpass.2 (hall [] c near rfl)) (by simp)
      | next s₁ =>
          have hrest := ih (h.next hstep)
          rw [List.cons_append, List.map_cons] at hrest
          rw [hrest]
          constructor
          · rintro hall w d u hsplit
            rcases List.cons_eq_append_iff.1 hsplit with ⟨rfl, htail⟩ | ⟨w', rfl, htail⟩
            · obtain ⟨rfl, rfl⟩ := List.cons.inj htail
              exact hpass.1 ⟨s₁, hstep⟩
            · simpa using hall w' d u htail
          · rintro hall w d u rfl
            simpa using hall (c :: w) d u rfl

/-- Each byte of a text is passable for a walk from the end of the text, with the text `after`
behind it. -/
def Crossed (w after : List Char) : Prop :=
  ∀ u c v, bytes w = u ++ c :: v → Passable c v (bytes after)

theorem exists_reach_iff_crossed (w after : List Char) (left : List Cell) :
    (∃ s, reach {} left ((bytes w).reverse.map code) ((bytes after).map code) = some s) ↔
      Crossed w after := by
  have hreach := Knows.initial.reach_isSome_iff (bytes w).reverse (bytes after) left
  rw [List.nil_append, Option.isSome_iff_exists] at hreach
  rw [hreach]
  constructor
  · intro hall u c v hsplit
    simpa using hall v.reverse c u.reverse (by simp [hsplit])
  · intro hall w' c u hsplit
    rw [List.append_nil]
    apply hall u.reverse c w'.reverse
    rw [← List.reverse_reverse (bytes w), hsplit]
    simp

theorem knows_of_reach_bytes
    {w : List Char} (h : reach {} left ((bytes w).reverse.map code) right = some s) :
    Knows s w := by
  have hknows := knows_of_reach .initial h
  rw [List.reverse_reverse, List.append_nil] at hknows
  have hlevel (k : Bracket) : Level (bytes w) k ↔ Level w k := by
    rw [Level, Level, Text.count_bytes k.toNat_opener_lt, Text.count_bytes k.toNat_closer_lt]
  refine ⟨hknows.unclosed, fun k => ?_, ?_⟩
  · rw [hknows.counters, Text.count_bytes k.toNat_opener_lt, Text.count_bytes k.toNat_closer_lt]
  · rw [hknows.inBlanks, forall_congr' hlevel, Text.beginsBlank_bytes_iff]

theorem EndsBehind.start_walk {far : List Char} (h : EndsBehind near right far) :
    (walk {} ((near ++ far).map code) right).start = far.length := by
  cases h with
  | beginning hreach =>
      rw [List.append_nil, ← List.append_nil (near.map code), walk_of_reach hreach]
      rfl
  | @mark s c far hreach hmark hgo =>
      obtain ⟨s', hstep⟩ := hmark.exists_step hgo (far.map code)
      rw [List.map_append, walk_of_reach hreach, ← List.map_reverse, List.map_cons, walk, hstep,
        List.length_map]
      rfl

end Signature

/-- What stands in front of a text that begins with a blank ends a walk that has crossed the
text: nothing, a terminator outside of all brackets, or an opener without its closer.  Outside
of all brackets the walk gets past the blanks only if a dot stands behind them. -/
inductive Buffer.EndsWalk (b : Buffer) (phrase : List Char) : List Char → Prop where
  | beginning : EndsWalk b phrase []
  | terminator (front : List Char) {c : Char} : Signature.isTerminator c = true →
      (∀ k, Signature.Level phrase k) → b.GoesOnWithDot (Text.byteLength (front ++ [c])) →
      EndsWalk b phrase (front ++ [c])
  | opener (front : List Char) (k : Signature.Bracket) : Signature.Level phrase k →
      ((∀ k', Signature.Level phrase k') →
        b.GoesOnWithDot (Text.byteLength (front ++ [k.opener]))) →
      EndsWalk b phrase (front ++ [k.opener])

/-- The text before an offset ends in a part that begins with a blank, and the walk from the
offset crosses this part and ends in front of it. -/
structure Buffer.KeepsBlanks
    (b : Buffer) (offset : Nat) (front phrase after : List Char) : Prop where
  text_eq : b.text = front ++ phrase ++ after
  offset_eq : offset = Text.byteLength (front ++ phrase)
  begins : Text.BeginsBlank phrase
  crossed : Signature.Crossed phrase after
  ends : b.EndsWalk phrase front

namespace Signature

/-! ## Where the walk ends -/

variable {b : Buffer} {front phrase : List Char}

/-- Behind a text the walk sees what the buffer goes on with there. -/
theorem continuesChain_iff_goesOnWithDot
    (hb : b.IsBare) {rest : List Char} (htext : b.text = front ++ rest) :
    continuesChain ((bytes rest).map code) = true ↔ b.GoesOnWithDot (Text.byteLength front) := by
  have hstands := stands_of_isBare hb htext 0
  rw [hstands.continuesChain_iff, List.length_map, List.length_reverse, length_bytes]

theorem reverse_bytes_concat {c : Char} (hc : c.toNat < 128) (u : List Char) :
    (bytes (u ++ [c])).reverse = c :: (bytes u).reverse := by
  rw [bytes_append, bytes_singleton_of_ascii hc, List.reverse_append, List.reverse_singleton,
    List.singleton_append]

theorem exists_concat_of_reverse_bytes
    {c : Char} {far : List Char} (hc : c.toNat < 128) (h : (bytes front).reverse = c :: far) :
    ∃ u, front = u ++ [c] := by
  have hforward : bytes front = far.reverse ++ c :: [] := by
    rw [← List.reverse_cons, ← h, List.reverse_reverse]
  obtain ⟨u, v, rfl, -, hv⟩ := Text.exists_cut_of_ascii hforward hc
  obtain rfl : v = [] := Text.bytes_injective hv
  exact ⟨u, rfl⟩

/-- The walk crosses a text that begins with a blank and ends there, just when the text can be
crossed and what stands in front of it ends the walk. -/
theorem endsBehind_iff
    (hb : b.IsBare) (htext : b.text = front ++ phrase ++ after)
    (hbegins : Text.BeginsBlank phrase) :
    EndsBehind (bytes phrase).reverse ((bytes after).map code) (bytes front).reverse ↔
      Crossed phrase after ∧ b.EndsWalk phrase front := by
  rw [List.append_assoc] at htext
  have hdot := continuesChain_iff_goesOnWithDot hb htext
  rw [bytes_append, List.map_append, ← List.reverse_reverse (bytes phrase)] at hdot
  constructor
  · intro h
    generalize hfar : (bytes front).reverse = far at h
    cases h with
    | beginning hreach =>
        have hfront : front = [] := Text.bytes_injective (List.reverse_eq_nil_iff.1 hfar)
        exact ⟨(exists_reach_iff_crossed _ _ _).1 ⟨_, hreach⟩, hfront ▸ .beginning⟩
    | @mark s c far hreach hmark hgo =>
        obtain ⟨u, rfl⟩ := exists_concat_of_reverse_bytes hmark.classes.1 hfar
        have hknows := knows_of_reach_bytes hreach
        have hopen (hall : ∀ k, Level phrase k) :
            b.GoesOnWithDot (Text.byteLength (u ++ [c])) := by
          exact hdot.1 (hgo (hknows.balanced_iff.2 hall) (hknows.inBlanks.2 ⟨hall, hbegins⟩))
        refine ⟨(exists_reach_iff_crossed _ _ _).1 ⟨s, hreach⟩, ?_⟩
        cases hmark with
        | terminator hc hn =>
            have hall := hknows.balanced_iff.1 hn
            exact .terminator u hc hall (hopen hall)
        | opener k hc hn =>
            subst hc
            exact .opener u k ((hknows.counter_eq_zero_iff k).1 hn) hopen
  · rintro ⟨hcrossed, hends⟩
    cases hends with
    | beginning =>
        obtain ⟨s, hreach⟩ := (exists_reach_iff_crossed phrase after []).2 hcrossed
        exact .beginning hreach
    | @terminator u c hc hall hgo =>
        obtain ⟨s, hreach⟩ :=
          (exists_reach_iff_crossed phrase after ((c :: (bytes u).reverse).map code)).2 hcrossed
        have hn := (knows_of_reach_bytes hreach).balanced_iff.2 hall
        rw [reverse_bytes_concat (classes_of_isTerminator hc).1]
        exact .mark hreach (.terminator hc hn) fun _ _ => hdot.2 hgo
    | opener u k hk hgo =>
        obtain ⟨s, hreach⟩ :=
          (exists_reach_iff_crossed phrase after
            ((k.opener :: (bytes u).reverse).map code)).2 hcrossed
        have hknows := knows_of_reach_bytes hreach
        rw [reverse_bytes_concat k.toNat_opener_lt]
        refine .mark hreach (.opener k rfl ((hknows.counter_eq_zero_iff k).2 hk)) fun hn _ => ?_
        exact hdot.2 (hgo (hknows.balanced_iff.1 hn))

/-! ## The first byte of a phrase -/

theorem byte?_byteLength {rest : List Char} (htext : b.text = front ++ rest) :
    b.byte? (Text.byteLength front) = (bytes rest).head? := by
  rw [Buffer.byte?, htext, bytes_append, ← length_bytes front,
    List.getElem?_append_right (Nat.le_refl _), Nat.sub_self, List.head?_eq_getElem?]

/-- A phrase is empty or has a first byte that is no blank, just when it does not begin with a
blank. -/
theorem onText_iff (htext : b.text = front ++ phrase ++ after) :
    (Text.byteLength front = Text.byteLength (front ++ phrase) ∨
      ∃ x, b.byte? (Text.byteLength front) = some x ∧ Text.isBlank x = false) ↔
      ¬Text.BeginsBlank phrase := by
  rw [List.append_assoc] at htext
  rw [byte?_byteLength htext]
  cases phrase with
  | nil => simp
  | cons c rest =>
      have hlength : Text.byteLength front ≠ Text.byteLength (front ++ c :: rest) := by
        have := Char.utf8Size_pos c
        rw [Text.byteLength_append, Text.byteLength_cons]
        omega
      obtain ⟨y, tail, hbytes⟩ := List.exists_cons_of_ne_nil (bytes_singleton_ne_nil c)
      have hfirst : bytes (c :: (rest ++ after)) = y :: (tail ++ bytes (rest ++ after)) := by
        rw [bytes_cons, hbytes]
        rfl
      have hblank := Text.beginsBlank_bytes_iff (c :: (rest ++ after))
      rw [hfirst, Text.beginsBlank_cons, Text.beginsBlank_cons] at hblank
      rw [or_iff_right hlength, List.cons_append, hfirst, Text.beginsBlank_cons, ← hblank]
      simp

end Signature

theorem Buffer.KeepsBlanks.phrase_eq
    {b : Buffer} {offset : Nat} {front phrase after : List Char} (hb : b.IsBare)
    (h : b.KeepsBlanks offset front phrase after) {c : Cursor} (hc : b.cursor offset = .ok c) :
    c.phrase b = phrase ∧ c.signatureStart b = Text.byteLength front := by
  obtain ⟨htext, rfl, hbegins, hcrossed, hends⟩ := h
  obtain rfl := Except.ok.inj (hc.symm.trans (cursor_of_text_eq htext))
  have hstart := ((Signature.endsBehind_iff hb htext hbegins).2 ⟨hcrossed, hends⟩).start_walk
  rw [← List.reverse_append, ← Signature.bytes_append, ← Signature.walkFrom_eq hb htext,
    List.length_reverse, Signature.length_bytes] at hstart
  apply Cursor.phrase_of_start
  rw [hstart, Text.byteLength_append]
  omega

theorem Buffer.exists_keepsBlanks
    {b : Buffer} (hb : b.IsBare) {before after : List Char} (htext : b.text = before ++ after)
    (hbegins : Text.BeginsBlank (Cursor.phrase ⟨before, after⟩ b)) :
    ∃ front phrase, b.KeepsBlanks (Text.byteLength before) front phrase after := by
  obtain ⟨near, far, hbytes, hcut⟩ :=
    Signature.exists_cutAtStart (Signature.bytes before).reverse
      ((Signature.bytes after).map Signature.code)
  obtain ⟨front, phrase, rfl, rfl, rfl⟩ := hcut.exists_parts hbytes
  rw [(Cursor.phrase_of_cutAtStart hb htext hcut).1] at hbegins
  have hends : Signature.EndsBehind (Signature.bytes phrase).reverse
      ((Signature.bytes after).map Signature.code) (Signature.bytes front).reverse := by
    apply hcut.begins.resolve_left
    rw [List.getLast?_reverse]
    intro hnone
    obtain ⟨c, hc, hblank⟩ := (Text.beginsBlank_bytes_iff phrase).2 hbegins
    exact Bool.noConfusion ((hnone c hc).symm.trans hblank)
  rw [Signature.endsBehind_iff hb htext hbegins] at hends
  exact ⟨front, phrase, htext, rfl, hbegins, hends.1, hends.2⟩

/-- The signature starts at the cursor, or on a byte that is no blank. -/
def Fragment.StartsOnText (f : Fragment) (b : Buffer) : Prop :=
  f.signatureStart = f.offset ∨
    ∃ x, b.byte? f.signatureStart = some x ∧ Text.isBlank x = false

/-- In a buffer of plain code a signature starts on its text, and its phrase does not begin with
a blank, unless a walk that crosses blanks ends right in front of them: at the beginning of the
text, at a terminator or at an opener without its closer.  Then the phrase begins with the
blanks. -/
theorem Buffer.fragment_startsOnText_iff
    {b : Buffer} (hb : b.IsBare) {offset : Nat} (hoffset : Text.IsBoundary b.text offset) :
    ∃ f, b.fragment offset = .ok f ∧
      (f.StartsOnText b ↔ ¬∃ front phrase after, b.KeepsBlanks offset front phrase after) ∧
      (f.StartsOnText b ↔ ¬Text.BeginsBlank f.phrase.toList) ∧
      ∀ front phrase after, b.KeepsBlanks offset front phrase after →
        f.phrase.toList = phrase ∧ f.signatureStart = Text.byteLength front := by
  obtain ⟨before, after, htext, rfl⟩ := hoffset
  let c : Cursor := ⟨before, after⟩
  have hc : b.cursor (Text.byteLength before) = .ok c := cursor_of_text_eq htext
  have hphrase : (c.fragment b).phrase.toList = c.phrase b := String.toList_ofList
  have hstarts : (c.fragment b).StartsOnText b ↔ ¬Text.BeginsBlank (c.phrase b) := by
    obtain ⟨front, hbefore, hstart, -⟩ := c.exists_before_phrase htext
    change before = front ++ c.phrase b at hbefore
    have honText := Signature.onText_iff (hbefore ▸ htext)
    rw [← hbefore, ← hstart] at honText
    exact honText
  refine ⟨c.fragment b, fragment_of_cursor hc, ?_⟩
  rw [hphrase]
  refine ⟨?_, hstarts, fun front phrase after' h => h.phrase_eq hb hc⟩
  rw [hstarts, not_iff_not]
  constructor
  · intro hbegins
    obtain ⟨front, phrase, h⟩ := exists_keepsBlanks hb htext hbegins
    exact ⟨front, phrase, after, h⟩
  · rintro ⟨front, phrase, after', h⟩
    rw [(h.phrase_eq hb hc).1]
    exact h.begins

/-- A call in the line below a comma: the line break and the indentation begin the phrase. -/
theorem Buffer.fragment_startsBelowComma :
    let b := Sketch.toBuffer { text := "é x,\n  .bar z".toList }
    b.IsBare ∧ Text.IsBoundary b.text 12 ∧
      b.KeepsBlanks 12 "é x,".toList "\n  .bar".toList " z".toList ∧
      ∃ f, b.fragment 12 = .ok f ∧ f.phrase.toList = "\n  .bar".toList ∧ f.signatureStart = 5 ∧
        ¬f.StartsOnText b := by
  intro b
  have hb : b.IsBare := Sketch.isBare_toBuffer _
  have hoffset : Text.IsBoundary b.text 12 := ⟨"é x,\n  .bar".toList, _, rfl, by decide⟩
  have hlevel (k : Signature.Bracket) : Signature.Level "\n  .bar".toList k := by
    cases k <;> rfl
  have hgo : b.GoesOnWithDot 5 :=
    ⟨"\n  ".toList, "bar z".toList, by decide, Signature.forall_mem_of_all (by decide)⟩
  have hcrossed : Signature.Crossed "\n  .bar".toList " z".toList :=
    (Signature.exists_reach_iff_crossed _ _ []).1 (Option.isSome_iff_exists.1 (by decide))
  have hkept : b.KeepsBlanks 12 "é x,".toList "\n  .bar".toList " z".toList :=
    { text_eq := rfl
      offset_eq := by decide
      begins := Text.beginsBlank_cons.2 rfl
      crossed := hcrossed
      ends := .terminator "é x".toList (by decide) hlevel hgo }
  obtain ⟨f, hf, hstarts, -, hread⟩ := fragment_startsOnText_iff hb hoffset
  obtain ⟨hphrase, hstart⟩ := hread _ _ _ hkept
  exact ⟨hb, hoffset, hkept, f, hf, hphrase, hstart, fun h => hstarts.1 h ⟨_, _, _, hkept⟩⟩

/-- The indentation of the first line begins the phrase, and the signature is read behind it. -/
theorem Buffer.fragment_startsOnIndentation :
    let b := Sketch.toBuffer { text := "  foo".toList }
    b.IsBare ∧ Text.IsBoundary b.text 5 ∧ ∃ f, b.fragment 5 = .ok f ∧
      f.signature.toList = "foo".toList ∧ f.phrase.toList = "  foo".toList ∧
      f.signatureStart = 0 ∧ b.byte? 0 = some ' ' ∧ ¬f.StartsOnText b := by
  intro b
  have hb : b.IsBare := Sketch.isBare_toBuffer _
  have hoffset : Text.IsBoundary b.text 5 := Text.isBoundary_byteLength b.text
  have htext : b.text = "  foo".toList ++ [] := rfl
  let c : Cursor := ⟨"  foo".toList, []⟩
  have hwalk := Signature.walkFrom_eq hb htext
  have hsignature : c.signature b = "foo".toList := by
    rw [Cursor.signature, Signature.withReceiver_eq hb, Cursor.offset, hwalk]
    decide
  have hphrase : c.phrase b = "  foo".toList := by
    rw [Cursor.phrase, Cursor.offset, hwalk]
    decide
  have hstart : c.signatureStart b = 0 := by
    rw [Cursor.signatureStart, hphrase]
    rfl
  have hbyte : b.byte? 0 = some ' ' := by decide
  refine ⟨hb, hoffset, c.fragment b, fragment_of_cursor (cursor_of_text_eq htext),
    String.toList_ofList.trans hsignature, String.toList_ofList.trans hphrase, hstart, hbyte, ?_⟩
  rintro (hend | ⟨x, hx, hblank⟩)
  · exact absurd (hstart.symm.trans hend) (by decide)
  · change b.byte? (c.signatureStart b) = some x at hx
    rw [hstart, hbyte] at hx
    obtain rfl := Option.some.inj hx
    exact absurd hblank (by decide)

end Caret
