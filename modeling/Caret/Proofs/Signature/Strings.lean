import Caret.Proofs.Signature.Lookahead
import Mathlib.Data.List.Chain

/-!
# What stands inside of strings

The walk passes over strings.  Where its rules for code look at the bytes around
them they can reach into a string, but no further than to the quote with which
it begins or ends.  So the walk is the same if every byte of a string is masked,
and what a string holds has no part in the signature.
-/

namespace Caret

def Signature.IsQuote (c : Char) : Prop :=
  c = '"' ∨ c = '\''

structure Buffer.QuotesStrings (b : Buffer) : Prop where
  opens : ∀ s ∈ b.strings.spans, ∃ c ∈ b.byte? s.start, Signature.IsQuote c
  closes : ∀ s ∈ b.strings.spans, ∃ c ∈ b.byte? (s.stop - 1), Signature.IsQuote c

/-- A byte stands between the first and the last one of a string. -/
def Buffer.InsideString (b : Buffer) (i : Nat) : Prop :=
  ∃ s ∈ b.strings.spans, s.start < i ∧ i + 1 < s.stop

instance (b : Buffer) (i : Nat) : Decidable (b.InsideString i) :=
  inferInstanceAs (Decidable (∃ s ∈ b.strings.spans, s.start < i ∧ i + 1 < s.stop))

/-- Two buffers differ at most in what their strings hold. -/
structure Buffer.SameOutsideStrings (b b' : Buffer) : Prop where
  strings : b'.strings = b.strings
  comments : b'.comments = b.comments
  length : b'.length = b.length
  bytes : ∀ i, ¬b.InsideString i → b'.byte? i = b.byte? i
  literals : ∀ i, b'.literalBefore i = b.literalBefore i

namespace SpanSet

variable {set : SpanSet} {i : Nat}

theorem surrounds_zero (set : SpanSet) : set.surrounds 0 = false := by
  simp [surrounds, Span.surrounds]

/-- No span stretches across a place next to an offset that it does not cover. -/
theorem surrounds_of_covers_eq_false (h : set.covers i = false) :
    set.surrounds i = false ∧ set.surrounds (i + 1) = false := by
  simp only [covers, surrounds, Span.covers, Span.surrounds, List.any_eq_false,
    Bool.and_eq_true, decide_eq_true_eq] at h ⊢
  constructor
  · intro s hs
    have := h s hs
    omega
  · intro s hs
    have := h s hs
    omega

end SpanSet

namespace Signature

/-! ## Masked bytes -/

/-- A byte that reads as a quote if it is in a string. -/
def Cell.masked (c : Cell) : Cell :=
  if c.inString then { c with char := '"' } else c

/-- What can be seen of a string is a quote. -/
def Cell.Shows (c : Cell) : Prop :=
  c.inString = true → IsQuote c.char

/-- Of two bytes next to each other, one in a string and one in code, the one in
the string is a quote. -/
def Cell.Meets (c d : Cell) : Prop :=
  c.inString ≠ d.inString → c.Shows ∧ d.Shows

def State.masked (s : State) : State :=
  { s with leftOfHead := s.leftOfHead.map (List.map Cell.masked) }

def Step.masked : Step → Step
  | .next s => .next s.masked
  | .done start s => .done start s.masked

def Outcome.masked (o : Outcome) : Outcome :=
  { o with leftOfHead := o.leftOfHead.map (List.map Cell.masked) }

/-- Bytes that begin with code or a quote, with quotes wherever a string begins
or ends. -/
structure Shown (cs : List Cell) : Prop where
  head : ∀ c ∈ cs.head?, c.Shows
  chain : cs.IsChain Cell.Meets

variable {b b' : Buffer} {offset start : Nat} {c : Cell} {left right : List Cell} {s s' : State}

@[simp] theorem Cell.masked_inComment (c : Cell) : c.masked.inComment = c.inComment := by
  unfold masked
  split <;> rfl

@[simp] theorem Cell.masked_inString (c : Cell) : c.masked.inString = c.inString := by
  unfold masked
  split <;> rfl

theorem Cell.masked_of_code (hc : c.inString = false) : c.masked = c := by
  simp [masked, hc]

theorem Cell.Shows.of_code (hc : c.inString = false) : c.Shows := by
  simp [Shows, hc]

/-- What is alike for both quotes does not tell a byte that shows from its mask. -/
theorem Cell.Shows.apply_masked
    {α : Type} (h : c.Shows) (p : Char → α) (hp : p '\'' = p '"') : p c.masked.char = p c.char := by
  cases hc : c.inString with
  | false => rw [masked_of_code hc]
  | true =>
      rcases h hc with hquote | hquote
      · simp [masked, hc, hquote]
      · simp [masked, hc, hquote, hp]

theorem Cell.Meets.symm {c d : Cell} (h : c.Meets d) : d.Meets c := by
  intro hne
  exact (h hne.symm).symm

theorem Cell.Shows.code_of_isBlank (h : c.Shows) (hblank : Text.isBlank c.char = true) :
    c.inString = false := by
  by_contra hc
  rcases h (eq_true_of_ne_false hc) with hquote | hquote <;>
    exact absurd (hquote ▸ hblank) (by decide)

theorem Shown.of_code
    (hc : c.inString = false) (hchain : (c :: left).IsChain Cell.Meets) : Shown left := by
  rw [List.isChain_cons] at hchain
  refine ⟨?_, hchain.2⟩
  intro d hd
  by_cases hd' : d.inString = false
  · exact .of_code hd'
  · exact (hchain.1 d hd (by rw [hc]; exact Ne.symm hd')).2

/-! ## Looking around -/

theorem followsPercent_masked (h : Shown left) :
    followsPercent (left.map Cell.masked) = followsPercent left := by
  cases left with
  | nil => rfl
  | cons c left => exact (h.head c rfl).apply_masked (· == '%') rfl

theorem followsAt_masked (h : Shown left) :
    followsAt (left.map Cell.masked) = followsAt left := by
  cases left with
  | nil => rfl
  | cons c left => exact (h.head c rfl).apply_masked (· == '@') rfl

theorem opensPercentLiteral_masked (h : Shown left) :
    opensPercentLiteral (left.map Cell.masked) = opensPercentLiteral left := by
  cases left with
  | nil => rfl
  | cons c left =>
      have hc := h.head c rfl
      have hpercent := hc.apply_masked (· == '%') rfl
      have halpha := hc.apply_masked Char.isAlpha rfl
      cases left with
      | nil => exact hpercent
      | cons d left =>
          simp only [List.map_cons, opensPercentLiteral, hpercent, halpha]
          cases hcode : c.inString with
          | false =>
              have hd := (Shown.of_code hcode h.chain).head d rfl
              rw [hd.apply_masked (· == '%') rfl]
          | true =>
              have hletter : c.char.isAlpha = false := by
                rcases hc hcode with hquote | hquote <;> rw [hquote] <;> rfl
              rw [hletter, Bool.and_false, Bool.and_false]

/-- Looking to the right over blanks ends at a quote at the latest. -/
theorem lookingRight_masked (h : Shown right) :
    leadingBlanks (right.map Cell.masked) = leadingBlanks right ∧
      continuesChain (right.map Cell.masked) = continuesChain right := by
  induction right with
  | nil => exact ⟨rfl, rfl⟩
  | cons c right ih =>
      have hc := h.head c rfl
      have hblank := hc.apply_masked Text.isBlank rfl
      have hdot := hc.apply_masked (· == '.') rfl
      simp only [List.map_cons, leadingBlanks_cons, continuesChain_cons, hblank, hdot]
      split
      · rename_i hcblank
        have hrest := ih (Shown.of_code (hc.code_of_isBlank hcblank) h.chain)
        exact ⟨congrArg (· + 1) hrest.1, hrest.2⟩
      · exact ⟨rfl, rfl⟩

theorem getElem?_of_lt_leadingBlanks (h : Shown right) {i : Nat} (hi : i < leadingBlanks right) :
    ∃ d, right[i]? = some d ∧ d.inString = false := by
  induction right generalizing i with
  | nil => simp [leadingBlanks] at hi
  | cons c right ih =>
      rw [leadingBlanks_cons] at hi
      split at hi
      · rename_i hblank
        have hcode := (h.head c rfl).code_of_isBlank hblank
        cases i with
        | zero => exact ⟨c, rfl, hcode⟩
        | succ i =>
            rw [List.getElem?_cons_succ]
            exact ih (Shown.of_code hcode h.chain) (by omega)
      · omega

/-! ## The walk over masked bytes -/

theorem addIndex_masked (s : State) (c : Cell) (h : Shown left) :
    s.masked.addIndex c (left.map Cell.masked) = (s.addIndex c left).masked := by
  simp only [State.addIndex, opensPercentLiteral_masked h, State.masked]
  split <;> rfl

theorem addMember_masked (s : State) (c : Cell) (h : Shown left) :
    s.masked.addMember c (left.map Cell.masked) = (s.addMember c left).masked := by
  simp only [State.addMember, followsPercent_masked h]
  split <;> rfl

theorem crossCode_masked (s : State) (c : Cell) (h : Shown left) :
    crossCode c (left.map Cell.masked) s.masked = (crossCode c left s).masked := by
  rw [crossCode_eq, crossCode_eq]
  simp only [addIndex_masked s c h, addMember_masked _ c h, followsAt_masked h, List.length_map]
  have hnesting : s.masked.nesting = s.nesting := rfl
  rw [hnesting]
  split_ifs <;> rfl

/-- The blanks that the walk has behind it, if any, begin in code. -/
def State.BlanksInCode (s : State) (right : List Cell) : Prop :=
  s.inBlanks = true → ∃ d rest, right = d :: rest ∧ d.inString = false

theorem State.BlanksInCode.initial (right : List Cell) : ({} : State).BlanksInCode right := by
  simp [BlanksInCode]

theorem isChain_around (hchain : ((c :: left).reverse ++ right).IsChain Cell.Meets) :
    (c :: left).IsChain Cell.Meets ∧ (c :: right).IsChain Cell.Meets := by
  have hleft := (List.isChain_append.1 hchain).1
  rw [List.isChain_reverse] at hleft
  rw [List.reverse_cons, List.append_assoc] at hchain
  exact ⟨hleft.imp fun _ _ h => h.symm, (List.isChain_append.1 hchain).2.1⟩

theorem State.BlanksInCode.shown
    (hs : s.BlanksInCode right) (hchain : (c :: right).IsChain Cell.Meets)
    (hin : s.inBlanks = true) : c.Shows ∧ Shown right := by
  obtain ⟨d, rest, rfl, hd⟩ := hs hin
  rw [List.isChain_cons_cons] at hchain
  refine ⟨?_, by simpa using Cell.Shows.of_code hd, hchain.2⟩
  by_cases hcode : c.inString = false
  · exact .of_code hcode
  · exact (hchain.1 (by rw [hd]; exact hcode)).1

theorem step_masked
    (hchain : ((c :: left).reverse ++ right).IsChain Cell.Meets) (hs : s.BlanksInCode right) :
    step c.masked (left.map Cell.masked) (right.map Cell.masked) s.masked =
      (step c left right s).masked := by
  obtain ⟨hleft, hright⟩ := isChain_around hchain
  have hnesting : s.masked.nesting = s.nesting := rfl
  have hinBlanks : s.masked.inBlanks = s.inBlanks := rfl
  simp only [step, Cell.masked_inComment, Cell.masked_inString, List.length_map, hnesting,
    hinBlanks]
  -- Only right behind blanks is a byte of a string looked at, and there it shows.
  cases hin : s.inBlanks with
  | false =>
      cases hcode : c.inString with
      | false =>
          rw [Cell.masked_of_code hcode, crossCode_masked s c (.of_code hcode hleft)]
          simp only [Bool.and_false, Bool.false_and]
          split_ifs <;> rfl
      | true =>
          simp only [Bool.not_false, Bool.and_true]
          split_ifs <;> rfl
  | true =>
      obtain ⟨hc, hshown⟩ := hs.shown hright hin
      rw [(lookingRight_masked hshown).1, (lookingRight_masked hshown).2,
        hc.apply_masked Text.isBlank rfl, hc.apply_masked (· != '.') rfl]
      cases hcode : c.inString with
      | false =>
          rw [Cell.masked_of_code hcode, crossCode_masked s c (.of_code hcode hleft)]
          split_ifs <;> rfl
      | true =>
          simp only [↓reduceIte]
          split_ifs <;> rfl

theorem blanksInCode_of_step
    (hchain : ((c :: left).reverse ++ right).IsChain Cell.Meets) (hs : s.BlanksInCode right)
    (hstep : step c left right s = .next s') : s'.BlanksInCode (c :: right) := by
  intro hin'
  refine ⟨c, right, rfl, ?_⟩
  by_contra hcode
  unfold step at hstep
  split_ifs at hstep with _ hskip hblank _ hstring
  · obtain rfl := Step.next.inj hstep
    simp [hin'] at hskip
  · have hin : s.inBlanks = true := by simpa [eq_true_of_ne_false hcode] using hskip
    have hshows := (hs.shown (isChain_around hchain).2 hin).1
    rw [Bool.and_eq_true] at hblank
    exact hcode (hshows.code_of_isBlank hblank.2)
  · obtain rfl := Step.next.inj hstep
    simp at hin'
  · exact hcode (eq_false_of_ne_true hstring)

/-- Masking strings masks what the walk finds, and nothing else. -/
theorem walk_masked
    (hchain : (left.reverse ++ right).IsChain Cell.Meets) (hs : s.BlanksInCode right) :
    walk s.masked (left.map Cell.masked) (right.map Cell.masked) = (walk s left right).masked := by
  induction left generalizing s right with
  | nil => rfl
  | cons c left ih =>
      rw [List.map_cons, walk, walk, step_masked hchain hs]
      cases hstep : step c left right s with
      | next s' =>
          have hs' := blanksInCode_of_step hchain hs hstep
          rw [List.reverse_cons, List.append_assoc] at hchain
          exact ih hchain hs'
      | done start s' => rfl

/-! ## What the walk sees of strings -/

theorem isQuote_of_last
    (hb : b.QuotesStrings) {i : Nat} (hi : b.strings.covers i = true)
    (hnext : b.strings.covers (i + 1) = false) : ∃ x ∈ b.byte? i, IsQuote x := by
  simp only [SpanSet.covers, Span.covers, List.any_eq_true, List.any_eq_false, Bool.and_eq_true,
    decide_eq_true_eq] at hi hnext
  obtain ⟨s, hs, hstart, hstop⟩ := hi
  have hlast : s.stop - 1 = i := by
    have := hnext s hs
    omega
  exact hlast ▸ hb.closes s hs

theorem isQuote_of_first
    (hb : b.QuotesStrings) {i : Nat} (hi : b.strings.covers i = false)
    (hnext : b.strings.covers (i + 1) = true) : ∃ x ∈ b.byte? (i + 1), IsQuote x := by
  simp only [SpanSet.covers, Span.covers, List.any_eq_true, List.any_eq_false, Bool.and_eq_true,
    decide_eq_true_eq] at hi hnext
  obtain ⟨s, hs, hstart, hstop⟩ := hnext
  have hfirst : s.start = i + 1 := by
    have := hi s hs
    omega
  exact hfirst ▸ hb.opens s hs

theorem isChain_scene (hb : b.QuotesStrings) (offset : Nat) :
    (scene b offset).IsChain Cell.Meets := by
  rw [List.isChain_iff_getElem]
  intro i hi
  obtain ⟨hc, -, hcstring⟩ :=
    cell_of_getElem?_scene (List.getElem?_eq_getElem (Nat.lt_of_succ_lt hi))
  obtain ⟨hd, -, hdstring⟩ := cell_of_getElem?_scene (List.getElem?_eq_getElem hi)
  generalize (scene b offset)[i] = c at hc hcstring ⊢
  generalize (scene b offset)[i + 1] = d at hd hdstring ⊢
  intro hne
  cases hcode : c.inString with
  | false =>
      have hin : d.inString = true := by simpa [hcode] using hne
      obtain ⟨x, hx, hquote⟩ := isQuote_of_first hb (hcstring ▸ hcode) (hdstring ▸ hin)
      rw [hd, Option.mem_some_iff] at hx
      exact ⟨.of_code hcode, fun _ => hx ▸ hquote⟩
  | true =>
      have hdcode : d.inString = false := by simpa [hcode] using hne
      obtain ⟨x, hx, hquote⟩ := isQuote_of_last hb (hcstring ▸ hcode) (hdstring ▸ hdcode)
      rw [hc, Option.mem_some_iff] at hx
      exact ⟨fun _ => hx ▸ hquote, .of_code hdcode⟩

theorem map_masked_scene (h : b.SameOutsideStrings b') (offset : Nat) :
    (scene b' offset).map Cell.masked = (scene b offset).map Cell.masked := by
  apply List.ext_getElem?
  intro i
  simp only [scene, List.getElem?_map, List.getElem?_mapIdx, Option.map_map, h.strings, h.comments]
  by_cases hi : b.InsideString i
  · have hcovers : b.strings.covers i = true := by
      obtain ⟨s, hs, hstart, hstop⟩ := hi
      simp only [SpanSet.covers, Span.covers, List.any_eq_true, Bool.and_eq_true,
        decide_eq_true_eq]
      exact ⟨s, hs, by omega, by omega⟩
    have hlength := h.length
    rw [Buffer.length, Buffer.length, ← length_bytes, ← length_bytes] at hlength
    by_cases hlt : i < (bytes b.text).length
    · rw [List.getElem?_eq_getElem hlt, List.getElem?_eq_getElem (hlength ▸ hlt)]
      simp [Cell.masked, hcovers]
    · rw [List.getElem?_eq_none (by omega), List.getElem?_eq_none (by omega)]
  · have hbyte := h.bytes i hi
    rw [Buffer.byte?, Buffer.byte?] at hbyte
    rw [hbyte]

theorem Stands.isChain (h : Stands b offset left right) (hb : b.QuotesStrings) :
    (left.reverse ++ right).IsChain Cell.Meets :=
  h.scene_eq ▸ isChain_scene hb offset

/-- The walks from an offset in two texts that differ in what strings hold. -/
theorem walkFrom_masked_eq
    (hb : b.QuotesStrings) (hb' : b'.QuotesStrings) (h : b.SameOutsideStrings b')
    (hoffset : offset ≤ b.length) :
    (walkFrom b' offset).masked = (walkFrom b offset).masked := by
  obtain ⟨left, right, hleft, hstands, hwalk⟩ := stands_walkFrom hoffset
  obtain ⟨left', right', hleft', hstands', hwalk'⟩ := stands_walkFrom (h.length ▸ hoffset)
  have hmasked := map_masked_scene h offset
  rw [← hstands.scene_eq, ← hstands'.scene_eq, List.map_append, List.map_append] at hmasked
  obtain ⟨hsame, hsame'⟩ := List.append_inj hmasked (by simp [hleft, hleft'])
  rw [List.map_reverse, List.map_reverse, List.reverse_inj] at hsame
  rw [hwalk, hwalk', ← walk_masked (hstands.isChain hb) (.initial _),
    ← walk_masked (hstands'.isChain hb') (.initial _), hsame, hsame']

theorem literalBefore_masked (o : Outcome) :
    (o.masked.leftOfHead.bind fun left => b.literalBefore left.length) =
      o.leftOfHead.bind fun left => b.literalBefore left.length := by
  simp only [Outcome.masked]
  cases o.leftOfHead with
  | none => rfl
  | some left => simp

theorem withReceiver_masked (b : Buffer) (o : Outcome) :
    withReceiver b o.masked = withReceiver b o :=
  withReceiver_congr rfl (literalBefore_masked o)

/-- In two texts that differ in what strings hold the walks from an offset end at
the same place with the same signature. -/
theorem walkFrom_of_sameOutsideStrings
    (hb : b.QuotesStrings) (hb' : b'.QuotesStrings) (h : b.SameOutsideStrings b')
    (hoffset : offset ≤ b.length) :
    (walkFrom b offset).start = (walkFrom b' offset).start ∧
      withReceiver b (walkFrom b offset) = withReceiver b' (walkFrom b' offset) := by
  have hmasked := walkFrom_masked_eq hb hb' h hoffset
  have hstart : (walkFrom b' offset).masked.start = (walkFrom b offset).masked.start :=
    congrArg Outcome.start hmasked
  refine ⟨hstart.symm, ?_⟩
  calc withReceiver b (walkFrom b offset)
      = withReceiver b' (walkFrom b offset) := withReceiver_congr rfl (by simp only [h.literals])
    _ = withReceiver b' (walkFrom b offset).masked := (withReceiver_masked b' _).symm
    _ = withReceiver b' (walkFrom b' offset).masked := by rw [hmasked]
    _ = withReceiver b' (walkFrom b' offset) := withReceiver_masked b' _

/-! ## The start of the signature -/

theorem Stands.covers_right
    (h : Stands b offset left right) {i : Nat} {d : Cell} (hget : right[i]? = some d) :
    b.strings.covers (left.length + i) = d.inString := by
  rw [← h.getElem?_scene_right i] at hget
  exact (cell_of_getElem?_scene hget).2.2.symm

theorem surrounds_of_startsAt
    (hb : b.QuotesStrings)
    (hdisjoint : ∀ i, b.comments.covers i = true → b.strings.covers i = false)
    (hstands : Stands b offset (c :: left) right) (hs : s.BlanksInCode right)
    (hstart : StartsAt c left right s start) :
    b.strings.surrounds start = false := by
  obtain ⟨hleft, hright⟩ := isChain_around (hstands.isChain hb)
  obtain ⟨-, hcomment, hstring⟩ := hstands.nearest
  cases hstart with
  | behindComment hin =>
      rw [hcomment, Bool.and_eq_true] at hin
      exact (SpanSet.surrounds_of_covers_eq_false (hdisjoint _ hin.1)).2
  | behindBlanks hin =>
      cases hblanks : leadingBlanks right with
      | zero =>
          obtain ⟨d, rest, rfl, hd⟩ := hs hin
          have hcovers := (hstands.covers_right (i := 0) rfl).trans hd
          exact (SpanSet.surrounds_of_covers_eq_false hcovers).1
      | succ n =>
          obtain ⟨d, hget, hd⟩ :=
            getElem?_of_lt_leadingBlanks (i := n) (hs.shown hright hin).2 (by omega)
          have hcovers := (hstands.covers_right hget).trans hd
          exact (SpanSet.surrounds_of_covers_eq_false hcovers).2
  | behindCode hcode =>
      rw [hstring] at hcode
      exact (SpanSet.surrounds_of_covers_eq_false hcode).2
  | onCode hcode =>
      rw [hstring] at hcode
      exact (SpanSet.surrounds_of_covers_eq_false hcode).1
  | onDoubleSigil hcode hfollows =>
      cases left with
      | nil => exact SpanSet.surrounds_zero _
      | cons d left =>
          have hat : d.char = '@' := beq_iff_eq.1 hfollows
          have hd : d.inString = false := by
            by_contra hin
            have hquote := (Shown.of_code hcode hleft).head d rfl (eq_true_of_ne_false hin)
            rw [hat] at hquote
            rcases hquote with h | h <;> exact absurd h (by decide)
          rw [hstands.next.nearest.2.2] at hd
          exact (SpanSet.surrounds_of_covers_eq_false hd).1

/-- The walk ends at no place inside of a string. -/
theorem surrounds_start_walk
    (hb : b.QuotesStrings)
    (hdisjoint : ∀ i, b.comments.covers i = true → b.strings.covers i = false)
    (hstands : Stands b offset left right) (hs : s.BlanksInCode right) :
    b.strings.surrounds (walk s left right).start = false := by
  induction left generalizing s right with
  | nil => exact SpanSet.surrounds_zero _
  | cons c left ih =>
      rw [walk]
      cases hstep : step c left right s with
      | next s' =>
          exact ih hstands.next (blanksInCode_of_step (hstands.isChain hb) hs hstep)
      | done start s' =>
          exact surrounds_of_startsAt hb hdisjoint hstands hs (startsAt_of_step hstep)

theorem surrounds_start_walkFrom
    (hb : b.QuotesStrings)
    (hdisjoint : ∀ i, b.comments.covers i = true → b.strings.covers i = false)
    (hoffset : offset ≤ b.length) :
    b.strings.surrounds (walkFrom b offset).start = false := by
  obtain ⟨left, right, -, hstands, hwalk⟩ := stands_walkFrom hoffset
  rw [hwalk]
  exact surrounds_start_walk hb hdisjoint hstands (.initial _)

/-- A quote stands at a boundary between characters. -/
theorem isBoundary_of_isQuote
    {cs : List Char} {i : Nat} {x : Char} (h : (bytes cs)[i]? = some x) (hx : IsQuote x) :
    Text.IsBoundary cs i := by
  apply Text.isBoundary_of_ascii h
  rcases hx with rfl | rfl <;> decide

/-- From a place outside of all strings on, or from the cursor on, the first
boundary of one text is no later than that of the other. -/
theorem least_boundary_le
    (hb : b.QuotesStrings) (h : b.SameOutsideStrings b')
    (hoffset : Text.IsBoundary b'.text offset) (hstart : b.strings.surrounds start = false)
    {r r' : Nat}
    (hr : IsLeast {n | Text.IsBoundary b.text n ∧ min start offset ≤ n} r)
    (hr' : IsLeast {n | Text.IsBoundary b'.text n ∧ min start offset ≤ n} r') :
    r' ≤ r := by
  obtain ⟨⟨hboundary, hfrom⟩, hleast⟩ := hr
  by_cases hin : b.InsideString r
  · obtain ⟨s, hs, hopen, hclose⟩ := hin
    by_cases hle : min start offset ≤ s.start
    · obtain ⟨x, hx, hquote⟩ := hb.opens s hs
      have := hleast ⟨isBoundary_of_isQuote hx hquote, hle⟩
      omega
    · have hnot : ¬(s.start < start ∧ start < s.stop) := by
        simp only [SpanSet.surrounds, Span.surrounds, List.any_eq_false, Bool.and_eq_true,
          decide_eq_true_eq] at hstart
        exact hstart s hs
      have := hr'.2 ⟨hoffset, Nat.min_le_right _ _⟩
      omega
  · have hboundary' : Text.IsBoundary b'.text r :=
      (Text.isBoundary_congr h.length (h.bytes r hin)).2 hboundary
    exact hr'.2 ⟨hboundary', hfrom⟩

end Signature

theorem Buffer.SameOutsideStrings.symm {b b' : Buffer} (h : b.SameOutsideStrings b') :
    b'.SameOutsideStrings b where
  strings := h.strings.symm
  comments := h.comments.symm
  length := h.length.symm
  bytes i hi := by
    rw [InsideString, h.strings] at hi
    exact (h.bytes i hi).symm
  literals i := (h.literals i).symm

/-- Two buffers that differ only in what their strings hold have the same
signature at each cursor, with the same start, if strings begin and end with
quotes and no comment is in a string. -/
theorem Buffer.fragment_eq_of_sameOutsideStrings
    {b b' : Buffer} {offset : Nat} (hoffset : Text.IsBoundary b.text offset)
    (hoffset' : Text.IsBoundary b'.text offset) (hb : b.QuotesStrings) (hb' : b'.QuotesStrings)
    (hdisjoint : ∀ i, b.comments.covers i = true → b.strings.covers i = false)
    (hsame : b.SameOutsideStrings b') :
    ∃ f f', b.fragment offset = .ok f ∧ b'.fragment offset = .ok f' ∧
      f.signature = f'.signature ∧ f.signatureStart = f'.signatureStart := by
  obtain ⟨c, hc⟩ := exists_cursor_iff.2 hoffset
  obtain ⟨c', hc'⟩ := exists_cursor_iff.2 hoffset'
  obtain ⟨htext, rfl⟩ := cursor_eq_ok_iff.1 hc
  obtain ⟨htext', heq⟩ := cursor_eq_ok_iff.1 hc'
  have hlength := c.offset_le_length htext
  obtain ⟨hends, hsignature⟩ := Signature.walkFrom_of_sameOutsideStrings hb hb' hsame hlength
  have houtside := Signature.surrounds_start_walkFrom hb hdisjoint hlength
  have hleast := Cursor.isLeast_signatureStart htext
  have hleast' := Cursor.isLeast_signatureStart htext'
  rw [heq, ← hends] at hleast'
  refine ⟨c.fragment b, c'.fragment b', fragment_of_cursor hc, fragment_of_cursor hc', ?_, ?_⟩
  · have hchain : c.signature b = c'.signature b' := by
      rw [Cursor.signature, Cursor.signature, heq]
      exact hsignature
    exact congrArg String.ofList hchain
  · apply Nat.le_antisymm
    · rw [← hsame.strings] at houtside
      exact Signature.least_boundary_le hb' hsame.symm hoffset houtside hleast' hleast
    · exact Signature.least_boundary_le hb hsame hoffset' houtside hleast hleast'

/-- A call on a string that holds brackets and a character of two bytes, with a
comment behind it. -/
def Buffer.callOnBrackets : Buffer where
  text := "x = \"é)[\" .b # c".toList
  comments := ⟨[⟨14, 17⟩]⟩
  strings := ⟨[⟨4, 10⟩]⟩
  constructs := []
  locals := []
  literalBefore i := if i = 11 then some "String" else none
  tokenStart offset := offset

/-- The same call on a string that holds a percent sign, a dot, an opener and a
sigil. -/
def Buffer.callOnSigil : Buffer :=
  { callOnBrackets with text := "x = \"%.[@\" .b # c".toList }

theorem Buffer.fragment_eq_callOnString :
    Text.IsBoundary callOnBrackets.text 13 ∧ Text.IsBoundary callOnSigil.text 13 ∧
      callOnBrackets.QuotesStrings ∧ callOnSigil.QuotesStrings ∧
      (∀ i, callOnBrackets.comments.covers i = true → callOnBrackets.strings.covers i = false) ∧
      callOnBrackets.SameOutsideStrings callOnSigil ∧
      ∃ f f', callOnBrackets.fragment 13 = .ok f ∧ callOnSigil.fragment 13 = .ok f' ∧
        f.signature = f'.signature ∧ f.signatureStart = f'.signatureStart ∧
        f.signature.toList = "String.new.b".toList ∧ f.signatureStart = 4 := by
  have htext : callOnBrackets.text = "x = \"é)[\" .b".toList ++ " # c".toList := rfl
  have hoffset : Text.IsBoundary callOnBrackets.text 13 := ⟨_, _, htext, by decide⟩
  have hoffset' : Text.IsBoundary callOnSigil.text 13 :=
    ⟨"x = \"%.[@\" .b".toList, " # c".toList, rfl, by decide⟩
  have hquotes : callOnBrackets.QuotesStrings := by
    constructor
    · exact List.forall_mem_singleton.2 ⟨'"', by decide, Or.inl rfl⟩
    · exact List.forall_mem_singleton.2 ⟨'"', by decide, Or.inl rfl⟩
  have hquotes' : callOnSigil.QuotesStrings := by
    constructor
    · exact List.forall_mem_singleton.2 ⟨'"', by decide, Or.inl rfl⟩
    · exact List.forall_mem_singleton.2 ⟨'"', by decide, Or.inl rfl⟩
  have hdisjoint (i : Nat) (hi : callOnBrackets.comments.covers i = true) :
      callOnBrackets.strings.covers i = false := by
    change SpanSet.covers ⟨[⟨14, 17⟩]⟩ i = true at hi
    change SpanSet.covers ⟨[⟨4, 10⟩]⟩ i = false
    simp only [SpanSet.covers, Span.covers, List.any_cons, List.any_nil, Bool.or_false,
      Bool.and_eq_true, Bool.and_eq_false_iff, decide_eq_true_eq, decide_eq_false_iff_not] at hi ⊢
    omega
  have hsame : callOnBrackets.SameOutsideStrings callOnSigil := by
    refine ⟨rfl, rfl, by decide, ?_, fun i => rfl⟩
    intro i hi
    by_cases hlt : i < 17
    · have hbytes : ∀ i < 17, ¬callOnBrackets.InsideString i →
          callOnSigil.byte? i = callOnBrackets.byte? i := by
        decide
      exact hbytes i hlt hi
    · have hlength : (Signature.bytes callOnBrackets.text).length = 17 := by decide
      have hlength' : (Signature.bytes callOnSigil.text).length = 17 := by decide
      rw [byte?, byte?, List.getElem?_eq_none (by omega), List.getElem?_eq_none (by omega)]
  obtain ⟨f, f', hf, hf', hsignature, hstart⟩ :=
    Buffer.fragment_eq_of_sameOutsideStrings hoffset hoffset' hquotes hquotes' hdisjoint hsame
  refine ⟨hoffset, hoffset', hquotes, hquotes', hdisjoint, hsame, f, f', hf, hf', hsignature,
    hstart, ?_⟩
  have hcursor : callOnBrackets.cursor 13 = .ok ⟨"x = \"é)[\" .b".toList, " # c".toList⟩ :=
    cursor_of_text_eq htext
  obtain rfl := Except.ok.inj (hf.symm.trans (fragment_of_cursor hcursor))
  constructor
  · have hread : Cursor.signature ⟨"x = \"é)[\" .b".toList, " # c".toList⟩ callOnBrackets =
        "String.new.b".toList := by
      decide
    exact String.toList_ofList.trans hread
  · decide

end Caret
