import Caret.Proofs.Signature.Scene
import Caret.Proofs.Signature.Steps
import Caret.Proofs.Text.Alphabet
import Caret.Proofs.Text.Boundary
import Mathlib.Data.List.TakeWhile

/-!
# Where a chain comes from

Everything in a chain is read off the text between the start of the signature
and the cursor, in order and outside of strings.  The walk keeps this up with
every byte that it crosses, and each of the ways in which it can end leaves it
so.
-/

namespace Caret

/-- Two at signs side by side are in the same regions. -/
def Buffer.KeepsAtSigns (b : Buffer) : Prop :=
  ∀ i, b.byte? i = some '@' → b.byte? (i + 1) = some '@' →
    b.comments.covers i = b.comments.covers (i + 1) ∧
      b.strings.covers i = b.strings.covers (i + 1)

/-- An offset does not follow two at signs in a comment. -/
def Buffer.NotBehindAtSigns (b : Buffer) (offset : Nat) : Prop :=
  ∀ i, i + 2 = offset → b.byte? i = some '@' → b.byte? (i + 1) = some '@' →
    ¬(b.comments.covers i = true ∧ b.comments.covers (i + 1) = true)

namespace Signature

/-- The characters at some offsets join the chain, in ascending order. -/
structure ReadFrom (b : Buffer) (start stop : Nat) (places : List Nat) (members : List Char) :
    Prop where
  ascending : places.Pairwise (· < ·)
  within : ∀ i ∈ places, start ≤ i ∧ i < stop
  outside_strings : ∀ i ∈ places, b.strings.covers i = false
  joins : ∀ i ∈ places, ∃ c, b.byte? i = some c ∧ joinsChain c = true
  members_eq : members = (places.filterMap b.byte?).flatMap piece

/-- The bytes of a stretch of the text that are in no string. -/
def codeBetween (b : Buffer) (start stop : Nat) : List Char :=
  ((List.range' start (stop - start)).filter fun i => !b.strings.covers i).filterMap b.byte?

/-- No comment in a stretch but at its last byte, and no opener in it without
its closer. -/
structure Clear (b : Buffer) (start stop : Nat) : Prop where
  comments : ∀ i, start ≤ i → i + 1 < stop → b.comments.covers i = false
  brackets : ∀ (k : Bracket) (i : Nat), start ≤ i → i ≤ stop →
    (codeBetween b i stop).count k.opener ≤ (codeBetween b i stop).count k.closer

/-- A chain comes from a stretch of the text.  Only the first character of the
chain is a sigil, or the first two are at signs. -/
structure ComesFrom (b : Buffer) (start stop : Nat) (members : List Char) : Prop
    extends Clear b start stop where
  read : ∃ places, ReadFrom b start stop places members
  sigils : ∃ sigil rest, members = sigil ++ rest ∧
    sigil ∈ [[], ['$'], ['@'], ['@', '@']] ∧ ∀ c ∈ rest, isSigil c = false

/-! ## Stretches of a text -/

variable {b : Buffer} {offset : Nat}

theorem ReadFrom.nil (b : Buffer) (start stop : Nat) : ReadFrom b start stop [] [] :=
  ⟨.nil, by simp, by simp, by simp, rfl⟩

theorem ReadFrom.cons
    {i start stop : Nat} {places : List Nat} {members : List Char} {c : Char}
    (h : ReadFrom b start stop places members) (hi : i < start) (hstop : i < stop)
    (hstring : b.strings.covers i = false) (hc : b.byte? i = some c)
    (hjoins : joinsChain c = true) :
    ReadFrom b i stop (i :: places) (piece c ++ members) where
  ascending := by
    refine List.pairwise_cons.2 ⟨fun j hj => ?_, h.ascending⟩
    exact Nat.lt_of_lt_of_le hi (h.within j hj).1
  within := by
    intro j hj
    rcases List.mem_cons.1 hj with rfl | hj
    · exact ⟨Nat.le_refl _, hstop⟩
    · have := h.within j hj
      omega
  outside_strings := by
    intro j hj
    rcases List.mem_cons.1 hj with rfl | hj
    · exact hstring
    · exact h.outside_strings j hj
  joins := by
    intro j hj
    rcases List.mem_cons.1 hj with rfl | hj
    · exact ⟨c, hc, hjoins⟩
    · exact h.joins j hj
  members_eq := by
    rw [List.filterMap_cons_some hc, List.flatMap_cons, h.members_eq]

/-- A stretch can be cut off if nothing in it can join a chain. -/
theorem ReadFrom.cut
    {start start' stop : Nat} {places : List Nat} {members : List Char}
    (h : ReadFrom b start stop places members)
    (hcut : ∀ i c, start ≤ i → i < stop → i < start' → b.byte? i = some c →
      joinsChain c = false) :
    ReadFrom b start' stop places members where
  ascending := h.ascending
  within := by
    intro i hi
    have hwithin := h.within i hi
    obtain ⟨c, hc, hjoins⟩ := h.joins i hi
    refine ⟨?_, hwithin.2⟩
    by_contra hlt
    rw [hcut i c hwithin.1 hwithin.2 (by omega) hc] at hjoins
    exact absurd hjoins (by simp)
  outside_strings := h.outside_strings
  joins := h.joins
  members_eq := h.members_eq

theorem Clear.mono {start start' stop : Nat} (h : Clear b start stop) (hle : start ≤ start') :
    Clear b start' stop where
  comments := fun i hi => h.comments i (Nat.le_trans hle hi)
  brackets := fun k i hi => h.brackets k i (Nat.le_trans hle hi)

theorem ComesFrom.cut
    {start start' stop : Nat} {members : List Char} (h : ComesFrom b start stop members)
    (hle : start ≤ start')
    (hcut : ∀ i c, start ≤ i → i < stop → i < start' → b.byte? i = some c →
      joinsChain c = false) :
    ComesFrom b start' stop members := by
  obtain ⟨places, hread⟩ := h.read
  exact ⟨h.toClear.mono hle, ⟨places, hread.cut hcut⟩, h.sigils⟩

theorem codeBetween_self (b : Buffer) (i : Nat) : codeBetween b i i = [] := by
  simp [codeBetween]

theorem codeBetween_of_lt {i stop : Nat} (hi : i < stop) :
    codeBetween b i stop =
      (if b.strings.covers i then [] else (b.byte? i).toList) ++ codeBetween b (i + 1) stop := by
  obtain ⟨n, rfl⟩ := Nat.exists_eq_add_of_lt hi
  have hlength : i + n + 1 - i = n + 1 := by omega
  have hrest : i + n + 1 - (i + 1) = n := by omega
  rw [codeBetween, codeBetween, hlength, hrest, List.range'_succ, List.filter_cons]
  cases b.strings.covers i with
  | true => simp
  | false => cases hbyte : b.byte? i <;> simp [hbyte]

/-! ## The walk on its way -/

/-- What holds on the way at the offset `i`. -/
structure OnTheWay (b : Buffer) (offset i : Nat) (s : State) : Prop extends Clear b i offset where
  read : ∃ places, ReadFrom b i offset places s.members
  plain : ∀ c ∈ s.members, isSigil c = false
  counters : ∀ k, s.nesting.counter k =
    (codeBetween b i offset).count k.opener - (codeBetween b i offset).count k.closer

namespace OnTheWay

variable {i : Nat} {s s' : State} {c : Cell} {left right : List Cell}

theorem start (b : Buffer) (offset : Nat) : OnTheWay b offset offset {} where
  comments := by
    intro i hi hlt
    omega
  brackets := by
    intro k i hi hle
    rw [Nat.le_antisymm hle hi, codeBetween_self]
    simp
  read := ⟨[], .nil b offset offset⟩
  plain := by simp
  counters := by
    intro k
    rw [codeBetween_self]
    cases k <;> rfl

theorem unclosed (h : OnTheWay b offset i s) (hi : i ≤ offset) : s.nesting.unclosed = false := by
  rw [Nesting.unclosed_eq_false_iff]
  intro k
  have := h.counters k
  have := h.brackets k i (Nat.le_refl _) hi
  omega

/-- A chain without sigils comes from the way of the walk. -/
theorem comesFrom (h : OnTheWay b offset i s) : ComesFrom b i offset s.members :=
  ⟨h.toClear, h.read, [], s.members, rfl, by simp, h.plain⟩

theorem isSigil_piece {x y : Char} (hx : isSigil x = false) (hy : y ∈ piece x) :
    isSigil y = false := by
  unfold piece at hy
  split at hy
  · simp only [List.mem_cons, List.not_mem_nil, or_false] at hy
    rcases hy with rfl | rfl | rfl <;> decide
  · rw [List.mem_singleton.1 hy]
    exact hx

theorem next
    (h : OnTheWay b offset (left.length + 1) s) (hstands : Stands b offset (c :: left) right)
    (hlt : left.length < offset) (hgoes : GoesOn c s s') :
    OnTheWay b offset left.length s' := by
  obtain ⟨hbyte, hcomment, hstring⟩ := hstands.nearest
  have hcode := codeBetween_of_lt (b := b) hlt
  rw [← hstring, hbyte, Option.toList_some] at hcode
  have hcounters (k : Bracket) : s'.nesting.counter k =
      (codeBetween b left.length offset).count k.opener -
        (codeBetween b left.length offset).count k.closer := by
    have hbefore := h.counters k
    rw [hgoes.nesting, hcode]
    cases hin : c.inString with
    | true => simpa using hbefore
    | false =>
        have hcross := s.nesting.counter_cross c.char k
        simp only [Bool.false_eq_true, if_false, List.count_append]
        omega
  constructor
  · constructor
    · intro i hi hlast
      by_cases heq : i = left.length
      · subst heq
        have hne : left.length + 1 ≠ offset := by omega
        simpa [hne] using hcomment.symm.trans hgoes.outside_comment
      · exact h.comments i (by omega) hlast
    · intro k i hi hle
      by_cases heq : i = left.length
      · subst heq
        have := Nesting.unclosed_eq_false_iff.1 hgoes.unclosed k
        have := hcounters k
        omega
      · exact h.brackets k i (by omega) hle
  · obtain ⟨places, hread⟩ := h.read
    rcases hgoes.members with hmembers | ⟨hin, hjoins, -, hmembers⟩
    · rw [hmembers]
      exact ⟨places, hread.ascending, fun i hi => by have := hread.within i hi; omega,
        hread.outside_strings, hread.joins, hread.members_eq⟩
    · rw [hmembers]
      exact ⟨left.length :: places,
        hread.cons (Nat.lt_succ_self _) hlt (hstring ▸ hin) hbyte hjoins⟩
  · rcases hgoes.members with hmembers | ⟨-, -, hplain, hmembers⟩
    · rw [hmembers]
      exact h.plain
    · rw [hmembers]
      intro x hx
      rcases List.mem_append.1 hx with hx | hx
      · exact isSigil_piece hplain hx
      · exact h.plain x hx
  · exact hcounters

/-- A sigil outside of comments can be crossed without more ado. -/
theorem next_of_isSigil
    (h : OnTheWay b offset (left.length + 1) s) (hstands : Stands b offset (c :: left) right)
    (hlt : left.length < offset) (hcomment : c.inComment = false)
    (hsigil : isSigil c.char = true) :
    OnTheWay b offset left.length s := by
  have hcross := Nesting.cross_of_not_bracket (not_mem_all_of_isSigil hsigil) s.nesting
  exact h.next hstands hlt ⟨hcomment, by simp [hcross], h.unclosed hlt, Or.inl rfl⟩

end OnTheWay

variable {s : State} {c : Cell} {left right : List Cell} {start : Nat} {members : List Char}

/-! ## The ends of the walk -/

theorem comesFrom_onSigil
    (h : OnTheWay b offset (left.length + 1) s) (hstands : Stands b offset (c :: left) right)
    (hlt : left.length < offset) (hcomment : c.inComment = false) (hstring : c.inString = false)
    (hsigil : isSigil c.char = true) :
    ComesFrom b left.length offset (c.char :: s.members) := by
  obtain ⟨hbyte, -, hcovers⟩ := hstands.nearest
  obtain ⟨places, hread⟩ := h.read
  have hcons := hread.cons (Nat.lt_succ_self _) hlt (hcovers ▸ hstring) hbyte
    (joinsChain_of_isSigil hsigil)
  rw [piece_of_isSigil hsigil] at hcons
  refine ⟨(h.next_of_isSigil hstands hlt hcomment hsigil).toClear, ⟨_, hcons⟩,
    [c.char], s.members, rfl, ?_, h.plain⟩
  simp only [isSigil, Bool.or_eq_true, beq_iff_eq] at hsigil
  rcases hsigil with hc | hc <;> simp [hc]

/-- The second of two at signs was not looked at by the walk, but is in the same
regions as the first. -/
theorem comesFrom_onDoubleSigil
    (hb : b.KeepsAtSigns) (hend : b.NotBehindAtSigns offset)
    (h : OnTheWay b offset (left.length + 1) s) (hstands : Stands b offset (c :: left) right)
    (hlt : left.length < offset) (hcomment : c.inComment = false) (hstring : c.inString = false)
    (hc : c.char = '@') (hfollows : followsAt left = true) :
    ComesFrom b (left.length - 1) offset ('@' :: '@' :: s.members) := by
  cases left with
  | nil => simp [followsAt] at hfollows
  | cons d left =>
      have hd : d.char = '@' := by simpa [followsAt] using hfollows
      obtain ⟨hbyte, hcommentEq, hcovers⟩ := hstands.nearest
      obtain ⟨hbyte', hcommentEq', hcovers'⟩ := hstands.next.nearest
      rw [hc] at hbyte
      rw [hd] at hbyte'
      rw [List.length_cons] at hbyte hcommentEq hcovers hlt
      obtain ⟨hsame, hsameString⟩ := hb left.length hbyte' hbyte
      have hstring' : b.strings.covers left.length = false := by
        rw [hsameString, ← hcovers, hstring]
      have hcomment' : d.inComment = false := by
        rw [hcommentEq']
        by_contra hin
        simp only [Bool.not_eq_false, Bool.and_eq_true] at hin
        by_cases hlast : left.length + 2 = offset
        · exact hend left.length hlast hbyte' hbyte ⟨hin.1, hsame ▸ hin.1⟩
        · rw [hcommentEq, ← hsame, hin.1] at hcomment
          simp [hlast] at hcomment
      have hsigil : isSigil '@' = true := by decide
      have hfirst := h.next_of_isSigil hstands hlt hcomment (hc ▸ hsigil)
      have hsecond := hfirst.next_of_isSigil hstands.next (by omega) hcomment' (hd ▸ hsigil)
      obtain ⟨places, hread⟩ := h.read
      have hjoins := joinsChain_of_isSigil hsigil
      have hone := hread.cons (Nat.lt_succ_self _) hlt (hcovers ▸ hstring) hbyte hjoins
      have htwo := hone.cons (Nat.lt_succ_self _) (by omega) hstring' hbyte' hjoins
      rw [piece_of_isSigil hsigil] at htwo
      exact ⟨hsecond.toClear, ⟨_, htwo⟩, ['@', '@'], s.members, rfl, by simp, h.plain⟩

/-- Blanks join no chain, so that the start can be moved behind them. -/
theorem comesFrom_behindBlanks
    (h : OnTheWay b offset left.length s) (hstands : Stands b offset left right)
    (hle : left.length ≤ offset) :
    ComesFrom b (min (left.length + leadingBlanks right) offset) offset s.members := by
  apply h.comesFrom.cut
  · omega
  · intro i x hi hstop hlt hbyte
    have hblank : Text.isBlank x = true := by
      obtain ⟨j, rfl⟩ := Nat.exists_eq_add_of_le hi
      have hj : j < leadingBlanks right := by omega
      have hget : (right.map Cell.char)[j]? = some x := by
        rw [hstands.chars_right, List.getElem?_drop]
        exact hbyte
      rw [List.getElem?_map, Option.map_eq_some_iff] at hget
      obtain ⟨d, hd, rfl⟩ := hget
      obtain ⟨rest, hrest⟩ := right.takeWhile_prefix (Text.isBlank ·.char)
      rw [← hrest, List.getElem?_append_left hj] at hd
      have hmem := List.mem_of_getElem? hd
      exact List.mem_takeWhile_imp (p := fun d : Cell => Text.isBlank d.char) hmem
    exact joinsChain_of_isBlank hblank

theorem comesFrom_of_endsAt
    (hb : b.KeepsAtSigns) (hend : b.NotBehindAtSigns offset)
    (h : OnTheWay b offset (left.length + 1) s) (hstands : Stands b offset (c :: left) right)
    (hlt : left.length < offset) (hends : EndsAt c left right s start members) :
    ComesFrom b (min start offset) offset members := by
  cases hends with
  | behind =>
      rw [Nat.min_eq_left hlt]
      exact h.comesFrom
  | behindBlanks => exact comesFrom_behindBlanks h hstands hlt
  | beforeSigil hcomment hstring hsigil =>
      rw [Nat.min_eq_left (Nat.le_of_lt hlt)]
      exact (h.next_of_isSigil hstands hlt hcomment hsigil).comesFrom
  | onSigil hcomment hstring hsigil =>
      rw [Nat.min_eq_left (Nat.le_of_lt hlt)]
      exact comesFrom_onSigil h hstands hlt hcomment hstring hsigil
  | onDoubleSigil hcomment hstring hc hfollows =>
      rw [Nat.min_eq_left (by omega)]
      exact comesFrom_onDoubleSigil hb hend h hstands hlt hcomment hstring hc hfollows

/-- Wherever the walk ends, the chain comes from the text between there and the
cursor. -/
theorem comesFrom_walk
    (hb : b.KeepsAtSigns) (hend : b.NotBehindAtSigns offset)
    (h : OnTheWay b offset left.length s) (hstands : Stands b offset left right)
    (hle : left.length ≤ offset) :
    ComesFrom b (min (walk s left right).start offset) offset (walk s left right).members := by
  induction left generalizing s right with
  | nil =>
      rw [walk, Nat.min_eq_left (Nat.zero_le offset)]
      exact h.comesFrom
  | cons c left ih =>
      rw [walk]
      cases hstep : step c left right s with
      | next s' =>
          have hgoes := goesOn_of_step (h.unclosed hle) hstep
          exact ih (h.next hstands hle hgoes) hstands.next (Nat.le_of_lt hle)
      | done start s' =>
          exact comesFrom_of_endsAt hb hend h hstands hle (endsAt_of_step (h.unclosed hle) hstep)

theorem toNat_lt_of_joinsChain {c : Char} (hc : joinsChain c = true) : c.toNat < 128 := by
  simp only [joinsChain, isMember, Bool.or_eq_true, beq_iff_eq] at hc
  rcases hc with (((((hc | rfl) | rfl) | rfl) | rfl) | rfl) | rfl
  · have := Text.toNat_of_isAlphanum hc
    omega
  all_goals decide

/-- No character joins the chain between the end of the walk and the boundary to
which it is moved. -/
theorem comesFrom_dropBytes
    {before after : List Char} (htext : b.text = before ++ after)
    (h : ComesFrom b (min start (Text.byteLength before)) (Text.byteLength before) members) :
    ComesFrom b (Text.byteLength before - Text.byteLength (Text.dropBytes before start))
      (Text.byteLength before) members := by
  obtain ⟨dropped, happend, hle, hnone⟩ := Text.exists_dropped before start
  have hlength := congrArg Text.byteLength happend
  rw [Text.byteLength_append] at hlength
  apply h.cut
  · omega
  · intro i x hi hstop hlt hbyte
    by_contra hjoins
    rw [Bool.not_eq_false] at hjoins
    have hbyte' : (bytes before)[i]? = some x := by
      rw [Buffer.byte?, htext, bytes_append] at hbyte
      rwa [List.getElem?_append_left (by rwa [length_bytes])] at hbyte
    have hboundary := Text.isBoundary_of_ascii hbyte' (toNat_lt_of_joinsChain hjoins)
    exact hnone i (by omega) (by omega) hboundary

theorem withReceiver_eq_or (b : Buffer) (o : Outcome) :
    withReceiver b o = o.members ∨
      ∃ type : String, withReceiver b o = type.toList ++ ".new".toList ++ o.members := by
  unfold withReceiver
  split
  · rename_i literal _ _
    exact Or.inr ⟨literal, rfl⟩
  · exact Or.inl rfl

end Signature

/-- The signature, but for a receiver put in front of it, comes from the text
between its start and the cursor. -/
theorem Cursor.signature_comesFrom
    {b : Buffer} (hb : b.KeepsAtSigns) {offset : Nat} (hoffset : Text.IsBoundary b.text offset)
    (hend : b.NotBehindAtSigns offset) :
    ∃ c, b.cursor offset = .ok c ∧
      Signature.ComesFrom b (c.signatureStart b) offset (Signature.walkFrom b offset).members ∧
      (c.signature b = (Signature.walkFrom b offset).members ∨
        ∃ type : String, c.signature b =
          type.toList ++ ".new".toList ++ (Signature.walkFrom b offset).members) := by
  obtain ⟨before, after, htext, rfl⟩ := hoffset
  refine ⟨_, Buffer.cursor_of_text_eq htext, ?_, Signature.withReceiver_eq_or b _⟩
  have hle : Text.byteLength before ≤ b.length := by
    rw [Buffer.length, htext, Text.byteLength_append]
    exact Nat.le_add_right _ _
  obtain ⟨left, right, hleft, hstands, hwalk⟩ := Signature.stands_walkFrom hle
  have hstart := Signature.OnTheWay.start b (Text.byteLength before)
  rw [← hleft] at hstart hstands hend
  have hcomes := Signature.comesFrom_walk hb hend hstart hstands (Nat.le_refl _)
  rw [hleft, ← hwalk] at hcomes
  exact Signature.comesFrom_dropBytes htext hcomes

/-- An index on a class variable, behind a comment with at signs in it. -/
def Buffer.indexBehindComment : Buffer where
  text := "# @@\n@@a[1].b".toList
  comments := ⟨[⟨0, 4⟩]⟩
  strings := SpanSet.empty
  constructs := []
  locals := []
  literalBefore _ := none
  tokenStart offset := offset

theorem Cursor.signature_comesFrom_indexBehindComment :
    Buffer.indexBehindComment.KeepsAtSigns ∧
      Text.IsBoundary Buffer.indexBehindComment.text 13 ∧
        Buffer.indexBehindComment.NotBehindAtSigns 13 ∧
          Signature.ComesFrom Buffer.indexBehindComment 5 13 "@@a.[].b".toList := by
  have hb : Buffer.indexBehindComment.KeepsAtSigns := by
    intro i hi
    have hlt : i < 13 := by
      rw [Buffer.byte?, List.getElem?_eq_some_iff] at hi
      exact hi.1
    revert hi
    revert i
    decide
  have hoffset : Text.IsBoundary Buffer.indexBehindComment.text 13 :=
    Text.isBoundary_byteLength Buffer.indexBehindComment.text
  have hend : Buffer.indexBehindComment.NotBehindAtSigns 13 := by
    intro i hi
    obtain rfl : i = 11 := by omega
    decide
  refine ⟨hb, hoffset, hend, ?_⟩
  obtain ⟨c, hc, hcomes, -⟩ := Cursor.signature_comesFrom hb hoffset hend
  have hcursor : Buffer.indexBehindComment.cursor 13 =
      .ok ⟨"# @@\n@@a[1].b".toList, []⟩ :=
    Buffer.cursor_length Buffer.indexBehindComment
  obtain rfl := Except.ok.inj (hc.symm.trans hcursor)
  have hstart :
      Cursor.signatureStart ⟨"# @@\n@@a[1].b".toList, []⟩ Buffer.indexBehindComment = 5 := by
    decide
  have hmembers : (Signature.walkFrom Buffer.indexBehindComment 13).members =
      "@@a.[].b".toList := by
    decide
  rwa [hstart, hmembers] at hcomes

end Caret
