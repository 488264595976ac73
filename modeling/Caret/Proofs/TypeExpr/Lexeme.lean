import Caret.Proofs.Text.Alphabet
import Caret.TypeExpr.Token
import Mathlib.Data.List.TakeWhile

/-!
# Names and lexemes of type expressions

The spelling of a name and of each punctuation mark, as a grammar that knows
nothing of how texts are read.  Reading a text into tokens finds the lexemes it
is made of, and finds a lexeme wherever no name runs on behind it.
-/

namespace Caret.TypeExpr

/-! ## Names -/

/-- A letter or an underscore, and then letters, digits and underscores. -/
inductive IsIdent : List Char → Prop
  | mk {c : Char} {cs : List Char} :
      startsIdent c = true → (∀ d ∈ cs, continuesIdent d = true) → IsIdent (c :: cs)

/-- Identifiers joined by double colons. -/
inductive IsScoped : List Char → Prop
  | ident {w : List Char} : IsIdent w → IsScoped w
  | scope {w v : List Char} : IsIdent w → IsScoped v → IsScoped (w ++ (':' :: ':' :: v))

/-- Joined identifiers, with or without a double colon in front. -/
inductive IsTypeName : List Char → Prop
  | relative {w : List Char} : IsScoped w → IsTypeName w
  | absolute {w : List Char} : IsScoped w → IsTypeName (':' :: ':' :: w)

theorem continuesIdent_of_startsIdent {c : Char} (hc : startsIdent c = true) :
    continuesIdent c = true := by
  simp only [startsIdent, continuesIdent, Char.isAlphanum, Bool.or_eq_true] at hc ⊢
  exact hc.imp Or.inl id

theorem ne_colon_of_continuesIdent {c : Char} (hc : continuesIdent c = true) : c ≠ ':' := by
  rintro rfl
  exact absurd hc (by decide)

theorem ne_colon_of_startsIdent {c : Char} (hc : startsIdent c = true) : c ≠ ':' :=
  ne_colon_of_continuesIdent (continuesIdent_of_startsIdent hc)

theorem IsIdent.singleton {c : Char} (hc : startsIdent c = true) : IsIdent [c] :=
  .mk hc fun _ hd => absurd hd List.not_mem_nil

theorem IsIdent.append_singleton
    {w : List Char} (hw : IsIdent w) {c : Char} (hc : continuesIdent c = true) :
    IsIdent (w ++ [c]) := by
  obtain ⟨hstart, hrest⟩ := hw
  refine .mk hstart fun d hd => ?_
  rcases List.mem_append.1 hd with hd | hd
  · exact hrest d hd
  · exact List.mem_singleton.1 hd ▸ hc

/-- What is read behind an identifier carries it on to a whole path. -/
theorem isScoped_of_isNameRest
    {w cs : List Char} (hw : IsIdent w) (h : isNameRest cs = true) :
    IsScoped (w ++ cs) := by
  induction cs using isNameRest.induct generalizing w with
  | case1 =>
      rw [List.append_nil]
      exact .ident hw
  | case2 c cs ih =>
      simp only [isNameRest, Bool.and_eq_true] at h
      exact .scope hw (ih (.singleton h.1) h.2)
  | case3 c cs hplain ih =>
      rw [isNameRest.eq_3 c cs hplain, Bool.and_eq_true] at h
      have := ih (hw.append_singleton h.1) h.2
      simpa using this

theorem isNameRest_cons
    {c : Char} (hc : continuesIdent c = true) (cs : List Char) :
    isNameRest (c :: cs) = isNameRest cs := by
  have hcolon := ne_colon_of_continuesIdent hc
  rw [isNameRest.eq_3 c cs fun _ _ h => absurd h hcolon, hc, Bool.true_and]

theorem isNameRest_append
    {w : List Char} (hw : ∀ c ∈ w, continuesIdent c = true) (cs : List Char) :
    isNameRest (w ++ cs) = isNameRest cs := by
  induction w with
  | nil => rfl
  | cons c w ih =>
      rw [List.cons_append, isNameRest_cons (hw c List.mem_cons_self),
        ih fun d hd => hw d (List.mem_cons_of_mem c hd)]

theorem isPath_iff {w : List Char} : isPath w = true ↔ IsScoped w := by
  constructor
  · intro h
    cases w with
    | nil => exact absurd h (by decide)
    | cons c w =>
        simp only [isPath, Bool.and_eq_true] at h
        exact isScoped_of_isNameRest (.singleton h.1) h.2
  · intro h
    induction h with
    | ident hw =>
        obtain ⟨hstart, hrest⟩ := hw
        have htail := isNameRest_append hrest []
        rw [List.append_nil] at htail
        simp [isPath, hstart, htail, isNameRest]
    | @scope w v hw hv ih =>
        obtain ⟨hstart, hrest⟩ := hw
        cases v with
        | nil => exact absurd ih (by decide)
        | cons d v => simpa [isPath, hstart, isNameRest_append hrest, isNameRest] using ih

theorem isName_iff {w : List Char} : isName w = true ↔ IsTypeName w := by
  constructor
  · intro h
    unfold isName at h
    split at h
    · exact .absolute (isPath_iff.1 h)
    · exact .relative (isPath_iff.1 h)
  · rintro (hw | hw)
    · have hpath := isPath_iff.2 hw
      match w, hpath with
      | c :: w, hpath =>
          have hcolon : c ≠ ':' := by
            simp only [isPath, Bool.and_eq_true] at hpath
            exact ne_colon_of_startsIdent hpath.1
          rw [isName.eq_2 (c :: w) fun _ h => hcolon (List.cons.inj h).1]
          exact hpath
    · exact isPath_iff.2 hw

theorem isNameChar_of_continuesIdent {c : Char} (hc : continuesIdent c = true) :
    isNameChar c = true := by
  simp [isNameChar, hc]

theorem IsIdent.all_isNameChar {w : List Char} (hw : IsIdent w) : ∀ c ∈ w, isNameChar c = true := by
  obtain ⟨hstart, hrest⟩ := hw
  intro c hc
  rcases List.mem_cons.1 hc with rfl | hc
  · exact isNameChar_of_continuesIdent (continuesIdent_of_startsIdent hstart)
  · exact isNameChar_of_continuesIdent (hrest c hc)

theorem IsScoped.all_isNameChar
    {w : List Char} (hw : IsScoped w) : ∀ c ∈ w, isNameChar c = true := by
  induction hw with
  | ident hw => exact hw.all_isNameChar
  | scope hw hv ih =>
      intro c hc
      simp only [List.mem_append, List.mem_cons] at hc
      rcases hc with hc | rfl | rfl | hc
      · exact hw.all_isNameChar c hc
      · decide
      · decide
      · exact ih c hc

theorem IsTypeName.all_isNameChar
    {w : List Char} (hw : IsTypeName w) : ∀ c ∈ w, isNameChar c = true := by
  rcases hw with hw | hw
  · exact hw.all_isNameChar
  · intro c hc
    simp only [List.mem_cons] at hc
    rcases hc with rfl | rfl | hc
    · decide
    · decide
    · exact hw.all_isNameChar c hc

theorem IsTypeName.ne_nil {w : List Char} (hw : IsTypeName w) : w ≠ [] := by
  rintro rfl
  exact absurd (isName_iff.2 hw) (by decide)

/-! ## White space and lexemes -/

def IsWhite (w : List Char) : Prop :=
  ∀ c ∈ w, Text.isWhiteSpace c = true

/-- The texts that spell a token. -/
inductive Token.Spells : Token → List Char → Prop
  | name {w : List Char} : IsTypeName w → Spells (.name (String.ofList w)) w
  | comma : Spells .comma [',']
  | openList : Spells .openList ['<']
  | closeList : Spells .closeList ['>']
  | openHash : Spells .openHash ['\x7b']
  | arrow : Spells .arrow ['=', '>']
  | closeHash : Spells .closeHash ['\x7d']

/-- Tokens that are no names. -/
def Token.isMark : Token → Bool
  | .name _ => false
  | _ => true

/-- A token with any white space in front of it. -/
inductive Token.Reads (t : Token) : List Char → Prop
  | mk {blank mark : List Char} : IsWhite blank → t.Spells mark → t.Reads (blank ++ mark)

/-- A text made of tokens, with white space in front of each and at the end. -/
inductive Lexemes : List Char → List Token → Prop
  | nil {w : List Char} : IsWhite w → Lexemes w []
  | cons {w v : List Char} {t : Token} {ts : List Token} :
      t.Reads w → Lexemes v ts → Lexemes (w ++ v) (t :: ts)

/-! ## Reading finds lexemes -/

theorem spells_of_punctuation?
    {cs rest : List Char} {t : Token} (h : punctuation? cs = some (t, rest)) :
    ∃ w, cs = w ++ rest ∧ t.Spells w := by
  unfold punctuation? at h
  split at h <;> simp only [Option.some.injEq, Prod.mk.injEq, reduceCtorEq] at h
  all_goals obtain ⟨rfl, rfl⟩ := h
  · exact ⟨[','], rfl, .comma⟩
  · exact ⟨['<'], rfl, .openList⟩
  · exact ⟨['>'], rfl, .closeList⟩
  · exact ⟨['\x7b'], rfl, .openHash⟩
  · exact ⟨['\x7d'], rfl, .closeHash⟩
  · exact ⟨['=', '>'], rfl, .arrow⟩

theorem spells_of_leadingName?
    {cs rest : List Char} {t : Token} (h : leadingName? cs = some (t, rest)) :
    ∃ w, cs = w ++ rest ∧ t.Spells w := by
  simp only [leadingName?, Option.ite_none_right_eq_some, Option.some.injEq, Prod.mk.injEq] at h
  obtain ⟨hname, rfl, rfl⟩ := h
  exact ⟨_, List.takeWhile_append_dropWhile.symm, .name (isName_iff.1 hname)⟩

theorem Token.spells_of_next?
    {cs rest : List Char} {t : Token} (h : Token.next? cs = some (t, rest)) :
    ∃ w, cs = w ++ rest ∧ t.Spells w := by
  rcases Option.or_eq_some_iff.1 h with h | ⟨-, h⟩
  · exact spells_of_punctuation? h
  · exact spells_of_leadingName? h

theorem tokens?_of_next?
    {cs rest : List Char} {t : Token} (h : Token.next? (Text.trimStart cs) = some (t, rest)) :
    tokens? cs = (tokens? rest).map (t :: ·) := by
  have hne : Text.trimStart cs ≠ [] := by
    intro hnil
    have hnone : Token.next? [] = none := rfl
    rw [hnil, hnone] at h
    exact absurd h (by simp)
  rw [tokens?, if_neg hne]
  split
  · rename_i hnone
    exact absurd (h.symm.trans hnone) (by simp)
  · rename_i hsome
    obtain ⟨rfl, rfl⟩ := Prod.mk.inj (Option.some.inj (h.symm.trans hsome))
    rfl

theorem IsWhite.tokens?_eq {w : List Char} (hw : IsWhite w) : tokens? w = some [] := by
  have hblank : Text.trimStart w = [] := List.dropWhile_eq_nil_iff.2 hw
  rw [tokens?, if_pos hblank]

/-- A text that is read into tokens is made of them. -/
theorem lexemes_of_tokens?
    {cs : List Char} {ts : List Token} (h : tokens? cs = some ts) :
    Lexemes cs ts := by
  induction cs using tokens?.induct generalizing ts with
  | case1 cs hblank =>
      have hwhite : IsWhite cs := List.dropWhile_eq_nil_iff.1 hblank
      obtain rfl := Option.some.inj (hwhite.tokens?_eq.symm.trans h)
      exact .nil hwhite
  | case2 cs hrest hnext =>
      rw [tokens?, if_neg hrest] at h
      split at h
      · exact absurd h (by simp)
      · rename_i hsome
        exact absurd (hnext.symm.trans hsome) (by simp)
  | case3 cs hrest t rest hnext ih =>
      rw [tokens?_of_next? hnext] at h
      obtain ⟨us, hus, rfl⟩ := Option.map_eq_some_iff.1 h
      obtain ⟨mark, hmark, hspells⟩ := Token.spells_of_next? hnext
      have hwhite : IsWhite (cs.takeWhile Text.isWhiteSpace) := fun _ => List.mem_takeWhile_imp
      have hcs : cs = cs.takeWhile Text.isWhiteSpace ++ mark ++ rest := by
        rw [List.append_assoc, ← hmark]
        exact List.takeWhile_append_dropWhile.symm
      rw [hcs]
      exact .cons (.mk hwhite hspells) (ih hus)

/-! ## Lexemes are found -/

/-- A text that runs on from no name. -/
def Apart (rest : List Char) : Prop :=
  ∀ c ∈ rest.head?, isNameChar c = false

theorem not_isWhiteSpace_of_isNameChar {c : Char} (hc : isNameChar c = true) :
    Text.isWhiteSpace c = false := by
  simp only [isNameChar, continuesIdent, Bool.or_eq_true, beq_iff_eq] at hc
  rcases hc with (hc | rfl) | rfl
  · have := Text.toNat_of_isAlphanum hc
    simp only [Text.isWhiteSpace, Bool.or_eq_false_iff, Bool.and_eq_false_iff,
      decide_eq_false_iff_not, beq_eq_false_iff_ne]
    omega
  · decide
  · decide

theorem not_isNameChar_of_isWhiteSpace {c : Char} (hc : Text.isWhiteSpace c = true) :
    isNameChar c = false := by
  cases hname : isNameChar c with
  | false => rfl
  | true => exact absurd (not_isWhiteSpace_of_isNameChar hname) (by simp [hc])

theorem IsWhite.apart_append {w : List Char} (hw : IsWhite w) {rest : List Char}
    (hrest : Apart rest) :
    Apart (w ++ rest) := by
  cases w with
  | nil => exact hrest
  | cons c w =>
      intro d hd
      obtain rfl := Option.some.inj hd
      exact not_isNameChar_of_isWhiteSpace (hw c List.mem_cons_self)

theorem IsWhite.apart {w : List Char} (hw : IsWhite w) : Apart w := by
  have hnil : Apart [] := by simp [Apart]
  simpa using hw.apart_append hnil

/-- Every token but a name keeps a name apart from what follows it. -/
theorem Token.Reads.apart_append
    {t : Token} {w : List Char} (hw : t.Reads w) (ht : t.isMark = true)
    (rest : List Char) :
    Apart (w ++ rest) := by
  obtain ⟨hblank, hmark⟩ := hw
  rw [List.append_assoc]
  apply hblank.apart_append
  cases hmark with
  | name hname => exact Bool.noConfusion ht
  | comma | openList | closeList | openHash | arrow | closeHash =>
      intro c hc
      obtain rfl := Option.some.inj hc
      decide

/-- No white space begins the spelling of a token. -/
theorem Token.Spells.exists_cons
    {t : Token} {w : List Char} (hw : t.Spells w) :
    ∃ c cs, w = c :: cs ∧ Text.isWhiteSpace c = false := by
  cases hw with
  | name hname =>
      obtain ⟨c, cs, rfl⟩ := List.exists_cons_of_ne_nil hname.ne_nil
      exact ⟨c, cs, rfl,
        not_isWhiteSpace_of_isNameChar (hname.all_isNameChar c List.mem_cons_self)⟩
  | comma | openList | closeList | openHash | arrow | closeHash => exact ⟨_, _, rfl, by decide⟩

theorem punctuation?_eq_none
    {c : Char} (hc : isNameChar c = true) (cs : List Char) :
    punctuation? (c :: cs) = none := by
  unfold punctuation?
  split
  case h_7 => rfl
  all_goals
    rename_i heq
    obtain ⟨rfl, -⟩ := List.cons.inj heq
    exact absurd hc (by decide)

theorem leadingName?_append
    {w : List Char} (hw : IsTypeName w) {rest : List Char} (hrest : Apart rest) :
    leadingName? (w ++ rest) = some (.name (String.ofList w), rest) := by
  have hstop : rest.takeWhile isNameChar = [] ∧ rest.dropWhile isNameChar = rest := by
    cases rest with
    | nil => exact ⟨rfl, rfl⟩
    | cons c rest => simp [hrest c rfl]
  have hall := hw.all_isNameChar
  simp [leadingName?, List.takeWhile_append_of_pos hall, List.dropWhile_append_of_pos hall, hstop,
    isName_iff.2 hw]

theorem Token.Spells.next?_append
    {t : Token} {w : List Char} (hw : t.Spells w) {rest : List Char}
    (hrest : t.isMark = true ∨ Apart rest) :
    Token.next? (w ++ rest) = some (t, rest) := by
  cases hw with
  | name hname =>
      have hapart : Apart rest := hrest.resolve_left fun h => Bool.noConfusion h
      obtain ⟨c, cs, rfl⟩ := List.exists_cons_of_ne_nil hname.ne_nil
      have hnone := punctuation?_eq_none (hname.all_isNameChar c List.mem_cons_self) (cs ++ rest)
      rw [Token.next?, List.cons_append, hnone, Option.none_or, ← List.cons_append,
        leadingName?_append hname hapart]
  | comma | openList | closeList | openHash | arrow | closeHash => rfl

/-- A token is read wherever it stands, a name only where it stops. -/
theorem Token.Reads.tokens?_append
    {t : Token} {w : List Char} (hw : t.Reads w) {rest : List Char}
    (hrest : t.isMark = true ∨ Apart rest) :
    tokens? (w ++ rest) = (tokens? rest).map (t :: ·) := by
  obtain ⟨hblank, hmark⟩ := hw
  apply tokens?_of_next?
  obtain ⟨c, cs, rfl, hc⟩ := hmark.exists_cons
  rw [Text.trimStart, List.append_assoc, List.dropWhile_append_of_pos hblank, List.cons_append,
    List.dropWhile_cons_of_neg (by simp [hc])]
  exact hmark.next?_append hrest

end Caret.TypeExpr
