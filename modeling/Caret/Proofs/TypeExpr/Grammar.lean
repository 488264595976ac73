import Caret.Proofs.TypeExpr.Lexeme
import Caret.TypeExpr.Parser

/-!
# The grammar of type expressions

Type strings are given by a grammar over their characters, and the parser is
shown to accept the texts of the grammar and no others.  The grammar leaves
white space in front of every token and at the end, and a text in it has one
reading.
-/

namespace Caret.TypeExpr

/-! ## The grammar -/

mutual

/-- Texts of alternatives separated by commas. -/
inductive SpellsUnion : List Char → List Alternative → Prop
  | last {w : List Char} {a : Alternative} : SpellsAlternative w a → SpellsUnion w [a]
  | cons {w comma v : List Char} {a : Alternative} {items : List Alternative} :
      SpellsAlternative w a → Token.comma.Reads comma → SpellsUnion v items →
        SpellsUnion (w ++ (comma ++ v)) (a :: items)

/-- Texts of one alternative: a name alone, with an element type, or with a key
and a value type. -/
inductive SpellsAlternative : List Char → Alternative → Prop
  | plain {w : List Char} {name : String} :
      (Token.name name).Reads w → SpellsAlternative w (.mk name .plain)
  | list {w opening v closing : List Char} {name : String} {items : List Alternative} :
      (Token.name name).Reads w → Token.openList.Reads opening → SpellsUnion v items →
        Token.closeList.Reads closing →
          SpellsAlternative (w ++ (opening ++ (v ++ closing))) (.mk name (.list (.union items)))
  | hash {w opening u arrow v closing : List Char} {name : String}
      {keys values : List Alternative} :
      (Token.name name).Reads w → Token.openHash.Reads opening → SpellsUnion u keys →
        Token.arrow.Reads arrow → SpellsUnion v values → Token.closeHash.Reads closing →
          SpellsAlternative (w ++ (opening ++ (u ++ (arrow ++ (v ++ closing)))))
            (.mk name (.hash (.union keys) (.union values)))

end

/-- Texts of alternatives, with white space at the end. -/
inductive Spells : List Char → List Alternative → Prop
  | mk {w blank : List Char} {items : List Alternative} :
      SpellsUnion w items → IsWhite blank → Spells (w ++ blank) items

/-! ## Whatever is read is in the grammar -/

/-- A reader of unions takes off the beginning of a text what spells the
alternatives that it finds. -/
def ReadsUnions (union? : List Token → Option (List Alternative × List Token)) : Prop :=
  ∀ {ts us : List Token} {items : List Alternative} {cs : List Char},
    union? ts = some (items, us) → Lexemes cs ts →
      ∃ w v, cs = w ++ v ∧ SpellsUnion w items ∧ Lexemes v us

/-- What stands behind a name is nothing, an element type or a key and a value
type. -/
theorem Parameters.read?_cases
    {union? : List Token → Option (List Alternative × List Token)} {ts us : List Token}
    {parameters : Parameters} (h : Parameters.read? union? ts = some (parameters, us)) :
    (parameters = .plain ∧ ts = us) ∨
      (∃ items ts', parameters = .list (.union items) ∧ ts = .openList :: ts' ∧
        union? ts' = some (items, .closeList :: us)) ∨
      ∃ keys values ts' us', parameters = .hash (.union keys) (.union values) ∧
        ts = .openHash :: ts' ∧ union? ts' = some (keys, .arrow :: us') ∧
          union? us' = some (values, .closeHash :: us) := by
  unfold Parameters.read? at h
  split at h
  · rename_i ts
    obtain ⟨⟨items, ts₁⟩, hitems, h⟩ := Option.bind_eq_some_iff.1 h
    dsimp only at h
    split at h
    · obtain ⟨rfl, rfl⟩ := Prod.mk.inj (Option.some.inj h)
      exact Or.inr (Or.inl ⟨items, ts, rfl, rfl, hitems⟩)
    · exact absurd h (by simp)
  · rename_i ts
    obtain ⟨⟨keys, ts₁⟩, hkeys, h⟩ := Option.bind_eq_some_iff.1 h
    dsimp only at h
    split at h
    · rename_i ts₂
      obtain ⟨⟨values, ts₃⟩, hvalues, h⟩ := Option.bind_eq_some_iff.1 h
      dsimp only at h
      split at h
      · obtain ⟨rfl, rfl⟩ := Prod.mk.inj (Option.some.inj h)
        exact Or.inr (Or.inr ⟨keys, values, ts, ts₂, rfl, rfl, hkeys, hvalues⟩)
      · exact absurd h (by simp)
    · exact absurd h (by simp)
  · obtain ⟨rfl, rfl⟩ := Prod.mk.inj (Option.some.inj h)
    exact Or.inl ⟨rfl, rfl⟩

/-- A union is an alternative, alone or in front of a comma and a union. -/
theorem readAll?_cases
    {fuel : Nat} {ts us : List Token} {items : List Alternative}
    (h : readAll? (fuel + 1) ts = some (items, us)) :
    ∃ name parameters ts', ts = .name name :: ts' ∧
      ((items = [.mk name parameters] ∧
          Parameters.read? (readAll? fuel) ts' = some (parameters, us)) ∨
        ∃ rest us', items = .mk name parameters :: rest ∧
          Parameters.read? (readAll? fuel) ts' = some (parameters, .comma :: us') ∧
            readAll? fuel us' = some (rest, us)) := by
  unfold readAll? at h
  split at h
  · rename_i name ts heq
    obtain rfl := Nat.succ.inj heq
    obtain ⟨⟨parameters, ts₁⟩, hparameters, h⟩ := Option.bind_eq_some_iff.1 h
    dsimp only at h
    refine ⟨name, parameters, ts, rfl, ?_⟩
    split at h
    · rename_i us'
      obtain ⟨⟨rest, ts₂⟩, hrest, h⟩ := Option.bind_eq_some_iff.1 h
      obtain ⟨rfl, rfl⟩ := Prod.mk.inj (Option.some.inj h)
      exact Or.inr ⟨rest, us', rfl, hparameters, hrest⟩
    · obtain ⟨rfl, rfl⟩ := Prod.mk.inj (Option.some.inj h)
      exact Or.inl ⟨rfl, hparameters⟩
  · exact absurd h (by simp)

theorem spellsAlternative_of_read?
    {union? : List Token → Option (List Alternative × List Token)} (hunion : ReadsUnions union?)
    {ts us : List Token} {parameters : Parameters}
    (h : Parameters.read? union? ts = some (parameters, us)) {cs : List Char}
    (hcs : Lexemes cs ts) {w : List Char} {name : String} (hw : (Token.name name).Reads w) :
    ∃ v rest, cs = v ++ rest ∧ SpellsAlternative (w ++ v) (.mk name parameters) ∧
      Lexemes rest us := by
  rcases Parameters.read?_cases h with
    ⟨rfl, rfl⟩ | ⟨items, ts', rfl, rfl, hitems⟩ | ⟨keys, values, ts', us', rfl, rfl, hkeys, hvalues⟩
  · exact ⟨[], cs, rfl, by rw [List.append_nil]; exact .plain hw, hcs⟩
  · obtain _ | @⟨opening, _, _, _, hopening, hrest⟩ := hcs
    obtain ⟨v, _, rfl, hv, hrest⟩ := hunion hitems hrest
    obtain _ | @⟨closing, rest, _, _, hclosing, hrest⟩ := hrest
    exact ⟨opening ++ (v ++ closing), rest, by simp, .list hw hopening hv hclosing, hrest⟩
  · obtain _ | @⟨opening, _, _, _, hopening, hrest⟩ := hcs
    obtain ⟨u, _, rfl, hu, hrest⟩ := hunion hkeys hrest
    obtain _ | @⟨arrow, _, _, _, harrow, hrest⟩ := hrest
    obtain ⟨v, _, rfl, hv, hrest⟩ := hunion hvalues hrest
    obtain _ | @⟨closing, rest, _, _, hclosing, hrest⟩ := hrest
    exact ⟨opening ++ (u ++ (arrow ++ (v ++ closing))), rest, by simp,
      .hash hw hopening hu harrow hv hclosing, hrest⟩

theorem readsUnions_readAll? (fuel : Nat) : ReadsUnions (readAll? fuel) := by
  induction fuel with
  | zero =>
      intro ts us items cs h
      simp [readAll?] at h
  | succ fuel ih =>
      intro ts us items cs h hcs
      obtain ⟨name, parameters, ts', rfl, hcases⟩ := readAll?_cases h
      obtain _ | @⟨w, _, _, _, hname, hrest⟩ := hcs
      rcases hcases with ⟨rfl, hparameters⟩ | ⟨items, us', rfl, hparameters, hitems⟩
      · obtain ⟨v, rest, rfl, halternative, hrest⟩ :=
          spellsAlternative_of_read? ih hparameters hrest hname
        exact ⟨w ++ v, rest, by simp, .last halternative, hrest⟩
      · obtain ⟨v, _, rfl, halternative, hrest⟩ :=
          spellsAlternative_of_read? ih hparameters hrest hname
        obtain _ | @⟨comma, _, _, _, hcomma, hrest⟩ := hrest
        obtain ⟨u, rest, rfl, hu, hrest⟩ := ih hitems hrest
        exact ⟨w ++ v ++ (comma ++ u), rest, by simp, .cons halternative hcomma hu, hrest⟩

/-! ## Whatever is in the grammar is read -/

/-- The tokens `ts` are read from a text wherever no name runs on behind it. -/
def Lexes (w : List Char) (ts : List Token) : Prop :=
  ∀ rest, Apart rest → tokens? (w ++ rest) = (tokens? rest).map (ts ++ ·)

theorem Token.Reads.lexes {t : Token} {w : List Char} (hw : t.Reads w) : Lexes w [t] :=
  fun _ hrest => hw.tokens?_append (Or.inr hrest)

theorem Lexes.append
    {w v : List Char} {ts us : List Token} (hw : Lexes w ts) (hv : Lexes v us)
    (hapart : ∀ rest, Apart (v ++ rest)) :
    Lexes (w ++ v) (ts ++ us) := by
  intro rest hrest
  rw [List.append_assoc, hw _ (hapart rest), hv rest hrest, Option.map_map]
  simp [Function.comp_def]

/-- What follows a mark may be anything. -/
theorem Token.Reads.lexes_append
    {t : Token} {w v : List Char} {ts : List Token} (hw : t.Reads w) (ht : t.isMark = true)
    (hv : Lexes v ts) :
    Lexes (w ++ v) (t :: ts) := by
  intro rest hrest
  rw [List.append_assoc, hw.tokens?_append (Or.inl ht), hv rest hrest, Option.map_map]
  simp [Function.comp_def]

theorem Token.Reads.apart_append_append
    {t : Token} {w : List Char} (hw : t.Reads w) (ht : t.isMark = true) (v rest : List Char) :
    Apart (w ++ v ++ rest) := by
  rw [List.append_assoc]
  exact hw.apart_append ht _

/-- Tokens that carry on no alternative. -/
def EndsAlternative (us : List Token) : Prop :=
  ∀ t ∈ us.head?, t ≠ .openList ∧ t ≠ .openHash

/-- Tokens that carry on no union. -/
def EndsUnion (us : List Token) : Prop :=
  EndsAlternative us ∧ ∀ t ∈ us.head?, t ≠ .comma

theorem endsAlternative_cons
    {t : Token} (ht : t ≠ .openList ∧ t ≠ .openHash) (us : List Token) :
    EndsAlternative (t :: us) := by
  intro u hu
  obtain rfl := Option.some.inj hu
  exact ht

theorem endsUnion_cons
    {t : Token} (ht : t ≠ .openList ∧ t ≠ .openHash ∧ t ≠ .comma) (us : List Token) :
    EndsUnion (t :: us) := by
  refine ⟨endsAlternative_cons ⟨ht.1, ht.2.1⟩ us, fun u hu => ?_⟩
  obtain rfl := Option.some.inj hu
  exact ht.2.2

theorem Parameters.read?_plain
    (union? : List Token → Option (List Alternative × List Token)) {us : List Token}
    (hus : EndsAlternative us) :
    Parameters.read? union? us = some (.plain, us) := by
  unfold Parameters.read?
  split
  · exact absurd rfl (hus _ rfl).1
  · exact absurd rfl (hus _ rfl).2
  · rfl

theorem readAll?_last
    {fuel : Nat} {name : String} {parameters : Parameters} {ts us : List Token}
    (h : Parameters.read? (readAll? fuel) ts = some (parameters, us))
    (hus : ∀ t ∈ us.head?, t ≠ .comma) :
    readAll? (fuel + 1) (.name name :: ts) = some ([.mk name parameters], us) := by
  rw [readAll?, h]
  simp only [Option.bind_eq_bind, Option.bind_some]
  split
  · exact absurd rfl (hus _ rfl)
  · rfl

theorem readAll?_comma
    {fuel : Nat} {name : String} {parameters : Parameters} {items : List Alternative}
    {ts us vs : List Token}
    (h : Parameters.read? (readAll? fuel) ts = some (parameters, .comma :: us))
    (hrest : readAll? fuel us = some (items, vs)) :
    readAll? (fuel + 1) (.name name :: ts) = some (.mk name parameters :: items, vs) := by
  simp [readAll?, h, hrest]

mutual

theorem SpellsUnion.exists_tokens
    {w : List Char} {items : List Alternative} (h : SpellsUnion w items) :
    ∃ ts, Lexes w ts ∧ ∀ fuel us, ts.length ≤ fuel → EndsUnion us →
      readAll? fuel (ts ++ us) = some (items, us) := by
  match h with
  | .last (a := .mk name parameters) ha =>
      obtain ⟨ts, hlexes, hread⟩ := ha.exists_tokens
      refine ⟨.name name :: ts, hlexes, ?_⟩
      -- The name alone takes a token, so the fuel cannot be used up here.
      rintro (_ | fuel) us hfuel hus
      · exact absurd hfuel (by simp)
      · have hlength : ts.length ≤ fuel := by simpa using hfuel
        exact readAll?_last (hread fuel us hlength hus.1) hus.2
  | .cons (a := .mk name parameters) ha hcomma hitems =>
      obtain ⟨ts₁, hlexes₁, hread₁⟩ := ha.exists_tokens
      obtain ⟨ts₂, hlexes₂, hread₂⟩ := hitems.exists_tokens
      refine ⟨.name name :: ts₁ ++ .comma :: ts₂,
        hlexes₁.append (hcomma.lexes_append rfl hlexes₂) (hcomma.apart_append_append rfl _), ?_⟩
      rintro (_ | fuel) us hfuel hus
      · exact absurd hfuel (by simp)
      · have hlength : ts₁.length + ts₂.length + 1 ≤ fuel := by
          simp only [List.length_append, List.length_cons] at hfuel
          omega
        have hparameters := hread₁ fuel (.comma :: (ts₂ ++ us)) (by omega)
          (endsAlternative_cons (by decide) _)
        have hrest := hread₂ fuel us (by omega) hus
        simpa using readAll?_comma hparameters hrest

/-- An alternative is lexed, and what stands behind its name is read from the
tokens there. -/
theorem SpellsAlternative.exists_tokens
    {w : List Char} {name : String} {parameters : Parameters}
    (h : SpellsAlternative w (.mk name parameters)) :
    ∃ ts, Lexes w (.name name :: ts) ∧ ∀ fuel us, ts.length ≤ fuel → EndsAlternative us →
      Parameters.read? (readAll? fuel) (ts ++ us) = some (parameters, us) := by
  match h with
  | .plain hname =>
      exact ⟨[], hname.lexes, fun fuel us _ hus => Parameters.read?_plain _ hus⟩
  | .list hname hopening hitems hclosing =>
      obtain ⟨ts, hlexes, hread⟩ := hitems.exists_tokens
      have hinner := hlexes.append hclosing.lexes (hclosing.apart_append rfl)
      refine ⟨.openList :: (ts ++ [.closeList]),
        hname.lexes.append (hopening.lexes_append rfl hinner)
          (hopening.apart_append_append rfl _), ?_⟩
      intro fuel us hfuel _
      have hlength : ts.length ≤ fuel := by
        simp only [List.length_cons, List.length_append] at hfuel
        omega
      have hitems := hread fuel (.closeList :: us) hlength (endsUnion_cons (by decide) us)
      simp [Parameters.read?, hitems]
  | .hash hname hopening hkeys harrow hvalues hclosing =>
      obtain ⟨ts₁, hlexes₁, hread₁⟩ := hkeys.exists_tokens
      obtain ⟨ts₂, hlexes₂, hread₂⟩ := hvalues.exists_tokens
      have hvalues := hlexes₂.append hclosing.lexes (hclosing.apart_append rfl)
      have hinner := hlexes₁.append (harrow.lexes_append rfl hvalues)
        (harrow.apart_append_append rfl _)
      refine ⟨.openHash :: (ts₁ ++ .arrow :: (ts₂ ++ [.closeHash])),
        hname.lexes.append (hopening.lexes_append rfl hinner)
          (hopening.apart_append_append rfl _), ?_⟩
      intro fuel us hfuel _
      have hlength : ts₁.length + ts₂.length ≤ fuel := by
        simp only [List.length_cons, List.length_append] at hfuel
        omega
      have hkeys := hread₁ fuel (.arrow :: (ts₂ ++ .closeHash :: us)) (by omega)
        (endsUnion_cons (by decide) _)
      have hvalues := hread₂ fuel (.closeHash :: us) (by omega) (endsUnion_cons (by decide) us)
      simp [Parameters.read?, hkeys, hvalues]

end

/-! ## The parser and the grammar -/

/-- A text spells alternatives just when they are read from it. -/
theorem alternatives?_eq_some_iff {cs : List Char} {items : List Alternative} :
    alternatives? cs = some items ↔ Spells cs items := by
  constructor
  · intro h
    obtain ⟨ts, htokens, hread⟩ := Option.bind_eq_some_iff.1 h
    unfold ofTokens? at hread
    split at hread
    · rename_i hall
      obtain rfl := Option.some.inj hread
      obtain ⟨w, _, rfl, hw, hrest⟩ := readsUnions_readAll? _ hall (lexemes_of_tokens? htokens)
      obtain hblank | _ := hrest
      exact .mk hw hblank
    · exact absurd hread (by simp)
  · rintro ⟨hw, hblank⟩
    obtain ⟨ts, hlexes, hread⟩ := hw.exists_tokens
    have htokens := hlexes _ hblank.apart
    have hall := hread ts.length [] (le_refl _) ⟨by simp [EndsAlternative], by simp⟩
    simp only [List.append_nil] at hall
    simp [alternatives?, htokens, hblank.tokens?_eq, ofTokens?, hall]

/-- A text is parsed as a union just when it spells its alternatives; it spells
those of one union at most, and is parsed as undefined if it spells none. -/
theorem parse_iff_spells (text : String) :
    (∀ items, parse text = .union items ↔ Spells text.toList items) ∧
      (∀ items items', Spells text.toList items → Spells text.toList items' → items = items') ∧
      (parse text = .undefined ↔ ∀ items, ¬Spells text.toList items) := by
  refine ⟨fun items => ?_, fun items items' h h' => ?_, ?_⟩
  · rw [← alternatives?_eq_some_iff, parse]
    cases alternatives? text.toList <;> simp
  · rw [← alternatives?_eq_some_iff] at h h'
    exact Option.some.inj (h.symm.trans h')
  · simp only [← alternatives?_eq_some_iff, parse]
    cases alternatives? text.toList <;> simp

end Caret.TypeExpr
