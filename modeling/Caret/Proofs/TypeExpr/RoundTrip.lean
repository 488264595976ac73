import Caret.Proofs.TypeExpr.Grammar
import Caret.TypeExpr.Printer

/-!
# Written types are read back

The written form of a type is in the grammar of type strings as soon as the
type could have been read at all: it is a union, no union in it is empty, no
parameter is undefined, and its names are type names.  Reading such a form
gives the type again, and reading any text gives such a type or none.
-/

namespace Caret.TypeExpr

/-! ## Types that can be written -/

mutual

/-- A union of one or more alternatives whose names are type names, and whose
parameters are such unions again. -/
def WellFormed (t : TypeExpr) : Prop :=
  match t with
  | .undefined => False
  | .union items => items ≠ [] ∧ AllWellFormed items
termination_by structural t

def Alternative.WellFormed (a : Alternative) : Prop :=
  match a with
  | .mk name parameters => IsTypeName name.toList ∧ parameters.WellFormed
termination_by structural a

def Parameters.WellFormed (p : Parameters) : Prop :=
  match p with
  | .plain => True
  | .list element => element.WellFormed
  | .hash key value => key.WellFormed ∧ value.WellFormed
termination_by structural p

def AllWellFormed (items : List Alternative) : Prop :=
  match items with
  | [] => True
  | a :: rest => a.WellFormed ∧ AllWellFormed rest
termination_by structural items

end

theorem not_wellFormed_undefined : ¬(TypeExpr.undefined).WellFormed := by
  simp [WellFormed]

theorem wellFormed_union_iff {items : List Alternative} :
    (TypeExpr.union items).WellFormed ↔ items ≠ [] ∧ AllWellFormed items := by
  simp [WellFormed]

/-! ## White space in front -/

theorem IsWhite.append {v w : List Char} (hv : IsWhite v) (hw : IsWhite w) :
    IsWhite (v ++ w) := by
  intro c hc
  rcases List.mem_append.1 hc with hc | hc
  · exact hv c hc
  · exact hw c hc

theorem isWhite_nil : IsWhite [] := by simp [IsWhite]

theorem Token.Spells.reads {t : Token} {w : List Char} (hw : t.Spells w) : t.Reads w :=
  .mk isWhite_nil hw

theorem Token.Reads.blank_append
    {t : Token} {blank w : List Char} (hblank : IsWhite blank) (hw : t.Reads w) :
    t.Reads (blank ++ w) := by
  obtain ⟨hblank', hmark⟩ := hw
  rw [← List.append_assoc]
  exact .mk (hblank.append hblank') hmark

theorem SpellsAlternative.blank_append
    {blank w : List Char} {a : Alternative} (hblank : IsWhite blank)
    (hw : SpellsAlternative w a) :
    SpellsAlternative (blank ++ w) a := by
  cases hw with
  | plain hname => exact .plain (hname.blank_append hblank)
  | list hname hopening hitems hclosing =>
      rw [← List.append_assoc]
      exact .list (hname.blank_append hblank) hopening hitems hclosing
  | hash hname hopening hkeys harrow hvalues hclosing =>
      rw [← List.append_assoc]
      exact .hash (hname.blank_append hblank) hopening hkeys harrow hvalues hclosing

theorem SpellsUnion.blank_append
    {blank w : List Char} {items : List Alternative} (hblank : IsWhite blank)
    (hw : SpellsUnion w items) :
    SpellsUnion (blank ++ w) items := by
  cases hw with
  | last ha => exact .last (ha.blank_append hblank)
  | cons ha hcomma hitems =>
      rw [← List.append_assoc]
      exact .cons (ha.blank_append hblank) hcomma hitems

/-! ## The written form is in the grammar -/

theorem isWhite_space : IsWhite [' '] := by
  intro c hc
  rw [List.mem_singleton.1 hc]
  decide

theorem spellsAlternative_list
    {name : String} {v : List Char} {items : List Alternative} (hname : IsTypeName name.toList)
    (hv : SpellsUnion v items) :
    SpellsAlternative (name.toList ++ ('<' :: v ++ ['>'])) (.mk name (.list (.union items))) := by
  have hreads : (Token.name name).Reads name.toList := by
    simpa using (Token.Spells.name hname).reads
  have h := SpellsAlternative.list hreads Token.Spells.openList.reads hv
    Token.Spells.closeList.reads
  simpa using h

theorem spellsAlternative_hash
    {name : String} {u v : List Char} {keys values : List Alternative}
    (hname : IsTypeName name.toList) (hu : SpellsUnion u keys) (hv : SpellsUnion v values) :
    SpellsAlternative (name.toList ++ ('\x7b' :: u ++ " => ".toList ++ v ++ ['\x7d']))
      (.mk name (.hash (.union keys) (.union values))) := by
  have hreads : (Token.name name).Reads name.toList := by
    simpa using (Token.Spells.name hname).reads
  have h := SpellsAlternative.hash hreads Token.Spells.openHash.reads hu
    (Token.Spells.arrow.reads.blank_append isWhite_space) (hv.blank_append isWhite_space)
    Token.Spells.closeHash.reads
  simpa using h

mutual

theorem spellsAlternative_render (a : Alternative) (ha : a.WellFormed) :
    SpellsAlternative a.render a := by
  match a with
  | .mk name .plain =>
      obtain ⟨hname, -⟩ := ha
      simp only [Alternative.render, Parameters.render, List.append_nil]
      apply SpellsAlternative.plain
      simpa using (Token.Spells.name hname).reads
  | .mk name (.list .undefined) => exact ha.2.elim
  | .mk name (.list (.union items)) =>
      obtain ⟨hname, hne, hitems⟩ := ha
      exact spellsAlternative_list hname (spellsUnion_renderAll items hne hitems)
  | .mk name (.hash .undefined value) => exact ha.2.1.elim
  | .mk name (.hash (.union keys) .undefined) => exact ha.2.2.elim
  | .mk name (.hash (.union keys) (.union values)) =>
      obtain ⟨hname, ⟨hkeysne, hkeys⟩, hvaluesne, hvalues⟩ := ha
      exact spellsAlternative_hash hname (spellsUnion_renderAll keys hkeysne hkeys)
        (spellsUnion_renderAll values hvaluesne hvalues)

theorem spellsUnion_renderAll
    (items : List Alternative) (hne : items ≠ []) (hitems : AllWellFormed items) :
    SpellsUnion (renderAll items) items := by
  match items with
  | [] => exact absurd rfl hne
  | [a] => exact .last (spellsAlternative_render a hitems.1)
  | a :: b :: rest =>
      obtain ⟨ha, hrest⟩ := hitems
      have hspells := spellsUnion_renderAll (b :: rest) (List.cons_ne_nil b rest) hrest
      have hblank := hspells.blank_append isWhite_space
      have h := SpellsUnion.cons (spellsAlternative_render a ha) Token.Spells.comma.reads hblank
      simpa [renderAll] using h

end

/-! ## What is read is well formed -/

theorem Token.Reads.isTypeName {name : String} {w : List Char} (hw : (Token.name name).Reads w) :
    IsTypeName name.toList := by
  obtain ⟨-, hmark⟩ := hw
  cases hmark with
  | name hname => rwa [String.toList_ofList]

mutual

theorem SpellsUnion.wellFormed
    {w : List Char} {items : List Alternative} (h : SpellsUnion w items) :
    items ≠ [] ∧ AllWellFormed items := by
  match h with
  | .last ha => exact ⟨List.cons_ne_nil _ _, ha.wellFormed, trivial⟩
  | .cons ha _ hitems => exact ⟨List.cons_ne_nil _ _, ha.wellFormed, hitems.wellFormed.2⟩

theorem SpellsAlternative.wellFormed
    {w : List Char} {a : Alternative} (h : SpellsAlternative w a) :
    a.WellFormed := by
  match h with
  | .plain hname => exact ⟨hname.isTypeName, trivial⟩
  | .list hname _ hitems _ => exact ⟨hname.isTypeName, hitems.wellFormed⟩
  | .hash hname _ hkeys _ hvalues _ =>
      exact ⟨hname.isTypeName, hkeys.wellFormed, hvalues.wellFormed⟩

end

theorem Spells.wellFormed {cs : List Char} {items : List Alternative} (h : Spells cs items) :
    (TypeExpr.union items).WellFormed := by
  obtain ⟨hw, -⟩ := h
  exact wellFormed_union_iff.2 hw.wellFormed

/-! ## Reading and writing -/

theorem parse_eq_union_iff {s : String} {items : List Alternative} :
    parse s = .union items ↔ Spells s.toList items := by
  rw [← alternatives?_eq_some_iff, parse]
  cases alternatives? s.toList with
  | none => simp
  | some items' => simp

theorem wellFormed_of_parse_eq {s : String} {t : TypeExpr} (h : parse s = t)
    (ht : t.isDefined = true) :
    t.WellFormed := by
  cases t with
  | undefined => exact absurd ht (by simp [isDefined])
  | union items => exact (parse_eq_union_iff.1 h).wellFormed

theorem parse_text {t : TypeExpr} (ht : t.WellFormed) : parse t.text = t := by
  cases t with
  | undefined => exact absurd ht not_wellFormed_undefined
  | union items =>
      obtain ⟨hne, hitems⟩ := wellFormed_union_iff.1 ht
      have hspells := Spells.mk (spellsUnion_renderAll items hne hitems) isWhite_nil
      rw [List.append_nil] at hspells
      apply parse_eq_union_iff.2
      rwa [text, String.toList_ofList, render_union]

theorem isDefined_of_wellFormed {t : TypeExpr} (ht : t.WellFormed) : t.isDefined = true := by
  cases t with
  | undefined => exact absurd ht not_wellFormed_undefined
  | union items => rfl

/-- The word for the undefined type is a type name, so it reads as a type. -/
theorem parse_text_undefined : parse (text .undefined) = .ofName "undefined" := by
  have hname : IsTypeName "undefined".toList := isName_iff.1 (by decide)
  have hwell : (TypeExpr.ofName "undefined").WellFormed :=
    wellFormed_union_iff.2 ⟨List.cons_ne_nil _ _, ⟨hname, trivial⟩, trivial⟩
  have htext : text .undefined = text (.ofName "undefined") := by
    simp only [text, render_undefined, ofName, render_union, renderAll, Alternative.ofName,
      Alternative.render, Parameters.render, List.append_nil]
  rw [htext]
  exact parse_text hwell

/-- A type is well formed just when it is defined and its written form is read
back as the type itself.  The type read from a text is defined just when its
written form is read as the same type again. -/
theorem wellFormed_iff_parse_text :
    (∀ t : TypeExpr, t.WellFormed ↔ t.isDefined = true ∧ parse t.text = t) ∧
      ∀ s : String, (parse s).isDefined = true ↔ parse (parse s).text = parse s := by
  constructor
  · intro t
    constructor
    · intro ht
      exact ⟨isDefined_of_wellFormed ht, parse_text ht⟩
    · rintro ⟨hdefined, hparse⟩
      exact wellFormed_of_parse_eq hparse hdefined
  · intro s
    constructor
    · intro hdefined
      exact parse_text (wellFormed_of_parse_eq rfl hdefined)
    · intro h
      cases hs : parse s with
      | undefined =>
          rw [hs, parse_text_undefined] at h
          exact TypeExpr.noConfusion h
      | union items => rfl

end Caret.TypeExpr
