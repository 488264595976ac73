import Caret.Proofs.Text.Lines
import Caret.Proofs.Tree.EnclosingConstruct
import Caret.Proofs.Tree.Sites
import Caret.Proofs.Tree.Token

/-!
# Local variables where they are declared

The path of a local variable comes from a frame handed down the tree, the path of
the construct around a cursor from a search by spans.  At the name of a local
variable the two agree, and the variable is visible there, wherever names are
tokens, definitions start in front of the names declared in them, and no list of
parameters is a definition.
-/

namespace Caret

namespace Node

/-! ## The token at a name -/

/-- A node that starts before a token and ends behind the start of the token is above
it. -/
theorem above_of_around
    {source : List Char} {root m x : Node} (hroot : root.wellNested source = true)
    {a e : List Nat} (hx : root.at? a = some x) (hm : root.at? e = some m) (hleaf : x.children = [])
    (hwidth : x.start < x.stop) (hstart : m.start < x.start) (hstop : x.start < m.stop) :
    e <+: a ∧ e ≠ a := by
  have hne : e ≠ a := by
    rintro rfl
    obtain rfl := Option.some.inj (hx.symm.trans hm)
    exact absurd hstart (Nat.lt_irrefl _)
  refine ⟨?_, hne⟩
  by_contra hnot
  by_cases hback : a <+: e
  · exact hne (eq_of_childless_above hx hm hleaf hback).symm
  · have := apart_of_not_above hroot hm hx hnot hback
    omega

end Node

namespace Source

open Node

/-- Names of local variables are tokens with some width, no list of parameters is a
definition, and definitions start in front of the names declared in them. -/
structure WellDeclared (s : Source) : Prop where
  tokens : ∀ σ ∈ s.localSites, ∀ x, s.root.at? σ.place = some x →
    x.children = [] ∧ x.start < x.stop
  parameters : ∀ a x, s.root.at? a = some x → x.field = some "parameters" →
    x.isDefinition = false
  definitions : ∀ a n, s.root.at? a = some n → n.isDefinition = true →
    ∀ σ ∈ s.localSites, a <+: σ.owner → n.start < s.nameStart σ

theorem wellDeclared_iff {s : Source} :
    s.WellDeclared ↔
      (∀ σ ∈ s.localSites,
        (s.root.at? σ.place).all fun x => x.children.isEmpty && decide (x.start < x.stop)) ∧
      (∀ a ∈ s.root.places,
        (s.root.at? a).all fun x => x.field != some "parameters" || !x.isDefinition) ∧
      ∀ a ∈ s.root.definitionPlaces, ∀ σ ∈ s.localSites, a <+: σ.owner →
        (s.root.at? a).all fun n => decide (n.start < s.nameStart σ) := by
  simp only [Option.all_eq_true, Bool.and_eq_true, List.isEmpty_iff, decide_eq_true_eq,
    Bool.or_eq_true, bne_iff_ne, Bool.not_eq_true', mem_definitionPlaces_iff]
  constructor
  · rintro ⟨htokens, hparameters, hdefinitions⟩
    refine ⟨htokens, fun a _ x hx => ?_, ?_⟩
    · exact or_iff_not_imp_left.2 fun h => hparameters a x hx (not_not.1 h)
    · rintro a ⟨n, hn, hdefinition⟩ σ hσ habove m hm
      obtain rfl := Option.some.inj (hn.symm.trans hm)
      exact hdefinitions a n hn hdefinition σ hσ habove
  · rintro ⟨htokens, hparameters, hdefinitions⟩
    refine ⟨htokens, fun a x hx hfield => ?_, fun a n hn hdefinition σ hσ habove => ?_⟩
    · exact (hparameters a (mem_places_of_at? hx) x hx).resolve_left (not_not.2 hfield)
    · exact hdefinitions a ⟨n, hn, hdefinition⟩ σ hσ habove n hn

instance (s : Source) : Decidable s.WellDeclared :=
  decidable_of_iff _ wellDeclared_iff.symm

/-! ## Pins and the nodes that declare them -/

theorem exists_site_of_mem_localPins {s : Source} {p : LocalPin} (hp : p ∈ s.localPins) :
    ∃ σ ∈ s.localSites, ∃ x, s.root.at? σ.place = some x ∧ s.Declares σ.owner p ∧
      Names s.text p x := by
  obtain ⟨i, hi, rfl⟩ := List.getElem_of_mem hp
  have hlength := s.forall₂_localPins.length_eq
  exact ⟨_, List.getElem_mem (hlength ▸ hi), s.forall₂_localPins.get hi (hlength ▸ hi)⟩

theorem visibleFrom_of_declares
    {s : Source} (hs : s.root.wellNested s.text = true) {a : List Nat} {p : LocalPin}
    (hp : s.Declares a p) {n : Node} (hn : s.root.at? a = some n) {o : Nat}
    (ho : Text.IsBoundary s.text o) (hstart : n.start ≤ o) (hstop : o ≤ n.stop) :
    p.visibleFrom (Text.positionAt s.text o) = true := by
  obtain ⟨f, n', hvisit, -, hpresence⟩ := hp.spec
  obtain rfl := Option.some.inj (hn.symm.trans (at?_of_visit? hvisit))
  have hnstart := (wellNested_iff.1 (wellNested_at? hs hn).1).start_valid
  rw [LocalPin.visibleFrom, hpresence]
  rcases exists_nearest_or_none Frame.scopeEnd scopeEnd_of_opensNoScope hvisit with
    ⟨d, g, m, hd, hvisit', -⟩ | ⟨-, hend⟩
  · have hm := at?_of_visit? hvisit'
    have hinside := inside_of_above hs hm hn hd.above
    rw [hd.scopeEnd_eq hm hvisit, Text.contains_rangeBetween_iff hnstart
      (wellNested_iff.1 (wellNested_at? hs hm).1).stop_valid ho]
    omega
  · have htop : s.top.scopeEnd = Text.byteLength s.text :=
      Nat.max_eq_right (wellNested_iff.1 hs).stop_valid.le
    rw [hend, htop, Text.contains_rangeBetween_iff hnstart (Text.isBoundary_byteLength _) ho]
    exact ⟨hstart, ho.le⟩

/-! ## The construct at a name -/

/-- A definition around the start of a name is above the node that declares the
variable, or that node itself. -/
theorem above_owner_of_definesAround
    {s : Source} (hs : s.root.wellNested s.text = true) (hdeclared : s.WellDeclared)
    {σ : NameSite} (hσ : σ ∈ s.localSites) {e : List Nat} {m : Node} (hm : s.root.at? e = some m)
    (haround : m.definesAround (s.nameStart σ) = true) :
    e <+: σ.owner := by
  obtain ⟨n, x, hn, hnames, hx, hxplace⟩ := exists_name_of_mem_localSites hσ
  obtain ⟨hleaf, hwidth⟩ := hdeclared.tokens σ hσ x hxplace
  simp only [definesAround, Bool.and_eq_true, decide_eq_true_eq,
    nameStart_of_at? hxplace] at haround
  obtain ⟨⟨hdefinition, hstart⟩, hstop⟩ := haround
  obtain ⟨habove, hne⟩ := above_of_around hs hxplace hm hleaf hwidth hstart hstop
  rcases List.prefix_or_prefix_of_prefix habove (List.prefix_append σ.owner σ.below) with
    h | ⟨c, rfl⟩
  · exact h
  by_cases hc : c = []
  · rw [hc, List.append_nil]
  obtain ⟨b, hb⟩ := habove
  have hbelow : σ.below = c ++ b := by
    rw [NameSite.place, List.append_assoc] at hb
    exact (List.append_cancel_left hb).symm
  have hbne : b ≠ [] := by
    rintro rfl
    exact hne (by rw [← hb, List.append_nil])
  have hat : n.at? c = some m := by
    rw [at?_append, hn] at hm
    exact hm
  rcases hnames.between hbelow hc hbne hat with ⟨i, rfl, -, hi⟩ | hkind
  · have hfield : m.field = some "parameters" := by
      obtain ⟨hlt, hfield, -⟩ := List.findIdx?_eq_some_iff_getElem.1 hi
      obtain ⟨c, hc, hcm⟩ := at?_cons_eq_some_iff.1 hat
      obtain rfl := Option.some.inj hcm
      rw [List.getElem?_eq_getElem hlt] at hc
      obtain rfl := Option.some.inj hc
      exact beq_iff_eq.1 hfield
    exact absurd hdefinition (by simp [hdeclared.parameters _ m hm hfield])
  · have hall : ∀ kind ∈ namingKinds, kind ∉ definitionKinds := by decide
    simp only [isDefinition, Bool.and_eq_true, List.contains_iff_mem] at hdefinition
    exact absurd hdefinition.1 (hall m.kind hkind)

/-- At a name the construct has the path of the node that declares the variable. -/
theorem constructAt_nameStart
    {s : Source} (hs : s.root.wellNested s.text = true) (hspans : s.root.SpansApart)
    (hdeclared : s.WellDeclared) {σ : NameSite} (hσ : σ ∈ s.localSites) :
    (s.toBuffer.constructAt (s.nameStart σ)).closurePath = s.pathAt σ.owner := by
  obtain ⟨n, x, hn, -, -, hxplace⟩ := exists_name_of_mem_localSites hσ
  rcases pathAt_cases hn with ⟨d, hd, hpath⟩ | ⟨hnone, hpath⟩
  · obtain ⟨k, hk, hkdefinition⟩ := hd.holds
    have hkaround : k.definesAround (s.nameStart σ) = true := by
      have hstart := hdeclared.definitions d k hk hkdefinition σ hσ hd.above
      have hinside := inside_of_above hs hk hxplace (hd.above.trans (List.prefix_append _ _))
      have hwidth := (hdeclared.tokens σ hσ x hxplace).2
      rw [nameStart_of_at? hxplace] at hstart ⊢
      simp only [definesAround, hkdefinition, Bool.true_and, Bool.and_eq_true, decide_eq_true_eq]
      omega
    rcases constructAt_cases hs (s.nameStart σ) with ⟨e, he, hepath⟩ | ⟨houtside, -⟩
    · obtain ⟨m, hm, haround⟩ := he.around
      have hmdefinition := isDefinition_of_definesAround haround
      have habove : e <+: d :=
        hd.last e m (above_owner_of_definesAround hs hdeclared hσ hm haround) hm hmdefinition
      have hinner := he.innermost d k m hk hkaround hm
      have houter := inside_of_above hs hm hk habove
      have hstart : m.start = k.start := by omega
      have hstop : m.stop = k.stop := by omega
      have hspan : m.span = k.span := by rw [Node.span, Node.span, hstart, hstop]
      obtain rfl := hspans.eq_of_span_eq hm hk hmdefinition hkdefinition hspan
      rw [hepath, hpath]
    · exact absurd hkaround (by simp [houtside d k hk])
  · rcases constructAt_cases hs (s.nameStart σ) with ⟨e, he, hepath⟩ | ⟨-, hroot⟩
    · obtain ⟨m, hm, haround⟩ := he.around
      have habove := above_owner_of_definesAround hs hdeclared hσ hm haround
      exact absurd (isDefinition_of_definesAround haround) (by simp [hnone e m habove hm])
    · rw [hroot, hpath]

/-! ## Variables at their names -/

theorem mem_visibleLocals_nameStart
    {s : Source} (hs : s.root.wellNested s.text = true) (hspans : s.root.SpansApart)
    (hdeclared : s.WellDeclared) {σ : NameSite} (hσ : σ ∈ s.localSites) {p : LocalPin}
    (hp : p ∈ s.localPins) (hpdeclared : s.Declares σ.owner p) :
    .localVariable p ∈ s.toBuffer.visibleLocals (s.nameStart σ) := by
  obtain ⟨n, x, hn, hnames, hx, hxplace⟩ := exists_name_of_mem_localSites hσ
  obtain ⟨hleaf, hwidth⟩ := hdeclared.tokens σ hσ x hxplace
  obtain ⟨-, -, -, hpath, -⟩ := hpdeclared.spec
  have hplace : σ.place ≠ [] := fun h => hnames.ne_nil (List.append_eq_nil_iff.1 h).2
  have hchild : s.root.children ≠ [] := fun h => hplace (eq_nil_of_childless h hxplace)
  have htoken : s.root.tokenStart (s.nameStart σ) = s.nameStart σ := by
    rw [nameStart_of_at? hxplace]
    exact tokenStart_of_takes hs hchild hxplace hleaf (takes_iff.2 ⟨Nat.le_refl _, hwidth⟩)
  have hvisible : p.visibleFrom (Text.positionAt s.text (s.nameStart σ)) = true := by
    have hinside := (wellNested_at? (wellNested_at? hs hn).1 hx).2
    rw [nameStart_of_at? hxplace]
    exact visibleFrom_of_declares hs hpdeclared hn
      (wellNested_iff.1 (wellNested_at? hs hxplace).1).start_valid hinside.1 (by omega)
  refine List.mem_filter.2 ⟨List.mem_map_of_mem hp, ?_⟩
  rw [Bool.and_eq_true, beq_iff_eq, constructAt_nameStart hs hspans hdeclared hσ]
  refine ⟨hpath, ?_⟩
  rw [← htoken] at hvisible
  exact hvisible

/-- Every local variable of a well-nested source belongs to the construct around its
name, and is visible there, provided that no two definitions take the same span,
names are tokens, no list of parameters is a definition, and definitions start in
front of the names declared in them. -/
theorem localPins_belong
    {s : Source} (hs : s.root.wellNested s.text = true) (hspans : s.root.SpansApart)
    (hdeclared : s.WellDeclared) :
    ∀ p ∈ s.localPins, ∃ r o, p.declaration.location = some r ∧
      Text.offsetAt? s.text r.start = some o ∧ Text.positionAt s.text o = r.start ∧
        (s.toBuffer.constructAt o).closurePath = p.closurePath ∧
          .localVariable p ∈ s.toBuffer.visibleLocals o ∧
            ∃ f, s.toBuffer.fragment o = .ok f ∧ p.name ∈ f.visibleLocals := by
  intro p hp
  obtain ⟨σ, hσ, x, hxplace, hpdeclared, -, hlocation⟩ := exists_site_of_mem_localPins hp
  obtain ⟨-, -, -, hpath, -⟩ := hpdeclared.spec
  have hstart := nameStart_of_at? hxplace
  have ho : Text.IsBoundary s.text x.start :=
    (wellNested_iff.1 (wellNested_at? hs hxplace).1).start_valid
  have hoffset : Text.offsetAt? s.text (Text.positionAt s.text x.start) = some x.start := by
    obtain ⟨b, hb, ⟨hboundary, hle⟩, hleast⟩ := Text.exists_offsetAt?_positionAt s.text x.start
    have hback : b ≤ x.start := hleast ⟨ho, Nat.min_le_left _ _⟩
    rw [Nat.min_eq_left ho.le] at hle
    rw [hb, Nat.le_antisymm hback hle]
  have hvisible := mem_visibleLocals_nameStart hs hspans hdeclared hσ hp hpdeclared
  have hconstruct := constructAt_nameStart hs hspans hdeclared hσ
  rw [hstart] at hvisible hconstruct
  refine ⟨x.range s.text, x.start, hlocation, hoffset, rfl, hconstruct.trans hpath.symm, hvisible,
    ?_⟩
  obtain ⟨before, after, htext, hlength⟩ := ho
  have hcursor : s.toBuffer.cursor x.start = .ok ⟨before, after⟩ :=
    hlength ▸ Buffer.cursor_of_text_eq htext
  refine ⟨_, Buffer.fragment_of_cursor hcursor, ?_⟩
  rw [← hlength] at hvisible
  exact List.mem_map_of_mem hvisible

/-- A parameter and an assignment of a method, and those of a block in it, belong to the
method. -/
theorem localPins_belong_toMethod :
    let s := blockBehindAssignment
    s.root.wellNested s.text = true ∧ s.root.SpansApart ∧ s.WellDeclared ∧
      s.localPins.map LocalPin.name = ["p", "é", "q", "r"] ∧
      ∀ p ∈ s.localPins, ∃ o, (s.toBuffer.constructAt o).closurePath = "#m" ∧
        .localVariable p ∈ s.toBuffer.visibleLocals o := by
  intro s
  have hs : s.root.wellNested s.text = true := by decide
  have hspans : s.root.SpansApart := by decide
  have hdeclared : s.WellDeclared := by decide
  have hpaths : ∀ p ∈ s.localPins, p.closurePath = "#m" := by decide
  refine ⟨hs, hspans, hdeclared, by decide, fun p hp => ?_⟩
  obtain ⟨r, o, -, -, -, hconstruct, hvisible, -⟩ := localPins_belong hs hspans hdeclared p hp
  exact ⟨o, hconstruct.trans (hpaths p hp), hvisible⟩

end Source

end Caret
