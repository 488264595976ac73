import Caret.Proofs.Tree.Isolation
import Caret.Proofs.Tree.Naming
import Mathlib.Data.List.Forall2

/-!
# Declaration sites

A declaration site is a node that names a variable, seen from the node that
declares the variable by this name.  The pins of a source stand one to one with
its declaration sites: those of local variables with the names of parameters,
targets, loop variables and rescued exceptions, and those of shared variables
with the variables on the left of assignments.
-/

namespace Caret

/-- A place that names a variable: the place of the node that declares the
variable, and the rest of the way down to the name. -/
@[ext]
structure NameSite where
  owner : List Nat
  below : List Nat
deriving DecidableEq

namespace NameSite

/-- The place of the name. -/
def place (σ : NameSite) : List Nat :=
  σ.owner ++ σ.below

/-- Sites are ordered by the place of the declaration, and those of one
declaration by the place of the name in it. -/
def Before (σ τ : NameSite) : Prop :=
  σ.owner < τ.owner ∨ σ.owner = τ.owner ∧ σ.below < τ.below

theorem Before.ne {σ τ : NameSite} (h : σ.Before τ) : σ ≠ τ := by
  rintro rfl
  rcases h with h | ⟨-, h⟩
  · exact List.lt_irrefl _ h
  · exact List.lt_irrefl _ h

theorem Before.trans {σ τ υ : NameSite} (h : σ.Before τ) (h' : τ.Before υ) : σ.Before υ := by
  rcases h with h | ⟨howner, hbelow⟩
  · rcases h' with h' | ⟨howner', -⟩
    · exact Or.inl (List.lt_trans h h')
    · exact Or.inl (howner' ▸ h)
  · rcases h' with h' | ⟨howner', hbelow'⟩
    · exact Or.inl (howner ▸ h')
    · exact Or.inr ⟨howner.trans howner', List.lt_trans hbelow hbelow'⟩

/-- What holds of any two sites of a sorted list in the order of the list holds of them
in the order of sites. -/
theorem rel_of_before
    {σs : List NameSite} {R : NameSite → NameSite → Prop} (hbefore : σs.Pairwise Before)
    (hR : σs.Pairwise R) {σ τ : NameSite} (hσ : σ ∈ σs) (hτ : τ ∈ σs) (h : σ.Before τ) :
    R σ τ := by
  induction σs with
  | nil => exact absurd hσ List.not_mem_nil
  | cons υ σs ih =>
      rw [List.pairwise_cons] at hbefore hR
      rcases List.mem_cons.1 hσ with rfl | hσ'
      · rcases List.mem_cons.1 hτ with rfl | hτ'
        · exact absurd rfl h.ne
        · exact hR.1 τ hτ'
      · rcases List.mem_cons.1 hτ with rfl | hτ'
        · exact absurd rfl (h.trans (hbefore.1 σ hσ')).ne
        · exact ih hbefore.2 hR.2 hσ' hτ'

end NameSite

namespace Source

open Node

/-! ## Sites of a source -/

/-- The sites of a source, one node after the other, where `names` says which
places below a node are names that it declares. -/
def sitesOf (s : Source) (names : Node → List Nat → Bool) : List NameSite :=
  s.root.places.flatMap fun a =>
    match s.root.at? a with
    | some n => (n.places.filter (names n)).map (⟨a, ·⟩)
    | none => []

def localSites (s : Source) : List NameSite :=
  s.sitesOf declaresLocal

def sharedSites (s : Source) : List NameSite :=
  s.sitesOf declaresShared

theorem mem_sitesOf_iff {s : Source} {names : Node → List Nat → Bool} {σ : NameSite} :
    σ ∈ s.sitesOf names ↔
      ∃ n, s.root.at? σ.owner = some n ∧ σ.below ∈ n.places ∧ names n σ.below = true := by
  rw [sitesOf, List.mem_flatMap]
  constructor
  · rintro ⟨a, ha, hσ⟩
    obtain ⟨n, hn⟩ := mem_places_iff.1 ha
    rw [hn] at hσ
    obtain ⟨b, hb, rfl⟩ := List.mem_map.1 hσ
    exact ⟨n, hn, List.mem_filter.1 hb⟩
  · rintro ⟨n, hn, hbelow⟩
    refine ⟨σ.owner, mem_places_of_at? hn, ?_⟩
    rw [hn]
    exact List.mem_map.2 ⟨σ.below, List.mem_filter.2 hbelow, rfl⟩

/-- The sites are what a role of names says, if `names` decides it and only nodes
have it. -/
theorem mem_sitesOf_iff_role
    {s : Source} {names : Node → List Nat → Bool} {Role : Node → List Nat → Prop}
    (hrole : ∀ {n b}, names n b = true ↔ Role n b)
    (hat : ∀ {n : Node} {b}, Role n b → ∃ x, n.at? b = some x) {σ : NameSite} :
    σ ∈ s.sitesOf names ↔ ∃ n, s.root.at? σ.owner = some n ∧ Role n σ.below := by
  rw [mem_sitesOf_iff]
  constructor
  · rintro ⟨n, hn, -, h⟩
    exact ⟨n, hn, hrole.1 h⟩
  · rintro ⟨n, hn, h⟩
    obtain ⟨x, hx⟩ := hat h
    exact ⟨n, hn, mem_places_of_at? hx, hrole.2 h⟩

theorem mem_localSites_iff {s : Source} {σ : NameSite} :
    σ ∈ s.localSites ↔ ∃ n, s.root.at? σ.owner = some n ∧ n.DeclaresLocal σ.below :=
  mem_sitesOf_iff_role declaresLocal_iff DeclaresLocal.exists_at?

theorem mem_sharedSites_iff {s : Source} {σ : NameSite} :
    σ ∈ s.sharedSites ↔ ∃ n, s.root.at? σ.owner = some n ∧ n.DeclaresShared σ.below :=
  mem_sitesOf_iff_role declaresShared_iff DeclaresShared.exists_at?

theorem exists_name_of_mem_localSites {s : Source} {σ : NameSite} (hσ : σ ∈ s.localSites) :
    ∃ n x, s.root.at? σ.owner = some n ∧ n.DeclaresLocal σ.below ∧ n.at? σ.below = some x ∧
      s.root.at? σ.place = some x := by
  obtain ⟨n, hn, hnames⟩ := mem_localSites_iff.1 hσ
  obtain ⟨x, hx⟩ := hnames.exists_at?
  refine ⟨n, x, hn, hnames, hx, ?_⟩
  rw [NameSite.place, at?_append, hn]
  exact hx

def nameStart (s : Source) (σ : NameSite) : Nat :=
  ((s.root.at? σ.place).map Node.start).getD 0

theorem nameStart_of_at? {s : Source} {σ : NameSite} {x : Node} (hx : s.root.at? σ.place = some x) :
    s.nameStart σ = x.start := by
  rw [nameStart, hx]
  rfl

theorem pairwise_sitesOf (s : Source) (names : Node → List Nat → Bool) :
    (s.sitesOf names).Pairwise NameSite.Before := by
  rw [sitesOf, List.pairwise_flatMap]
  constructor
  · intro a _
    cases s.root.at? a with
    | none => exact .nil
    | some n =>
        rw [List.pairwise_map]
        exact (n.pairwise_places.filter _).imp fun hlt => Or.inr ⟨rfl, hlt⟩
  · refine s.root.pairwise_places.imp_of_mem fun {a b} ha hb hlt σ hσ τ hτ => Or.inl ?_
    obtain ⟨n, hn⟩ := mem_places_iff.1 ha
    obtain ⟨m, hm⟩ := mem_places_iff.1 hb
    rw [hn] at hσ
    rw [hm] at hτ
    obtain ⟨-, -, rfl⟩ := List.mem_map.1 hσ
    obtain ⟨-, -, rfl⟩ := List.mem_map.1 hτ
    exact hlt

theorem nodup_sitesOf (s : Source) (names : Node → List Nat → Bool) : (s.sitesOf names).Nodup :=
  (s.pairwise_sitesOf names).imp NameSite.Before.ne

/-! ## One pin for each site -/

theorem forall₂_filterMap
    {α β : Type} {f : α → Option β} {xs : List α} (hf : ∀ x ∈ xs, (f x).isSome) :
    List.Forall₂ (fun y x => f x = some y) (xs.filterMap f) xs := by
  induction xs with
  | nil => exact .nil
  | cons x xs ih =>
      obtain ⟨y, hy⟩ := Option.isSome_iff_exists.1 (hf x List.mem_cons_self)
      rw [List.filterMap_cons, hy]
      exact .cons hy (ih fun z hz => hf z (List.mem_cons_of_mem x hz))

theorem forall₂_nodesWhere (n : Node) (p : List Nat → Bool) :
    List.Forall₂ (fun x b => n.at? b = some x) (n.nodesWhere p) (n.places.filter p) := by
  have hnodes : n.nodesWhere p = (n.places.filter p).filterMap n.at? := by
    rw [nodesWhere, List.filterMap_filter]
  rw [hnodes]
  refine forall₂_filterMap fun b hb => ?_
  obtain ⟨x, hx⟩ := mem_places_iff.1 (List.mem_filter.1 hb).1
  rw [hx]
  rfl

theorem forall₂_comp
    {α β γ : Type} {R : α → β → Prop} {S : β → γ → Prop} {xs : List α} {ys : List β} {zs : List γ}
    (hR : List.Forall₂ R xs ys) (hS : List.Forall₂ S ys zs) :
    List.Forall₂ (fun x z => ∃ y, S y z ∧ R x y) xs zs := by
  induction hR generalizing zs with
  | nil =>
      cases hS
      exact .nil
  | cons hxy _ ih =>
      cases hS with
      | cons hyz hS => exact .cons ⟨_, hyz, hxy⟩ (ih hS)

/-- If at each node the pins made there stand one to one with the names that the
node declares, then all pins do with the sites of the source. -/
theorem forall₂_sitesOf
    {α : Type} {s : Source} {names : Node → List Nat → Bool} {pinsAt : List Nat → List α}
    {R : List Nat → α → Node → Prop}
    (hpins : ∀ a n, s.root.at? a = some n →
      List.Forall₂ (R a) (pinsAt a) (n.nodesWhere (names n))) :
    List.Forall₂ (fun pin σ => ∃ x, s.root.at? σ.place = some x ∧ R σ.owner pin x)
      (s.root.places.flatMap pinsAt) (s.sitesOf names) := by
  refine List.rel_flatMap (R := fun a b => a = b ∧ a ∈ s.root.places)
    (List.forall₂_same.2 fun a ha => ⟨rfl, ha⟩) ?_
  rintro a _ ⟨rfl, ha⟩
  obtain ⟨n, hn⟩ := mem_places_iff.1 ha
  dsimp only
  rw [hn, List.forall₂_map_right_iff]
  refine (forall₂_comp (hpins a n hn) (forall₂_nodesWhere n (names n))).imp ?_
  rintro pin b ⟨x, hx, hpin⟩
  refine ⟨x, ?_, hpin⟩
  rw [NameSite.place, at?_append, hn, Option.bind_some]
  exact hx

/-! ### Local variables -/

/-- A local pin with the text and the range of a name. -/
def Names (source : List Char) (pin : LocalPin) (x : Node) : Prop :=
  pin.name = x.name source ∧ pin.declaration.location = some (x.range source)

theorem forall₂_localPin?_ownEntries (source : List Char) (frame : Frame) (n : Node) :
    List.Forall₂ (Names source) ((n.ownEntries source frame).filterMap OutlineEntry.localPin?)
      n.localNames := by
  rw [ownEntries, List.filterMap_append, filterMap_localPin?_enter,
    filterMap_localPin?_declarations, localNames]
  refine List.rel_append ?_ ?_
  · split
    · rw [List.forall₂_map_left_iff, List.forall₂_same]
      exact fun x _ => ⟨rfl, rfl⟩
    · exact .nil
  · rw [List.forall₂_map_left_iff, List.forall₂_map_right_iff, List.forall₂_same]
    exact fun x _ => ⟨rfl, rfl⟩

theorem declares_of_mem_entriesAt
    {s : Source} {a : List Nat} {pin : LocalPin}
    (hpin : pin ∈ (s.root.entriesAt s.text s.top a).filterMap OutlineEntry.localPin?) :
    s.Declares a pin := by
  obtain ⟨e, he, hlocal⟩ := List.mem_filterMap.1 hpin
  obtain ⟨f, n, hvisit, he⟩ := mem_entriesAt_iff.1 he
  cases e with
  | localVariable =>
      obtain rfl := Option.some.inj hlocal
      exact ⟨f, n, hvisit, he⟩
  | definition | sharedVariable => exact absurd hlocal (by simp [OutlineEntry.localPin?])

/-- The local pins stand one to one with the sites of local variables, and each is
declared by the node of its site. -/
theorem forall₂_localPins (s : Source) :
    List.Forall₂ (fun pin σ => ∃ x, s.root.at? σ.place = some x ∧ s.Declares σ.owner pin ∧
        Names s.text pin x)
      s.localPins s.localSites := by
  rw [localPins, entries_eq_flatMap_places, List.filterMap_flatMap]
  refine forall₂_sitesOf
    (R := fun a pin x => s.Declares a pin ∧ Names s.text pin x) fun a n hn => ?_
  rw [List.forall₂_and_left]
  refine ⟨fun pin => declares_of_mem_entriesAt, ?_⟩
  obtain ⟨above, -, hentries⟩ := exists_lineage_of_at? hn
  rw [hentries, ← localNames_eq]
  exact forall₂_localPin?_ownEntries _ _ n

/-! ### Shared variables -/

def isOfVariable (pin : Pin) : Bool :=
  pin.kind ≠ .container ∧ pin.kind ≠ .method

def sharedPins (s : Source) : List Pin :=
  s.definitions.filter isOfVariable

/-- A pin with the text, the range and the kind of the name of a shared variable.  It
has the namespace, but a global variable belongs to none. -/
structure NamesShared (source : List Char) (namespaceName : String) (pin : Pin) (x : Node) :
    Prop where
  name : pin.name = x.name source
  location : pin.location = some (x.range source)
  kind : pin.kind.word = x.kind
  closurePath : pin.closurePath = if x.kind = "global_variable" then "" else namespaceName

/-- The pin of an entry, if it is one of a shared variable. -/
def sharedPin? (e : OutlineEntry) : Option Pin :=
  e.definitionPin?.filter isOfVariable

theorem mem_sharedVariableKinds_iff {kind : String} :
    kind ∈ sharedVariableKinds ↔
      kind = "instance_variable" ∨ kind = "class_variable" ∨ kind = "global_variable" ∨
        kind = "constant" := by
  simp [sharedVariableKinds]

theorem exists_pin_of_sharedEntry
    (source : List Char) (frame : Frame) {x : Node} (hx : x.kind ∈ sharedVariableKinds)
    (value : Option Node) :
    ∃ pin, sharedEntry source frame x value = .sharedVariable pin ∧ isOfVariable pin = true ∧
      NamesShared source frame.namespaceName pin x := by
  rw [mem_sharedVariableKinds_iff] at hx
  refine ⟨_, rfl, ?_⟩
  rcases hx with h | h | h | h
  all_goals
    simp only [h, String.reduceEq, if_true, if_false]
    exact ⟨rfl, rfl, rfl, h.symm, by rw [h]; rfl⟩

/-- As a node is entered, only pins of containers and methods and local variables
are listed. -/
theorem filterMap_sharedPin?_enter (source : List Char) (frame : Frame) (n : Node) :
    (enter source frame n).2.filterMap sharedPin? = [] := by
  have hparameters (frame : Frame) :
      (parameterEntries source frame n).filterMap sharedPin? = [] := by
    rw [parameterEntries, List.filterMap_map, List.filterMap_eq_nil_iff]
    exact fun x _ => rfl
  have hentered := entered source frame n
  generalize enter source frame n = r at hentered
  cases hentered with
  | container => rfl
  | method => exact hparameters _
  | block => exact hparameters _
  | singletonClass | nameless | other => rfl

theorem filterMap_sharedPin?_map_localEntry
    (source : List Char) (frame : Frame) (presence : Range) (value : Option Node)
    (names : List Node) :
    (names.map (localEntry source frame presence value)).filterMap sharedPin? = [] := by
  rw [List.filterMap_map, List.filterMap_eq_nil_iff]
  exact fun x _ => rfl

theorem forall₂_sharedPin?_assignmentEntries
    (source : List Char) (frame : Frame) (presence : Range) (left : Node) (right : Option Node) :
    List.Forall₂ (NamesShared source frame.namespaceName)
      ((assignmentEntries source frame presence left right).filterMap sharedPin?)
      (if sharedVariableKinds.contains left.kind then [left] else []) := by
  unfold assignmentEntries
  simp only [List.contains_iff_mem]
  split_ifs with hidentifier hshared hshared
  · exact absurd (hidentifier ▸ hshared) (by decide)
  · exact .nil
  · obtain ⟨pin, hentry, hvariable, hnames⟩ := exists_pin_of_sharedEntry source frame hshared right
    have hpin : sharedPin? (sharedEntry source frame left right) = some pin := by
      rw [hentry, sharedPin?, OutlineEntry.definitionPin?, Option.filter_some, if_pos hvariable]
    rw [List.filterMap_cons, hpin]
    exact .cons hnames .nil
  · rw [filterMap_sharedPin?_map_localEntry]
    exact .nil

theorem forall₂_sharedPin?_declarations (source : List Char) (frame : Frame) (n : Node) :
    List.Forall₂ (NamesShared source frame.namespaceName)
      ((declarations source frame n).filterMap sharedPin?) n.sharedNames := by
  unfold declarations sharedNames
  simp only [Bool.or_eq_true, decide_eq_true_eq, ← isAssignment_iff]
  split
  · cases n.childByField "left" with
    | none => exact .nil
    | some left =>
        rw [Option.toList_some, List.filter_singleton, Bool.cond_eq_ite]
        exact forall₂_sharedPin?_assignmentEntries source frame _ left _
  refine List.forall₂_nil_right_iff.2 ?_
  split
  · cases n.childByField "pattern" with
    | none => rfl
    | some pattern => exact filterMap_sharedPin?_map_localEntry source frame _ none _
  split
  · cases n.namedChildren with
    | nil => rfl
    | cons x _ =>
        dsimp only
        split <;> rfl
  · rfl

/-- The pins of shared variables stand one to one with their sites. -/
theorem forall₂_sharedPins (s : Source) :
    List.Forall₂ (fun pin σ => ∃ x, s.root.at? σ.place = some x ∧
        NamesShared s.text (namespaceOf s.text (s.root.lineage σ.owner)) pin x)
      s.sharedPins s.sharedSites := by
  rw [sharedPins, definitions, entries_eq_flatMap_places, List.filterMap_flatMap,
    List.filter_flatMap]
  refine forall₂_sitesOf
    (R := fun a => NamesShared s.text (namespaceOf s.text (s.root.lineage a))) fun a n hn => ?_
  obtain ⟨above, hlineage, hentries⟩ := exists_lineage_of_at? hn
  have hframe : n.innerFrame s.text (frameOf s.text s.topStop above) =
      frameOf s.text s.topStop (n :: above) := (enter_frameOf above n).1
  have hdeclared := forall₂_sharedPin?_declarations s.text (frameOf s.text s.topStop (n :: above)) n
  rw [List.filter_filterMap, hentries, ownEntries, List.filterMap_append, hframe, ← sharedNames_eq,
    hlineage]
  have henter := filterMap_sharedPin?_enter s.text (frameOf s.text s.topStop above) n
  unfold sharedPin? at henter hdeclared
  rw [henter]
  exact hdeclared

/-! ## Names with two declarations -/

/-- The place `b` is the list of parameters of what is at `a`. -/
def IsParameterList (s : Source) (a b : List Nat) : Prop :=
  ∃ n i, s.root.at? a = some n ∧ n.ownsParameters = true ∧ n.fieldIndex? "parameters" = some i ∧
    b = a ++ [i]

/-- Two sites with one name and the declaration of one above that of the other are the
same, or the upper one declares parameters and the lower one is the list of them. -/
theorem eq_or_isParameterList_of_above
    {s : Source} {σ τ : NameSite} (hσ : σ ∈ s.localSites) (hτ : τ ∈ s.localSites)
    (hplace : σ.place = τ.place) (habove : σ.owner <+: τ.owner) :
    σ = τ ∨ s.IsParameterList σ.owner τ.owner := by
  obtain ⟨n, hn, hnames⟩ := mem_localSites_iff.1 hσ
  obtain ⟨m, hm, hmnames⟩ := mem_localSites_iff.1 hτ
  obtain ⟨c, hc⟩ := habove
  have hbelow : σ.below = c ++ τ.below := by
    rw [NameSite.place, NameSite.place, ← hc, List.append_assoc] at hplace
    exact List.append_cancel_left hplace
  by_cases hnil : c = []
  · rw [hnil, List.append_nil] at hc
    rw [hnil, List.nil_append] at hbelow
    exact Or.inl (NameSite.ext hc hbelow)
  right
  have hat : n.at? c = some m := by
    rw [← hc, at?_append, hn] at hm
    exact hm
  rcases hnames.between hbelow hnil hmnames.ne_nil hat with ⟨i, rfl, howns, hi⟩ | hkind
  · exact ⟨n, i, hn, howns, hi, hc.symm⟩
  · exact absurd hkind hmnames.kind_not_mem_namingKinds

/-- Two sites with one name are the same, or the list of parameters of one declaration
is the other. -/
theorem eq_or_isParameterList
    {s : Source} {σ τ : NameSite} (hσ : σ ∈ s.localSites) (hτ : τ ∈ s.localSites)
    (hplace : σ.place = τ.place) :
    σ = τ ∨ s.IsParameterList σ.owner τ.owner ∨ s.IsParameterList τ.owner σ.owner := by
  have hσplace : σ.owner <+: σ.place := List.prefix_append _ _
  have hτplace : τ.owner <+: σ.place := hplace ▸ List.prefix_append _ _
  rcases List.prefix_or_prefix_of_prefix hσplace hτplace with h | h
  · exact (eq_or_isParameterList_of_above hσ hτ hplace h).imp_right Or.inl
  · exact (eq_or_isParameterList_of_above hτ hσ hplace.symm h).imp Eq.symm Or.inr

theorem eq_of_sharedSites_place_eq
    {s : Source} {σ τ : NameSite} (hσ : σ ∈ s.sharedSites) (hτ : τ ∈ s.sharedSites)
    (hplace : σ.place = τ.place) :
    σ = τ := by
  have hsingle {σ : NameSite} (hσ : σ ∈ s.sharedSites) : ∃ i, σ.below = [i] := by
    obtain ⟨n, -, hnames⟩ := mem_sharedSites_iff.1 hσ
    generalize σ.below = b at hnames
    cases hnames with
    | assigned => exact ⟨_, rfl⟩
  obtain ⟨i, hi⟩ := hsingle hσ
  obtain ⟨j, hj⟩ := hsingle hτ
  rw [NameSite.place, NameSite.place, hi, hj] at hplace
  obtain ⟨howner, hij⟩ := List.append_inj' hplace rfl
  exact NameSite.ext howner (by rw [hi, hj, hij])

/-- In every tree the pins of local variables stand one to one with the sites at
which nodes declare local variables, and the pins of shared variables with the sites
at which they are assigned.  Each pin has the text and the range of the name at its
site, and a shared variable has its kind and the namespace around it.  A name stands
at one site only, unless the list of parameters of a declaration is a declaration
itself. -/
theorem pins_forall₂_sites (s : Source) :
    (s.localSites.Nodup ∧
      (∀ σ, σ ∈ s.localSites ↔ ∃ n, s.root.at? σ.owner = some n ∧ n.DeclaresLocal σ.below) ∧
      List.Forall₂ (fun pin σ => ∃ x, s.root.at? σ.place = some x ∧ Names s.text pin x)
        s.localPins s.localSites ∧
      ∀ σ ∈ s.localSites, ∀ τ ∈ s.localSites, σ.place = τ.place →
        σ = τ ∨ s.IsParameterList σ.owner τ.owner ∨ s.IsParameterList τ.owner σ.owner) ∧
    (s.sharedSites.map NameSite.place).Nodup ∧
      (∀ σ, σ ∈ s.sharedSites ↔ ∃ n, s.root.at? σ.owner = some n ∧ n.DeclaresShared σ.below) ∧
      List.Forall₂ (fun pin σ => ∃ x, s.root.at? σ.place = some x ∧
          NamesShared s.text (namespaceOf s.text (s.root.lineage σ.owner)) pin x)
        s.sharedPins s.sharedSites := by
  refine ⟨⟨s.nodup_sitesOf _, fun σ => mem_localSites_iff, ?_, ?_⟩,
    ?_, fun σ => mem_sharedSites_iff, s.forall₂_sharedPins⟩
  · refine s.forall₂_localPins.imp ?_
    rintro pin σ ⟨x, hx, -, hnames⟩
    exact ⟨x, hx, hnames⟩
  · exact fun σ hσ τ hτ => eq_or_isParameterList hσ hτ
  · exact List.Nodup.map_on (fun σ hσ τ hτ => eq_of_sharedSites_place_eq hσ hτ) (s.nodup_sitesOf _)

example : blockBehindAssignment.localSites =
    [⟨[0], [2, 1]⟩, ⟨[0, 4, 0], [0]⟩, ⟨[0, 4, 2, 1], [1, 1]⟩, ⟨[0, 4, 2, 1, 2, 0], [0]⟩] := by
  decide

end Source

end Caret
