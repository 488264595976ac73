import Caret.Command.Report
import Caret.Proofs.Json.Records
import Caret.Proofs.Tree.EnclosingConstruct
import Caret.Proofs.Tree.Sites

/-!
# The paths of definitions

A definition is listed twice, as a construct around a cursor and as a pin.  The
construct has its path put together from the names around it.  The pin of a container
has it taken apart at the last double colon, and whoever asks for the path of the pin
joins the parts again.  Both come to the same path, unless a name begins with two
double colons: the first stands for the top level, and the second is lost.
-/

namespace Caret

/-! ## Paths taken apart and joined -/

theorem splitLastColons?_cons
    {cs before after : List Char} (c : Char) (h : splitLastColons? cs = some (before, after)) :
    splitLastColons? (c :: cs) = some (c :: before, after) := by
  unfold splitLastColons?
  rw [h]

theorem eq_append_of_splitLastColons?
    {cs before after : List Char} (h : splitLastColons? cs = some (before, after)) :
    cs = before ++ ':' :: ':' :: after := by
  fun_induction splitLastColons? cs generalizing before after with
  | case1 => exact absurd h (Option.some_ne_none _).symm
  | case2 c cs before' after' hsplit ih =>
      obtain ⟨rfl, rfl⟩ := Prod.mk.inj (Option.some.inj h)
      rw [ih hsplit, List.cons_append]
  | case3 =>
      obtain ⟨rfl, rfl⟩ := Prod.mk.inj (Option.some.inj h)
      rfl
  | case4 => exact absurd h (Option.some_ne_none _).symm

theorem exists_splitLastColons?_append (front back : List Char) :
    ∃ before after, splitLastColons? (front ++ ':' :: ':' :: back) = some (before, after) := by
  induction front with
  | nil =>
      rw [List.nil_append]
      unfold splitLastColons?
      split
      · exact ⟨_, _, rfl⟩
      · exact ⟨_, _, rfl⟩
  | cons c front ih =>
      obtain ⟨before, after, h⟩ := ih
      exact ⟨c :: before, after, splitLastColons?_cons c h⟩

/-- The last double colon of a qualified name does not begin it, unless the name that
was qualified begins with two of them. -/
theorem splitLastColons?_qualify_ne
    (outer : String) {name : String} (hname : ¬[':', ':', ':', ':'] <+: name.toList)
    (after : List Char) :
    splitLastColons? (qualify outer name).toList ≠ some ([], after) := by
  intro h
  have hstart := eq_append_of_splitLastColons? h
  rw [List.nil_append] at hstart
  by_cases habsolute : ∃ rest, name.toList = ':' :: ':' :: rest
  · obtain ⟨rest, hrest⟩ := habsolute
    have hqualified : qualify outer name = String.ofList rest := by simp only [qualify, hrest]
    rw [hqualified, String.toList_ofList] at hstart
    exact hname ⟨after, by rw [hrest, hstart]; rfl⟩
  have hqualified : qualify outer name = if outer = "" then name else outer ++ "::" ++ name := by
    unfold qualify
    split
    · exact absurd ⟨_, by assumption⟩ habsolute
    · rfl
  rw [hqualified] at h hstart
  split_ifs at h hstart with houter
  · exact habsolute ⟨after, hstart⟩
  · obtain ⟨c, cs, hcs⟩ :=
      List.exists_cons_of_ne_nil fun h => houter (String.toList_eq_nil_iff.1 h)
    obtain ⟨before, after', hsplit⟩ := exists_splitLastColons?_append cs name.toList
    have htext : (outer ++ "::" ++ name).toList = c :: (cs ++ ':' :: ':' :: name.toList) := by
      simp [hcs]
    rw [htext, splitLastColons?_cons c hsplit] at h
    exact List.cons_ne_nil _ _ (Prod.mk.inj (Option.some.inj h)).1

example : splitLastColons? (qualify "" "::::A").toList = some ([], ['A']) := by decide

/-- A container whose pin has the parts of a qualified name is known under that name. -/
theorem path_of_splitLastColons?
    {qualified : String}
    (hqualified : ∀ after, splitLastColons? qualified.toList ≠ some ([], after))
    {pin : ContainerPin} (hpin : (pin.closurePath, pin.name) =
      match splitLastColons? qualified.toList with
      | some (outer, name) => (String.ofList outer, String.ofList name)
      | none => ("", qualified)) :
    (Pin.container pin).path = qualified := by
  rw [Pin.path]
  split at hpin
  · rename_i before after hsplit
    obtain ⟨hpath, hname⟩ := Prod.mk.inj hpin
    have hbefore : pin.closurePath ≠ "" := by
      intro hempty
      rw [hpath] at hempty
      obtain rfl := String.ofList_injective hempty
      exact hqualified after hsplit
    rw [if_neg hbefore, hpath, hname, ← String.toList_inj]
    simp [eq_append_of_splitLastColons? hsplit]
  · obtain ⟨hpath, hname⟩ := Prod.mk.inj hpin
    rw [if_pos hpath, hname]

/-! ## Pins and constructs -/

theorem SymbolReport.member?_path (r : SymbolReport) :
    r.toJson.member? "path" = some (.string r.path) := by
  rw [toJson]
  exact Json.member?_of_nodup (m := ("path", .string r.path)) (by simp) (by simp)

def ContainerKind.construct : ContainerKind → ConstructKind
  | .classDef => .classDef
  | .moduleDef => .moduleDef

/-- A pin says of a definition what the construct does: a class or module that is known
under its path, or a method that is, at the level at which its body runs. -/
inductive Pin.Describes : Pin → Construct → Prop
  | container {pin : ContainerPin} {construct : Construct} :
      (Pin.container pin).path = construct.closurePath → construct.kind = pin.kind.construct →
        Describes (.container pin) construct
  | method {pin : MethodPin} {construct : Construct} :
      (Pin.method pin).path = construct.closurePath → pin.scope = construct.scope →
        construct.kind = .method ∨ construct.kind = .singletonMethod →
          Describes (.method pin) construct

theorem Pin.Describes.path_eq {pin : Pin} {construct : Construct} (h : pin.Describes construct) :
    pin.path = construct.closurePath := by
  cases h with
  | container hpath => exact hpath
  | method hpath => exact hpath

theorem Pin.Describes.isOfVariable_eq
    {pin : Pin} {construct : Construct} (h : pin.Describes construct) :
    Source.isOfVariable pin = false := by
  cases h with
  | container => rfl
  | method => rfl

/-- What an entry of the outline has to do with its pin: a definition is described by
it, and a variable that is not local has the pin of a variable. -/
def OutlineEntry.Coherent : OutlineEntry → Prop
  | .definition _ construct pin => pin.Describes construct
  | .localVariable _ => True
  | .sharedVariable pin => Source.isOfVariable pin = true

namespace Node

variable {source : List Char} {frame : Frame} {n : Node}

/-! ## Entries of a node -/

theorem coherent_of_mem_parameterEntries
    {e : OutlineEntry} (h : e ∈ parameterEntries source frame n) :
    e.Coherent := by
  obtain ⟨x, -, rfl⟩ := List.mem_map.1 h
  exact trivial

theorem coherent_of_mem_enterContainer
    {nameNode : Node} (hname : ¬[':', ':', ':', ':'] <+: (nameNode.name source).toList)
    {e : OutlineEntry} (h : e ∈ (enterContainer source frame n nameNode).2) :
    e.Coherent := by
  have hsplit := splitLastColons?_qualify_ne frame.namespaceName hname
  unfold enterContainer at h
  generalize qualify frame.namespaceName (nameNode.name source) = qualified at h hsplit
  obtain rfl := List.mem_singleton.1 h
  refine .container (path_of_splitLastColons? hsplit rfl) ?_
  dsimp only
  split <;> rfl

theorem coherent_of_mem_enterMethod
    {nameNode : Node} {e : OutlineEntry} (h : e ∈ (enterMethod source frame n nameNode).2) :
    e.Coherent := by
  rcases List.mem_cons.1 h with rfl | h
  · refine .method ?_ rfl ?_
    · dsimp only
      split
      · rfl
      · rfl
    · dsimp only
      split
      · exact Or.inr rfl
      · exact Or.inl rfl
  · exact coherent_of_mem_parameterEntries h

theorem coherent_of_mem_enter
    (hname : n.isContainer = true → ¬[':', ':', ':', ':'] <+: (n.ownName source).toList)
    {e : OutlineEntry} (h : e ∈ (enter source frame n).2) :
    e.Coherent := by
  have hentered := entered source frame n
  generalize enter source frame n = r at hentered h
  cases hentered with
  | container hkind hnameNode =>
      refine coherent_of_mem_enterContainer ?_ h
      rw [← ownName_of_childByField hnameNode]
      refine hname ?_
      rcases hkind with hkind | hkind <;> simp [isContainer, hkind, hnameNode]
  | method => exact coherent_of_mem_enterMethod h
  | block => exact coherent_of_mem_parameterEntries h
  | singletonClass | nameless | other => exact absurd h List.not_mem_nil

theorem coherent_of_mem_declarations {e : OutlineEntry} (h : e ∈ declarations source frame n) :
    e.Coherent := by
  rcases mem_declarations_cases h with ⟨value, x, rfl⟩ | ⟨value, x, hx, rfl⟩
  · exact trivial
  · obtain ⟨pin, hpin, hvariable, -⟩ := Source.exists_pin_of_sharedEntry source frame hx value
    rw [hpin]
    exact hvariable

end Node

namespace Source

open Node

/-- No class or module has a name that begins with two double colons. -/
def AbsoluteOnce (s : Source) : Prop :=
  ∀ a n, s.root.at? a = some n → n.isContainer = true →
    ¬[':', ':', ':', ':'] <+: (n.ownName s.text).toList

theorem absoluteOnce_iff {s : Source} :
    s.AbsoluteOnce ↔
      ∀ a ∈ s.root.places, ∀ n ∈ s.root.at? a, n.isContainer = true →
        ¬[':', ':', ':', ':'] <+: (n.ownName s.text).toList := by
  constructor
  · exact fun h a _ n hn => h a n hn
  · exact fun h a n hn => h a (mem_places_of_at? hn) n hn

instance (s : Source) : Decidable s.AbsoluteOnce :=
  decidable_of_iff _ absoluteOnce_iff.symm

/-- The node at a place makes a definition with this pin and this construct. -/
def Defines (s : Source) (a : List Nat) (pin : Pin) (c : Span × Construct) : Prop :=
  .definition c.1 c.2 pin ∈ s.root.entriesAt s.text s.top a

def definitionPins (s : Source) : List Pin :=
  s.definitions.filter fun pin => !isOfVariable pin

theorem Defines.mem_definitions
    {s : Source} {a : List Nat} {pin : Pin} {c : Span × Construct} (h : s.Defines a pin c) :
    pin ∈ s.definitions := by
  obtain ⟨f, n, hvisit, he⟩ := mem_entriesAt_iff.1 h
  exact List.mem_filterMap.2 ⟨_, mem_outline_iff.2 ⟨a, f, n, hvisit, he⟩, rfl⟩

theorem coherent_of_mem_entriesAt
    {s : Source} (hnames : s.AbsoluteOnce) {a : List Nat} {e : OutlineEntry}
    (h : e ∈ s.root.entriesAt s.text s.top a) :
    e.Coherent := by
  obtain ⟨f, n, hvisit, he⟩ := mem_entriesAt_iff.1 h
  rcases List.mem_append.1 he with hopened | hdeclared
  · exact coherent_of_mem_enter (hnames a n (at?_of_visit? hvisit)) hopened
  · exact coherent_of_mem_declarations hdeclared

theorem Defines.describes
    {s : Source} (hnames : s.AbsoluteOnce) {a : List Nat} {pin : Pin} {c : Span × Construct}
    (h : s.Defines a pin c) :
    pin.Describes c.2 :=
  coherent_of_mem_entriesAt hnames h

/-- Definitions list their pins and their constructs side by side. -/
theorem forall₂_definitionPins_constructs {s : Source} (hnames : s.AbsoluteOnce) :
    List.Forall₂ (fun pin c => ∃ a, s.Defines a pin c) s.definitionPins s.toBuffer.constructs := by
  rw [definitionPins, definitions, List.filter_filterMap, toBuffer]
  refine List.rel_filterMap (R := fun e e' => e = e' ∧ e ∈ s.entries) ?_
    (List.forall₂_same.2 fun e he => ⟨rfl, he⟩)
  rintro e _ ⟨rfl, he⟩
  rw [entries_eq_flatMap_places, List.mem_flatMap] at he
  obtain ⟨a, -, he⟩ := he
  have hcoherent := coherent_of_mem_entriesAt hnames he
  dsimp only
  cases e with
  | definition span construct pin =>
      have hpin : isOfVariable pin = false := Pin.Describes.isOfVariable_eq hcoherent
      rw [OutlineEntry.definitionPin?, Option.filter_some, hpin]
      exact .some ⟨a, he⟩
  | localVariable => exact .none
  | sharedVariable pin =>
      have hpin : isOfVariable pin = true := hcoherent
      rw [OutlineEntry.definitionPin?, Option.filter_some, hpin]
      exact .none

theorem Defines.closurePath_eq
    {s : Source} {a : List Nat} {pin : Pin} {c : Span × Construct} (h : s.Defines a pin c) :
    c.2.closurePath = s.pathAt a := by
  obtain ⟨f, n, hvisit, he⟩ := mem_entriesAt_iff.1 h
  rcases mem_ownEntries_cases he with hvariable | ⟨-, construct, pin', heq, hpath⟩
  · exact hvariable.elim
  · obtain ⟨-, hconstruct, -⟩ := OutlineEntry.definition.inj heq
    rw [hconstruct, hpath, pathAt_eq hvisit]

theorem Declares.closurePath_eq
    {s : Source} {a d : List Nat} {p : LocalPin} (hp : s.Declares a p)
    (hd : IsNearest isDefinition s.root a d) :
    p.closurePath = s.pathAt d := by
  obtain ⟨f, n, hvisit, hpath, -⟩ := hp.spec
  rcases pathAt_cases (at?_of_visit? hvisit) with ⟨e, he, heq⟩ | ⟨hnone, -⟩
  · rw [hpath, heq, hd.unique he]
  · obtain ⟨m, hm, hdefinition⟩ := hd.holds
    exact absurd hdefinition (by simp [hnone d m hd.above hm])

/-- The pins of classes, modules and methods stand one to one with the constructs of a
source, and each pair has one path, one kind and one level, provided that no class or
module has a name that begins with two double colons.  So the path under which a
definition is reported is the path of the local variables declared directly in it, and
their samples are kept under keys that begin with it. -/
theorem definitionPins_describe_constructs {s : Source} (hnames : s.AbsoluteOnce) :
    List.Forall₂
        (fun pin c => (∃ d, s.Defines d pin c) ∧ pin.Describes c.2 ∧
          pin.symbolReport.toJson.member? "path" = some (.string c.2.closurePath))
        s.definitionPins s.toBuffer.constructs ∧
      ∀ a p d, s.Declares a p → IsNearest isDefinition s.root a d →
        (∃ pin c, s.Defines d pin c) ∧
          ∀ pin c, s.Defines d pin c →
            pin ∈ s.definitionPins ∧ pin.symbolReport ∈ s.symbols ∧
              pin.symbolReport.path = p.closurePath ∧
              pin.symbolReport.toJson.member? "path" = some (.string p.closurePath) ∧
                Samples.key p.closurePath p.name = pin.symbolReport.path ++ "%" ++ p.name := by
  constructor
  · refine (forall₂_definitionPins_constructs hnames).imp ?_
    rintro pin c ⟨d, hd⟩
    have hdescribes := hd.describes hnames
    refine ⟨⟨d, hd⟩, hdescribes, ?_⟩
    rw [SymbolReport.member?_path, ← hdescribes.path_eq]
    rfl
  · intro a p d hp hd
    constructor
    · obtain ⟨n, hn, hdefinition⟩ := hd.holds
      obtain ⟨f, hvisit⟩ := exists_visit?_of_at? s.text s.top hn
      obtain ⟨construct, pin, he, -⟩ := exists_definition_mem_ownEntries s.text f hdefinition
      exact ⟨pin, (n.span, construct), mem_entriesAt_iff.2 ⟨f, n, hvisit, he⟩⟩
    · intro pin c hdefines
      have hdescribes := hdefines.describes hnames
      have hmem : pin ∈ s.definitions := hdefines.mem_definitions
      have hsame : pin.path = p.closurePath := by
        rw [hdescribes.path_eq, hdefines.closurePath_eq, hp.closurePath_eq hd]
      refine ⟨List.mem_filter.2 ⟨hmem, ?_⟩, List.mem_map_of_mem hmem, hsame, ?_, ?_⟩
      · rw [hdescribes.isOfVariable_eq]
        rfl
      · rw [SymbolReport.member?_path, ← hsame]
        rfl
      · rw [Samples.key, Pin.symbolReport, hsame]

/-- A method of a class that is named from the top level inside of a module with a
compound name. -/
def classInCompoundModule : Source where
  text := "module A::B; class ::C; class << self; def m(p); end; end; end; end".toList
  root :=
    ⟨"program", 0, 67, true, none,
      [⟨"module", 0, 67, true, none,
          [⟨"module", 0, 6, false, none, []⟩,
            ⟨"scope_resolution", 7, 11, true, some "name",
              [⟨"constant", 7, 8, true, some "scope", []⟩,
                ⟨"::", 8, 10, false, none, []⟩,
                ⟨"constant", 10, 11, true, some "name", []⟩]⟩,
            ⟨";", 11, 12, false, none, []⟩,
            ⟨"body_statement", 13, 63, true, some "body",
              [⟨"class", 13, 62, true, none,
                  [⟨"class", 13, 18, false, none, []⟩,
                    ⟨"scope_resolution", 19, 22, true, some "name",
                      [⟨"::", 19, 21, false, none, []⟩,
                        ⟨"constant", 21, 22, true, some "name", []⟩]⟩,
                    ⟨";", 22, 23, false, none, []⟩,
                    ⟨"body_statement", 24, 58, true, some "body",
                      [⟨"singleton_class", 24, 57, true, none,
                          [⟨"class", 24, 29, false, none, []⟩,
                            ⟨"<<", 30, 32, false, none, []⟩,
                            ⟨"self", 33, 37, true, some "value", []⟩,
                            ⟨";", 37, 38, false, none, []⟩,
                            ⟨"body_statement", 39, 53, true, some "body",
                              [⟨"method", 39, 52, true, none,
                                  [⟨"def", 39, 42, false, none, []⟩,
                                    ⟨"identifier", 43, 44, true, some "name", []⟩,
                                    ⟨"method_parameters", 44, 47, true, some "parameters",
                                      [⟨"(", 44, 45, false, none, []⟩,
                                        ⟨"identifier", 45, 46, true, none, []⟩,
                                        ⟨")", 46, 47, false, none, []⟩]⟩,
                                    ⟨";", 47, 48, false, none, []⟩,
                                    ⟨"end", 49, 52, false, none, []⟩]⟩,
                                ⟨";", 52, 53, false, none, []⟩]⟩,
                            ⟨"end", 54, 57, false, none, []⟩]⟩,
                        ⟨";", 57, 58, false, none, []⟩]⟩,
                    ⟨"end", 59, 62, false, none, []⟩]⟩,
                ⟨";", 62, 63, false, none, []⟩]⟩,
            ⟨"end", 64, 67, false, none, []⟩]⟩]⟩

/-- The definitions are known under the paths of their constructs, and samples of the
parameter are kept under the path of the method. -/
theorem paths_classInCompoundModule :
    let s := classInCompoundModule
    s.AbsoluteOnce ∧ s.definitionPins.map Pin.path = ["A::B", "C", "C.m"] ∧
      ∃ p pin, s.Declares [0, 3, 0, 3, 0, 4, 0] p ∧ pin ∈ s.definitionPins ∧
        pin.symbolReport.path = "C.m" ∧ Samples.key p.closurePath p.name = "C.m%p" := by
  intro s
  have hnames : s.AbsoluteOnce := by decide
  obtain ⟨hpins, hlocals⟩ := definitionPins_describe_constructs hnames
  have hpaths : s.definitionPins.map Pin.path =
      s.toBuffer.constructs.map fun c => c.2.closurePath := by
    rw [← List.forall₂_eq_eq_eq, List.forall₂_map_left_iff, List.forall₂_map_right_iff]
    exact hpins.imp fun _ _ h => h.2.1.path_eq
  let p : LocalPin :=
    ⟨⟨"p", "C.m", some ⟨⟨0, 45⟩, ⟨0, 46⟩⟩, none, .undefined⟩, ⟨⟨0, 39⟩, ⟨0, 52⟩⟩⟩
  have hdeclares : s.Declares [0, 3, 0, 3, 0, 4, 0] p := ⟨_, _, rfl, by decide⟩
  have hnearest : IsNearest isDefinition s.root [0, 3, 0, 3, 0, 4, 0] [0, 3, 0, 3, 0, 4, 0] := by
    decide
  obtain ⟨⟨pin, c, hdefines⟩, hpairs⟩ := hlocals _ p _ hdeclares hnearest
  obtain ⟨hpin, -, hpath, -, hkey⟩ := hpairs pin c hdefines
  refine ⟨hnames, hpaths.trans (by decide), p, pin, hdeclares, hpin, hpath, ?_⟩
  rw [hkey, hpath]
  decide

end Source

end Caret
