import Caret.Proofs.Tree.Address
import Caret.Tree.Outline

/-!
# What the outline says about a place

The outline of a tree is made of the entries that each place makes by itself,
in the frame handed down to it.  That frame is settled by the places above: the
scope that was opened last says where local variables stop being visible, and
the definition that was opened last says which path they belong to.
-/

namespace Caret

/-- Entries of variables, the local ones with this path and presence. -/
def OutlineEntry.IsVariable (closurePath : String) (presence : Range) : OutlineEntry → Prop
  | .localVariable pin => pin.closurePath = closurePath ∧ pin.presence = presence
  | .sharedVariable _ => True
  | .definition .. => False

namespace Node

variable {source : List Char}

/-! ## Visits -/

/-- The frame for the code in a node. -/
def innerFrame (source : List Char) (frame : Frame) (n : Node) : Frame :=
  (enter source frame n).1

/-- The entries that a node makes apart from what is below it. -/
def ownEntries (source : List Char) (frame : Frame) (n : Node) : List OutlineEntry :=
  (enter source frame n).2 ++ declarations source (n.innerFrame source frame) n

/-- The node at a place with the frame that is handed down to it. -/
def visit? (source : List Char) (frame : Frame) (n : Node) : List Nat → Option (Frame × Node)
  | [] => some (frame, n)
  | i :: a => n.children[i]?.bind fun c => c.visit? source (n.innerFrame source frame) a

theorem visit?_cons_eq_some_iff
    {frame f : Frame} {n m : Node} {i : Nat} {a : List Nat} :
    n.visit? source frame (i :: a) = some (f, m) ↔
      ∃ c, n.children[i]? = some c ∧
        c.visit? source (n.innerFrame source frame) a = some (f, m) := by
  simp [visit?, Option.bind_eq_some_iff]

theorem at?_eq_map_visit? (source : List Char) (frame : Frame) (n : Node) (a : List Nat) :
    n.at? a = (n.visit? source frame a).map Prod.snd := by
  induction a generalizing n frame with
  | nil => rfl
  | cons i a ih =>
      simp only [at?, visit?]
      cases n.children[i]? with
      | none => rfl
      | some c => exact ih _ c

theorem at?_of_visit?
    {frame f : Frame} {n m : Node} {a : List Nat} (h : n.visit? source frame a = some (f, m)) :
    n.at? a = some m := by
  rw [at?_eq_map_visit? source frame, h]
  rfl

theorem exists_visit?_of_at?
    (source : List Char) (frame : Frame) {n m : Node} {a : List Nat} (h : n.at? a = some m) :
    ∃ f, n.visit? source frame a = some (f, m) := by
  rw [at?_eq_map_visit? source frame] at h
  obtain ⟨⟨f, m⟩, hvisit, rfl⟩ := Option.map_eq_some_iff.1 h
  exact ⟨f, hvisit⟩

theorem outlineAmong_eq (frame : Frame) (ns : List Node) :
    outlineAmong source frame ns = ns.flatMap fun n => n.outline source frame := by
  induction ns with
  | nil => rfl
  | cons n ns ih => rw [outlineAmong, ih, List.flatMap_cons]

theorem outline_eq (frame : Frame) (n : Node) :
    n.outline source frame = n.ownEntries source frame ++
      n.children.flatMap fun c => c.outline source (n.innerFrame source frame) := by
  obtain ⟨kind, start, stop, named, field, children⟩ := n
  rw [outline, ← outlineAmong_eq]
  rfl

/-- The entries that the node at a place makes by itself, in the frame that is
handed down to it. -/
def entriesAt (source : List Char) (frame : Frame) (n : Node) (a : List Nat) :
    List OutlineEntry :=
  match n.visit? source frame a with
  | some (f, m) => m.ownEntries source f
  | none => []

/-- Below a node, the places of some of its children come one child after the
other. -/
theorem flatMap_placesAmong
    {frame : Frame} {n : Node} (before : List Node) {ns : List Node}
    (hchildren : n.children = before ++ ns) :
    (placesAmong before.length ns).flatMap (n.entriesAt source frame) =
      ns.flatMap fun c => c.places.flatMap (c.entriesAt source (n.innerFrame source frame)) := by
  induction ns generalizing before with
  | nil => rfl
  | cons c ns ih =>
      have hc : n.children[before.length]? = some c := by simp [hchildren]
      have hentries (b : List Nat) : n.entriesAt source frame (before.length :: b) =
          c.entriesAt source (n.innerFrame source frame) b := by
        rw [entriesAt, visit?, hc, Option.bind_some]
        rfl
      have hrest := ih (before ++ [c]) (by simp [hchildren])
      rw [List.length_append, List.length_singleton] at hrest
      simp only [placesAmong, List.flatMap_append, List.flatMap_map, hentries, hrest,
        List.flatMap_cons]

/-- The outline is made of what the places of the tree make by themselves, one
place after the other. -/
theorem outline_eq_flatMap_places (frame : Frame) (n : Node) :
    n.outline source frame = n.places.flatMap (n.entriesAt source frame) := by
  induction n using induct generalizing frame with
  | step n ih =>
      have hbelow : (placesAmong 0 n.children).flatMap (n.entriesAt source frame) =
          n.children.flatMap fun c => c.outline source (n.innerFrame source frame) := by
        rw [← List.length_nil (α := Node), flatMap_placesAmong [] rfl]
        exact List.flatMap_congr fun c hc => (ih c hc _).symm
      rw [outline_eq, places_eq, List.flatMap_cons, hbelow]
      rfl

theorem mem_entriesAt_iff {frame : Frame} {n : Node} {a : List Nat} {e : OutlineEntry} :
    e ∈ n.entriesAt source frame a ↔
      ∃ f m, n.visit? source frame a = some (f, m) ∧ e ∈ m.ownEntries source f := by
  unfold entriesAt
  cases n.visit? source frame a with
  | none => simp
  | some visited =>
      obtain ⟨f, m⟩ := visited
      simp

theorem mem_outline_iff {frame : Frame} {n : Node} {e : OutlineEntry} :
    e ∈ n.outline source frame ↔
      ∃ a f m, n.visit? source frame a = some (f, m) ∧ e ∈ m.ownEntries source f := by
  simp only [outline_eq_flatMap_places, List.mem_flatMap, mem_entriesAt_iff]
  constructor
  · rintro ⟨a, -, h⟩
    exact ⟨a, h⟩
  · rintro ⟨a, f, m, hvisit, he⟩
    exact ⟨a, mem_places_iff.2 ⟨m, at?_of_visit? hvisit⟩, f, m, hvisit, he⟩

/-! ## Definitions and scopes -/

/-- Kinds of node that define something they name. -/
def definitionKinds : List String :=
  ["class", "module", "method", "singleton_method"]

/-- Kinds of node that bound the visibility of local variables without a name
of their own. -/
def namelessScopeKinds : List String :=
  ["singleton_class", "block", "do_block", "lambda"]

theorem mem_definitionKinds_iff {kind : String} :
    kind ∈ definitionKinds ↔
      kind = "class" ∨ kind = "module" ∨ kind = "method" ∨ kind = "singleton_method" := by
  simp [definitionKinds]

theorem mem_namelessScopeKinds_iff {kind : String} :
    kind ∈ namelessScopeKinds ↔
      kind = "singleton_class" ∨ kind = "block" ∨ kind = "do_block" ∨ kind = "lambda" := by
  simp [namelessScopeKinds]

/-- Classes, modules and methods, unless their name is missing. -/
def isDefinition (n : Node) : Bool :=
  definitionKinds.contains n.kind && (n.childByField "name").isSome

/-- Nodes whose end is the end of the local variables declared in them. -/
def opensScope (n : Node) : Bool :=
  n.isDefinition || namelessScopeKinds.contains n.kind

/-- The kinds of node that the walk tells apart as it enters them: definitions
that are named, those whose name is missing, other scopes, and all the rest. -/
inductive Entered (source : List Char) (frame : Frame) (n : Node) :
    Frame × List OutlineEntry → Prop
  | container {nameNode : Node} :
      n.kind = "class" ∨ n.kind = "module" → n.childByField "name" = some nameNode →
        Entered source frame n (enterContainer source frame n nameNode)
  | method {nameNode : Node} :
      n.kind = "method" ∨ n.kind = "singleton_method" → n.childByField "name" = some nameNode →
        Entered source frame n (enterMethod source frame n nameNode)
  | singletonClass :
      n.kind = "singleton_class" →
        Entered source frame n ({ frame with inSingleton := true, scopeEnd := n.stop }, [])
  | block :
      n.kind = "block" ∨ n.kind = "do_block" ∨ n.kind = "lambda" →
        Entered source frame n ({ frame with scopeEnd := n.stop },
          parameterEntries source { frame with scopeEnd := n.stop } n)
  | nameless :
      n.kind ∈ definitionKinds → n.childByField "name" = none → Entered source frame n (frame, [])
  | other :
      n.kind ∉ definitionKinds → n.kind ∉ namelessScopeKinds → Entered source frame n (frame, [])

theorem entered (source : List Char) (frame : Frame) (n : Node) :
    Entered source frame n (enter source frame n) := by
  unfold enter
  simp only [Bool.or_eq_true, decide_eq_true_eq, or_assoc]
  split
  · rename_i hkind
    split
    · exact .container hkind (by assumption)
    · refine .nameless ?_ (by assumption)
      rcases hkind with h | h <;> simp [h, definitionKinds]
  split
  · exact .singletonClass (by assumption)
  split
  · rename_i hkind
    split
    · exact .method hkind (by assumption)
    · refine .nameless ?_ (by assumption)
      rcases hkind with h | h <;> simp [h, definitionKinds]
  split
  · exact .block (by assumption)
  · rename_i hcontainer hsingleton hmethod hblock
    simp only [not_or] at hcontainer hmethod hblock
    apply Entered.other
    · simp [definitionKinds, hcontainer, hmethod]
    · simp [namelessScopeKinds, hsingleton, hblock]

/-- What happens as the walk enters a node. -/
inductive Enters (source : List Char) (frame : Frame) (n : Node) :
    Frame × List OutlineEntry → Prop
  | definition {inner : Frame} {construct : Construct} {pin : Pin} {rest : List OutlineEntry} :
      n.isDefinition = true → construct.closurePath = inner.closurePath →
        inner.scopeEnd = n.stop →
          (∀ e ∈ rest, e.IsVariable inner.closurePath (n.range source)) →
            Enters source frame n (inner, .definition n.span construct pin :: rest)
  | scope {inner : Frame} {rest : List OutlineEntry} :
      n.isDefinition = false → n.opensScope = true → inner.closurePath = frame.closurePath →
        inner.scopeEnd = n.stop →
          (∀ e ∈ rest, e.IsVariable inner.closurePath (n.range source)) →
            Enters source frame n (inner, rest)
  | other : n.opensScope = false → Enters source frame n (frame, [])

theorem isVariable_of_mem_parameterEntries
    {frame : Frame} {n : Node} {e : OutlineEntry} (h : e ∈ parameterEntries source frame n) :
    e.IsVariable frame.closurePath (n.range source) := by
  obtain ⟨nameNode, -, rfl⟩ := List.mem_map.1 h
  exact ⟨rfl, rfl⟩

theorem enters_container
    (frame : Frame) {n : Node} (hn : n.isDefinition = true) (nameNode : Node) :
    Enters source frame n (enterContainer source frame n nameNode) := by
  unfold enterContainer
  split
  exact .definition hn rfl rfl (by simp)

theorem enters_method
    (frame : Frame) {n : Node} (hn : n.isDefinition = true) (nameNode : Node) :
    Enters source frame n (enterMethod source frame n nameNode) :=
  .definition hn rfl rfl fun _ => isVariable_of_mem_parameterEntries

theorem isDefinition_of_kind
    {n nameNode : Node} (hkind : n.kind ∈ definitionKinds)
    (hname : n.childByField "name" = some nameNode) :
    n.isDefinition = true := by
  simp [isDefinition, hkind, hname]

theorem opensScope_of_nameless
    {n : Node} (hkind : n.kind ∈ definitionKinds) (hname : n.childByField "name" = none) :
    n.opensScope = false := by
  have hscope : n.kind ∉ namelessScopeKinds := by
    have hall : ∀ kind ∈ definitionKinds, kind ∉ namelessScopeKinds := by decide
    exact hall n.kind hkind
  simp [opensScope, isDefinition, hname, hscope]

theorem opensScope_of_kind
    {n : Node} (hkind : n.kind ∈ namelessScopeKinds) :
    n.isDefinition = false ∧ n.opensScope = true := by
  have hdefinition : n.kind ∉ definitionKinds := by
    have hall : ∀ kind ∈ namelessScopeKinds, kind ∉ definitionKinds := by decide
    exact hall n.kind hkind
  simp [opensScope, isDefinition, hdefinition, hkind]

/-- Entering a node opens a definition, opens a scope, or does nothing. -/
theorem enters (source : List Char) (frame : Frame) (n : Node) :
    Enters source frame n (enter source frame n) := by
  have hentered := entered source frame n
  generalize enter source frame n = r at hentered
  cases hentered with
  | @container nameNode hkind hname =>
      refine enters_container frame (isDefinition_of_kind ?_ hname) nameNode
      rcases hkind with h | h <;> simp [h, definitionKinds]
  | @method nameNode hkind hname =>
      refine enters_method frame (isDefinition_of_kind ?_ hname) nameNode
      rcases hkind with h | h <;> simp [h, definitionKinds]
  | singletonClass hkind =>
      have hmem : n.kind ∈ namelessScopeKinds := by simp [hkind, namelessScopeKinds]
      obtain ⟨hdefinition, hscope⟩ := opensScope_of_kind hmem
      exact .scope hdefinition hscope rfl rfl (by simp)
  | block hkind =>
      have hmem : n.kind ∈ namelessScopeKinds := by
        rcases hkind with h | h | h <;> simp [h, namelessScopeKinds]
      obtain ⟨hdefinition, hscope⟩ := opensScope_of_kind hmem
      exact .scope hdefinition hscope rfl rfl fun _ => isVariable_of_mem_parameterEntries
  | nameless hkind hname => exact .other (opensScope_of_nameless hkind hname)
  | other hdefinition hscope =>
      apply Enters.other
      simp [opensScope, isDefinition, hdefinition, hscope]

theorem mem_assignmentEntries_cases
    {frame : Frame} {presence : Range} {left : Node} {right : Option Node} {e : OutlineEntry}
    (h : e ∈ assignmentEntries source frame presence left right) :
    (∃ value x, e = localEntry source frame presence value x) ∨
      left.kind ∈ sharedVariableKinds ∧ e = sharedEntry source frame left right := by
  unfold assignmentEntries at h
  split_ifs at h with hlocal hshared
  · exact Or.inl ⟨right, left, List.mem_singleton.1 h⟩
  · exact Or.inr ⟨hshared, List.mem_singleton.1 h⟩
  · obtain ⟨x, -, rfl⟩ := List.mem_map.1 h
    exact Or.inl ⟨none, x, rfl⟩

/-- A node that declares variables lists local ones, or one that is assigned and belongs
to a namespace or to the whole program. -/
theorem mem_declarations_cases
    {frame : Frame} {n : Node} {e : OutlineEntry} (h : e ∈ declarations source frame n) :
    (∃ value x, e =
        localEntry source frame (Text.rangeBetween source n.start frame.scopeEnd) value x) ∨
      ∃ value x, x.kind ∈ sharedVariableKinds ∧ e = sharedEntry source frame x value := by
  unfold declarations at h
  dsimp only at h
  split at h
  · split at h
    · rcases mem_assignmentEntries_cases h with hlocal | hshared
      · exact Or.inl hlocal
      · exact Or.inr ⟨_, _, hshared⟩
    · exact absurd h List.not_mem_nil
  split at h
  · split at h
    · obtain ⟨x, -, rfl⟩ := List.mem_map.1 h
      exact Or.inl ⟨none, x, rfl⟩
    · exact absurd h List.not_mem_nil
  split at h
  · split at h
    · split at h
      · exact Or.inl ⟨none, _, List.mem_singleton.1 h⟩
      · exact absurd h List.not_mem_nil
    · exact absurd h List.not_mem_nil
  · exact absurd h List.not_mem_nil

theorem isVariable_of_mem_declarations
    {frame : Frame} {n : Node} {e : OutlineEntry} (h : e ∈ declarations source frame n) :
    e.IsVariable frame.closurePath (Text.rangeBetween source n.start frame.scopeEnd) := by
  rcases mem_declarations_cases h with ⟨value, x, rfl⟩ | ⟨value, x, -, rfl⟩
  · exact ⟨rfl, rfl⟩
  · exact trivial

theorem scopeEnd_innerFrame (frame : Frame) (n : Node) :
    (n.innerFrame source frame).scopeEnd = if n.opensScope then n.stop else frame.scopeEnd := by
  have h := enters source frame n
  unfold innerFrame
  generalize enter source frame n = r at h
  cases h with
  | definition hn _ hend _ => simp [opensScope, hn, hend]
  | scope _ hn _ hend _ => simp [hn, hend]
  | other hn => simp [hn]

/-- Only definitions change the path that local variables belong to. -/
theorem closurePath_innerFrame
    (frame : Frame) {n : Node} (hn : n.isDefinition = false) :
    (n.innerFrame source frame).closurePath = frame.closurePath := by
  have h := enters source frame n
  unfold innerFrame
  generalize enter source frame n = r at h
  cases h with
  | definition hdefinition => exact absurd (hdefinition.symm.trans hn) (by decide)
  | scope _ _ hpath _ _ => exact hpath
  | other _ => rfl

/-- A definition makes an entry with its span and the path of the code in it. -/
theorem exists_definition_mem_ownEntries
    (source : List Char) (frame : Frame) {n : Node} (hn : n.isDefinition = true) :
    ∃ construct pin, .definition n.span construct pin ∈ n.ownEntries source frame ∧
      construct.closurePath = (n.innerFrame source frame).closurePath := by
  have h := enters source frame n
  unfold ownEntries innerFrame
  generalize enter source frame n = r at h
  cases h with
  | definition _ hpath _ _ => exact ⟨_, _, List.mem_append_left _ List.mem_cons_self, hpath⟩
  | scope hdefinition => exact absurd (hdefinition.symm.trans hn) (by decide)
  | other hscope => simp [opensScope, hn] at hscope

/-- Apart from the entry of its definition, a node makes entries of variables.
They are visible from the node to the end of the scope that it is in or opens. -/
theorem mem_ownEntries_cases
    {frame : Frame} {n : Node} {e : OutlineEntry} (h : e ∈ n.ownEntries source frame) :
    e.IsVariable (n.innerFrame source frame).closurePath
        (Text.rangeBetween source n.start (n.innerFrame source frame).scopeEnd) ∨
      n.isDefinition = true ∧ ∃ construct pin, e = .definition n.span construct pin ∧
        construct.closurePath = (n.innerFrame source frame).closurePath := by
  rcases List.mem_append.1 h with hopened | hdeclared
  · have henters := enters source frame n
    unfold innerFrame
    generalize enter source frame n = r at henters hopened
    cases henters with
    | definition hn hpath hend hrest =>
        rcases List.mem_cons.1 hopened with rfl | hopened
        · exact Or.inr ⟨hn, _, _, rfl, hpath⟩
        · rw [hend]
          exact Or.inl (hrest e hopened)
    | scope _ _ _ hend hrest =>
        rw [hend]
        exact Or.inl (hrest e hopened)
    | other _ => exact absurd hopened List.not_mem_nil
  · exact Or.inl (isVariable_of_mem_declarations hdeclared)

end Node

end Caret
