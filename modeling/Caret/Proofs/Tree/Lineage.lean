import Caret.Proofs.Tree.Frames
import Caret.Tree.Source

/-!
# The nodes above a place

The walk over a tree hands a frame down.  All of that frame can be read off the
nodes on the way from the root: the namespace from the names of the containers
among them, the path of the local variables from the last definition, and the
end of their visibility from the last scope.  Lineages are listed from a node up
to the root, so that entering a node puts it in front of its lineage.
-/

namespace Caret

namespace Node

/-- The node at a place and those above it, the nearest first. -/
def lineage (root : Node) (a : List Nat) : List Node :=
  a.inits.reverse.filterMap root.at?

@[simp] theorem lineage_nil (root : Node) : root.lineage [] = [root] := rfl

theorem lineage_cons
    {root c : Node} {i : Nat} (hc : root.children[i]? = some c) (a : List Nat) :
    root.lineage (i :: a) = c.lineage a ++ [root] := by
  have hbelow : (root.at? ∘ fun b => i :: b) = c.at? := by
    funext b
    rw [Function.comp_apply, at?, hc, Option.bind_some]
  rw [lineage, List.inits, List.reverse_cons, List.filterMap_append, ← List.map_reverse,
    List.filterMap_map, hbelow]
  rfl

/-! ## What a lineage says -/

/-- Classes and modules, unless their name is missing. -/
def isContainer (n : Node) : Bool :=
  (n.kind == "class" || n.kind == "module") && (n.childByField "name").isSome

/-- The nodes that settle what methods in them belong to. -/
def settlesOwner (n : Node) : Bool :=
  n.isContainer || n.kind == "singleton_class"

/-- The text of the name of a definition. -/
def ownName (source : List Char) (n : Node) : String :=
  match n.childByField "name" with
  | some nameNode => nameNode.name source
  | none => ""

/-- A path with a name put to it.  A name that begins with a double colon starts
a new path, and any other is joined to the path by a double colon. -/
def joinName (name path : String) : String :=
  if [':', ':'] <+: name.toList then String.ofList (name.toList.drop 2)
  else if path = "" then name
  else path ++ "::" ++ name

/-- The names of the containers in a lineage put together, from the outermost
one in. -/
def namespaceOf (source : List Char) (ns : List Node) : String :=
  ((ns.filter isContainer).map (ownName source)).foldr joinName ""

/-- Whether the nearest node of a lineage that settles what methods belong to is
a singleton class. -/
def runsOnType (ns : List Node) : Bool :=
  (ns.find? settlesOwner).any (·.kind == "singleton_class")

/-- The construct that a definition opens below a lineage. -/
def constructBelow (source : List Char) (above : List Node) (n : Node) : Construct :=
  let path := namespaceOf source (n :: above)
  if n.kind = "class" then ⟨.classDef, path, path⟩
  else if n.kind = "module" then ⟨.moduleDef, path, path⟩
  else if n.kind = "singleton_method" || runsOnType above then
    ⟨.singletonMethod, path, path ++ "." ++ n.ownName source⟩
  else ⟨.method, path, path ++ "#" ++ n.ownName source⟩

/-- The path of the nearest definition in a lineage. -/
def localPath (source : List Char) : List Node → String
  | [] => ""
  | n :: above =>
    if n.isDefinition then (constructBelow source above n).closurePath
    else localPath source above

/-- The end of the nearest scope in a lineage, or of the text if there is none. -/
def scopeStop (textStop : Nat) (ns : List Node) : Nat :=
  match ns.find? opensScope with
  | some n => n.stop
  | none => textStop

/-- What a lineage means for the code below it. -/
def frameOf (source : List Char) (textStop : Nat) (ns : List Node) : Frame :=
  ⟨namespaceOf source ns, localPath source ns, runsOnType ns, scopeStop textStop ns⟩

variable {source : List Char} {textStop : Nat}

theorem qualify_eq_joinName (outer name : String) : qualify outer name = joinName name outer := by
  unfold qualify joinName
  split
  · rename_i rest hname
    rw [if_pos (by simp [hname]), hname]
    rfl
  · rename_i hname
    have hstart : ¬[':', ':'] <+: name.toList := by
      rintro ⟨rest, hrest⟩
      exact hname rest hrest.symm
    rw [if_neg hstart]

/-! ## One more node in front -/

theorem namespaceOf_cons (n : Node) (above : List Node) :
    namespaceOf source (n :: above) =
      if n.isContainer then qualify (namespaceOf source above) (n.ownName source)
      else namespaceOf source above := by
  rw [namespaceOf, List.filter_cons, qualify_eq_joinName]
  split <;> rfl

theorem runsOnType_cons (n : Node) (above : List Node) :
    runsOnType (n :: above) =
      if n.settlesOwner then n.kind == "singleton_class" else runsOnType above := by
  rw [runsOnType, List.find?_cons]
  cases n.settlesOwner <;> rfl

theorem scopeStop_cons (n : Node) (above : List Node) :
    scopeStop textStop (n :: above) =
      if n.opensScope then n.stop else scopeStop textStop above := by
  rw [scopeStop, List.find?_cons]
  cases n.opensScope <;> rfl

theorem frameOf_cons (n : Node) (above : List Node) :
    frameOf source textStop (n :: above) =
      ⟨if n.isContainer then qualify (namespaceOf source above) (n.ownName source)
        else namespaceOf source above,
        if n.isDefinition then (constructBelow source above n).closurePath
        else localPath source above,
        if n.settlesOwner then n.kind == "singleton_class" else runsOnType above,
        if n.opensScope then n.stop else scopeStop textStop above⟩ := by
  rw [frameOf, namespaceOf_cons, localPath, runsOnType_cons, scopeStop_cons]

theorem ownName_of_childByField
    {n nameNode : Node} (hname : n.childByField "name" = some nameNode) :
    n.ownName source = nameNode.name source := by
  rw [ownName, hname]

theorem filterMap_construct?_parameterEntries (frame : Frame) (n : Node) :
    (parameterEntries source frame n).filterMap OutlineEntry.construct? = [] := by
  simp [parameterEntries, localEntry, OutlineEntry.construct?]

/-- What the walk does as it enters a node below a lineage: the node is put in
front of the lineage, and if it is a definition, its construct is listed. -/
theorem enter_frameOf (above : List Node) (n : Node) :
    (enter source (frameOf source textStop above) n).1 = frameOf source textStop (n :: above) ∧
      (enter source (frameOf source textStop above) n).2.filterMap OutlineEntry.construct? =
        if n.isDefinition then [(n.span, constructBelow source above n)] else [] := by
  have hentered := entered source (frameOf source textStop above) n
  generalize enter source (frameOf source textStop above) n = r at hentered
  rw [frameOf_cons]
  cases hentered with
  | @container nameNode hkind hname =>
      have hown : n.ownName source = nameNode.name source := ownName_of_childByField hname
      rcases hkind with h | h <;>
        simp [enterContainer, frameOf, constructBelow, namespaceOf_cons, isContainer, isDefinition,
          definitionKinds, settlesOwner, opensScope, OutlineEntry.construct?, Construct.ofNamespace,
          h, hname, hown]
  | @method nameNode hkind hname =>
      have hown : n.ownName source = nameNode.name source := ownName_of_childByField hname
      cases hsingleton : runsOnType above <;> rcases hkind with h | h <;>
        simp [enterMethod, frameOf, constructBelow, namespaceOf_cons, isContainer, isDefinition,
          definitionKinds, settlesOwner, opensScope, OutlineEntry.construct?,
          filterMap_construct?_parameterEntries, h, hname, hown, hsingleton]
  | singletonClass hkind =>
      simp [frameOf, isContainer, isDefinition, definitionKinds, settlesOwner, opensScope,
        namelessScopeKinds, hkind]
  | block hkind =>
      rcases hkind with h | h | h <;>
        simp [frameOf, isContainer, isDefinition, definitionKinds, settlesOwner, opensScope,
          namelessScopeKinds, filterMap_construct?_parameterEntries, h]
  | nameless hkind hname =>
      have hscope := opensScope_of_nameless hkind hname
      rw [mem_definitionKinds_iff] at hkind
      rcases hkind with h | h | h | h <;>
        simp [frameOf, isContainer, isDefinition, settlesOwner, hscope, hname, h]
  | other hdefinition hscope =>
      simp only [mem_definitionKinds_iff, not_or] at hdefinition
      simp only [mem_namelessScopeKinds_iff, not_or] at hscope
      simp [frameOf, isContainer, isDefinition, definitionKinds, settlesOwner, opensScope,
        namelessScopeKinds, hdefinition, hscope]

/-! ## The whole walk -/

/-- The frame that the walk hands to a node is that of the nodes above it. -/
theorem exists_lineage_of_visit?
    {root m : Node} {above : List Node} {a : List Nat} {f : Frame}
    (h : root.visit? source (frameOf source textStop above) a = some (f, m)) :
    ∃ up, root.lineage a ++ above = m :: up ∧ f = frameOf source textStop up := by
  induction a generalizing root above with
  | nil =>
      obtain ⟨rfl, rfl⟩ := Prod.mk.inj (Option.some.inj h)
      exact ⟨above, rfl, rfl⟩
  | cons i a ih =>
      obtain ⟨c, hc, h⟩ := visit?_cons_eq_some_iff.1 h
      rw [innerFrame, (enter_frameOf above root).1] at h
      obtain ⟨up, hup, hf⟩ := ih h
      refine ⟨up, ?_, hf⟩
      rw [lineage_cons hc, List.append_assoc]
      exact hup

end Node

namespace Source

open Node

/-- Where the locals of the top level stop being visible. -/
def topStop (s : Source) : Nat :=
  max s.root.stop (Text.byteLength s.text)

/-- The entries of a source, one place of the tree after the other. -/
theorem entries_eq_flatMap_places (s : Source) :
    s.entries = s.root.places.flatMap (s.root.entriesAt s.text (s.root.topFrame s.text)) :=
  outline_eq_flatMap_places _ _

/-- The entries at a place are those that the node there makes in the frame of
the nodes above it. -/
theorem exists_lineage_of_at?
    {s : Source} {a : List Nat} {n : Node} (hn : s.root.at? a = some n) :
    ∃ above, s.root.lineage a = n :: above ∧
      s.root.entriesAt s.text (s.root.topFrame s.text) a =
        n.ownEntries s.text (frameOf s.text s.topStop above) := by
  obtain ⟨f, hvisit⟩ := exists_visit?_of_at? s.text (frameOf s.text s.topStop []) hn
  obtain ⟨above, hlineage, rfl⟩ := exists_lineage_of_visit? hvisit
  rw [List.append_nil] at hlineage
  refine ⟨above, hlineage, ?_⟩
  have htop : s.root.topFrame s.text = frameOf s.text s.topStop [] := rfl
  rw [htop, entriesAt, hvisit]

end Source

end Caret
