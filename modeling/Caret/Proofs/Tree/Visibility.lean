import Caret.Proofs.Text.Boundary
import Caret.Proofs.Text.PositionOrder
import Caret.Proofs.Tree.Lineage

/-!
# Where local variables are visible

The walk over a tree gives each local variable a range of lines and columns, and
the variables visible at a cursor are found by comparing positions with it.  In
a well-nested tree that is the same as comparing byte offsets: a parameter is
visible in all of its owner, and any other local variable from the node that
declares it to the end of the nearest scope around that node.
-/

namespace Caret

/-- A declaration of a local variable with the stretch of the text in which the
variable is visible: tokens that begin from `first` on and no later than `last`
see it. -/
structure LocalDeclaration where
  pin : LocalPin
  first : Nat
  last : Nat

namespace Node

variable {source : List Char} {textStop : Nat}

/-! ## Declarations -/

def declare (source : List Char) (path : String) (first last : Nat) (nameNode : Node)
    (value : Option Node) : LocalDeclaration where
  pin := ⟨variablePin source path nameNode value, Text.rangeBetween source first last⟩
  first := first
  last := last

/-- Methods, unless their name is missing, and blocks and lambdas. -/
def ownsParameters (n : Node) : Bool :=
  (n.kind == "method" || n.kind == "singleton_method") && (n.childByField "name").isSome ||
    (n.kind == "block" || n.kind == "do_block" || n.kind == "lambda")

/-- The nodes that name local variables on the left of an assignment, with the
values they get if each of them gets all of the right side. -/
def assignedNames (left : Node) (right : Option Node) : List (Node × Option Node) :=
  if left.kind = "identifier" then [(left, right)] else left.targets.map (·, none)

/-- The nodes that name the local variables which an assignment, a `for` or an
exception variable declares, with the values assigned to them. -/
def declaredNames (n : Node) : List (Node × Option Node) :=
  if n.kind = "assignment" || n.kind = "operator_assignment" then
    match n.childByField "left" with
    | some left => left.assignedNames (n.childByField "right")
    | none => []
  else if n.kind = "for" then
    match n.childByField "pattern" with
    | some pattern => pattern.targets.map (·, none)
    | none => []
  else if n.kind = "exception_variable" then
    match n.namedChildren with
    | nameNode :: _ => if nameNode.kind = "identifier" then [(nameNode, none)] else []
    | [] => []
  else
    []

/-- The local variables that a node declares below a lineage.  Parameters are
visible in all of the node, and other variables from the start of the node to the
end of the nearest scope. -/
def localDeclarations (source : List Char) (textStop : Nat) (above : List Node) (n : Node) :
    List LocalDeclaration :=
  let path := localPath source (n :: above)
  (if n.ownsParameters then
    n.ownParameters.map fun nameNode => declare source path n.start n.stop nameNode none
  else
    []) ++
    n.declaredNames.map fun (nameNode, value) =>
      declare source path n.start (scopeStop textStop (n :: above)) nameNode value

/-! ## The pins of the walk -/

theorem filterMap_localPin?_map_localEntry
    (frame : Frame) (presence : Range) (value : Option Node) (names : List Node) :
    (names.map (localEntry source frame presence value)).filterMap OutlineEntry.localPin? =
      names.map fun nameNode => ⟨variablePin source frame.closurePath nameNode value, presence⟩ := by
  rw [List.filterMap_map, ← List.filterMap_eq_map]
  rfl

theorem filterMap_localPin?_enter (frame : Frame) (n : Node) :
    (enter source frame n).2.filterMap OutlineEntry.localPin? =
      if n.ownsParameters then
        n.ownParameters.map fun nameNode =>
          ⟨variablePin source (n.innerFrame source frame).closurePath nameNode none,
            n.range source⟩
      else [] := by
  have hentered := entered source frame n
  unfold innerFrame
  generalize enter source frame n = r at hentered
  cases hentered with
  | @container nameNode hkind hname =>
      rcases hkind with h | h <;>
        simp [enterContainer, ownsParameters, OutlineEntry.localPin?, h]
  | @method nameNode hkind hname =>
      have howns : n.ownsParameters = true := by
        rcases hkind with h | h <;> simp [ownsParameters, h, hname]
      rw [if_pos howns]
      exact filterMap_localPin?_map_localEntry _ _ none n.ownParameters
  | singletonClass hkind => simp [ownsParameters, hkind]
  | block hkind =>
      have howns : n.ownsParameters = true := by
        rcases hkind with h | h | h <;> simp [ownsParameters, h]
      rw [if_pos howns]
      exact filterMap_localPin?_map_localEntry _ _ none n.ownParameters
  | nameless hkind hname =>
      rw [mem_definitionKinds_iff] at hkind
      rcases hkind with h | h | h | h <;> simp [ownsParameters, hname, h]
  | other hdefinition hscope =>
      simp only [mem_definitionKinds_iff, not_or] at hdefinition
      simp only [mem_namelessScopeKinds_iff, not_or] at hscope
      simp [ownsParameters, hdefinition, hscope]

/-- A variable that is shared is no local name in a list of targets. -/
theorem targets_eq_nil_of_shared {n : Node} (hn : n.kind ∈ sharedVariableKinds) :
    n.targets = [] := by
  have hkinds : ∀ kind ∈ sharedVariableKinds, kind ≠ "identifier" ∧ kind ∉ targetListKinds := by
    decide
  obtain ⟨hidentifier, hlist⟩ := hkinds n.kind hn
  obtain ⟨kind, start, stop, named, field, children⟩ := n
  rw [targets, if_neg hidentifier, if_neg hlist]

theorem filterMap_localPin?_assignmentEntries
    (frame : Frame) (presence : Range) (left : Node) (right : Option Node) :
    (assignmentEntries source frame presence left right).filterMap OutlineEntry.localPin? =
      (left.assignedNames right).map fun (nameNode, value) =>
        ⟨variablePin source frame.closurePath nameNode value, presence⟩ := by
  unfold assignmentEntries assignedNames
  split
  · rfl
  split
  · rename_i hshared
    rw [targets_eq_nil_of_shared hshared]
    rfl
  · rw [filterMap_localPin?_map_localEntry, List.map_map]
    rfl

theorem filterMap_localPin?_declarations (frame : Frame) (n : Node) :
    (declarations source frame n).filterMap OutlineEntry.localPin? =
      n.declaredNames.map fun (nameNode, value) =>
        ⟨variablePin source frame.closurePath nameNode value,
          Text.rangeBetween source n.start frame.scopeEnd⟩ := by
  unfold declarations declaredNames
  simp only [Bool.or_eq_true, decide_eq_true_eq]
  split
  · cases n.childByField "left" with
    | none => rfl
    | some left => exact filterMap_localPin?_assignmentEntries frame _ left _
  split
  · cases n.childByField "pattern" with
    | none => rfl
    | some pattern =>
      dsimp only
      rw [filterMap_localPin?_map_localEntry, List.map_map]
      rfl
  split
  · cases n.namedChildren with
    | nil => rfl
    | cons nameNode _ =>
      dsimp only
      split <;> rfl
  · rfl

/-- The pins of the local variables that a node declares, in order. -/
theorem filterMap_localPin?_ownEntries (above : List Node) (n : Node) :
    (n.ownEntries source (frameOf source textStop above)).filterMap OutlineEntry.localPin? =
      (n.localDeclarations source textStop above).map LocalDeclaration.pin := by
  have hframe : n.innerFrame source (frameOf source textStop above) =
      frameOf source textStop (n :: above) := (enter_frameOf above n).1
  rw [ownEntries, List.filterMap_append, filterMap_localPin?_enter,
    filterMap_localPin?_declarations, hframe, localDeclarations, List.map_append, List.map_map]
  congr 1
  split
  · rw [List.map_map]
    rfl
  · rfl

/-! ## Bounds of the stretches -/

theorem exists_place_of_mem_lineage {root m : Node} {a : List Nat} (hm : m ∈ root.lineage a) :
    ∃ b, root.at? b = some m := by
  obtain ⟨b, -, hb⟩ := List.mem_filterMap.1 hm
  exact ⟨b, hb⟩

theorem isBoundary_scopeStop
    {root : Node} (hroot : root.wellNested source = true) (a : List Nat) :
    Text.IsBoundary source (scopeStop (Text.byteLength source) (root.lineage a)) := by
  unfold scopeStop
  split
  · rename_i m hfind
    obtain ⟨b, hb⟩ := exists_place_of_mem_lineage (List.mem_of_find?_eq_some hfind)
    exact (wellNested_iff.1 (wellNested_at? hroot hb).1).stop_valid
  · exact Text.isBoundary_byteLength source

/-- A variable has the range between the ends of its stretch as its presence, and
both ends are one of a node or of the text. -/
theorem presence_of_mem_localDeclarations
    {n : Node} {above : List Node} {d : LocalDeclaration}
    (hd : d ∈ n.localDeclarations source textStop above) :
    d.pin.presence = Text.rangeBetween source d.first d.last ∧ d.first = n.start ∧
      (d.last = n.stop ∨ d.last = scopeStop textStop (n :: above)) := by
  rcases List.mem_append.1 hd with hparameter | hdeclared
  · split at hparameter
    · obtain ⟨nameNode, -, rfl⟩ := List.mem_map.1 hparameter
      exact ⟨rfl, rfl, Or.inl rfl⟩
    · exact absurd hparameter List.not_mem_nil
  · obtain ⟨⟨nameNode, value⟩, -, rfl⟩ := List.mem_map.1 hdeclared
    exact ⟨rfl, rfl, Or.inr rfl⟩

end Node

namespace Source

open Node

/-- The declarations of local variables in a source, one place of the tree after
the other. -/
def localDeclarations (s : Source) : List LocalDeclaration :=
  s.root.places.flatMap fun a =>
    match s.root.lineage a with
    | n :: above => n.localDeclarations s.text (Text.byteLength s.text) above
    | [] => []

theorem localPins_eq_map_localDeclarations
    {s : Source} (hs : s.root.wellNested s.text = true) :
    s.localPins = s.localDeclarations.map LocalDeclaration.pin := by
  have hstop : s.topStop = Text.byteLength s.text :=
    Nat.max_eq_right (Text.IsBoundary.le (wellNested_iff.1 hs).stop_valid)
  rw [localPins, entries_eq_flatMap_places, List.filterMap_flatMap, localDeclarations,
    List.map_flatMap]
  refine List.flatMap_congr fun a ha => ?_
  obtain ⟨n, hn⟩ := mem_places_iff.1 ha
  obtain ⟨above, hlineage, hentries⟩ := exists_lineage_of_at? hn
  rw [hentries, hstop, filterMap_localPin?_ownEntries, hlineage]

theorem valid_of_mem_localDeclarations
    {s : Source} (hs : s.root.wellNested s.text = true) {d : LocalDeclaration}
    (hd : d ∈ s.localDeclarations) :
    d.pin.presence = Text.rangeBetween s.text d.first d.last ∧
      Text.IsBoundary s.text d.first ∧ Text.IsBoundary s.text d.last := by
  obtain ⟨a, ha, hd⟩ := List.mem_flatMap.1 hd
  obtain ⟨n, hn⟩ := mem_places_iff.1 ha
  obtain ⟨above, hlineage, -⟩ := exists_lineage_of_at? hn
  have hscope := isBoundary_scopeStop hs a
  rw [hlineage] at hd hscope
  obtain ⟨hpresence, hfirst, hlast⟩ := presence_of_mem_localDeclarations hd
  have hwell := wellNested_iff.1 (wellNested_at? hs hn).1
  refine ⟨hpresence, hfirst ▸ hwell.start_valid, ?_⟩
  rcases hlast with hlast | hlast
  · exact hlast ▸ hwell.stop_valid
  · exact hlast ▸ hscope

theorem visibleFrom_iff
    {s : Source} (hs : s.root.wellNested s.text = true) {o : Nat}
    (ho : Text.IsBoundary s.text o) {d : LocalDeclaration} (hd : d ∈ s.localDeclarations) :
    (Pin.localVariable d.pin).visibleFrom (s.toBuffer.positionAt (s.root.tokenStart o)) = true ↔
      d.first ≤ s.root.tokenStart o ∧ s.root.tokenStart o ≤ d.last := by
  obtain ⟨hpresence, hfirst, hlast⟩ := valid_of_mem_localDeclarations hs hd
  have hcontains := Text.contains_rangeBetween_iff hfirst hlast (isBoundary_tokenStart hs ho)
  rw [← hpresence] at hcontains
  exact hcontains

/-- The local variables of a source are those that its nodes declare.  One of them
is visible at a cursor if and only if it has the path of the construct around the
cursor and the token at the cursor begins in the stretch of its declaration, both
ends included.  The visible ones are listed in the order of their declarations. -/
theorem visibleLocals_iff_inStretch
    {s : Source} (hs : s.root.wellNested s.text = true) {o : Nat}
    (ho : Text.IsBoundary s.text o) :
    s.toBuffer.locals = s.localDeclarations.map (fun d => .localVariable d.pin) ∧
      (∀ d ∈ s.localDeclarations, .localVariable d.pin ∈ s.toBuffer.visibleLocals o ↔
        (s.toBuffer.constructAt o).closurePath = d.pin.closurePath ∧
          d.first ≤ s.root.tokenStart o ∧ s.root.tokenStart o ≤ d.last) ∧
      s.toBuffer.visibleLocals o =
        (s.localDeclarations.filter fun d =>
          (s.toBuffer.constructAt o).closurePath = d.pin.closurePath ∧
            d.first ≤ s.root.tokenStart o ∧ s.root.tokenStart o ≤ d.last).map
          fun d => .localVariable d.pin := by
  have hlocals : s.toBuffer.locals = s.localDeclarations.map (fun d => .localVariable d.pin) := by
    rw [toBuffer, localPins_eq_map_localDeclarations hs, List.map_map]
    rfl
  have hvisible : ∀ d ∈ s.localDeclarations,
      ((d.pin.closurePath == (s.toBuffer.constructAt o).closurePath &&
        (Pin.localVariable d.pin).visibleFrom (s.toBuffer.positionAt (s.root.tokenStart o))) =
          true ↔
        (s.toBuffer.constructAt o).closurePath = d.pin.closurePath ∧
          d.first ≤ s.root.tokenStart o ∧ s.root.tokenStart o ≤ d.last) := by
    intro d hd
    rw [Bool.and_eq_true, beq_iff_eq, visibleFrom_iff hs ho hd]
    exact and_congr_left' eq_comm
  refine ⟨hlocals, ?_, ?_⟩
  · intro d hd
    rw [← hvisible d hd, Buffer.visibleLocals, List.mem_filter]
    refine and_iff_right ?_
    rw [hlocals]
    exact List.mem_map_of_mem hd
  · rw [Buffer.visibleLocals, hlocals, List.filter_map]
    congr 1
    refine List.filter_congr fun d hd => ?_
    rw [Bool.eq_iff_iff, decide_eq_true_iff]
    exact hvisible d hd

/-- A method in which a block stands behind an assignment. -/
def blockBehindAssignment : Source where
  text := "def m(p); é = 1; f \x7b |q| r = q \x7d; end".toList
  root :=
    ⟨"program", 0, 38, true, none,
      [⟨"method", 0, 38, true, none,
          [⟨"def", 0, 3, false, none, []⟩,
            ⟨"identifier", 4, 5, true, some "name", []⟩,
            ⟨"method_parameters", 5, 8, true, some "parameters",
              [⟨"(", 5, 6, false, none, []⟩,
                ⟨"identifier", 6, 7, true, none, []⟩,
                ⟨")", 7, 8, false, none, []⟩]⟩,
            ⟨";", 8, 9, false, none, []⟩,
            ⟨"body_statement", 10, 34, true, some "body",
              [⟨"assignment", 10, 16, true, none,
                  [⟨"identifier", 10, 12, true, some "left", []⟩,
                    ⟨"=", 13, 14, false, none, []⟩,
                    ⟨"integer", 15, 16, true, some "right", []⟩]⟩,
                ⟨";", 16, 17, false, none, []⟩,
                ⟨"call", 18, 33, true, none,
                  [⟨"identifier", 18, 19, true, some "method", []⟩,
                    ⟨"block", 20, 33, true, some "block",
                      [⟨"\x7b", 20, 21, false, none, []⟩,
                        ⟨"block_parameters", 22, 25, true, some "parameters",
                          [⟨"|", 22, 23, false, none, []⟩,
                            ⟨"identifier", 23, 24, true, none, []⟩,
                            ⟨"|", 24, 25, false, none, []⟩]⟩,
                        ⟨"block_body", 26, 31, true, some "body",
                          [⟨"assignment", 26, 31, true, none,
                              [⟨"identifier", 26, 27, true, some "left", []⟩,
                                ⟨"=", 28, 29, false, none, []⟩,
                                ⟨"identifier", 30, 31, true, some "right", []⟩]⟩]⟩,
                        ⟨"\x7d", 32, 33, false, none, []⟩]⟩]⟩,
                ⟨";", 33, 34, false, none, []⟩]⟩,
            ⟨"end", 35, 38, false, none, []⟩]⟩]⟩

/-- Behind the block only the variables of the method itself are visible. -/
theorem visibleLocals_blockBehindAssignment :
    let s := blockBehindAssignment
    s.root.wellNested s.text = true ∧ Text.IsBoundary s.text 34 ∧
      s.localDeclarations.map (fun d => (d.pin.declaration.name, d.first, d.last)) =
        [("p", 0, 38), ("é", 10, 38), ("q", 20, 33), ("r", 26, 33)] ∧
      (s.toBuffer.visibleLocals 34).map Pin.name = ["p", "é"] := by
  intro s
  have hs : s.root.wellNested s.text = true := by decide
  have ho : Text.IsBoundary s.text 34 := ⟨s.text.take 33, s.text.drop 33, by decide, by decide⟩
  obtain ⟨-, -, hvisible⟩ := visibleLocals_iff_inStretch hs ho
  refine ⟨hs, ho, by decide, ?_⟩
  rw [hvisible]
  decide

end Source

end Caret
