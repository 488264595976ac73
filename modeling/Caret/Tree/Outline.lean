import Caret.Construct
import Caret.Pin.Basic
import Caret.Tree.Literal

/-!
# The outline of a source

One walk over a tree lists the constructs that the source defines and the
variables it declares: those of a node first, all its parameters among them, and
then those further down.  The walk hands a frame down: the namespace around it,
the path that local variables belong to, and the end of the scope in which they
can be seen.
-/

namespace Caret

/-- What the walk finds. -/
inductive OutlineEntry where
  /-- A class, module or method: the span it takes, the construct it opens and
  the pin of its definition. -/
  | definition (span : Span) (construct : Construct) (pin : Pin)
  /-- A local variable. -/
  | localVariable (pin : LocalPin)
  /-- A variable that belongs to a namespace or to the whole program. -/
  | sharedVariable (pin : Pin)
deriving DecidableEq

/-- What the surroundings mean for the code at a node. -/
structure Frame where
  namespaceName : String
  closurePath : String
  /-- Inside of `class << self`, where methods belong to the type itself. -/
  inSingleton : Bool
  /-- Where local variables declared here stop being visible. -/
  scopeEnd : Nat
deriving DecidableEq, Repr

/-- The qualified name of a container named in a namespace.  A name that begins
with a double colon starts at the top level. -/
def qualify (outer name : String) : String :=
  match name.toList with
  | ':' :: ':' :: rest => String.ofList rest
  | _ => if outer = "" then name else outer ++ "::" ++ name

/-- The parts of a text before and after its last double colon. -/
def splitLastColons? : List Char → Option (List Char × List Char)
  | [] => none
  | c :: cs =>
    match splitLastColons? cs with
    | some (before, after) => some (c :: before, after)
    | none =>
      match c, cs with
      | ':', ':' :: after => some ([], after)
      | _, _ => none

namespace Node

def span (n : Node) : Span :=
  Span.between n.start n.stop

def range (source : List Char) (n : Node) : Range :=
  Text.rangeBetween source n.start n.stop

def name (source : List Char) (n : Node) : String :=
  String.ofList (n.text source)

/-- Kinds of parameter that carry their name in a field. -/
def fieldedParameterKinds : List String :=
  ["optional_parameter", "keyword_parameter", "splat_parameter", "hash_splat_parameter",
    "block_parameter"]

mutual

/-- The nodes that name the parameters in a parameter list. -/
def parameterNames (n : Node) : List Node :=
  match n with
  | ⟨_, _, _, _, _, children⟩ => parameterNamesAmong children
termination_by structural n

/-- The nodes that name the parameters of a list, those of a destructuring
included. -/
def parameterNamesAmong (ns : List Node) : List Node :=
  match ns with
  | [] => []
  | n :: rest =>
    let here :=
      if !n.named then []
      else if n.kind = "identifier" then [n]
      else if n.kind ∈ fieldedParameterKinds then (n.childByField "name").toList
      else if n.kind = "destructured_parameter" then n.parameterNames
      else []
    here ++ parameterNamesAmong rest
termination_by structural ns

end

def ownParameters (owner : Node) : List Node :=
  match owner.childByField "parameters" with
  | some list => list.parameterNames
  | none => []

/-- Kinds of node that group the targets of an assignment. -/
def targetListKinds : List String :=
  ["left_assignment_list", "rest_assignment", "destructured_left_assignment"]

mutual

/-- The plain names among the targets of a multiple assignment. -/
def targets (n : Node) : List Node :=
  match n with
  | ⟨kind, start, stop, named, field, children⟩ =>
    if kind = "identifier" then [⟨kind, start, stop, named, field, children⟩]
    else if kind ∈ targetListKinds then targetsAmong children
    else []
termination_by structural n

def targetsAmong (ns : List Node) : List Node :=
  match ns with
  | [] => []
  | n :: rest => (if n.named then n.targets else []) ++ targetsAmong rest
termination_by structural ns

end

/-- The pin of a variable that a node names, with the value assigned to it. -/
def variablePin
    (source : List Char) (closurePath : String) (nameNode : Node) (value : Option Node) :
    VariablePin where
  name := nameNode.name source
  closurePath := closurePath
  location := some (nameNode.range source)
  assignment := value.map (·.name source)
  staticType :=
    match value.bind (·.expressionType source) with
    | some type => TypeExpr.ofName type
    | none => .undefined

def localEntry
    (source : List Char) (frame : Frame) (presence : Range) (value : Option Node)
    (nameNode : Node) : OutlineEntry :=
  .localVariable ⟨variablePin source frame.closurePath nameNode value, presence⟩

/-- The entries of parameters, which are visible all over their owner. -/
def parameterEntries (source : List Char) (frame : Frame) (owner : Node) : List OutlineEntry :=
  owner.ownParameters.map (localEntry source frame (owner.range source) none)

def enterContainer
    (source : List Char) (frame : Frame) (n nameNode : Node) : Frame × List OutlineEntry :=
  let qualified := qualify frame.namespaceName (nameNode.name source)
  let (outer, name) :=
    match splitLastColons? qualified.toList with
    | some (outer, name) => (String.ofList outer, String.ofList name)
    | none => ("", qualified)
  let (kind, pinKind) :=
    if n.kind = "class" then (ConstructKind.classDef, ContainerKind.classDef)
    else (ConstructKind.moduleDef, ContainerKind.moduleDef)
  let pin : ContainerPin := ⟨name, outer, some (nameNode.range source), pinKind⟩
  (⟨qualified, qualified, false, n.stop⟩,
    [.definition n.span (.ofNamespace kind qualified) (.container pin)])

def enterMethod
    (source : List Char) (frame : Frame) (n nameNode : Node) : Frame × List OutlineEntry :=
  let name := nameNode.name source
  let kind : ConstructKind :=
    if n.kind = "singleton_method" || frame.inSingleton then .singletonMethod else .method
  let mark := if kind = .method then "#" else "."
  let closurePath := frame.namespaceName ++ mark ++ name
  let pin : MethodPin :=
    { name := name
      closurePath := frame.namespaceName
      location := some (nameNode.range source)
      scope := kind.scope
      parameters := n.ownParameters.map (·.name source) }
  let inner : Frame := { frame with closurePath := closurePath, scopeEnd := n.stop }
  (inner,
    .definition n.span ⟨kind, frame.namespaceName, closurePath⟩ (.method pin) ::
      parameterEntries source inner n)

/-- The frame for the code in a node and the entries that the node itself makes
as it opens a scope.  A class, module or method whose name is missing opens
none. -/
def enter (source : List Char) (frame : Frame) (n : Node) : Frame × List OutlineEntry :=
  if n.kind = "class" || n.kind = "module" then
    match n.childByField "name" with
    | some nameNode => enterContainer source frame n nameNode
    | none => (frame, [])
  else if n.kind = "singleton_class" then
    ({ frame with inSingleton := true, scopeEnd := n.stop }, [])
  else if n.kind = "method" || n.kind = "singleton_method" then
    match n.childByField "name" with
    | some nameNode => enterMethod source frame n nameNode
    | none => (frame, [])
  else if n.kind = "block" || n.kind = "do_block" || n.kind = "lambda" then
    let inner := { frame with scopeEnd := n.stop }
    (inner, parameterEntries source inner n)
  else
    (frame, [])

/-- The entry of a variable that belongs to a namespace, or of a global
variable, which belongs to none. -/
def sharedEntry
    (source : List Char) (frame : Frame) (nameNode : Node) (value : Option Node) :
    OutlineEntry :=
  let closurePath := if nameNode.kind = "global_variable" then "" else frame.namespaceName
  let pin := variablePin source closurePath nameNode value
  .sharedVariable <|
    if nameNode.kind = "instance_variable" then .instanceVariable pin
    else if nameNode.kind = "class_variable" then .classVariable pin
    else if nameNode.kind = "global_variable" then .globalVariable pin
    else .constant pin

/-- Kinds of variable that do not belong to the code that assigns them. -/
def sharedVariableKinds : List String :=
  ["instance_variable", "class_variable", "global_variable", "constant"]

/-- The entries of an assignment to `left`. -/
def assignmentEntries
    (source : List Char) (frame : Frame) (presence : Range) (left : Node) (right : Option Node) :
    List OutlineEntry :=
  if left.kind = "identifier" then
    [localEntry source frame presence right left]
  else if left.kind ∈ sharedVariableKinds then
    [sharedEntry source frame left right]
  else
    left.targets.map (localEntry source frame presence none)

/-- The entries of the variables that a node declares. -/
def declarations (source : List Char) (frame : Frame) (n : Node) : List OutlineEntry :=
  let presence := Text.rangeBetween source n.start frame.scopeEnd
  if n.kind = "assignment" || n.kind = "operator_assignment" then
    match n.childByField "left" with
    | some left => assignmentEntries source frame presence left (n.childByField "right")
    | none => []
  else if n.kind = "for" then
    match n.childByField "pattern" with
    | some pattern => pattern.targets.map (localEntry source frame presence none)
    | none => []
  else if n.kind = "exception_variable" then
    match n.namedChildren with
    | nameNode :: _ =>
      if nameNode.kind = "identifier" then [localEntry source frame presence none nameNode] else []
    | [] => []
  else
    []

mutual

def outline (source : List Char) (frame : Frame) (n : Node) : List OutlineEntry :=
  match n with
  | ⟨kind, start, stop, named, field, children⟩ =>
    let here : Node := ⟨kind, start, stop, named, field, children⟩
    let (inner, opened) := enter source frame here
    opened ++ declarations source inner here ++ outlineAmong source inner children
termination_by structural n

def outlineAmong (source : List Char) (frame : Frame) (ns : List Node) : List OutlineEntry :=
  match ns with
  | [] => []
  | n :: rest => n.outline source frame ++ outlineAmong source frame rest
termination_by structural ns

end

/-- The frame of the top level, whose variables are visible to the end. -/
def topFrame (source : List Char) (root : Node) : Frame :=
  ⟨"", "", false, max root.stop (Text.byteLength source)⟩

end Node

namespace OutlineEntry

def construct? : OutlineEntry → Option (Span × Construct)
  | .definition span construct _ => some (span, construct)
  | _ => none

def localPin? : OutlineEntry → Option LocalPin
  | .localVariable pin => some pin
  | _ => none

/-- The pin of an entry that is not a local variable. -/
def definitionPin? : OutlineEntry → Option Pin
  | .definition _ _ pin => some pin
  | .sharedVariable pin => some pin
  | .localVariable _ => none

end OutlineEntry

end Caret
