import Caret.Span
import Caret.Tree.Node

/-!
# Comments and strings of a tree

A string literal covers its text except for the code interpolated into it.
Interpolated code is walked like any other code, so the strings and comments in
it count again, at any depth.
-/

namespace Caret.Node

/-- Kinds of node whose text is that of a string. -/
def stringKinds : List String :=
  ["string", "heredoc_body", "subshell", "regex", "string_array", "symbol_array",
    "delimited_symbol", "character"]

/-- A stretch of text that is a comment or belongs to a string. -/
inductive Region where
  | comment (span : Span)
  | string (span : Span)
deriving DecidableEq, Repr

namespace Region

def comment? : Region → Option Span
  | .comment span => some span
  | .string _ => none

def string? : Region → Option Span
  | .string span => some span
  | .comment _ => none

end Region

mutual

/-- The spans of the outermost interpolations below a node that are reached
through named nodes. -/
def holes (n : Node) : List Span :=
  match n with
  | ⟨_, _, _, _, _, children⟩ => holesAmong children
termination_by structural n

def holesAmong (ns : List Node) : List Span :=
  match ns with
  | [] => []
  | n :: rest =>
    let here :=
      if n.named then
        if n.kind = "interpolation" then [⟨n.start, n.stop⟩] else n.holes
      else
        []
    here ++ holesAmong rest
termination_by structural ns

end

/-- What is left between `start` and `stop` when the holes are cut out. -/
def pieces (start stop : Nat) : List Span → List Span
  | [] => [Span.between start stop]
  | hole :: rest => Span.between start hole.start :: pieces hole.stop stop rest

mutual

/-- The regions at or below a node of code. -/
def regions (n : Node) : List Region :=
  match n with
  | ⟨kind, start, stop, _, _, children⟩ =>
    if kind = "comment" then
      [.comment (Span.between start stop)]
    else if kind ∈ stringKinds then
      (pieces start stop (holesAmong children)).map .string ++ regionsInHoles children
    else
      regionsAmong children
termination_by structural n

def regionsAmong (ns : List Node) : List Region :=
  match ns with
  | [] => []
  | n :: rest => n.regions ++ regionsAmong rest
termination_by structural ns

/-- The regions in the outermost interpolations below a node of a string. -/
def regionsBelowText (n : Node) : List Region :=
  match n with
  | ⟨_, _, _, _, _, children⟩ => regionsInHoles children
termination_by structural n

/-- The regions in the outermost interpolations at or below the named nodes of
a list. -/
def regionsInHoles (ns : List Node) : List Region :=
  match ns with
  | [] => []
  | n :: rest =>
    let here :=
      if n.named then
        if n.kind = "interpolation" then n.regions else n.regionsBelowText
      else
        []
    here ++ regionsInHoles rest
termination_by structural ns

end

def comments (root : Node) : SpanSet :=
  SpanSet.ofList (root.regions.filterMap Region.comment?)

def strings (root : Node) : SpanSet :=
  SpanSet.ofList (root.regions.filterMap Region.string?)

end Caret.Node
