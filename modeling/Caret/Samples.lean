/-!
# Runtime samples

A table of type names observed while a program ran.  An entry is kept under the
closure path and the name of a variable, joined by a percent sign.  The table
keeps the order in which keys first appeared.
-/

namespace Caret

/-- Observed type names by key. -/
structure Samples where
  entries : List (String × List String)
deriving DecidableEq, Repr

namespace Samples

def empty : Samples := ⟨[]⟩

def key (closurePath name : String) : String :=
  closurePath ++ "%" ++ name

/-- Puts a value under a key: in place of the value there, or at the end. -/
def put (key : String) (types : List String) :
    List (String × List String) → List (String × List String)
  | [] => [(key, types)]
  | (k, ts) :: rest =>
    if k = key then (key, types) :: rest else (k, ts) :: put key types rest

/-- The table of a list of entries.  A repeated key keeps its first place and
takes its last value. -/
def ofList (entries : List (String × List String)) : Samples :=
  ⟨entries.foldl (fun table (k, ts) => put k ts table) []⟩

/-- Replaces the sample of a variable. -/
def insert (samples : Samples) (closurePath name : String) (types : List String) : Samples :=
  ⟨put (key closurePath name) types samples.entries⟩

def get? (samples : Samples) (key : String) : Option (List String) :=
  samples.entries.lookup key

/-- The sample of a variable.  An empty list counts as no sample. -/
def typesFor? (samples : Samples) (closurePath name : String) : Option (List String) :=
  (samples.get? (key closurePath name)).filter (!·.isEmpty)

def size (samples : Samples) : Nat :=
  samples.entries.length

def isEmpty (samples : Samples) : Bool :=
  samples.entries.isEmpty

end Samples

end Caret
