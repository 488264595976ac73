import Caret.Json.Decode
import Caret.Json.Reader
import Caret.Json.Writer
import Caret.Samples

/-!
# Runtime samples as JSON

A table of samples is an object with a list of type names for each key.
-/

namespace Caret.Samples

def toJson (samples : Samples) : Json :=
  .object (samples.entries.map fun (key, types) => (key, .ofStrings types))

/-- The entry that a member of the object stands for. -/
def entry? (member : String × Json) : Option (String × List String) :=
  member.2.strings?.map (member.1, ·)

def ofJson? : Json → Option Samples
  | .object members => (members.mapM entry?).map ofList
  | _ => none

/-- The table that a JSON text holds. -/
def parse? (text : String) : Option Samples :=
  (Json.parse? text).bind ofJson?

/-- The table as a JSON text. -/
def text (samples : Samples) : String :=
  samples.toJson.compact

end Caret.Samples
