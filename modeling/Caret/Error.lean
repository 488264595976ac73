/-!
# Errors

`Error` lists what can go wrong inside the library, and `ServiceError` what a
caller across a service boundary gets to see: an invalid offset keeps its
numbers, everything else becomes an internal error with its message.
-/

namespace Caret

/-- Why a request failed.  A `detail` comes from outside: the system that read
a file, or the reader of a format. -/
inductive Error where
  | io (detail : String)
  | json (detail : String)
  | invalidOffset (offset length : Nat)
  | parsing (detail : String)
  | config (detail : String)
deriving DecidableEq, Repr

def Error.message : Error → String
  | .io detail => s!"I/O error: {detail}"
  | .json detail => s!"JSON serialization/deserialization error: {detail}"
  | .invalidOffset offset length =>
    s!"Offset {offset} is out of bounds or not on a character boundary (buffer length {length})"
  | .parsing detail => s!"Parsing error: {detail}"
  | .config detail => s!"Configuration error: {detail}"

/-- Why a request across a service boundary failed. -/
inductive ServiceError where
  | invalidOffset (offset length : Nat)
  | internal (detail : String)
deriving DecidableEq, Repr

def ServiceError.message : ServiceError → String
  | .invalidOffset offset length => s!"Invalid offset {offset} for a buffer of {length} bytes"
  | .internal detail => s!"Internal error: {detail}"

/-- The error as a caller across a service boundary sees it. -/
def Error.toService : Error → ServiceError
  | .invalidOffset offset length => .invalidOffset offset length
  | e => .internal e.message

end Caret
