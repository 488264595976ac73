/-!
# The word at a cursor

A word is a run of letters, digits and underscores.  It may end in one question
or exclamation mark, and a sigil may stand in front: `@`, `@@`, `$`, or a colon
that is not half of a double colon.  Words are measured from the cursor, so the
text before it is given nearest character first.
-/

namespace Caret.Word

def isWordChar (c : Char) : Bool :=
  c.isAlphanum || c == '_'

/-- The marks that a method name may end in. -/
def isMark (c : Char) : Bool :=
  c == '?' || c == '!'

/-- The number of marks, at most one, right before the cursor. -/
def markLength : List Char → Nat
  | c :: _ => if isMark c then 1 else 0
  | [] => 0

/-- The length of the sigil right before a place. -/
def sigilLength : List Char → Nat
  | '@' :: '@' :: _ => 2
  | '@' :: _ => 1
  | '$' :: _ => 1
  | ':' :: ':' :: _ => 0
  | ':' :: _ => 1
  | _ => 0

/-- The length of the word that ends at the cursor.  All its characters are
single bytes, so this is its length in bytes, too. -/
def length (before : List Char) : Nat :=
  let mark := markLength before
  let run := ((before.drop mark).takeWhile isWordChar).length
  mark + run + sigilLength (before.drop (mark + run))

/-- The characters after the cursor that belong to the word around it: letters,
digits, underscores and marks. -/
def remainder (after : List Char) : List Char :=
  after.takeWhile fun c => isWordChar c || isMark c

end Caret.Word
