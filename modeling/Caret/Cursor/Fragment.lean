import Caret.Cursor.Signature
import Caret.Cursor.Word
import Caret.Error

/-!
# Fragments

Everything known about one cursor in a buffer: the chain and the word before
it, the construct around it, the regions it stands in and the local variables
visible from it.
-/

namespace Caret

/-- A cursor at a valid offset: the text before and after it. -/
structure Cursor where
  before : List Char
  after : List Char
deriving DecidableEq, Repr

namespace Cursor

def offset (c : Cursor) : Nat :=
  Text.byteLength c.before

def word (c : Cursor) : List Char :=
  c.before.drop (c.before.length - Word.length c.before.reverse)

def wordStart (c : Cursor) : Nat :=
  c.offset - Word.length c.before.reverse

/-- The rest of the word after the cursor. -/
def remainder (c : Cursor) : List Char :=
  Word.remainder c.after

/-- Where the word around the cursor stops, as a byte offset. -/
def wordStop (c : Cursor) : Nat :=
  c.offset + Text.byteLength c.remainder

end Cursor

/-- The cursor at an offset, or the error that the offset is not valid. -/
def Buffer.cursor (b : Buffer) (offset : Nat) : Except Error Cursor :=
  match Text.splitAt? b.text offset with
  | some (before, after) => .ok ⟨before, after⟩
  | none => .error (.invalidOffset offset b.length)

/-- The text between the start of the signature and the cursor.  A start
behind the cursor counts as the cursor, and one inside a character as the end
of it. -/
def Cursor.phrase (c : Cursor) (b : Buffer) : List Char :=
  Text.dropBytes c.before (Signature.walkFrom b c.offset).start

/-- Where the signature starts, as a byte offset. -/
def Cursor.signatureStart (c : Cursor) (b : Buffer) : Nat :=
  c.offset - Text.byteLength (c.phrase b)

def Cursor.signature (c : Cursor) (b : Buffer) : List Char :=
  Signature.withReceiver b (Signature.walkFrom b c.offset)

namespace Signature

def dropThroughDot : List Char → List Char
  | [] => []
  | c :: cs => if c = '.' then cs else dropThroughDot cs

def dropThroughColons : List Char → List Char
  | [] => []
  | ':' :: ':' :: cs => cs
  | _ :: cs => dropThroughColons cs

/-- A signature without its last member: up to the last dot, or up to the last
double colon if there is no dot. -/
def base (signature : List Char) : List Char :=
  if '.' ∈ signature then
    (dropThroughDot signature.reverse).reverse
  else
    (dropThroughColons signature.reverse).reverse

end Signature

/-- What is known about one cursor. -/
structure Fragment where
  offset : Nat
  namespaceName : String
  scope : Scope
  signature : String
  base : String
  word : String
  remainder : String
  wholeWord : String
  wholeSignature : String
  phrase : String
  signatureStart : Nat
  inString : Bool
  inComment : Bool
  wordRange : Range
  wholeWordRange : Range
  visibleLocals : List String
deriving DecidableEq

/-- What is known about a cursor in a buffer. -/
def Cursor.fragment (c : Cursor) (b : Buffer) : Fragment :=
  let construct := b.constructAt c.offset
  let signature := c.signature b
  let inString := b.strings.surrounds c.offset
  { offset := c.offset
    namespaceName := construct.namespaceName
    scope := construct.scope
    signature := String.ofList signature
    base := String.ofList (Signature.base signature)
    word := String.ofList c.word
    remainder := String.ofList c.remainder
    wholeWord := String.ofList (c.word ++ c.remainder)
    wholeSignature := String.ofList (signature ++ c.remainder)
    phrase := String.ofList (c.phrase b)
    signatureStart := c.signatureStart b
    inString := inString
    inComment := !inString && b.comments.trails c.offset
    wordRange := Text.rangeBetween b.text c.wordStart c.offset
    wholeWordRange := Text.rangeBetween b.text c.wordStart c.wordStop
    visibleLocals := (b.visibleLocals c.offset).map Pin.name }

def Buffer.fragment (b : Buffer) (offset : Nat) : Except Error Fragment :=
  (b.cursor offset).map fun c => c.fragment b

/-- What is known about the cursor at an offset, for a caller across a service
boundary. -/
def Buffer.snapshot (b : Buffer) (offset : Nat) : Except ServiceError Fragment :=
  (b.fragment offset).mapError Error.toService

end Caret
