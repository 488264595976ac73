import Caret.Text.Blank

/-!
# Tokens of type expressions

A type string is a sequence of names and punctuation with white space allowed
before each of them and at the end.  Names are read as far as they go, and a
run of name characters that is not a name makes the whole text unreadable.
-/

namespace Caret.TypeExpr

/-- A name or a punctuation mark of a type string. -/
inductive Token where
  | name (text : String)
  | comma
  | openList
  | closeList
  | openHash
  | arrow
  | closeHash
deriving DecidableEq, Repr

/-- The characters of the alphabet `A-Z` and `a-z`, and the underscore. -/
def startsIdent (c : Char) : Bool :=
  c.isAlpha || c == '_'

/-- The characters that may follow inside an identifier. -/
def continuesIdent (c : Char) : Bool :=
  c.isAlphanum || c == '_'

def isNameChar (c : Char) : Bool :=
  continuesIdent c || c == ':'

/-- Whether the rest of a name, from within an identifier on, is well formed:
further identifiers follow a double colon. -/
def isNameRest : List Char → Bool
  | [] => true
  | ':' :: ':' :: c :: cs => startsIdent c && isNameRest cs
  | c :: cs => continuesIdent c && isNameRest cs

def isPath : List Char → Bool
  | [] => false
  | c :: cs => startsIdent c && isNameRest cs

/-- A name is a path, with or without a double colon in front. -/
def isName : List Char → Bool
  | ':' :: ':' :: cs => isPath cs
  | cs => isPath cs

/-- The punctuation mark at the beginning of a text, and the text behind it. -/
def punctuation? : List Char → Option (Token × List Char)
  | ',' :: cs => some (.comma, cs)
  | '<' :: cs => some (.openList, cs)
  | '>' :: cs => some (.closeList, cs)
  | '\x7b' :: cs => some (.openHash, cs)
  | '\x7d' :: cs => some (.closeHash, cs)
  | '=' :: '>' :: cs => some (.arrow, cs)
  | _ => none

theorem length_of_punctuation?_eq_some
    {cs rest : List Char} {t : Token} (h : punctuation? cs = some (t, rest)) :
    rest.length < cs.length := by
  unfold punctuation? at h
  split at h <;> simp only [Option.some.injEq, Prod.mk.injEq, reduceCtorEq] at h
  all_goals
    obtain ⟨-, rfl⟩ := h
    simp only [List.length_cons]
    omega

/-- The name at the beginning of a text, and the text behind it. -/
def leadingName? (cs : List Char) : Option (Token × List Char) :=
  let name := cs.takeWhile isNameChar
  if isName name then
    some (.name (String.ofList name), cs.dropWhile isNameChar)
  else
    none

theorem length_of_leadingName?_eq_some
    {cs rest : List Char} {t : Token} (h : leadingName? cs = some (t, rest)) :
    rest.length < cs.length := by
  simp only [leadingName?, Option.ite_none_right_eq_some, Option.some.injEq, Prod.mk.injEq] at h
  obtain ⟨hname, -, rfl⟩ := h
  have hlen : (cs.takeWhile isNameChar).length + (cs.dropWhile isNameChar).length = cs.length := by
    rw [← List.length_append, List.takeWhile_append_dropWhile]
  have hne : cs.takeWhile isNameChar ≠ [] := by
    intro hnil
    rw [hnil] at hname
    exact absurd hname (by decide)
  have := List.length_pos_iff.2 hne
  omega

/-- The token at the beginning of a text, and the text behind it. -/
def Token.next? (cs : List Char) : Option (Token × List Char) :=
  (punctuation? cs).or (leadingName? cs)

theorem Token.length_of_next?_eq_some
    {cs rest : List Char} {t : Token} (h : Token.next? cs = some (t, rest)) :
    rest.length < cs.length := by
  rcases Option.or_eq_some_iff.1 h with h | ⟨-, h⟩
  · exact length_of_punctuation?_eq_some h
  · exact length_of_leadingName?_eq_some h

/-- The tokens of a text, if it consists of tokens and white space. -/
def tokens? (cs : List Char) : Option (List Token) :=
  if Text.trimStart cs = [] then
    some []
  else
    match _hnext : Token.next? (Text.trimStart cs) with
    | none => none
    | some (t, rest) => (tokens? rest).map (t :: ·)
termination_by cs.length
decreasing_by
  have hrest := Token.length_of_next?_eq_some _hnext
  have hskip : (Text.trimStart cs).length ≤ cs.length :=
    (List.dropWhile_sublist _).length_le
  omega

end Caret.TypeExpr
