import Caret.Json.Fragment

/-!
# The schema of fragments

A JSON schema for the answers about one cursor.
-/

namespace Caret.Schema

def count : Json :=
  .object [("type", .string "integer"), ("format", .string "uint"), ("minimum", .count 0)]

def string : Json :=
  .object [("type", .string "string")]

def boolean : Json :=
  .object [("type", .string "boolean")]

def strings : Json :=
  .object [("type", .string "array"), ("items", string)]

/-- A definition of the schema, referred to by its name. -/
def reference (name : String) : Json :=
  .object [("$ref", .string ("#/$defs/" ++ name))]

/-- An object whose members are all required. -/
def record (properties : List (String × Json)) : List (String × Json) :=
  [("type", .string "object"), ("properties", .object properties),
    ("required", .ofStrings (properties.map (·.1)))]

def range : Json :=
  .object <| record
    [("start_line", count), ("start_col", count), ("end_line", count), ("end_col", count)]

def scope : Json :=
  .object
    [("type", .string "string"), ("enum", .array [Scope.classLevel.toJson, Scope.instanceLevel.toJson]),
      ("description", .string
        "Whether code at a position runs against a type definition itself or\nagainst an instance of it.")]

/-- The schemas of the members of a fragment. -/
def properties : List (String × Json) :=
  [("offset", count), ("namespace", string), ("scope", reference "Scope"),
    ("signature", string), ("base", string), ("word", string), ("remainder", string),
    ("whole_word", string), ("whole_signature", string), ("phrase", string),
    ("signature_start", count), ("in_string", boolean), ("in_comment", boolean),
    ("word_range", reference "Range"), ("whole_word_range", reference "Range"),
    ("visible_locals", strings)]

def fragment : Json :=
  .object <|
    [("$schema", .string "https://json-schema.org/draft/2020-12/schema"),
      ("title", .string "FragmentSnapshot"),
      ("description", .string
        "Everything a fragment knows about one cursor position, flattened for\ntransport.")] ++
    record properties ++
    [("$defs", .object [("Range", range), ("Scope", scope)])]

end Caret.Schema
