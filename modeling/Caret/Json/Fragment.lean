import Caret.Cursor.Fragment
import Caret.Json.Pin

/-!
# Fragments as JSON
-/

namespace Caret.Fragment

def toJson (f : Fragment) : Json :=
  .object
    [("offset", .count f.offset), ("namespace", .string f.namespaceName),
      ("scope", f.scope.toJson), ("signature", .string f.signature), ("base", .string f.base),
      ("word", .string f.word), ("remainder", .string f.remainder),
      ("whole_word", .string f.wholeWord), ("whole_signature", .string f.wholeSignature),
      ("phrase", .string f.phrase), ("signature_start", .count f.signatureStart),
      ("in_string", .bool f.inString), ("in_comment", .bool f.inComment),
      ("word_range", f.wordRange.toJson), ("whole_word_range", f.wholeWordRange.toJson),
      ("visible_locals", .ofStrings f.visibleLocals)]

def fieldNames : List String :=
  ["offset", "namespace", "scope", "signature", "base", "word", "remainder", "whole_word",
    "whole_signature", "phrase", "signature_start", "in_string", "in_comment", "word_range",
    "whole_word_range", "visible_locals"]

def ofJson? (j : Json) : Option Fragment := do
  let [offset, namespaceName, scope, signature, base, word, remainder, wholeWord, wholeSignature,
      phrase, signatureStart, inString, inComment, wordRange, wholeWordRange, visibleLocals] ←
    j.fields? fieldNames | none
  some
    { offset := ← (← offset).count?
      namespaceName := ← (← namespaceName).string?
      scope := ← Scope.ofJson? false (← scope)
      signature := ← (← signature).string?
      base := ← (← base).string?
      word := ← (← word).string?
      remainder := ← (← remainder).string?
      wholeWord := ← (← wholeWord).string?
      wholeSignature := ← (← wholeSignature).string?
      phrase := ← (← phrase).string?
      signatureStart := ← (← signatureStart).count?
      inString := ← (← inString).bool?
      inComment := ← (← inComment).bool?
      wordRange := ← Range.ofJson? (← wordRange)
      wholeWordRange := ← Range.ofJson? (← wholeWordRange)
      visibleLocals := ← (← visibleLocals).strings? }

end Caret.Fragment
