/-!
# Blanks

Two notions of blank meet in a source text.  The scan for a signature knows the
four blanks of Ruby layout; type strings and the search for a literal before
the cursor skip everything with the Unicode property `White_Space`.
-/

namespace Caret.Text

/-- Characters with the Unicode property `White_Space`, 25 code points in all. -/
def isWhiteSpace (c : Char) : Bool :=
  let n := c.toNat
  (0x9 ≤ n && n ≤ 0xD) || n == 0x20 || n == 0x85 || n == 0xA0 || n == 0x1680 ||
    (0x2000 ≤ n && n ≤ 0x200A) || n == 0x2028 || n == 0x2029 || n == 0x202F ||
    n == 0x205F || n == 0x3000

def trimStart (cs : List Char) : List Char :=
  cs.dropWhile isWhiteSpace

def trimEnd (cs : List Char) : List Char :=
  (cs.reverse.dropWhile isWhiteSpace).reverse

/-- The blanks of Ruby layout: space, tab, line feed and carriage return. -/
def isBlank (c : Char) : Bool :=
  c == ' ' || c == '\t' || c == '\n' || c == '\r'

end Caret.Text
