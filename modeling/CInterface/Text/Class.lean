/-!
# Character classes

The classes of characters that the library's readers distinguish.

* `isBlank` — the Unicode property White_Space, which trimming and splitting at blanks go by.
* `isLexSpace` — the six ASCII characters that separate tokens.
* `isWordSpace` — the five ASCII characters that the word scanner runs together.
* `digitValue?` — the value of a digit in a base up to sixteen.

Everything but `isBlank` is about ASCII alone: the C source character set spells its words and
numbers with it, and any other character is a character of its own.
-/

namespace CInterface.Text

/-- A character with the Unicode property White_Space. -/
def isBlank (c : Char) : Bool :=
  let n := c.toNat
  (9 ≤ n && n ≤ 13) || n == 0x20 || n == 0x85 || n == 0xA0 || n == 0x1680 ||
    (0x2000 ≤ n && n ≤ 0x200A) || n == 0x2028 || n == 0x2029 || n == 0x202F || n == 0x205F ||
    n == 0x3000

/-- White space between tokens: space, tab, newline, return, form feed, vertical tab. -/
def isLexSpace (c : Char) : Bool :=
  c = ' ' || c = '\t' || c = '\r' || c = '\n' || c = '\x0c' || c = '\x0b'

/-- White space between words: as between tokens, but without the vertical tab. -/
def isWordSpace (c : Char) : Bool :=
  c = ' ' || c = '\t' || c = '\r' || c = '\n' || c = '\x0c'

/-- A character that starts a word: a letter or an underscore. -/
def isWordHead (c : Char) : Bool := c.isAlpha || c = '_'

/-- A character that continues a word: a letter, a digit or an underscore. -/
def isWordTail (c : Char) : Bool := c.isAlphanum || c = '_'

/-- A character that starts an identifier: a dollar sign counts as a letter. -/
def isIdentHead (c : Char) : Bool := isWordHead c || c = '$'

/-- A character that continues an identifier: a dollar sign counts as a letter. -/
def isIdentTail (c : Char) : Bool := isWordTail c || c = '$'

/-- The value of a hexadecimal digit of either case. -/
def hexValue? (c : Char) : Option Nat :=
  if c.isDigit then some (c.toNat - '0'.toNat)
  else if 'a' ≤ c && c ≤ 'f' then some (c.toNat - 'a'.toNat + 10)
  else if 'A' ≤ c && c ≤ 'F' then some (c.toNat - 'A'.toNat + 10)
  else none

/-- The value of `c` as a digit in a base of at most sixteen. -/
def digitValue? (base : Nat) (c : Char) : Option Nat :=
  (hexValue? c).filter (· < base)

/-- A hexadecimal digit of either case. -/
def isHexDigit (c : Char) : Bool := (hexValue? c).isSome

end CInterface.Text
