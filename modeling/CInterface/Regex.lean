import CInterface.Text.Case
import CInterface.Text.Letter
/-!
# Regular expressions

* `CharSet` — sets of characters, with `CharSet.contains` for membership.
* `Anchor` — conditions on a place between two characters.
* `Regex` — regular expressions with numbered groups.
* `Pattern` — an expression with the names of its groups.

Where an expression matches in several ways, the order of the alternatives decides: the first branch
is better than the second, and more repetitions are better than fewer, unless the repetition is lazy.

These are the expressions that sessions run with, of the syntax in common use. Classes by Unicode
property, POSIX classes, operations on classes and the extended layout are not among them.
-/

namespace CInterface

open Text

/-! ### Characters -/

/-- A set of characters. -/
inductive CharSet where
  | none
  /-- The characters from `first` to `last`, and all forms of them if the case does not matter. -/
  | range (first last : Char) (anyCase : Bool)
  | digit
  | space
  | word
  | union (a b : CharSet)
  | complement (a : CharSet)
  deriving DecidableEq, Repr

namespace CharSet

/-- The set of one character. -/
def single (c : Char) : CharSet := range c c false

/-- The character is between two others. -/
def inRange (first last c : Char) : Bool := first ≤ c && c ≤ last

/-- The character is in a set. -/
def contains : CharSet → Char → Bool
  | none, _ => false
  | range first last false, c => inRange first last c
  | range first last true, c => (caseVariants c).any (inRange first last)
  | digit, c => isDecimalDigit c
  | space, c => isBlank c
  | word, c => isLetterOrDigit c
  | union a b, c => a.contains c || b.contains c
  | complement a, c => !a.contains c

/-- The set whose ranges hold all forms of their characters. -/
def ignoreCase : CharSet → CharSet
  | range first last _ => range first last true
  | union a b => union a.ignoreCase b.ignoreCase
  | complement a => complement a.ignoreCase
  | s => s

/-- Every character. -/
def all : CharSet := complement none

/-- Every character that does not end a line. -/
def notNewline : CharSet := complement (single '\n')

end CharSet

/-! ### Expressions -/

/-- A condition on a place in a text. -/
inductive Anchor where
  | textStart
  | textEnd
  | lineStart
  | lineEnd
  /-- A word starts or ends here. -/
  | wordBoundary
  /-- No word starts or ends here. -/
  | noWordBoundary
  deriving DecidableEq, Repr

/-- The condition holds between the characters before and behind a place. -/
def Anchor.holds (a : Anchor) (before behind : Option Char) : Bool :=
  match a with
  | textStart => before.isNone
  | textEnd => behind.isNone
  | lineStart => before.all (· = '\n')
  | lineEnd => behind.all (· = '\n')
  | wordBoundary => before.any isLetterOrDigit != behind.any isLetterOrDigit
  | noWordBoundary => before.any isLetterOrDigit == behind.any isLetterOrDigit

/-- A regular expression. -/
inductive Regex where
  | empty
  | char (set : CharSet)
  | anchor (a : Anchor)
  | seq (a b : Regex)
  | alt (a b : Regex)
  /-- From `min` to `max` times, or at least `min` times. -/
  | repeats (r : Regex) (min : Nat) (max : Option Nat) (isLazy : Bool)
  /-- The expression in a numbered group. -/
  | group (index : Nat) (r : Regex)
  deriving DecidableEq, Repr

/-- A regular expression with the names of its groups. The whole of it is group zero. -/
structure Pattern where
  regex : Regex
  names : List (String × Nat)
  deriving DecidableEq, Repr

end CInterface
