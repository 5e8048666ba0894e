import CInterface.Text.Split
/-!
# Words of a text

Macro names are looked for in text, not in tokens, so that whatever is not understood passes
through as it is. The word scanner cuts a text into segments: words, quoted literals, numbers, and
the rest.

* `nextSegment` — the segment at the head of a text.
* `segments` — all segments; their texts are the text.
* `segmentSpans` — where they stand, in bytes.
* `identifierSpans` — where the words outside literals and numbers stand.
-/

namespace CInterface

open Text

/-- What a segment of a text is. -/
inductive SegmentKind where
  /-- A word. -/
  | ident
  /-- A string or character literal with its quotes. -/
  | quoted
  /-- A number with whatever letters follow it. -/
  | number
  /-- A run of white space or one other character. -/
  | other
  deriving DecidableEq, Repr

/-- A piece of a text. -/
structure Segment where
  kind : SegmentKind
  text : List Char
  deriving DecidableEq, Repr

/-- The number of characters of a literal behind its opening quote. The closing quote belongs to
it; a newline that is not escaped ends it and does not; a backslash takes the next character
along. -/
def quotedTail (quote : Char) : List Char → Nat
  | [] => 0
  | [c] => if c = '\n' then 0 else 1
  | c :: d :: r =>
    if c = '\\' then 2 + quotedTail quote r
    else if c = '\n' then 0
    else if c = quote then 1
    else 1 + quotedTail quote (d :: r)

/-- The number of characters of a number behind the character `before`: letters, digits,
underscores and points, and, outside hexadecimal numbers, a sign after an `e`. -/
def numberTail (hex : Bool) (before : Char) : List Char → Nat
  | [] => 0
  | c :: r =>
    let signed := (c = '+' || c = '-') && !hex && (before = 'e' || before = 'E')
    if isWordTail c || c = '.' || signed then 1 + numberTail hex c r else 0

/-- A number starts with a digit, or with a point before one. -/
def startsNumber (c : Char) (r : List Char) : Bool :=
  c.isDigit || (c = '.' && r.head?.any Char.isDigit)

/-- A hexadecimal number starts with `0x`. -/
def startsHex (c : Char) (r : List Char) : Bool :=
  c = '0' && r.head?.any fun x => x = 'x' || x = 'X'

/-- The kind of the segment at the head of the text `c :: r` and the number of its characters
beyond the first. -/
def nextSegment (c : Char) (r : List Char) : SegmentKind × Nat :=
  if c = '"' || c = '\x27' then (.quoted, quotedTail c r)
  else if isWordHead c then (.ident, (r.takeWhile isWordTail).length)
  else if startsNumber c r then (.number, numberTail (startsHex c r) c r)
  else if isWordSpace c then (.other, (r.takeWhile isWordSpace).length)
  else (.other, 0)

/-- The segments of a text, in order. -/
def segments (cs : List Char) : List Segment :=
  match cs with
  | [] => []
  | c :: r =>
    let (kind, n) := nextSegment c r
    ⟨kind, c :: r.take n⟩ :: segments (r.drop n)
  termination_by cs.length
  decreasing_by simp only [List.length_cons, List.length_drop]; omega

/-- The kinds of some segments with their first byte and the byte after their last, where the
first segment begins at `offset`. -/
def segmentSpansFrom (offset : Nat) : List Segment → List (SegmentKind × Nat × Nat)
  | [] => []
  | s :: r =>
    let stop := offset + byteLength s.text
    (s.kind, offset, stop) :: segmentSpansFrom stop r

/-- The segments of a text as kinds and byte ranges. -/
def segmentSpans (cs : List Char) : List (SegmentKind × Nat × Nat) :=
  segmentSpansFrom 0 (segments cs)

/-- The byte ranges of the words of a text outside literals and numbers. -/
def identifierSpans (cs : List Char) : List (Nat × Nat) :=
  (segmentSpans cs).filterMap fun s => if s.1 = .ident then some s.2 else none

end CInterface
