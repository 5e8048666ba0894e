import CInterface.Text.Split
/-!
# Line tables

A `LineTable` answers which line a byte offset is on. Lines are counted from zero.

* `LineTable.ofText` — the table of a text.
* `LineTable.lineOf` — the line of an offset; an offset past the end is on the last line.
* `LineTable.span?` — the bytes of a line without its newline.
-/

namespace CInterface.Text

/-- Where the lines of a text start, in bytes, and how long the text is. -/
structure LineTable where
  /-- The offset of the first byte of each line, increasing from zero. -/
  starts : List Nat
  /-- The length of the text in bytes. -/
  length : Nat
  deriving DecidableEq, Repr

/-- The offsets just after each newline of a text that begins at `offset`. -/
def lineStartsFrom (offset : Nat) : List Char → List Nat
  | [] => []
  | c :: r =>
    let next := offset + c.utf8Size
    if c = '\n' then next :: lineStartsFrom next r else lineStartsFrom next r

namespace LineTable

/-- The table of a text. -/
def ofText (cs : List Char) : LineTable := ⟨0 :: lineStartsFrom 0 cs, byteLength cs⟩

/-- The number of lines, one more than there are newlines. -/
def count (t : LineTable) : Nat := t.starts.length

/-- The last line that starts at or before `offset`. -/
def lineOf (t : LineTable) (offset : Nat) : Nat :=
  (t.starts.takeWhile (· ≤ offset)).length - 1

/-- The first byte of a line and the byte after its last, the newline not counted. -/
def span? (t : LineTable) (line : Nat) : Option (Nat × Nat) := do
  let start ← t.starts[line]?
  return (start, match t.starts[line + 1]? with
    | some next => next - 1
    | none => t.length)

end LineTable

end CInterface.Text
