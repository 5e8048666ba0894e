import CInterface.Regex.Token
/-!
# Reading regular expressions

The tokens of a pattern are read from left to right, with a stack of the groups that are open.

* `Regex.Frame` — what is read of a group.
* `Regex.Reading` — the open groups, and the groups that were numbered.
* `Pattern.parse?` — the pattern that a text is, none if it is malformed.
-/

namespace CInterface

namespace Regex

/-- The expressions one after another. -/
def ofSequence (rs : List Regex) : Regex := rs.foldr .seq .empty

/-- One of two or more branches, the first of which is the best. -/
def ofBranches (first : Regex) : List Regex → Regex
  | [] => first
  | second :: more => .alt first (ofBranches second more)

/-- What is read of a group that is open. -/
structure Frame where
  /-- The number of the group, if it has one. -/
  index : Option Nat
  flags : Flags
  /-- The branches that are complete, the last one first. -/
  branches : List Regex := []
  /-- The parts of the present branch, the last one first; flags are none. -/
  parts : List (Option Regex) := []

namespace Frame

/-- The present branch. -/
def branch (f : Frame) : Regex := ofSequence (f.parts.reverse.filterMap id)

/-- All that is read, as one expression. -/
def regex (f : Frame) : Regex :=
  match f.branches.reverse with
  | [] => f.branch
  | first :: more => ofBranches first (more ++ [f.branch])

/-- The expression as a group, if it has a number. -/
def closed (f : Frame) : Regex :=
  match f.index with
  | some i => .group i f.regex
  | none => f.regex

/-- One more part of the branch. -/
def push (f : Frame) (r : Regex) : Frame := { f with parts := some r :: f.parts }

end Frame

/-- The groups that are open around the innermost one, and the groups that were numbered. -/
structure Reading where
  inner : Frame
  outer : List Frame := []
  /-- The number of numbered groups. -/
  count : Nat := 0
  names : List (String × Nat) := []

namespace Reading

/-- Reads one more part of the innermost group. -/
def push (s : Reading) (r : Regex) : Reading := { s with inner := s.inner.push r }

/-- Opens a group inside the innermost one. -/
def enter (s : Reading) (index : Option Nat) (flags : Flags) : Reading :=
  { s with inner := { index, flags }, outer := s.inner :: s.outer }

/-- Reads one token. -/
def step (s : Reading) : Token → Option Reading
  | .char set => s.push (.char (if s.inner.flags.ignoreCase then set.ignoreCase else set))
  | .dot => s.push (.char (if s.inner.flags.dotAll then .all else .notNewline))
  | .caret => s.push (.anchor (if s.inner.flags.multiLine then .lineStart else .textStart))
  | .dollar => s.push (.anchor (if s.inner.flags.multiLine then .lineEnd else .textEnd))
  | .anchor a => s.push (.anchor a)
  | .bar => some { s with
      inner := { s.inner with branches := s.inner.branch :: s.inner.branches, parts := [] } }
  | .openGroup name =>
    let index := s.count + 1
    if name.any fun n => s.names.any (·.1 = n) then none
    else some { s.enter (some index) s.inner.flags with
      count := index, names := s.names ++ name.toList.map (·, index) }
  | .openPlain change => s.enter none (change s.inner.flags)
  | .close =>
    match s.outer with
    | [] => none
    | f :: rest => some { s with inner := f.push s.inner.closed, outer := rest }
  | .flags change => some { s with
      inner := { s.inner with flags := change s.inner.flags, parts := none :: s.inner.parts } }
  | .repeats min max isLazy =>
    match s.inner.parts with
    | some r :: parts =>
      let r := .repeats r min max (isLazy != s.inner.flags.swapLazy)
      some { s with inner := { s.inner with parts := some r :: parts } }
    | _ => none

end Reading

end Regex

/-- The pattern that a text is. -/
def Pattern.parse? (text : String) : Option Pattern := do
  let start : Regex.Reading := { inner := { index := none, flags := {} } }
  let s ← (← Regex.tokens? text.toList).foldlM Regex.Reading.step start
  if s.outer.isEmpty then some ⟨s.inner.regex, s.names⟩ else none

end CInterface
