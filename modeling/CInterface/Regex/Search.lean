import CInterface.Regex.Program
/-!
# Searching with regular expressions

The instructions of an expression are run with a stack of threads, the best one on top. A thread that
comes to a place in the program and the text where another one was before it is dropped: whatever it
might find, the other one would have found first. So every search ends, after as many steps as there
are such places at most.

* `Regex.Searcher` — a program and the text that is searched.
* `Regex.Searcher.find?` — the best of the matches that start first.
* `Regex.Searcher.findAll` — all matches from left to right.
-/

namespace CInterface.Regex

/-- A match: the places of the characters it starts at and stops before, and those of its groups. -/
structure Match where
  start : Nat
  stop : Nat
  /-- The places that were noted, the last one first. -/
  marks : List (Nat × Nat)

namespace Match

/-- The place that was last noted in a slot. -/
def mark? (m : Match) (slot : Nat) : Option Nat := m.marks.lookup slot

/-- Where a group starts and stops, if it took part in the match. -/
def span? (m : Match) : Nat → Option (Nat × Nat)
  | 0 => some (m.start, m.stop)
  | i + 1 => do return (← m.mark? (2 * (i + 1)), ← m.mark? (2 * (i + 1) + 1))

/-- The match holds no characters. -/
def isEmpty (m : Match) : Bool := m.start = m.stop

end Match

/-- A program and the text that is searched. -/
structure Searcher where
  program : Array Instruction
  text : Array Char

namespace Searcher

/-- The searcher for an expression in a text. -/
def ofRegex (r : Regex) (text : List Char) : Searcher := ⟨r.code.toArray, text.toArray⟩

/-- One way to go on: a place in the program, a place in the text, and the places noted so far. -/
structure Thread where
  step : Nat
  place : Nat
  marks : List (Nat × Nat)

/-- A thread that has gone some steps on in the program. -/
def Thread.move (t : Thread) (distance : Int) : Thread :=
  { t with step := (t.step + distance).toNat }

/-- The character before a place in the text. -/
def before? (s : Searcher) : Nat → Option Char
  | 0 => none
  | n + 1 => s.text[n]?

/-- The ways in which a thread goes on after an instruction, the best one first. -/
def advance (s : Searcher) (t : Thread) : Instruction → List Thread
  | .read set =>
    match s.text[t.place]? with
    | some c => if set.contains c then [{ t.move 1 with place := t.place + 1 }] else []
    | none => []
  | .check a => if a.holds (s.before? t.place) s.text[t.place]? then [t.move 1] else []
  | .mark slot => [{ t.move 1 with marks := (slot, t.place) :: t.marks }]
  | .jump d => [t.move d]
  | .fork d e => [t.move d, t.move e]

/-- The number of a place in the program and the text. -/
def cell (s : Searcher) (t : Thread) : Nat := t.step * (s.text.size + 1) + t.place

/-- The number of all such places. -/
def cells (s : Searcher) : Nat := (s.program.size + 1) * (s.text.size + 1)

/-- Runs the threads of a stack until one is through the program. The places that were seen are
marked, and come back for the next run. -/
def run (s : Searcher) : Nat → List Thread → Array Bool → Option Thread × Array Bool
  | 0, _, seen => (none, seen)
  | _, [], seen => (none, seen)
  | fuel + 1, t :: stack, seen =>
    if seen.getD (s.cell t) true then run s fuel stack seen
    else
      let seen := seen.setIfInBounds (s.cell t) true
      match s.program[t.step]? with
      | none => (some t, seen)
      | some i => run s fuel (s.advance t i ++ stack) seen

/-- The steps that a run takes at most: each takes a thread from the stack, and a place that is seen
for the first time puts two there. -/
def maxSteps (s : Searcher) : Nat := 2 * s.cells + 2

/-- The best match that starts at one of `n` places from `start` on, the first of them that has
one. -/
def findWithin (s : Searcher) (start : Nat) : Nat → Array Bool → Option Match
  | 0, _ => none
  | n + 1, seen =>
    match s.run s.maxSteps [⟨0, start, []⟩] seen with
    | (some t, _) => some ⟨start, t.place, t.marks⟩
    | (none, seen) => findWithin s (start + 1) n seen

/-- The first match from a place on; what is before that place still counts for anchors. -/
def find? (s : Searcher) (start : Nat) : Option Match :=
  s.findWithin start (s.text.size + 1 - start) (Array.replicate s.cells false)

/-- The matches from a place on. An empty match where the last one stopped does not count, and the
search goes on behind that place. -/
def findFrom (s : Searcher) : Nat → Nat → Option Nat → List Match
  | 0, _, _ => []
  | fuel + 1, start, last =>
    match s.find? start with
    | none => []
    | some m =>
      if m.isEmpty && some m.stop = last then findFrom s fuel (start + 1) last
      else m :: findFrom s fuel m.stop (some m.stop)

/-- The matches in the text, from left to right. Of two steps one goes on in the text, which the fuel
allows for. -/
def findAll (s : Searcher) : List Match := s.findFrom (2 * (s.text.size + 2)) 0 none

end Searcher

end CInterface.Regex
