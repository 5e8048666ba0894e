import CInterface.Regex
/-!
# Programs of regular expressions

An expression is turned into a list of instructions. Each goes on to the next one, and jumps are
relative, so that the code of an expression is the same wherever it stands.

* `Regex.Instruction` — one step of matching.
* `Regex.code` — the instructions of an expression; whoever gets behind them has matched it.

A repetition without a greatest number is code that may be run again; the way back is the better one
unless the repetition is lazy.
-/

namespace CInterface.Regex

/-- One step of matching. -/
inductive Instruction where
  /-- Takes a character out of a set. -/
  | read (set : CharSet)
  /-- Goes on where a condition holds. -/
  | check (a : Anchor)
  /-- Notes the present place. -/
  | mark (slot : Nat)
  | jump (distance : Int)
  /-- Goes on in two ways, the better one first. -/
  | fork (first second : Int)
  deriving DecidableEq, Repr

/-- Goes on with the next instruction or at a distance; the next is better unless it is lazy. -/
def skipTo (isLazy : Bool) (distance : Int) : Instruction :=
  if isLazy then .fork distance 1 else .fork 1 distance

/-- Goes on at a distance or with the next instruction; the distance is better unless it is lazy. -/
def backTo (isLazy : Bool) (distance : Int) : Instruction :=
  if isLazy then .fork 1 distance else .fork distance 1

/-- Some code up to `n` times. Every run is behind a fork to the end of all. -/
def upTo (isLazy : Bool) (body : List Instruction) : Nat → List Instruction
  | 0 => []
  | n + 1 =>
    let rest := body ++ upTo isLazy body n
    skipTo isLazy (rest.length + 1) :: rest

/-- Some code one or more times. -/
def oneOrMore (isLazy : Bool) (body : List Instruction) : List Instruction :=
  body ++ [backTo isLazy (-(body.length : Int))]

/-- Some code from `min` to `max` times. -/
def times (isLazy : Bool) (body : List Instruction) (min : Nat) :
    Option Nat → List Instruction
  | some max => (List.replicate min body).flatten ++ upTo isLazy body (max - min)
  | none =>
    match min with
    | 0 =>
      let loop := oneOrMore isLazy body
      skipTo isLazy (loop.length + 1) :: loop
    | n + 1 => (List.replicate n body).flatten ++ oneOrMore isLazy body

/-- The instructions of an expression. -/
def code : Regex → List Instruction
  | empty => []
  | char set => [.read set]
  | anchor a => [.check a]
  | seq a b => code a ++ code b
  | alt a b =>
    let first := code a
    let second := code b
    .fork 1 (first.length + 2) :: first ++ .jump (second.length + 1) :: second
  | repeats r min max isLazy => times isLazy (code r) min max
  | group i r => .mark (2 * i) :: code r ++ [.mark (2 * i + 1)]

end CInterface.Regex
