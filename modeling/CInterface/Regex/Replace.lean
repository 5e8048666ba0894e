import CInterface.Regex.Parser
import CInterface.Regex.Search
import CInterface.Text.Split
/-!
# Replacing what matches

* `Regex.TemplatePart` — a replacement is literal text and references to groups.
* `Regex.templateParts` — the parts of a replacement text.
* `Pattern.replaceAll` — a text with every match replaced.

A reference is a dollar sign and the number or the name of a group, which may stand in braces. Two
dollar signs stand for one, and a dollar sign in front of anything else for itself. A group that is
unknown, or took no part in the match, is empty.
-/

namespace CInterface

namespace Regex

open Text

/-- A part of a replacement. -/
inductive TemplatePart where
  | literal (c : Char)
  | group (name : List Char)
  deriving DecidableEq, Repr

/-- The reference behind a dollar sign, with the text behind it. -/
def reference? : List Char → Option (List Char × List Char)
  | '\x7b' :: r =>
    let name := r.takeWhile (· ≠ '\x7d')
    (afterHead? ['\x7d'] (r.drop name.length)).map (name, ·)
  | r =>
    let name := r.takeWhile isWordTail
    if name.isEmpty then none else some (name, r.drop name.length)

/-- The parts of a replacement; each takes at least one character, which the fuel allows for. -/
def templatePartsWith : Nat → List Char → List TemplatePart
  | 0, _ => []
  | _, [] => []
  | fuel + 1, '$' :: '$' :: r => .literal '$' :: templatePartsWith fuel r
  | fuel + 1, '$' :: r =>
    match reference? r with
    | some (name, rest) => .group name :: templatePartsWith fuel rest
    | none => .literal '$' :: templatePartsWith fuel r
  | fuel + 1, c :: r => .literal c :: templatePartsWith fuel r

/-- The parts of a replacement. -/
def templateParts (cs : List Char) : List TemplatePart := templatePartsWith (cs.length + 1) cs

/-- The number that a reference is; a plus sign may be in front. -/
def groupNumber? (name : List Char) : Option Nat :=
  let digits := (afterHead? ['+'] name).getD name
  if digits.isEmpty || !digits.all Char.isDigit then none
  else some (digits.foldl (fun n d => n * 10 + (d.toNat - '0'.toNat)) 0)

end Regex

namespace Pattern

open Regex

/-- The number of the group that a reference is to. -/
def groupIndex? (p : Pattern) (name : List Char) : Option Nat :=
  (groupNumber? name).or (p.names.lookup (String.ofList name))

/-- The characters from one place in a text up to another. -/
def between (text : Array Char) (start stop : Nat) : List Char := (text.extract start stop).toList

/-- What one match is replaced by. -/
def expand (p : Pattern) (parts : List TemplatePart) (text : Array Char) (m : Match) : List Char :=
  parts.flatMap fun
    | .literal c => [c]
    | .group name =>
      match (p.groupIndex? name).bind m.span? with
      | some (start, stop) => between text start stop
      | none => []

/-- The text from a place on with some matches in it replaced. -/
def replaceFrom (p : Pattern) (parts : List TemplatePart) (text : Array Char) (place : Nat) :
    List Match → List Char
  | [] => between text place text.size
  | m :: ms =>
    between text place m.start ++ p.expand parts text m ++ replaceFrom p parts text m.stop ms

/-- A text with every match replaced. -/
def replaceAll (p : Pattern) (text replacement : List Char) : List Char :=
  let s := Searcher.ofRegex p.regex text
  p.replaceFrom (templateParts replacement) s.text 0 s.findAll

end Pattern

end CInterface
