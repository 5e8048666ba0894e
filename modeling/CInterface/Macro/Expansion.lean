import CInterface.Macro.Call
import CInterface.OrderedMap
/-!
# Macro expansion

Expanding a text replaces each macro by its text and goes on at the beginning of the replacement, so
that macros in it are replaced too, and a name whose argument list stands behind the replacement is a
call. While the scan is inside the replacement of a macro the macro is hidden, so that it is not
replaced again there.

* `MacroTable` — the macros in force.
* `HiddenMacro` — a macro whose replacement the scan is in, up to where that ends.
* `MacroTable.scan` — the expansion of a text from some place on.
* `MacroTable.expand` — the expansion of a whole text.

Every replacement takes one from a budget, also one in an argument, and nothing is replaced when the
budget is used up. So expansion ends, however the macros refer to each other.
-/

namespace CInterface

/-- The macros in force. -/
structure MacroTable where
  objects : OrderedMap String
  functions : OrderedMap FnMacro

/-- A macro that is hidden as long as more than `tail` characters are to come. -/
structure HiddenMacro where
  name : String
  tail : Nat
  deriving DecidableEq, Repr

/-- What an expansion gives. -/
structure Expansion where
  text : List Char
  /-- What is left of the budget. -/
  budget : Nat
  /-- The calls that were left as they are, the latest first. -/
  failures : List (String × MacroError)
  deriving DecidableEq

/-- What the expansion of some arguments gives. -/
structure ArgumentExpansion where
  texts : List String
  budget : Nat
  failures : List (String × MacroError)

/-- The hidden macros after a replacement by the macro `name` behind which `tail` characters follow.
None is hidden beyond the end of the replacement that it is in. -/
def hideMacro (hidden : List HiddenMacro) (name : String) (tail : Nat) : List HiddenMacro :=
  hidden.map (fun h => { h with tail := min h.tail tail }) ++ [⟨name, tail⟩]

namespace MacroTable

mutual

/-- Expands the text `cs`, before which the text `before`, reversed, is finished. The budget that
comes back is never larger than before; the `min` makes this plain. -/
def scan (t : MacroTable) (hidden : List HiddenMacro) (before : List Char) (budget : Nat)
    (failures : List (String × MacroError)) (cs : List Char) : Expansion :=
  match cs with
  | [] => ⟨before.reverse, budget, failures⟩
  | c :: r =>
    let n := (nextSegment c r).2
    let word := c :: r.take n
    let rest := r.drop n
    let passed := word.reverse ++ before
    if (nextSegment c r).1 ≠ .ident then t.scan hidden passed budget failures rest
    else if budget = 0 then ⟨before.reverse ++ c :: r, budget, failures⟩
    else
      let name := String.ofList word
      let inside := if hidden.isEmpty then [] else
        let size := r.length + 1
        hidden.filter (·.tail < size)
      if inside.any (·.name = name) then t.scan inside passed budget failures rest
      else match t.objects.get? name with
        | some body =>
          t.scan (hideMacro inside name rest.length) before (budget - 1) failures
            (body.toList ++ rest)
        | none => match t.functions.get? name with
          | none => t.scan inside passed budget failures rest
          | some m => match h : callArguments? rest with
            | none => t.scan inside passed budget failures rest
            | some (.error e) => t.scan inside passed budget ((name, e) :: failures) rest
            | some (.ok (args, after)) =>
              have : args.flatten.length < r.length + 1 := by
                have := callArguments?_length h
                simp only [rest, List.length_drop] at this
                omega
              let found := t.scanAll (inside.map (·.name)) budget failures args
              let left := min found.budget budget
              match m.substitute found.texts with
              | .error e => t.scan inside passed left ((name, e) :: found.failures) rest
              | .ok text =>
                if left = 0 then ⟨before.reverse ++ c :: r, left, found.failures⟩
                else
                  t.scan (hideMacro inside name after.length) before (left - 1) found.failures
                    (text.toList ++ after)
  termination_by (budget, cs.length, 0)
  decreasing_by
    all_goals simp only [Prod.lex_def, List.length_cons, List.length_drop, true_and]
    all_goals omega

/-- Expands arguments one after the other. Macros that are hidden around a call are hidden in all of
its arguments. -/
def scanAll (t : MacroTable) (hidden : List String) (budget : Nat)
    (failures : List (String × MacroError)) (args : List (List Char)) : ArgumentExpansion :=
  match args with
  | [] => ⟨[], budget, failures⟩
  | arg :: more =>
    let first := t.scan (hidden.map (⟨·, 0⟩)) [] budget failures arg
    let others := t.scanAll hidden (min first.budget budget) first.failures more
    ⟨String.ofList first.text :: others.texts, others.budget, others.failures⟩
  termination_by (budget, args.flatten.length, args.length + 1)
  decreasing_by
    all_goals simp only [Prod.lex_def, List.flatten_cons, List.length_append, List.length_cons, true_and]
    all_goals omega

end

/-- The largest number of replacements in one expansion. -/
def expansionLimit : Nat := 10000

/-- Expands a text in which some macros are hidden throughout. -/
def expand (t : MacroTable) (hidden : List String) (text : List Char) : Expansion :=
  t.scan (hidden.map (⟨·, 0⟩)) [] expansionLimit [] text

end MacroTable

/-- The expansion has used up its budget. -/
def Expansion.exhausted (e : Expansion) : Bool := e.budget = 0

end CInterface
