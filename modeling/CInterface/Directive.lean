import CInterface.Word
/-!
# Directives

A directive is a line that starts with `#`.

* `Directive.ofLine?` — the keyword of a directive with what follows it.
* `MacroDefinition.ofText?` — what a `#define` says.
* `identifierAt?` — an identifier at the head of a text.
* `resolveDefined` — the text of a condition with `defined` replaced by its truth value.
-/

namespace CInterface

open Text

/-- The keywords of directives. -/
inductive DirectiveKeyword where
  | ifTrue | ifdef | ifndef | elif | otherwise | endif | define | undef | pragma
  /-- Any other word, or none. -/
  | other (text : String)
  deriving DecidableEq, Repr

/-- The keyword that a word is. -/
def DirectiveKeyword.ofText (text : String) : DirectiveKeyword :=
  if text = "if" then ifTrue
  else if text = "ifdef" then ifdef
  else if text = "ifndef" then ifndef
  else if text = "elif" then elif
  else if text = "else" then otherwise
  else if text = "endif" then endif
  else if text = "define" then define
  else if text = "undef" then undef
  else if text = "pragma" then pragma
  else other text

/-- A directive: its keyword and the text behind it. -/
structure Directive where
  keyword : DirectiveKeyword
  rest : List Char
  deriving DecidableEq, Repr

/-- The directive that a line is, if it starts with `#`. -/
def Directive.ofLine? (line : List Char) : Option Directive := do
  let body := trimStart (← afterHead? ['#'] (trimStart line))
  let word := body.takeWhile Char.isAlpha
  return ⟨.ofText (String.ofList word), body.drop word.length⟩

/-- The identifier at the head of a text with the text behind it. -/
def identifierAt? : List Char → Option (List Char × List Char)
  | [] => none
  | c :: r =>
    if isIdentHead c then some (c :: r.takeWhile isIdentTail, r.dropWhile isIdentTail) else none

/-- The identifier that a text starts with, blanks aside. -/
def leadingName? (cs : List Char) : Option String :=
  (identifierAt? (trimStart cs)).map fun p => String.ofList p.1

/-! ### Definitions of macros -/

/-- The name by which a macro refers to its variable arguments. -/
def variableArguments : String := "__VA_ARGS__"

/-- What a `#define` says. -/
inductive MacroDefinition where
  | object (name body : String)
  | function (name : String) (params : List String) (variadic : Bool) (body : String)
  deriving DecidableEq, Repr

namespace MacroDefinition

/-- A parameter as it is written, and whether it takes all remaining arguments: three dots alone, or
behind a name. -/
def param? (cs : List Char) : Option (String × Bool) :=
  let dots := ['.', '.', '.']
  let whole (name : List Char) : Option String :=
    match identifierAt? name with
    | some (ident, []) => some (String.ofList ident)
    | _ => none
  if cs = dots then some (variableArguments, true)
  else if dots.reverse.isPrefixOf cs.reverse then
    (whole (trimEnd (cs.take (cs.length - 3)))).map (·, true)
  else (whole cs).map (·, false)

/-- The parameters of a list, and whether the last takes all remaining arguments. No other may. -/
def params? : List (List Char) → Option (List String × Bool)
  | [] => some ([], false)
  | [p] => do
    let (name, variadic) ← param? (trim p)
    return ([name], variadic)
  | p :: ps => do
    let (name, variadic) ← param? (trim p)
    if variadic then none
    else
      let (names, variadic) ← params? ps
      return (name :: names, variadic)

/-- Reads the text behind `#define`. A parameter list has to follow the name directly. -/
def ofText? (rest : List Char) : Option MacroDefinition := do
  let (ident, after) ← identifierAt? (trimStart rest)
  let name := String.ofList ident
  match after with
  | '(' :: list =>
    let (inside, body) ← cut? [')'] list
    let inner := trim inside
    let (params, variadic) ← if inner.isEmpty then some ([], false) else params? (splitAt ',' inner)
    return function name params variadic (String.ofList (trim body))
  | _ => return object name (String.ofList (trim after))

end MacroDefinition

/-! ### Conditions -/

/-- The name behind `defined`, in parentheses or not, and the number of characters that it takes with
them and with the blanks before. -/
def definedOperand? (cs : List Char) : Option (List Char × Nat) :=
  let trimmed := trimStart cs
  match trimmed with
  | '(' :: inner => do
    let (name, after) ← identifierAt? (trimStart inner)
    let rest ← afterHead? [')'] (trimStart after)
    return (name, cs.length - rest.length)
  | _ => do
    let (name, rest) ← identifierAt? trimmed
    return (name, cs.length - rest.length)

/-- Replaces `defined` with its operand by one or zero. The first `skip` characters of the segments
belong to an operand that is replaced already; a word that begins among them is none. -/
def resolveSegments (isDefined : String → Bool) (skip : Nat) : List Segment → List Char
  | [] => []
  | s :: rest =>
    if 0 < skip then
      s.text.drop skip ++ resolveSegments isDefined (skip - s.text.length) rest
    else
      let operand :=
        if s.kind = .ident && s.text = "defined".toList then
          definedOperand? (rest.flatMap (·.text))
        else none
      match operand with
      | some (name, n) =>
        (if isDefined (String.ofList name) then '1' else '0') :: resolveSegments isDefined n rest
      | none => s.text ++ resolveSegments isDefined 0 rest

/-- The text of a condition with each `defined X` and `defined(X)` replaced by one or zero. -/
def resolveDefined (isDefined : String → Bool) (cs : List Char) : List Char :=
  resolveSegments isDefined 0 (segments cs)

end CInterface
