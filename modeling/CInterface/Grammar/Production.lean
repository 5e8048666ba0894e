import CInterface.Expr.Parser
import CInterface.Grammar.Error
import CInterface.Grammar.Qualifier
import CInterface.Packing
import CInterface.Registry
import CInterface.Text.LineTable
/-!
# Productions

What all productions of the grammar share.

* `Source` — what reading depends on: the grammar, the definitions so far, and the lines.
* `Stage` — where reading stands: the tokens to come, and the definitions and errors of the present
  declaration, which are only staged until all of it has matched.
* `Production` — a step of reading, which may fail; `attempt` tries one and goes back where it fails.
* `Source.visible?` — the definition of a name as a declaration sees it: a staged one, the latest
  first, or one of the registry.
* `Source.evaluate` — the value of an expression in a declaration.
-/

namespace CInterface

open Text

/-- What the reading of a declaration depends on. -/
structure Source where
  grammar : Grammar
  /-- The definitions of earlier declarations. -/
  registry : Registry
  packing : PackingLog
  /-- The lines of the text. -/
  lines : LineTable
  /-- The line of the last token, which counts as the line of the end. -/
  lastLine : Nat
  /-- A bound on the depth of the reading, by the number of tokens. -/
  fuel : Nat

/-- Where the reading of a declaration stands. -/
structure Stage where
  /-- The tokens to come. -/
  rest : List Token
  /-- The definitions found so far, the latest first. -/
  staged : List (String × Definition)
  /-- The errors found so far, the latest first. -/
  errors : List DefinitionError

/-- A step of reading. -/
abbrev Production (α : Type) := StateT Stage (Except ParseError) α

namespace Source

/-- The source of a text with some tokens. Fuel of eight for each token, and once more, exceeds the
depth of any reading: between two productions that consume a token there are fewer than eight that
consume none. -/
def ofTokens (grammar : Grammar) (registry : Registry) (packing : PackingLog) (text : List Char)
    (tokens : List Token) : Source :=
  let lines := LineTable.ofText text
  { grammar, registry, packing, lines
    lastLine := (tokens.getLast?.map fun t => lines.lineOf t.start).getD 0
    fuel := 8 * (tokens.length + 1) }

/-- The line of the first of some tokens. -/
def lineAt (src : Source) (rest : List Token) : Nat :=
  match rest with
  | t :: _ => src.lines.lineOf t.start
  | [] => src.lastLine

/-- The mismatch of some tokens with what is expected. -/
def mismatch (src : Source) (expected : Expected) (rest : List Token) : ParseError :=
  match rest with
  | t :: _ => .unexpected expected t.kind (src.lineAt rest)
  | [] => .endOfInput expected

end Source

/-! ### Tokens -/

/-- The token to come. -/
def peek : Production (Option TokenKind) := do return (← get).rest.head?.map (·.kind)

/-- The punctuator comes next. -/
def comes (p : Punct) : Production Bool := do return (← peek) = some (.punct p)

/-- Goes on to some tokens. -/
def moveTo (rest : List Token) : Production Unit := modify fun s => { s with rest }

/-- Passes the punctuator, if it comes next. -/
def accept (p : Punct) : Production Bool := do
  if ← comes p then
    moveTo ((← get).rest.drop 1)
    return true
  else return false

/-- Passes the word, if it comes next. -/
def acceptWord (word : String) : Production Bool := do
  if word? (← get).rest = some word then
    moveTo ((← get).rest.drop 1)
    return true
  else return false

/-- Tries a production; where it fails, everything is as before. -/
def attempt {α : Type} (p : Production α) : Production (Option α) := fun s =>
  match p s with
  | .ok (a, s) => .ok (some a, s)
  | .error _ => .ok (none, s)

/-- The first of two productions that matches. -/
def either {α : Type} (p q : Production α) : Production α := fun s =>
  match p s with
  | .ok r => .ok r
  | .error _ => q s

/-! ### Staging -/

/-- Stages a definition. -/
def define (name : String) (x : Definition) : Production Unit :=
  modify fun s => { s with staged := (name, x) :: s.staged }

/-- Records an error of the declaration. -/
def report (e : DefinitionError) : Production Unit :=
  modify fun s => { s with errors := e :: s.errors }

/-- The first definition of a name in a category. -/
def staged? (c : Category) (name : String) : List (String × Definition) → Option c.Content
  | [] => none
  | (n, ⟨e, x⟩) :: rest =>
    if h : e = c then if n = name then some (h ▸ x) else staged? c name rest
    else staged? c name rest

namespace Source

/-- Fails, since something else is expected. -/
def fail {α : Type} (src : Source) (expected : Expected) : Production α := fun s =>
  .error (src.mismatch expected s.rest)

/-- Passes the punctuator, which has to come next. -/
def expect (src : Source) (p : Punct) : Production Unit := do
  if !(← accept p) then src.fail (.punct p)

/-- The line of the token to come. -/
def line (src : Source) : Production Nat := do return src.lineAt (← get).rest

/-- Passes the tokens up to a stop outside brackets. -/
def tokensUntil (src : Source) (stops : List Punct) : Production (List TokenKind) := do
  match balancedUntil stops 0 (← get).rest with
  | some (inside, rest) =>
    moveTo rest
    return inside.map (·.kind)
  | none =>
    moveTo []
    src.fail .closingBracket

/-- Passes a block in braces. -/
def skipBlock (src : Source) : Production Unit := do
  src.expect .lbrace
  match afterBlock 0 (← get).rest with
  | some rest => moveTo rest
  | none =>
    moveTo []
    src.fail (.punct .rbrace)

/-- Passes a word that is no keyword, if one comes next. -/
def name? (src : Source) : Production (Option String) := do
  match word? (← get).rest with
  | some word =>
    if src.grammar.isKeyword word then return none
    else
      moveTo ((← get).rest.drop 1)
      return some word
  | none => return none

/-- Passes qualifiers and adds them to `quals`. -/
def qualifiers (src : Source) (beforeType : Bool) (quals : Qualifiers) :
    Production Qualifiers := do
  let (quals, rest) := src.grammar.qualifiersAt beforeType quals (← get).rest
  moveTo rest
  return quals

/-! ### Definitions in sight -/

/-- The definition of a name that a declaration sees: the latest that it has staged, or that of the
registry. -/
def visible? (src : Source) (s : Stage) (c : Category) (name : String) : Option c.Content :=
  (staged? c name s.staged).or ((src.registry.flat.map c).get? name)

/-- The values of names in a declaration: the members of the enumeration that is being defined, and
the constants in sight. -/
def env (src : Source) (s : Stage) (members : EnumDef) : Env := fun name =>
  ((members.get? name).map Value.int).or (src.visible? s .values name)

/-- The value of an expression in a declaration. -/
def evaluate (src : Source) (members : EnumDef) (ts : List TokenKind) :
    Production (Except EvalError Value) := do
  return evalTokens (src.env (← get) members) ts

end Source

end CInterface
