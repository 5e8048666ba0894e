import CInterface.Expr
import CInterface.Literal
/-!
# Reading constant expressions

The grammar of constant expressions, by levels of precedence from `?:` down to the literals.

* `Expr.Scope` — what reading depends on: the names that have values.
* `Expr.castEnd?` — whether an opening parenthesis starts a cast.
* `Expr.ofTokens?` — the tree of a token list that is one expression.
* `evalTokens`, `evalText` — the value of an expression.

A cast leaves its operand as it is, so it leaves no trace in the tree. Each level of the grammar
that is entered without consuming a token is one of twelve, so fuel of sixteen for each token and
once more never runs out.
-/

namespace CInterface

namespace Expr

/-- What the reading of an expression depends on. -/
structure Scope where
  /-- The names that have values. A parenthesised name of this kind is an operand, no cast. -/
  known : String → Bool
  /-- The number of tokens of the whole expression, for positions in errors. -/
  size : Nat

/-- What reading a part of an expression gives: a tree and the tokens behind it. -/
abbrev Reading := Except EvalError (Expr × List TokenKind)

/-- The error for the token at the head of `rest`, or for the end. -/
def Scope.unexpected (g : Scope) (rest : List TokenKind) : EvalError :=
  .unexpected rest.head? (g.size - rest.length)

/-- The tokens behind the punctuator `p`, which has to come next. -/
def Scope.expect (g : Scope) (p : Punct) : List TokenKind → Except EvalError (List TokenKind)
  | .punct q :: rest => if p = q then .ok rest else .error (g.unexpected (.punct q :: rest))
  | rest => .error (g.unexpected rest)

/-! ### Casts -/

/-- A token that can stand in the parentheses of a cast. -/
def isCastWord : TokenKind → Bool
  | .ident _ => true
  | .punct .star => true
  | _ => false

/-- A token that can follow a cast. -/
def startsOperand : TokenKind → Bool
  | .ident _ | .integer _ | .float _ | .char _ | .str _ => true
  | .punct p => p = .lparen || p = .minus || p = .plus || p = .bang || p = .tilde
  | .error _ => false

/-- The tokens behind the cast that the parenthesis before `ts` opens, if it opens one: words and
stars, at least one word, and an operand behind the closing parenthesis. A single word that has a
value is no cast. -/
def castEnd? (g : Scope) (ts : List TokenKind) : Option (List TokenKind) :=
  let inside := ts.takeWhile isCastWord
  let single := match inside with
    | [.ident word] => g.known word
    | _ => false
  let hasWord := inside.any fun
    | .ident _ => true
    | _ => false
  match ts.drop inside.length with
  | .punct .rparen :: operand :: rest =>
    if hasWord && !single && startsOperand operand then some (operand :: rest) else none
  | _ => none

/-! ### Operands -/

/-- The texts of the string literals at the head of some tokens, joined. -/
def joinStrings : List TokenKind → String × List TokenKind
  | .str text :: rest =>
    let (joined, rest) := joinStrings rest
    (Literal.string text ++ joined, rest)
  | rest => ("", rest)

/-- Reads a literal or a name. Adjacent string literals are one. -/
def Scope.atom (g : Scope) : List TokenKind → Reading
  | .integer text :: rest => match Literal.integer? text.toList with
    | some n => .ok (.literal (.int n), rest)
    | none => .error (.malformedLiteral text)
  | .float text :: rest => match Literal.float? text.toList with
    | some x => .ok (.literal (.float x), rest)
    | none => .error (.malformedLiteral text)
  | .char text :: rest => .ok (.literal (.int (Literal.charCode text)), rest)
  | .str text :: rest =>
    let (joined, rest) := joinStrings (.str text :: rest)
    .ok (.literal (.str joined), rest)
  | .ident n :: rest =>
    if n = "sizeof" then .error .sizeOf
    else if rest.head? = some (.punct .lparen) then .error (.call n)
    else .ok (.name n, rest)
  | rest => .error (g.unexpected rest)

/-- The operator with one operand that a token stands for. -/
def unaryOp? : TokenKind → Option UnaryOp
  | .punct .bang => some .not
  | .punct .tilde => some .bitNot
  | .punct .minus => some .neg
  | .punct .plus => some .plus
  | _ => none

/-- The operator of a level that the next token stands for, with the tokens behind it. -/
def binaryOp? (level : Nat) : List TokenKind → Option (BinaryOp × List TokenKind)
  | .punct p :: rest => (BinaryOp.atLevel? level p).map (·, rest)
  | _ => none

/-! ### The levels of the grammar -/

mutual

/-- Reads an expression: a test with its two branches, or what stands before `?` alone. -/
def Scope.conditional (g : Scope) : Nat → List TokenKind → Reading
  | 0, ts => .error (g.unexpected ts)
  | fuel + 1, ts => do
    let (test, rest) ← g.operand fuel 0 ts
    match rest with
    | .punct .question :: rest => do
      let (whenTrue, rest) ← g.conditional fuel rest
      let rest ← g.expect .colon rest
      let (whenFalse, rest) ← g.conditional fuel rest
      return (.conditional test whenTrue whenFalse, rest)
    | rest => return (test, rest)

/-- Reads an operand of the operators of a level: operands of the next level with the operators of
this one between them. -/
def Scope.operand (g : Scope) : Nat → Nat → List TokenKind → Reading
  | 0, _, ts => .error (g.unexpected ts)
  | fuel + 1, level, ts =>
    if level = BinaryOp.levels then g.unary fuel ts
    else do
      let (left, rest) ← g.operand fuel (level + 1) ts
      g.operators fuel level left rest

/-- Reads the operators of a level that follow `left`, with their right operands. They associate to
the left. -/
def Scope.operators (g : Scope) : Nat → Nat → Expr → List TokenKind → Reading
  | 0, _, _, ts => .error (g.unexpected ts)
  | fuel + 1, level, left, ts =>
    match binaryOp? level ts with
    | none => .ok (left, ts)
    | some (op, rest) => do
      let (right, rest) ← g.operand fuel (level + 1) rest
      g.operators fuel level (.binary op left right) rest

/-- Reads the operators with one operand, casts among them, and their operand. -/
def Scope.unary (g : Scope) : Nat → List TokenKind → Reading
  | 0, ts => .error (g.unexpected ts)
  | fuel + 1, ts =>
    match ts with
    | .punct .lparen :: rest =>
      match castEnd? g rest with
      | some operand => g.unary fuel operand
      | none => do
        let (e, rest) ← g.conditional fuel rest
        return (e, ← g.expect .rparen rest)
    | t :: rest =>
      match unaryOp? t with
      | some op => do
        let (e, rest) ← g.unary fuel rest
        return (.unary op e, rest)
      | none => g.atom (t :: rest)
    | [] => g.atom []

end

/-- Fuel for an expression of some tokens. -/
def fuelFor (ts : List TokenKind) : Nat := 16 * (ts.length + 1)

/-- The tree of a token list that is one expression. -/
def ofTokens? (known : String → Bool) (ts : List TokenKind) : Except EvalError Expr :=
  if ts.isEmpty then .error .empty
  else do
    let g : Scope := ⟨known, ts.length⟩
    let (e, rest) ← g.conditional (fuelFor ts) ts
    if rest.isEmpty then return e else .error (g.unexpected rest)

end Expr

/-- The value of a token list that is one expression. -/
def evalTokens (env : Env) (ts : List TokenKind) : Except EvalError Value := do
  (← Expr.ofTokens? (fun n => (env n).isSome) ts).eval env

/-- The value of an expression text. -/
def evalText (env : Env) (text : String) : Except EvalError Value :=
  let tokens := tokenize text
  match (lexErrors tokens).head? with
  | some e => .error (.unreadable e)
  | none => evalTokens env (tokens.map (·.kind))

end CInterface
