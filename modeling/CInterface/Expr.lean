import CInterface.Token.Lexer
import CInterface.Value
/-!
# Constant expressions

* `UnaryOp`, `BinaryOp` — the operators, each with its punctuator.
* `Expr` — expression trees.
* `Expr.eval` — their values, given the values of names. `&&`, `||` and `?:` evaluate only the
  operands that they select.
* `EvalError` — why an expression has no value, with the wording in `EvalError.message`.

Integer arithmetic wraps around in 64 bits; as soon as one operand is a float, the operation is
one on floats.
-/

namespace CInterface

/-- Why an expression has no value. -/
inductive EvalError where
  /-- There is no expression. -/
  | empty
  /-- A name has no value. -/
  | unknownIdentifier (name : String)
  /-- The text holds something that is no token. -/
  | unreadable (e : LexError)
  /-- The size of a type or an object is asked for. -/
  | sizeOf
  /-- A function is called. -/
  | call (name : String)
  /-- The divisor of a division or remainder is zero. -/
  | divisionByZero
  /-- An operator does not apply to an operand. -/
  | typeMismatch (op : Punct) (operand : Value)
  /-- A number has digits that its base lacks, or is too large. -/
  | malformedLiteral (text : String)
  /-- A token, or the end, stands where the grammar wants something else. -/
  | unexpected (found : Option TokenKind) (position : Nat)

/-- The text of an evaluation error. -/
def EvalError.message : EvalError → String
  | empty => "empty expression"
  | unknownIdentifier name => "unknown identifier '" ++ name ++ "'"
  | unreadable e => "unsupported construct in constant expression: " ++ e.message
  | sizeOf => "unsupported construct in constant expression: sizeof"
  | call name => "unsupported construct in constant expression: call to '" ++ name ++ "'"
  | divisionByZero => "division by zero"
  | typeMismatch op operand =>
    "operator '" ++ op.text ++ "' cannot be applied to " ++ operand.kindName
  | malformedLiteral text => "malformed literal '" ++ text ++ "'"
  | unexpected found position =>
    "unexpected " ++ (found.map TokenKind.text).getD "end of expression" ++
      " at token " ++ toString position

/-- The values of names. -/
abbrev Env := String → Option Value

/-! ### Operators -/

/-- The operators with one operand. -/
inductive UnaryOp where
  | neg | plus | not | bitNot
  deriving DecidableEq, Repr

/-- The operators with two operands. -/
inductive BinaryOp where
  | mul | div | rem | add | sub | shl | shr
  | lt | le | gt | ge | eq | ne
  | bitAnd | bitXor | bitOr | and | or
  deriving DecidableEq, Repr

/-- The punctuator of an operator. -/
def UnaryOp.punct : UnaryOp → Punct
  | neg => .minus | plus => .plus | not => .bang | bitNot => .tilde

namespace BinaryOp

/-- Every operator with two operands. -/
def all : List BinaryOp :=
  [mul, div, rem, add, sub, shl, shr, lt, le, gt, ge, eq, ne, bitAnd, bitXor, bitOr, and, or]

/-- The punctuator of an operator. -/
def punct : BinaryOp → Punct
  | mul => .star | div => .slash | rem => .percent | add => .plus | sub => .minus
  | shl => .shl | shr => .shr | lt => .lt | le => .ltEq | gt => .gt | ge => .gtEq
  | eq => .eqEq | ne => .notEq | bitAnd => .amp | bitXor => .caret | bitOr => .pipe
  | and => .ampAmp | or => .pipePipe

/-- How tightly an operator binds, from `||` at zero to `*` at nine. -/
def level : BinaryOp → Nat
  | or => 0 | and => 1 | bitOr => 2 | bitXor => 3 | bitAnd => 4 | eq | ne => 5
  | lt | le | gt | ge => 6 | shl | shr => 7 | add | sub => 8 | mul | div | rem => 9

/-- The number of levels. -/
def levels : Nat := 10

/-- The operator of a level that a punctuator stands for. -/
def atLevel? (level : Nat) (p : Punct) : Option BinaryOp :=
  all.find? fun op => op.level = level && op.punct = p

end BinaryOp

/-! ### Arithmetic -/

/-- The value of an operator on one value. -/
def UnaryOp.apply (op : UnaryOp) (v : Value) : Except EvalError Value :=
  match op, v with
  | not, v => .ok (.ofBool !v.isTruthy)
  | plus, .int n => .ok (.int n)
  | plus, .float x => .ok (.float x)
  | neg, .int n => .ok (.int (-n))
  | neg, .float x => .ok (.float (-x))
  | bitNot, .int n => .ok (.int (~~~n))
  | op, v => .error (.typeMismatch op.punct v)

namespace BinaryOp

/-- The value of an operator on two integers. Results wrap around, shifts go by the low six bits of
the amount, and a right shift keeps the sign. -/
def onInts (op : BinaryOp) (a b : Int64) : Except EvalError Value :=
  match op with
  | mul => .ok (.int (a * b))
  | div => if b = 0 then .error .divisionByZero else .ok (.int (a / b))
  | rem => if b = 0 then .error .divisionByZero else .ok (.int (a % b))
  | add => .ok (.int (a + b))
  | sub => .ok (.int (a - b))
  | shl => .ok (.int (a <<< (b &&& 63)))
  | shr => .ok (.int (a >>> (b &&& 63)))
  | lt => .ok (.ofBool (a < b))
  | le => .ok (.ofBool (a ≤ b))
  | gt => .ok (.ofBool (b < a))
  | ge => .ok (.ofBool (b ≤ a))
  | eq => .ok (.ofBool (a == b))
  | ne => .ok (.ofBool (a != b))
  | bitAnd => .ok (.int (a &&& b))
  | bitXor => .ok (.int (a ^^^ b))
  | bitOr => .ok (.int (a ||| b))
  | and => .ok (.ofBool (a != 0 && b != 0))
  | or => .ok (.ofBool (a != 0 || b != 0))

/-- The value of an operator on two floats. -/
def onFloats (op : BinaryOp) (a b : Float) : Except EvalError Value :=
  match op with
  | mul => .ok (.float (a * b))
  | div => .ok (.float (a / b))
  | add => .ok (.float (a + b))
  | sub => .ok (.float (a - b))
  | lt => .ok (.ofBool (a < b))
  | le => .ok (.ofBool (a ≤ b))
  | gt => .ok (.ofBool (b < a))
  | ge => .ok (.ofBool (b ≤ a))
  | eq => .ok (.ofBool (a == b))
  | ne => .ok (.ofBool (a != b))
  | and => .ok (.ofBool (a != 0 && b != 0))
  | or => .ok (.ofBool (a != 0 || b != 0))
  | rem | shl | shr | bitAnd | bitXor | bitOr => .error (.typeMismatch op.punct (.float a))

/-- The value of an operator on two texts: texts can only be compared for equality. -/
def onTexts (op : BinaryOp) (a b : String) : Except EvalError Value :=
  match op with
  | eq => .ok (.ofBool (a == b))
  | ne => .ok (.ofBool (a != b))
  | op => .error (.typeMismatch op.punct (.str a))

/-- The value of an operator on two values. Numbers go with numbers and texts with texts; of two
operands that do not fit, the one that is no number is named, the left one first. -/
def apply (op : BinaryOp) (a b : Value) : Except EvalError Value :=
  match a, b with
  | .int m, .int n => op.onInts m n
  | .int m, .float y => op.onFloats m.toFloat y
  | .float x, .int n => op.onFloats x n.toFloat
  | .float x, .float y => op.onFloats x y
  | .str s, .str t => op.onTexts s t
  | .str _, _ | .list _, _ => .error (.typeMismatch op.punct a)
  | _, _ => .error (.typeMismatch op.punct b)

end BinaryOp

/-! ### Expressions -/

/-- An expression. -/
inductive Expr where
  | literal (v : Value)
  | name (name : String)
  | unary (op : UnaryOp) (operand : Expr)
  | binary (op : BinaryOp) (left right : Expr)
  | conditional (test whenTrue whenFalse : Expr)

/-- The value of an expression. -/
def Expr.eval (env : Env) : Expr → Except EvalError Value
  | literal v => .ok v
  | name n => match env n with
    | some v => .ok v
    | none => .error (.unknownIdentifier n)
  | unary op e => do op.apply (← e.eval env)
  | binary .and l r => do
    if (← l.eval env).isTruthy then return .ofBool (← r.eval env).isTruthy
    else return .ofBool false
  | binary .or l r => do
    if (← l.eval env).isTruthy then return .ofBool true
    else return .ofBool (← r.eval env).isTruthy
  | binary op l r => do
    let a ← l.eval env
    let b ← r.eval env
    op.apply a b
  | conditional c t f => do
    if (← c.eval env).isTruthy then t.eval env else f.eval env

end CInterface
