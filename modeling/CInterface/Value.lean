import CInterface.Decimal.Layout
/-!
# Constant values

* `Value` — what a macro body, an enum member, an array bound or an initializer comes to.
* `Value.text` — the value as C writes it.
* `Value.isTruthy`, `Value.asInt?`, `Value.asFloat?`, `Value.asSize?` — its readings.

Character literals are integers; brace initializers are lists.
-/

namespace CInterface

/-- A constant. Integers are signed words of 64 bits. -/
inductive Value where
  | int (n : Int64)
  | float (x : Float)
  | str (text : String)
  | list (items : List Value)

namespace Value

instance : Inhabited Value := ⟨int 0⟩

/-- The value of a truth value: one or zero. -/
def ofBool (b : Bool) : Value := int (if b then 1 else 0)

mutual

/-- Equality of values. Floats are compared as numbers: both zeros are equal and a value that is
no number differs from itself. -/
def same : Value → Value → Bool
  | int a, int b => a == b
  | float a, float b => a == b
  | str a, str b => a == b
  | list a, list b => sameAll a b
  | _, _ => false

/-- Equality of lists of values, place by place. -/
def sameAll : List Value → List Value → Bool
  | [], [] => true
  | a :: as, b :: bs => same a b && sameAll as bs
  | _, _ => false

end

instance : BEq Value := ⟨same⟩

/-! ### Readings -/

/-- The integer, if the value is one. -/
def asInt? : Value → Option Int64
  | int n => some n
  | _ => none

/-- The value as a float, if it is a number. -/
def asFloat? : Value → Option Float
  | float x => some x
  | int n => some n.toFloat
  | _ => none

/-- The text, if the value is one. -/
def asStr? : Value → Option String
  | str s => some s
  | _ => none

/-- The value as an array bound: an integer that is not negative. -/
def asSize? : Value → Option UInt64
  | int n => if 0 ≤ n then some n.toUInt64 else none
  | _ => none

/-- The truth of a value: a number that is not zero, any text, or a list with items. -/
def isTruthy : Value → Bool
  | int n => n != 0
  | float x => x != 0
  | str _ => true
  | list items => !items.isEmpty

/-- Anything but a list. -/
def isScalar : Value → Bool
  | list _ => false
  | _ => true

/-- The word for the kind of a value. -/
def kindName : Value → String
  | int _ => "integer"
  | float _ => "float"
  | str _ => "string"
  | list _ => "list"

/-! ### Text -/

/-- The characters that stand for one character of a string literal. -/
def escapeChar (c : Char) : List Char :=
  if c = '"' then ['\\', '"']
  else if c = '\\' then ['\\', '\\']
  else if c = '\n' then ['\\', 'n']
  else if c = '\t' then ['\\', 't']
  else if c = '\r' then ['\\', 'r']
  else if c = '\x00' then ['\\', '0']
  else [c]

/-- A string literal. -/
def quoteText (s : String) : String :=
  "\"" ++ String.ofList (s.toList.flatMap escapeChar) ++ "\""

/-- The text of a float, also of one that is no finite number. -/
def floatText (x : Float) : String :=
  if x.isNaN then "NaN"
  else if x.isInf then if x < 0 then "-inf" else "inf"
  else Decimal.Layout.literal.render x

mutual

/-- The value as C writes it. -/
def text : Value → String
  | int n => toString n.toInt
  | float x => floatText x
  | str s => quoteText s
  | list items => "\x7b" ++ itemTexts items ++ "\x7d"

/-- The texts of the items of a list with commas between them. -/
def itemTexts : List Value → String
  | [] => ""
  | [v] => text v
  | v :: w :: rest => text v ++ ", " ++ itemTexts (w :: rest)

end

end Value

end CInterface
