import CInterface.Decimal.Layout
import CInterface.Decimal.Nearest
import CInterface.Json
/-!
# Numbers in JSON

* `Json.ofFloat` — the document of a float; one that is no finite number has none and is null.
* `Json.Number` — what a number literal stands for: a word, or a float.
* `Json.integer?`, `Json.float?` — the number that a document is, as an integer or a float.

A float is read digit by digit into a word of 64 bits. Digits that no longer fit count by their
place alone, and the word is then scaled by a power of ten. For numbers with at most fifteen digits
and exponents up to twenty-two this gives the nearest float; others may be off by the roundings of
the two steps.
-/

namespace CInterface.Json

/-- The document of a float. -/
def ofFloat (x : Float) : Json :=
  if x.isFinite then number (Decimal.Layout.json.render x).toList else null

/-- What a number literal stands for. -/
inductive Number where
  | integer (n : Int)
  | float (x : Float)

/-! ### Literals -/

/-- A number literal cut into its parts. -/
structure NumberParts where
  negative : Bool
  whole : List Char
  /-- The digits behind the point. -/
  fraction : List Char
  /-- The digits of the exponent, behind its mark and sign. -/
  exponent : List Char
  exponentNegative : Bool
  /-- The literal has neither point nor exponent. -/
  plain : Bool

/-- The parts of a number literal. -/
def NumberParts.ofLiteral (literal : List Char) : NumberParts :=
  let negative := literal.head? = some '-'
  let body := if negative then literal.drop 1 else literal
  let mantissa := body.takeWhile fun c => c ≠ 'e' && c ≠ 'E'
  let whole := mantissa.takeWhile (· ≠ '.')
  let exponent := (body.drop mantissa.length).drop 1
  { negative, whole
    fraction := (mantissa.drop whole.length).drop 1
    exponent := exponent.filter Char.isDigit
    exponentNegative := exponent.head? = some '-'
    plain := whole.length = body.length }

/-- The value of a decimal digit. -/
def digit (c : Char) : Nat := c.toNat - '0'.toNat

/-- Reads digits behind the number `n` as long as it fits in 64 bits, and returns the digits from the
first that does not. -/
def absorb (n : Nat) : List Char → Nat × List Char
  | [] => (n, [])
  | d :: rest =>
    let m := n * 10 + digit d
    if m < UInt64.size then absorb m rest else (n, d :: rest)

/-- The number that digits denote. -/
def natOfDigits (digits : List Char) : Nat := digits.foldl (fun n d => n * 10 + digit d) 0

/-- The float nearest to a power of ten. -/
def powerOfTen (n : Nat) : Float := (Decimal.mk 1 n).toFloat

/-- A float divided by ten to the power of `n`, in steps that are floats themselves. -/
def divideByPower (x : Float) (n : Nat) : Float :=
  if n ≤ 308 then x / powerOfTen n
  else if x == 0 then x
  else divideByPower (x / powerOfTen 308) (n - 308)
  termination_by n

/-- The word `n` times ten to the power of `exponent`, if that is a finite float. -/
def scale? (n : Nat) (exponent : Int) : Option Float :=
  let x := Float.ofNat n
  if exponent < 0 then some (divideByPower x exponent.natAbs)
  else if n = 0 then some x
  else if 308 < exponent then none
  else
    let y := x * powerOfTen exponent.toNat
    if y.isFinite then some y else none

/-- What a number literal stands for, if it is in range. An integer has neither point nor exponent
and fits in 64 bits, unsigned, or signed behind a minus; a negative zero is a float. -/
def number? (literal : List Char) : Option Number := do
  let p := NumberParts.ofLiteral literal
  let sign (x : Float) : Float := if p.negative then -x else x
  let (n, skipped) := absorb 0 p.whole
  if p.plain && skipped.isEmpty then
    if !p.negative then return .integer n
    else if n = 0 || UInt64.size < 2 * n then return .float (-Float.ofNat n)
    else return .integer (-n)
  else
    let (n, left) := absorb n p.fraction
    let places : Int := skipped.length - (p.fraction.length - left.length : Nat)
    let power : Int := natOfDigits p.exponent
    return .float (sign (← scale? n (places + if p.exponentNegative then -power else power)))

/-! ### Documents -/

/-- The integer that a document is. -/
def integer? : Json → Option Int
  | number literal => match number? literal with
    | some (.integer n) => some n
    | _ => none
  | _ => none

/-- The float that a document is; an integer is one too. -/
def float? : Json → Option Float
  | number literal => match number? literal with
    | some (.integer n) => some (Float.ofInt n)
    | some (.float x) => some x
    | none => none
  | _ => none

end CInterface.Json
