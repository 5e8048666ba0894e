import CInterface.Decimal.Nearest
import CInterface.Text.Split
/-!
# Literals

The values of C literals.

* `Literal.integer?` — an integer with its base and suffix.
* `Literal.float?` — a floating literal.
* `Literal.unescape` — the text that the body of a string or character literal stands for.
* `Literal.string`, `Literal.charCode` — the values of string and character literals.
-/

namespace CInterface.Literal

open Text

/-! ### Numbers -/

/-- The number that digits denote after the number `acc`, or nothing if one is no digit of the
base. -/
def digitsFrom? (base : Nat) (acc : Nat) : List Char → Option Nat
  | [] => some acc
  | c :: r => do digitsFrom? base (acc * base + (← digitValue? base c)) r

/-- An unsigned word of 64 bits in some base. One plus sign may stand before the digits. -/
def word? (base : Nat) (cs : List Char) : Option UInt64 :=
  let digits := match cs with
    | '+' :: r => r
    | r => r
  if digits.isEmpty then none
  else (digitsFrom? base 0 digits).bind fun n => if n < UInt64.size then some (UInt64.ofNat n) else none

/-- The value of an integer literal: base sixteen after `0x`, base eight after any other `0` that
is not alone, base ten otherwise, with a suffix of `u` and `l` in either case ignored. A value from
`2 ^ 63` on wraps around, as an unsigned constant of 64 bits does. -/
def integer? (cs : List Char) : Option Int64 :=
  let digits := dropEndWhile (fun c => c = 'u' || c = 'U' || c = 'l' || c = 'L') cs
  let value := match digits with
    | '0' :: 'x' :: r | '0' :: 'X' :: r => word? 16 r
    | '0' :: d :: r => word? 8 (d :: r)
    | r => word? 10 r
  value.map UInt64.toInt64

/-- A signed decimal exponent, zero if there is no digit. -/
def exponent (cs : List Char) : Int :=
  match cs with
  | '-' :: r => -((digitsFrom? 10 0 r).getD 0 : Int)
  | '+' :: r => ((digitsFrom? 10 0 r).getD 0 : Int)
  | r => ((digitsFrom? 10 0 r).getD 0 : Int)

/-- The value of a floating literal: the double nearest to the decimal that it spells, its suffix
ignored. -/
def float? (cs : List Char) : Option Float :=
  let body := dropEndWhile (fun c => c = 'f' || c = 'F' || c = 'l' || c = 'L') cs
  let mantissa := body.takeWhile fun c => c ≠ 'e' && c ≠ 'E'
  let whole := mantissa.takeWhile (· ≠ '.')
  let fraction := (mantissa.drop whole.length).drop 1
  let power := exponent ((body.drop mantissa.length).drop 1)
  (digitsFrom? 10 0 (whole ++ fraction)).map fun n =>
    (Decimal.mk n (power - fraction.length)).toFloat

/-! ### Text -/

/-- The character with a code, or the replacement character if the code has none. -/
def charOfCode (n : Nat) : Char := if n.isValidChar then Char.ofNat n else '\ufffd'

/-- The code that a run of hexadecimal digits denotes, modulo `2 ^ 32`. -/
def hexCode (digits : List Char) : Nat :=
  digits.foldl (fun code d => (code * 16 + (hexValue? d).getD 0) % UInt32.size) 0

/-- The code that a run of octal digits denotes. -/
def octalCode (digits : List Char) : Nat :=
  digits.foldl (fun code d => code * 8 + (hexValue? d).getD 0) 0

/-- An octal digit. -/
def isOctalDigit (c : Char) : Bool := (digitValue? 8 c).isSome

/-- What a backslash makes of a character that starts no numeric escape. -/
def simpleEscape : Char → Char
  | 'n' => '\n'
  | 't' => '\t'
  | 'r' => '\r'
  | 'a' => '\x07'
  | 'b' => '\x08'
  | 'f' => '\x0c'
  | 'v' => '\x0b'
  | c => c

/-- The character that an escape stands for and the number of characters of the escape behind
its first: `\x` takes all hexadecimal digits that follow, an octal escape at most three digits. -/
def escapeAt (c : Char) (r : List Char) : Char × Nat :=
  if c = 'x' then
    let digits := r.takeWhile isHexDigit
    (charOfCode (hexCode digits), digits.length)
  else if isOctalDigit c then
    let digits := (r.take 2).takeWhile isOctalDigit
    (charOfCode (octalCode (c :: digits)), digits.length)
  else (simpleEscape c, 0)

/-- The text that the body of a literal stands for. A backslash at the very end is itself. -/
def unescape (cs : List Char) : List Char :=
  match cs with
  | [] => []
  | c :: r =>
    if c ≠ '\\' then c :: unescape r
    else match r with
      | [] => ['\\']
      | d :: s =>
        let (decoded, n) := escapeAt d s
        decoded :: unescape (s.drop n)
  termination_by cs.length
  decreasing_by all_goals simp only [List.length_cons, List.length_drop]; omega

/-- What stands between the quotes of a literal. -/
def body (quote : Char) (cs : List Char) : List Char :=
  let text := match cs with
    | 'L' :: r => r
    | r => r
  match text with
  | c :: r => if c = quote && r.getLast? = some quote then r.dropLast else text
  | [] => []

/-- The text that a string literal stands for. -/
def string (literal : String) : String := String.ofList (unescape (body '"' literal.toList))

/-- The value of a character literal: its characters in base 256, the last in the low byte. -/
def charCode (literal : String) : Int64 :=
  (unescape (body '\x27' literal.toList)).foldl
    (fun acc c => (acc <<< 8) ||| Int64.ofNat c.toNat) 0

end CInterface.Literal
