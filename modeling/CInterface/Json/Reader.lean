import CInterface.Json
/-!
# Reading JSON text

* `Json.numberLength?`, `Json.stringLength?` — how far a literal reaches.
* `Json.value` — the document at the head of a text.
* `Json.parse?` — the document that a whole text is.
-/

namespace CInterface.Json

open Text

/-- White space between the parts of a document. -/
def isSpace (c : Char) : Bool := c = ' ' || c = '\n' || c = '\t' || c = '\r'

/-- A text without the white space at its head. -/
def skipSpace (cs : List Char) : List Char := cs.dropWhile isSpace

/-! ### Literals -/

/-- The number of digits at the head of a text. -/
def digitsLength (cs : List Char) : Nat := (cs.takeWhile Char.isDigit).length

/-- The length of the digits before the point: a zero alone, or digits that do not start with one. -/
def wholeLength? (cs : List Char) : Option Nat :=
  match cs, digitsLength cs with
  | _, 0 => none
  | '0' :: _, n + 1 => if n = 0 then some 1 else none
  | _, n => some n

/-- The length of a fraction with its point, zero if there is none. -/
def fractionLength? (cs : List Char) : Option Nat :=
  match cs with
  | '.' :: r =>
    match digitsLength r with
    | 0 => none
    | n => some (n + 1)
  | _ => some 0

/-- The length of an exponent with its mark and sign, zero if there is none. -/
def exponentLength? (cs : List Char) : Option Nat :=
  match cs with
  | e :: r =>
    if e = 'e' || e = 'E' then
      let sign := match r with
        | '+' :: _ | '-' :: _ => 1
        | _ => 0
      match digitsLength (r.drop sign) with
      | 0 => none
      | n => some (1 + sign + n)
    else some 0
  | [] => some 0

/-- The length of the number at the head of a text. -/
def numberLength? (cs : List Char) : Option Nat := do
  let sign := match cs with
    | '-' :: _ => 1
    | _ => 0
  let whole := sign + (← wholeLength? (cs.drop sign))
  let plain := whole + (← fractionLength? (cs.drop whole))
  return plain + (← exponentLength? (cs.drop plain))

/-- The number of characters up to the quote that closes a string literal. Characters below a space
have to be escaped, and what is no escape is refused. -/
def stringLength? : List Char → Option Nat
  | [] => none
  | '"' :: _ => some 0
  | '\\' :: 'u' :: a :: b :: c :: d :: rest => do
    let _ ← hex4? a b c d
    return 6 + (← stringLength? rest)
  | '\\' :: c :: rest => do
    let _ ← escaped? c
    return 2 + (← stringLength? rest)
  | c :: rest => if c.toNat < 0x20 || c = '\\' then none else (stringLength? rest).map (1 + ·)

/-- The inside of the string literal whose opening quote a text follows, and the text behind it. -/
def stringLiteral? (cs : List Char) : Option (List Char × List Char) :=
  (stringLength? cs).map fun n => (cs.take n, cs.drop (n + 1))

/-! ### Documents -/

mutual

/-- The document at the head of a text, with the text behind it. -/
def value : Nat → List Char → Option (Json × List Char)
  | 0, _ => none
  | fuel + 1, cs =>
    match skipSpace cs with
    | 'n' :: 'u' :: 'l' :: 'l' :: r => some (null, r)
    | 't' :: 'r' :: 'u' :: 'e' :: r => some (bool true, r)
    | 'f' :: 'a' :: 'l' :: 's' :: 'e' :: r => some (bool false, r)
    | '"' :: r => (stringLiteral? r).map fun p => (string p.1, p.2)
    | '[' :: r =>
      match skipSpace r with
      | ']' :: r => some (array [], r)
      | r => (items fuel r).map fun p => (array p.1, p.2)
    | '{' :: r =>
      match skipSpace r with
      | '}' :: r => some (object [], r)
      | r => (members fuel r).map fun p => (object p.1, p.2)
    | r => (numberLength? r).map fun n => (number (r.take n), r.drop n)

/-- The items of an array up to its closing bracket, with the text behind it. -/
def items : Nat → List Char → Option (List Json × List Char)
  | 0, _ => none
  | fuel + 1, cs => do
    let (item, rest) ← value fuel cs
    match skipSpace rest with
    | ',' :: r =>
      let (more, rest) ← items fuel r
      return (item :: more, rest)
    | ']' :: r => return ([item], r)
    | _ => none

/-- The members of an object up to its closing brace, with the text behind it. -/
def members : Nat → List Char → Option (List (List Char × Json) × List Char)
  | 0, _ => none
  | fuel + 1, cs => do
    let r ← afterHead? ['"'] (skipSpace cs)
    let (key, rest) ← stringLiteral? r
    let (item, rest) ← value fuel (← afterHead? [':'] (skipSpace rest))
    match skipSpace rest with
    | ',' :: r =>
      let (more, rest) ← members fuel r
      return ((key, item) :: more, rest)
    | '}' :: r => return ([(key, item)], r)
    | _ => none

end

/-- The document that a text is, with nothing but white space around it. A document starts at most
every other step of its reading, which the fuel allows for. -/
def parse? (text : String) : Option Json := do
  let cs := text.toList
  let (j, rest) ← value (2 * (cs.length + 1)) cs
  if (skipSpace rest).isEmpty then return j else none

end CInterface.Json
