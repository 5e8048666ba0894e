import CInterface.Decimal.Shortest
/-!
# Writing floating-point numbers

A layout fixes how the shortest decimal of a number is written: for which exponents of the leading
digit without an exponent, and whether a positive exponent has its sign.

* `Layout.literal` — how constants are shown.
* `Layout.json` — how JSON text shows numbers.
* `Layout.render` — the text of a finite number.
-/

namespace CInterface.Decimal

/-- The decisions of a number format. A number without an exponent always has a point with a digit
on either side of it. -/
structure Layout where
  /-- The least exponent of the leading digit that is written without an exponent. -/
  plainFrom : Int
  /-- The least exponent of the leading digit, from zero on, that is written with an exponent. -/
  plainBelow : Int
  /-- A positive exponent has a plus sign. -/
  plusSign : Bool
  /-- The choice between two equally near shortest decimals. -/
  tie : Tie
  deriving DecidableEq, Repr

namespace Layout

/-- Constants are written without an exponent from `0.0001` to below `1e16`. -/
def literal : Layout := ⟨-4, 16, false, .up⟩

/-- JSON numbers are written without an exponent from `0.00001` to below `1e16`. -/
def json : Layout := ⟨-5, 16, true, .even⟩

/-- The digits of a decimal with the exponent of its leading digit. -/
def place (layout : Layout) (digits : List Char) (e : Int) : String :=
  let zeros (n : Nat) : List Char := List.replicate n '0'
  let text :=
    if layout.plainFrom ≤ e && e < 0 then
      '0' :: '.' :: zeros (-e - 1).toNat ++ digits
    else if 0 ≤ e && e < layout.plainBelow then
      let n := e.toNat + 1
      let fraction := digits.drop n
      digits.take n ++ zeros (n - digits.length) ++
        '.' :: (if fraction.isEmpty then ['0'] else fraction)
    else
      let fraction := digits.drop 1
      digits.take 1 ++ (if fraction.isEmpty then [] else '.' :: fraction) ++
        'e' :: (if layout.plusSign && 0 < e then ['+'] else []) ++ (toString e).toList
  String.ofList text

/-- The text of a finite number. -/
def render (layout : Layout) (x : Float) : String :=
  let bits := x.toBits
  let sign := if bits.toNat < Nat.pow 2 63 then "" else "-"
  if bits.toNat % Nat.pow 2 63 = 0 then sign ++ "0.0"
  else
    let d := shortest layout.tie (Interval.ofBits bits)
    let digits := Nat.toDigits 10 d.digits
    sign ++ layout.place digits (d.exponent + digits.length - 1)

end Layout

end CInterface.Decimal
