/-!
# Shortest decimals

A floating-point number stands for all reals that round to it. Its shortest decimal is, among the
decimals in that interval with the fewest digits, the one nearest to the number.

* `Decimal` — a positive decimal `digits · 10 ^ exponent`.
* `Interval.ofBits` — the reals that round to a finite non-zero double.
* `Interval.contains` — whether a decimal is among them, decided in exact arithmetic.
* `shortest` — the shortest decimal; of two equally near ones `Tie` chooses.

The search goes over the decimal grids with one to seventeen significant digits. On each grid only
the two neighbours of the number can be nearest, and the first grid with a neighbour inside the
interval wins.
-/

namespace CInterface

/-- The positive decimal `digits · 10 ^ exponent`. -/
structure Decimal where
  digits : Nat
  exponent : Int
  deriving DecidableEq, Repr

namespace Decimal

/-- Which of two equally near decimals is taken. -/
inductive Tie where
  /-- The one further from zero. -/
  | up
  /-- The one whose last digit is even. -/
  | even
  deriving DecidableEq, Repr

/-- The reals that round to a number, as numerators over the denominator `den`. -/
structure Interval where
  low : Nat
  value : Nat
  high : Nat
  den : Nat
  /-- The ends belong to the interval. -/
  closed : Bool
  deriving DecidableEq, Repr

/-- The reals that round to the finite non-zero double with the given bits, its sign left aside.
Below a power of two the neighbours are half as far away as above it. -/
def Interval.ofBits (bits : UInt64) : Interval :=
  let n := bits.toNat % Nat.pow 2 63
  let biased : Nat := n / Nat.pow 2 52
  let fraction : Nat := n % Nat.pow 2 52
  let m := if biased = 0 then fraction else fraction + Nat.pow 2 52
  let q : Int := if biased = 0 then -1074 else (biased : Int) - 1075
  let below := if fraction = 0 && biased > 1 then 1 else 2
  let scale := Nat.pow 2 (q - 2).toNat
  { low := (4 * m - below) * scale
    value := 4 * m * scale
    high := (4 * m + 2) * scale
    den := Nat.pow 2 (2 - q).toNat
    closed := m % 2 = 0 }

/-- The decimal lies in the interval. -/
def Interval.contains (i : Interval) (d : Decimal) : Bool :=
  let num := d.digits * Nat.pow 10 d.exponent.toNat * i.den
  let scale := Nat.pow 10 (-d.exponent).toNat
  if i.closed then i.low * scale ≤ num && num ≤ i.high * scale
  else i.low * scale < num && num < i.high * scale

/-- The number of decimal digits of `n`, one for zero. -/
def digitCount (n : Nat) : Nat := (Nat.toDigits 10 n).length

/-- How often a fraction below one is multiplied by ten before it reaches one, counted from
`count` and at most `fuel` times. -/
def leadingZeros (num den count : Nat) : Nat → Nat
  | 0 => count
  | fuel + 1 => if den ≤ num then count else leadingZeros (num * 10) den (count + 1) fuel

/-- The exponent of the leading digit of `num / den`. No double needs more than 324 steps. -/
def leadingExponent (num den : Nat) : Int :=
  if den ≤ num then (digitCount (num / den) : Int) - 1
  else -(leadingZeros num den 0 400 : Int)

/-- The better of the two neighbours of the number on the grid of multiples of `10 ^ k`, if one of
them lies in the interval. -/
def onGrid? (tie : Tie) (i : Interval) (k : Int) : Option Decimal :=
  let num := i.value * Nat.pow 10 (-k).toNat
  let den := i.den * Nat.pow 10 k.toNat
  let floor := num / den
  let lower : Decimal := ⟨floor, k⟩
  let upper : Decimal := ⟨floor + 1, k⟩
  match i.contains lower, i.contains upper with
  | false, false => none
  | true, false => some lower
  | false, true => some upper
  | true, true =>
    match compare (2 * (num % den)) den, tie with
    | .lt, _ => some lower
    | .gt, _ => some upper
    | .eq, .up => some upper
    | .eq, .even => if floor % 2 = 0 then some lower else some upper

/-- Without zeros at the end of the digits, of which there are at most `fuel`. -/
def dropZeros (d : Decimal) : Nat → Decimal
  | 0 => d
  | fuel + 1 =>
    if d.digits ≠ 0 && d.digits % 10 = 0 then dropZeros ⟨d.digits / 10, d.exponent + 1⟩ fuel else d

/-- The shortest decimal in an interval. Seventeen digits suffice for a double. -/
def shortest (tie : Tie) (i : Interval) : Decimal :=
  let e := leadingExponent i.value i.den
  let found := (List.range 17).findSome? fun (n : Nat) => onGrid? tie i (e - n)
  let last := i.value * Nat.pow 10 (16 - e).toNat / (i.den * Nat.pow 10 (e - 16).toNat)
  dropZeros (found.getD ⟨last, e - 16⟩) 20

end Decimal

end CInterface
