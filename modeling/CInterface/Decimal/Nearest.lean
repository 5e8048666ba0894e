import CInterface.Decimal.Shortest
/-!
# The double nearest to a decimal

Reading a decimal means finding the double nearest to it, and of two equally near ones the one
with an even significand.

* `roundHalfEven` — a quotient rounded to the nearest natural number.
* `nearestBits` — the bits of the double nearest to a positive fraction.
* `Decimal.toFloat` — the double nearest to a decimal.
-/

namespace CInterface.Decimal

/-- The natural number nearest to `num / den`; a half goes to the even neighbour. -/
def roundHalfEven (num den : Nat) : Nat :=
  let q := num / den
  match compare (2 * (num % den)) den with
  | .lt => q
  | .gt => q + 1
  | .eq => if q % 2 = 0 then q else q + 1

/-- The exponent of the leading binary digit of the positive fraction `num / den`. -/
def leadingBit (num den : Nat) : Int :=
  let e : Int := (num.log2 : Int) - den.log2
  if den * Nat.pow 2 e.toNat ≤ num * Nat.pow 2 (-e).toNat then e else e - 1

/-- The bits of positive infinity. -/
def infinityBits : Nat := 2047 * Nat.pow 2 52

/-- The bits of the double nearest to the positive fraction `num / den`. The significand has
fifty-three binary digits, or fewer where the exponent would leave its range; rounding up to a
power of two carries into the exponent by itself. -/
def nearestBits (num den : Nat) : Nat :=
  let q := max (leadingBit num den - 52) (-1074)
  let m := roundHalfEven (num * Nat.pow 2 (-q).toNat) (den * Nat.pow 2 q.toNat)
  min infinityBits (m + (q + 1074).toNat * Nat.pow 2 52)

/-- The bits of the double nearest to `digits · 10 ^ exponent`. Decimals from `1e310` on are
infinite and those below `1e-330` are zero. -/
def toBits (d : Decimal) : Nat :=
  let e := (digitCount d.digits : Int) + d.exponent
  if d.digits = 0 || e < -330 then 0
  else if 310 < e then infinityBits
  else nearestBits (d.digits * Nat.pow 10 d.exponent.toNat) (Nat.pow 10 (-d.exponent).toNat)

/-- The double nearest to a decimal. -/
def toFloat (d : Decimal) : Float := Float.ofBits (UInt64.ofNat d.toBits)

end CInterface.Decimal
