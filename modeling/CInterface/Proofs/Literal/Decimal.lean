import CInterface.Expr.Parser
import CInterface.Proofs.Token.Spelling
import Mathlib.Algebra.Group.Nat.Defs
/-!
# Decimal literals

The value of a number that is written in decimal.

* `dropEndWhile_append` — what is dropped from the end of a text, as suffixes are.
* `Literal.integer?_toString` — a number below `2 ^ 64` is read as itself, as a word of 64 bits.
* `evalTokens_integer` — an expression that is an integer and nothing else has its value.
-/

namespace CInterface

open Text

/-! ### Suffixes -/

/-- A letter of an integer suffix. -/
def isIntegerSuffix (c : Char) : Bool := c = 'u' || c = 'U' || c = 'l' || c = 'L'

/-- No digit is a letter of a suffix. -/
theorem isIntegerSuffix_eq_false {c : Char} (h : isHexDigit c = true) : isIntegerSuffix c = false := by
  refine Bool.eq_false_iff.2 fun hc => ?_
  simp only [isIntegerSuffix, Bool.or_eq_true, decide_eq_true_eq] at hc
  rcases hc with ((rfl | rfl) | rfl) | rfl <;> exact absurd h (by decide)

theorem isHexDigit_of_isDigit {c : Char} (h : c.isDigit = true) : isHexDigit c = true := by
  rw [isHexDigit, hexValue?, if_pos h]
  rfl

theorem isIntegerSuffix_eq_false_of_isDigit {c : Char} (h : c.isDigit = true) :
    isIntegerSuffix c = false :=
  isIntegerSuffix_eq_false (isHexDigit_of_isDigit h)

/-- What is dropped from the end of a text does not belong to the part before it. -/
theorem dropEndWhile_append {p : Char → Bool} {a b : List Char} (ha : ∀ c ∈ a, p c = false)
    (hb : b.all p = true) : dropEndWhile p (a ++ b) = a := by
  have hfront : a.reverse.dropWhile p = a.reverse := by
    cases hrev : a.reverse with
    | nil => rfl
    | cons c w =>
      have hc : c ∈ a := List.mem_reverse.1 (by rw [hrev]; exact List.mem_cons_self)
      rw [List.dropWhile_cons_of_neg (by rw [ha c hc]; exact Bool.false_ne_true)]
  rw [dropEndWhile, List.reverse_append, List.dropWhile_append_of_pos (by simpa using hb), hfront,
    List.reverse_reverse]

/-! ### Decimal numbers -/

namespace Literal

theorem digitValue?_of_isDigit {c : Char} (h : c.isDigit = true) :
    digitValue? 10 c = some (c.toNat - '0'.toNat) := by
  have hlt : c.toNat - 48 < 10 := by
    simp only [Char.isDigit, Bool.and_eq_true, decide_eq_true_eq, ge_iff_le,
      UInt32.le_iff_toNat_le] at h
    have hle : c.toNat ≤ 57 := h.2
    omega
  simp [digitValue?, hexValue?, h, Option.filter, hlt]

/-- Decimal digits denote what they denote to the library. -/
theorem digitsFrom?_of_isDigit {cs : List Char} (h : cs.all Char.isDigit = true) (acc : Nat) :
    digitsFrom? 10 acc cs = some (Nat.ofDigitChars 10 cs acc) := by
  induction cs generalizing acc with
  | nil => rfl
  | cons c cs ih =>
    obtain ⟨hc, hcs⟩ := Bool.and_eq_true_iff.1 h
    rw [digitsFrom?, digitValue?_of_isDigit hc]
    show digitsFrom? 10 _ cs = _
    rw [ih hcs, Nat.ofDigitChars_cons, Nat.mul_comm]

theorem word?_toDigits {n : Nat} (h : n < 2 ^ 64) :
    word? 10 (Nat.toDigits 10 n) = some (UInt64.ofNat n) := by
  have hdigits : (Nat.toDigits 10 n).all Char.isDigit = true :=
    List.all_eq_true.2 fun c hc => Nat.isDigit_of_mem_toDigits (by decide) (by decide) hc
  have hvalue : digitsFrom? 10 0 (Nat.toDigits 10 n) = some n := by
    rw [digitsFrom?_of_isDigit hdigits, Nat.ofDigitChars_ten_toDigits]
  unfold word?
  split
  · -- no sign stands before the digits
    rename_i r heq
    rw [heq] at hdigits
    exact absurd hdigits (by simp)
  · have hne : (Nat.toDigits 10 n).isEmpty = false := by
      rw [List.isEmpty_eq_false_iff]
      exact Nat.toDigits_ne_nil
    have hsize : n < UInt64.size := h
    simp [hne, hvalue, hsize]

/-- The value of decimal digits with a suffix behind them. A zero stands first only where it is alone. -/
theorem integer?_decimal {digits suffix : List Char} (hdigits : digits.all Char.isDigit = true)
    (hzero : digits.head? = some '0' → digits = ['0'])
    (hsuffix : suffix.all isIntegerSuffix = true) :
    integer? (digits ++ suffix) = (word? 10 digits).map UInt64.toInt64 := by
  have hcut : dropEndWhile (fun c => c = 'u' || c = 'U' || c = 'l' || c = 'L') (digits ++ suffix) =
      digits := by
    refine dropEndWhile_append (fun c hc => ?_) hsuffix
    exact isIntegerSuffix_eq_false_of_isDigit (List.all_eq_true.1 hdigits c hc)
  unfold integer?
  simp only [hcut]
  split
  · cases hzero rfl
  · cases hzero rfl
  · cases hzero rfl
  · rfl

/-- A decimal number has itself as its value. -/
theorem integer?_toString {n : Nat} (h : n < 2 ^ 64) :
    integer? (toString n).toList = some (UInt64.ofNat n).toInt64 := by
  have htoList : (toString n).toList = Nat.toDigits 10 n := Nat.toList_repr
  have hdigits : (Nat.toDigits 10 n).all Char.isDigit = true :=
    List.all_eq_true.2 fun c hc => Nat.isDigit_of_mem_toDigits (by decide) (by decide) hc
  have hzero : (Nat.toDigits 10 n).head? = some '0' → Nat.toDigits 10 n = ['0'] := by
    intro hhead
    obtain ⟨c, hc⟩ := List.length_eq_one_iff.1 (length_toDigits_of_head? n hhead)
    rw [hc] at hhead
    rw [hc, Option.some.inj hhead]
  have hvalue := integer?_decimal hdigits hzero (List.all_nil : [].all isIntegerSuffix = true)
  rw [htoList, ← List.append_nil (Nat.toDigits 10 n), hvalue, word?_toDigits h]
  rfl

end Literal

/-- An expression that is a single integer has its value, whatever names have values. -/
theorem evalTokens_integer (env : Env) {text : String} {n : Int64}
    (h : Literal.integer? text.toList = some n) :
    evalTokens env [.integer text] = .ok (.int n) := by
  simp [evalTokens, Expr.ofTokens?, Expr.fuelFor, Expr.Scope.conditional, Expr.Scope.operand,
    Expr.Scope.operators, Expr.Scope.unary, Expr.Scope.atom, Expr.binaryOp?, Expr.unaryOp?,
    BinaryOp.levels, h, bind, Except.bind, pure, Except.pure, Expr.eval]

/-- As an array bound a number below `2 ^ 63` is itself. -/
theorem asSize?_of_lt {n : UInt64} (h : n.toNat < 2 ^ 63) :
    (Value.int n.toInt64).asSize? = some n := by
  have hnonneg : (0 : Int64) ≤ n.toInt64 := by
    rw [Int64.le_iff_toInt_le, Int64.toInt_zero, Int64.toInt, UInt64.toBitVec_toInt64,
      BitVec.toInt_eq_toNat_of_lt]
    · exact Int.natCast_nonneg _
    · have hval : n.toBitVec.toNat = n.toNat := rfl
      omega
  rw [Value.asSize?, if_pos hnonneg, UInt64.toUInt64_toInt64]

end CInterface
