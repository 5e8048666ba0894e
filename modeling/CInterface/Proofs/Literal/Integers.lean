import CInterface.Proofs.Expr.Derivation
import CInterface.Proofs.Literal.Decimal
import CInterface.Proofs.Token.Remainders
import Mathlib.Data.Int.ModEq
import Mathlib.Data.List.Forall2
import Mathlib.Data.Nat.Digits.Defs
/-!
# Integer literals

An integer token is a run of digits with a mark of their base before them and a suffix behind them. Its
value is the number that the digits denote by position, as a signed word of 64 bits, if they are digits of
the base and the number fits into 64 bits. Otherwise it has none and is malformed.

* `IsDigit`, `IsNumeral` — what digits denote in a base.
* `IntegerSpelling` — how an integer is written: with which digits, in which base.
* `exists_spelling` — every integer token is written so.
* `Literal.integer?_of_spelling` — reading finds the base and the digits.
* `evalTokens_integer_iff` — the value of every integer token.
-/

namespace CInterface

open Text

/-! ### Numerals -/

/-- The character is a digit of a base, in either case. -/
def IsDigit (base : Nat) (c : Char) (d : Nat) : Prop :=
  d < base ∧ (c = Nat.digitChar d ∨ c = (Nat.digitChar d).toUpper)

/-- The characters are digits of a base and denote a number by position, the last digit counting
once. -/
def IsNumeral (base : Nat) (digits : List Char) (n : Nat) : Prop :=
  ∃ ds, List.Forall₂ (IsDigit base) digits ds ∧ n = Nat.ofDigits base ds.reverse

theorem digitValue?_eq_some_iff {base d : Nat} (hbase : base ≤ 16) (c : Char) :
    digitValue? base c = some d ↔ IsDigit base c d := by
  have hlower : ∀ d < 16, (Nat.digitChar d).toNat = if d < 10 then 48 + d else 87 + d := by decide
  have hupper : ∀ d < 16, (Nat.digitChar d).toUpper.toNat = if d < 10 then 48 + d else 55 + d := by
    decide
  rw [digitValue?, Option.filter_eq_some_iff, decide_eq_true_eq, and_comm, IsDigit]
  refine and_congr_right fun hd => ?_
  rw [← Char.toNat_inj, ← Char.toNat_inj, hlower d (by omega), hupper d (by omega)]
  simp only [hexValue?, Char.isDigit, Char.le_def, UInt32.le_iff_toNat_le, Bool.and_eq_true,
    decide_eq_true_eq, ge_iff_le]
  change (if 48 ≤ c.toNat ∧ c.toNat ≤ 57 then some (c.toNat - 48)
    else if 97 ≤ c.toNat ∧ c.toNat ≤ 102 then some (c.toNat - 97 + 10)
    else if 65 ≤ c.toNat ∧ c.toNat ≤ 70 then some (c.toNat - 65 + 10) else none) = some d ↔ _
  split_ifs <;> simp <;> omega

namespace Literal

theorem digitsFrom?_eq_some_iff {base : Nat} (hbase : base ≤ 16) (acc : Nat) (cs : List Char)
    (n : Nat) : digitsFrom? base acc cs = some n ↔
      ∃ ds, List.Forall₂ (IsDigit base) cs ds ∧ n = ds.foldl (fun acc d => acc * base + d) acc := by
  induction cs generalizing acc with
  | nil =>
    constructor
    · intro h
      exact ⟨[], .nil, (Option.some.inj h).symm⟩
    · rintro ⟨ds, hds, rfl⟩
      rw [List.forall₂_nil_left_iff.1 hds]
      rfl
  | cons c cs ih =>
    have hstep : digitsFrom? base acc (c :: cs) =
        (digitValue? base c).bind fun d => digitsFrom? base (acc * base + d) cs := rfl
    rw [hstep, Option.bind_eq_some_iff]
    constructor
    · rintro ⟨d, hd, hrest⟩
      obtain ⟨ds, hds, hn⟩ := (ih _).1 hrest
      exact ⟨d :: ds, .cons ((digitValue?_eq_some_iff hbase c).1 hd) hds, hn⟩
    · rintro ⟨ds, hds, hn⟩
      obtain ⟨d, ds, hd, htail, rfl⟩ := List.forall₂_cons_left_iff.1 hds
      exact ⟨d, (digitValue?_eq_some_iff hbase c).2 hd, (ih _).2 ⟨ds, htail, hn⟩⟩

/-- Reading digit by digit gives the number that they denote by position. -/
theorem digitsFrom?_eq_some_iff_isNumeral {base : Nat} (hbase : base ≤ 16) (cs : List Char) (n : Nat) :
    digitsFrom? base 0 cs = some n ↔ IsNumeral base cs n := by
  have hplaces : ∀ ds : List Nat, ds.foldl (fun acc d => acc * base + d) 0 =
      Nat.ofDigits base ds.reverse := by
    intro ds
    rw [Nat.ofDigits_eq_foldr, List.foldr_reverse]
    refine congrArg (fun f => ds.foldl f 0) ?_
    funext acc d
    rw [Nat.mul_comm, Nat.add_comm]
    rfl
  rw [digitsFrom?_eq_some_iff hbase, IsNumeral]
  exact exists_congr fun ds => by rw [hplaces]

/-- A word is read where its digits denote a number that fits. -/
theorem word?_eq_some_iff {base : Nat} (hbase : base ≤ 16) {cs : List Char} (hne : cs ≠ [])
    (hsign : cs.head? ≠ some '+') (w : UInt64) :
    word? base cs = some w ↔ ∃ n, IsNumeral base cs n ∧ n < 2 ^ 64 ∧ w = UInt64.ofNat n := by
  have hdigits : word? base cs = (digitsFrom? base 0 cs).bind fun n =>
      if n < UInt64.size then some (UInt64.ofNat n) else none := by
    unfold word?
    split
    · exact absurd rfl hsign
    · exact if_neg (by rw [List.isEmpty_eq_false_iff.2 hne]; exact Bool.false_ne_true)
  rw [hdigits, Option.bind_eq_some_iff]
  refine exists_congr fun n => ?_
  rw [digitsFrom?_eq_some_iff_isNumeral hbase, Option.ite_none_right_eq_some, Option.some_inj,
    eq_comm (a := w)]
  rfl

end Literal

/-- A word of 64 bits is the signed one that it is congruent to. -/
theorem toInt64_ofNat_eq_iff (n : Nat) (v : Int64) :
    (UInt64.ofNat n).toInt64 = v ↔ v.toInt ≡ n [ZMOD 2 ^ 64] := by
  rw [UInt64.toInt64_ofNat', ← Int64.toInt_inj, Int64.toInt_ofNat']
  constructor
  · intro h
    rw [← h]
    exact Int.bmod_emod
  · intro h
    calc (n : Int).bmod Int64.size = ((n : Int) % 2 ^ 64).bmod Int64.size := (Int.emod_bmod _ _).symm
      _ = (v.toInt % 2 ^ 64).bmod Int64.size := congrArg (Int.bmod · _) h.symm
      _ = v.toInt.bmod Int64.size := Int.emod_bmod _ _
      _ = v.toInt := v.toInt_bmod

/-! ### How integers are written -/

/-- A text is an integer that is written with these digits in this base: `0x` or `0X` marks base sixteen
and a zero before further digits base eight. Behind the digits a suffix may stand. -/
inductive IntegerSpelling : List Char → Nat → List Char → Prop where
  | hexadecimal {x : Char} {digits suffix : List Char} (hx : x = 'x' ∨ x = 'X') (hne : digits ≠ [])
      (hdigits : digits.all isHexDigit = true) (hsuffix : suffix.all isIntegerSuffix = true) :
      IntegerSpelling ('0' :: x :: (digits ++ suffix)) 16 digits
  | octal {digits suffix : List Char} (hne : digits ≠ []) (hdigits : digits.all Char.isDigit = true)
      (hsuffix : suffix.all isIntegerSuffix = true) :
      IntegerSpelling ('0' :: (digits ++ suffix)) 8 digits
  | decimal {digits suffix : List Char} (hne : digits ≠ [])
      (hdigits : digits.all Char.isDigit = true)
      (hzero : digits.head? = some '0' → digits = ['0'])
      (hsuffix : suffix.all isIntegerSuffix = true) : IntegerSpelling (digits ++ suffix) 10 digits

/-- Digits at the head of a text, and the suffix behind them. -/
theorem take_digits_suffix (p : Char → Bool) (cs : List Char) : ∃ digits suffix,
    cs.take (spanLength p cs + integerSuffixLength (cs.drop (spanLength p cs))) = digits ++ suffix ∧
      digits.length = spanLength p cs ∧ digits.all p = true ∧ suffix.all isIntegerSuffix = true := by
  refine ⟨_, _, List.take_add, ?_, all_take_spanLength p cs, all_take_spanLength isIntegerSuffix _⟩
  rw [List.length_take]
  exact Nat.min_eq_left (List.takeWhile_prefix p).length_le

/-- A decimal run is octal if a zero stands before further digits. -/
theorem exists_spelling_plain {cs : List Char} (h : spanLength Char.isDigit cs ≠ 0) :
    ∃ base digits, IntegerSpelling (cs.take (plainIntegerLength cs)) base digits := by
  obtain ⟨digits, suffix, htake, hlength, hdigits, hsuffix⟩ := take_digits_suffix Char.isDigit cs
  rw [plainIntegerLength, if_neg h, htake]
  rw [← hlength] at h
  cases digits with
  | nil => exact absurd rfl h
  | cons c rest =>
    by_cases hoctal : c = '0' ∧ rest ≠ []
    · obtain ⟨rfl, hne⟩ := hoctal
      exact ⟨8, rest, .octal hne (Bool.and_eq_true_iff.1 hdigits).2 hsuffix⟩
    · refine ⟨10, c :: rest, .decimal (List.cons_ne_nil c rest) hdigits (fun hzero => ?_) hsuffix⟩
      obtain rfl : c = '0' := Option.some.inj hzero
      rw [Classical.not_not.1 fun hne => hoctal ⟨rfl, hne⟩]

theorem exists_spelling_take {cs : List Char} (h : integerLength cs ≠ 0) :
    ∃ base digits, IntegerSpelling (cs.take (integerLength cs)) base digits := by
  have hplain : plainIntegerLength cs ≠ 0 →
      ∃ base digits, IntegerSpelling (cs.take (plainIntegerLength cs)) base digits :=
    fun hlength => exists_spelling_plain fun hnone => hlength (if_pos hnone)
  by_cases hzero : ∃ x r, cs = '0' :: x :: r
  · obtain ⟨x, r, rfl⟩ := hzero
    rw [integerLength_hex] at h ⊢
    split at h
    · rename_i hx
      rw [if_pos hx]
      simp only [Bool.and_eq_true, Bool.or_eq_true, decide_eq_true_eq] at hx
      obtain ⟨digits, suffix, htake, hlength, hdigits, hsuffix⟩ := take_digits_suffix isHexDigit r
      rw [hexIntegerLength, Nat.add_assoc, Nat.add_comm 2, List.take_succ_cons, List.take_succ_cons,
        htake]
      refine ⟨16, digits, .hexadecimal hx.1 (fun hnil => hx.2 ?_) hdigits hsuffix⟩
      rw [← hlength, hnil, List.length_nil]
    · rename_i hx
      rw [if_neg hx]
      exact hplain h
  · rw [integerLength_plain fun x r heq => hzero ⟨x, r, heq⟩] at h ⊢
    exact hplain h

/-- Every integer token is written in some base. -/
theorem exists_spelling {source text : String}
    (h : .integer text ∈ (tokenize source).map (·.kind)) :
    ∃ base digits, IntegerSpelling text.toList base digits := by
  obtain ⟨-, c, w, r, htext, -, hlongest⟩ := isLexeme_of_mem_kindsOf h fun _ => nofun
  have hlength := (longest_integer_iff.1 hlongest).1
  have htake := @exists_spelling_take (c :: (w ++ r)) (by rw [hlength]; exact Nat.succ_ne_zero _)
  rwa [hlength, List.take_succ_cons, List.take_left, ← show text.toList = c :: w from htext] at htake

/-! ### Reading -/

namespace Literal

variable {digits suffix : List Char}

theorem integer?_hexadecimal {x : Char} (hx : x = 'x' ∨ x = 'X')
    (hdigits : digits.all isHexDigit = true) (hsuffix : suffix.all isIntegerSuffix = true) :
    integer? ('0' :: x :: (digits ++ suffix)) = (word? 16 digits).map UInt64.toInt64 := by
  have hfront : ∀ c ∈ '0' :: x :: digits, isIntegerSuffix c = false := by
    intro c hc
    rcases List.mem_cons.1 hc with rfl | hc
    · decide
    rcases List.mem_cons.1 hc with rfl | hc
    · rcases hx with rfl | rfl <;> decide
    · exact isIntegerSuffix_eq_false (List.all_eq_true.1 hdigits c hc)
  have hcut : dropEndWhile (fun c => c = 'u' || c = 'U' || c = 'l' || c = 'L')
      ('0' :: x :: (digits ++ suffix)) = '0' :: x :: digits := dropEndWhile_append hfront hsuffix
  unfold integer?
  simp only [hcut]
  rcases hx with rfl | rfl <;> rfl

theorem integer?_octal (hne : digits ≠ []) (hdigits : digits.all Char.isDigit = true)
    (hsuffix : suffix.all isIntegerSuffix = true) :
    integer? ('0' :: (digits ++ suffix)) = (word? 8 digits).map UInt64.toInt64 := by
  have hfront : ∀ c ∈ '0' :: digits, isIntegerSuffix c = false := List.forall_mem_cons.2
    ⟨by decide, fun c hc => isIntegerSuffix_eq_false_of_isDigit (List.all_eq_true.1 hdigits c hc)⟩
  have hcut : dropEndWhile (fun c => c = 'u' || c = 'U' || c = 'l' || c = 'L')
      ('0' :: (digits ++ suffix)) = '0' :: digits := dropEndWhile_append hfront hsuffix
  obtain ⟨d, r, rfl⟩ := List.exists_cons_of_ne_nil hne
  -- a digit is behind the zero, so this is not base sixteen
  have hd : d.isDigit = true := (Bool.and_eq_true_iff.1 hdigits).1
  have hx : d ≠ 'x' ∧ d ≠ 'X' := ⟨ne_of_class hd (by decide), ne_of_class hd (by decide)⟩
  unfold integer?
  simp only [hcut]
  split
  · rename_i heq
    exact absurd (List.cons.inj (List.cons.inj heq).2).1 hx.1
  · rename_i heq
    exact absurd (List.cons.inj (List.cons.inj heq).2).1 hx.2
  · rename_i heq
    rw [(List.cons.inj heq).2]
  · rename_i hother
    exact absurd rfl (hother d r)

/-- **Reading finds the base and the digits of an integer.** -/
theorem integer?_of_spelling {cs : List Char} {base : Nat} (h : IntegerSpelling cs base digits) :
    integer? cs = (word? base digits).map UInt64.toInt64 := by
  cases h with
  | hexadecimal hx hne hdigits hsuffix => exact integer?_hexadecimal hx hdigits hsuffix
  | octal hne hdigits hsuffix => exact integer?_octal hne hdigits hsuffix
  | decimal hne hdigits hzero hsuffix => exact integer?_decimal hdigits hzero hsuffix

end Literal

theorem IntegerSpelling.base_le {cs : List Char} {base : Nat} {digits : List Char}
    (h : IntegerSpelling cs base digits) : base ≤ 16 := by
  cases h <;> decide

/-- There are digits, and no sign stands before them. -/
theorem IntegerSpelling.digits_ne {cs : List Char} {base : Nat} {digits : List Char}
    (h : IntegerSpelling cs base digits) : digits ≠ [] ∧ digits.head? ≠ some '+' := by
  have hclass : ∀ {p : Char → Bool}, p '+' = false → digits.all p = true →
      digits.head? ≠ some '+' := by
    intro p hp hall hhead
    have hplus := List.all_eq_true.1 hall '+' (List.mem_of_head? hhead)
    rw [hp] at hplus
    cases hplus
  cases h with
  | hexadecimal hx hne hdigits hsuffix => exact ⟨hne, hclass (by decide) hdigits⟩
  | octal hne hdigits hsuffix => exact ⟨hne, hclass (by decide) hdigits⟩
  | decimal hne hdigits hzero hsuffix => exact ⟨hne, hclass (by decide) hdigits⟩

/-- The value of an integer is the number that its digits denote, as a signed word. -/
theorem Literal.integer?_eq_some_iff {cs : List Char} {base : Nat} {digits : List Char}
    (h : IntegerSpelling cs base digits) (v : Int64) : integer? cs = some v ↔
      ∃ n, IsNumeral base digits n ∧ n < 2 ^ 64 ∧ v.toInt ≡ n [ZMOD 2 ^ 64] := by
  obtain ⟨hne, hsign⟩ := h.digits_ne
  rw [integer?_of_spelling h, Option.map_eq_some_iff]
  constructor
  · rintro ⟨w, hw, rfl⟩
    obtain ⟨n, hn, hlt, rfl⟩ := (word?_eq_some_iff h.base_le hne hsign w).1 hw
    exact ⟨n, hn, hlt, (toInt64_ofNat_eq_iff n _).1 rfl⟩
  · rintro ⟨n, hn, hlt, hv⟩
    exact ⟨UInt64.ofNat n, (word?_eq_some_iff h.base_le hne hsign _).2 ⟨n, hn, hlt, rfl⟩,
      (toInt64_ofNat_eq_iff n v).2 hv⟩

/-- An integer has no value where its digits are none of its base or the number does not fit. -/
theorem Literal.integer?_eq_none_iff {cs : List Char} {base : Nat} {digits : List Char}
    (h : IntegerSpelling cs base digits) : integer? cs = none ↔
      ∀ n, IsNumeral base digits n → 2 ^ 64 ≤ n := by
  rw [Option.eq_none_iff_forall_ne_some]
  constructor
  · intro hnone n hn
    by_contra hlt
    exact hnone (UInt64.ofNat n).toInt64 ((integer?_eq_some_iff h _).2
      ⟨n, hn, Nat.lt_of_not_le hlt, (toInt64_ofNat_eq_iff n _).1 rfl⟩)
  · intro hlarge v hv
    obtain ⟨n, hn, hlt, -⟩ := (integer?_eq_some_iff h v).1 hv
    exact absurd (hlarge n hn) (Nat.not_le_of_lt hlt)

/-! ### Tokens -/

/-- An error in the first operand is the error of each level above. -/
theorem Expr.Scope.operand_error (g : Scope) {fuel : Nat} {ts : List TokenKind} {e : EvalError}
    (h : g.unary fuel ts = .error e) {above level : Nat} (hlevel : level + above = BinaryOp.levels) :
    g.operand (fuel + above + 1) level ts = .error e := by
  induction above generalizing level with
  | zero => rw [Nat.add_zero, Scope.operand, if_pos (show level = BinaryOp.levels from hlevel), h]
  | succ above ih =>
    rw [← Nat.add_assoc, g.operand_of_ne _ _ (by omega), ih (by omega)]
    rfl

/-- An expression that is a single integer is its value, or malformed if it has none. -/
theorem evalTokens_integer_eq (env : Env) (text : String) : evalTokens env [.integer text] =
    match Literal.integer? text.toList with
    | some v => .ok (.int v)
    | none => .error (.malformedLiteral text) := by
  cases h : Literal.integer? text.toList with
  | some v => exact evalTokens_integer env h
  | none =>
    have hconditional : ∀ g : Expr.Scope, g.conditional 32 [.integer text] =
        .error (.malformedLiteral text) := by
      intro g
      have hunary : g.unary 20 [.integer text] = .error (.malformedLiteral text) := by
        rw [g.unary_atom 19 [] (by simp) rfl, Expr.Scope.atom, h]
      have hoperand : g.operand 31 0 [.integer text] = .error (.malformedLiteral text) :=
        g.operand_error hunary (Nat.zero_add BinaryOp.levels)
      rw [Expr.Scope.conditional, hoperand]
      rfl
    rw [evalTokens, Expr.ofTokens?, Expr.fuelFor]
    simp only [List.isEmpty_cons, List.length_singleton, Nat.reduceMul, Nat.reduceAdd, hconditional]
    rfl

/-- **Integer literals have their C value.** Each integer token of a text is written with digits in base
sixteen, eight or ten. It has a value just where they are digits of the base and denote a number below
`2 ^ 64`, and the value is the signed word of 64 bits that is congruent to the number. Otherwise it is a
malformed literal. -/
theorem evalTokens_integer_iff {source text : String}
    (h : .integer text ∈ (tokenize source).map (·.kind)) :
    (∃ base digits, IntegerSpelling text.toList base digits) ∧
      ∀ base digits, IntegerSpelling text.toList base digits →
        (∀ v, Literal.integer? text.toList = some v ↔
          ∃ n, IsNumeral base digits n ∧ n < 2 ^ 64 ∧ v.toInt ≡ n [ZMOD 2 ^ 64]) ∧
        ∀ env,
          (∀ v, evalTokens env [.integer text] = .ok v ↔
            ∃ i : Int64, v = .int i ∧
              ∃ n, IsNumeral base digits n ∧ n < 2 ^ 64 ∧ i.toInt ≡ n [ZMOD 2 ^ 64]) ∧
          (evalTokens env [.integer text] = .error (.malformedLiteral text) ↔
            ∀ n, IsNumeral base digits n → 2 ^ 64 ≤ n) := by
  refine ⟨exists_spelling h, fun base digits hspelling => ?_⟩
  refine ⟨Literal.integer?_eq_some_iff hspelling, fun env => ?_⟩
  simp only [← Literal.integer?_eq_some_iff hspelling, ← Literal.integer?_eq_none_iff hspelling,
    evalTokens_integer_eq]
  cases Literal.integer? text.toList with
  | some i => simp [eq_comm]
  | none => simp

/-- The largest word is minus one in base sixteen with a suffix, the number behind it has no value, and
eight is no digit of base eight. -/
theorem evalTokens_integer_iff_largestWord :
    (tokenize "0xFFFFffffFFFFffffUL 18446744073709551616 08").map (·.kind) =
      [.integer "0xFFFFffffFFFFffffUL", .integer "18446744073709551616", .integer "08"] ∧
    ∀ env, evalTokens env [.integer "0xFFFFffffFFFFffffUL"] = .ok (.int (-1)) ∧
      evalTokens env [.integer "18446744073709551616"] =
        .error (.malformedLiteral "18446744073709551616") ∧
      evalTokens env [.integer "08"] = .error (.malformedLiteral "08") := by
  have htokens : (tokenize "0xFFFFffffFFFFffffUL 18446744073709551616 08").map (·.kind) =
      [.integer "0xFFFFffffFFFFffffUL", .integer "18446744073709551616", .integer "08"] := by
    decide +kernel
  have hnumeral : ∀ {base n : Nat} {cs : List Char}, base ≤ 16 →
      (IsNumeral base cs n ↔ Literal.digitsFrom? base 0 cs = some n) :=
    fun hbase => (Literal.digitsFrom?_eq_some_iff_isNumeral hbase _ _).symm
  refine ⟨htokens, fun env => ⟨?_, ?_, ?_⟩⟩
  · obtain ⟨-, hread⟩ := @evalTokens_integer_iff _ "0xFFFFffffFFFFffffUL"
      (by rw [htokens]; exact .head _)
    obtain ⟨-, hvalue⟩ := hread 16 "FFFFffffFFFFffff".toList
      (@IntegerSpelling.hexadecimal 'x' "FFFFffffFFFFffff".toList ['U', 'L'] (.inl rfl) (by decide)
        (by decide) (by decide))
    exact ((hvalue env).1 _).2 ⟨-1, rfl, 2 ^ 64 - 1, (hnumeral (by decide)).2 (by decide), by decide,
      by decide⟩
  · obtain ⟨-, hread⟩ := @evalTokens_integer_iff _ "18446744073709551616"
      (by rw [htokens]; exact .tail _ (.head _))
    obtain ⟨-, hvalue⟩ := hread 10 "18446744073709551616".toList
      (@IntegerSpelling.decimal "18446744073709551616".toList [] (by decide) (by decide) (by decide)
        (by decide))
    refine (hvalue env).2.2 fun n hn => ?_
    have hlarge : Literal.digitsFrom? 10 0 "18446744073709551616".toList = some (2 ^ 64) := by decide
    exact (Option.some.inj (hlarge.symm.trans ((hnumeral (by decide)).1 hn))).le
  · obtain ⟨-, hread⟩ := @evalTokens_integer_iff _ "08"
      (by rw [htokens]; exact .tail _ (.tail _ (.head _)))
    obtain ⟨-, hvalue⟩ := hread 8 ['8'] (@IntegerSpelling.octal ['8'] [] (by decide) (by decide)
      (by decide))
    refine (hvalue env).2.2 fun n hn => ?_
    have hnone : Literal.digitsFrom? 8 0 ['8'] = none := by decide
    cases hnone.symm.trans ((hnumeral (by decide)).1 hn)

end CInterface
