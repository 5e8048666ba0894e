import CInterface.Json.Number
import CInterface.Json.Reader
import CInterface.Proofs.Token.Spelling
/-!
# Literals in JSON text

What is written as a string or an integer is read as that string or integer, whatever follows it.

* `Json.stringLiteral?_quote`, `Json.unquote?_quote` — strings.
* `Json.numberLength?_toString`, `Json.number?_toString` — integers.
* `Json.Ends` — what may stand behind a document.
-/

namespace CInterface.Json

open Text

/-- Behind a document the text ends, or goes on with a comma or a closing bracket. -/
def Ends (r : List Char) : Prop := r.head?.all (fun c => c = ',' || c = ']' || c = '}') = true

theorem Ends.head_ne {r : List Char} (h : Ends r) {c : Char}
    (hc : (c = ',' || c = ']' || c = '}') = false) : r.head? ≠ some c := by
  intro hr
  rw [Ends, hr, Option.all_some, hc] at h
  cases h

/-! ### Strings -/

theorem hex4?_hex4 : ∀ n < 0x20, hex4? (hexDigit (n / 4096)) (hexDigit (n / 256))
    (hexDigit (n / 16)) (hexDigit n) = some n := by decide

/-- A character is written by an escape of one letter, by the digits of its code, or by itself. -/
theorem quoteChar_cases (c : Char) :
    (∃ e, e ≠ 'u' ∧ escaped? e = some c ∧ quoteChar c = ['\\', e]) ∨
    (∃ w x y z, c.toNat < 0x20 ∧ hex4? w x y z = some c.toNat ∧
      quoteChar c = ['\\', 'u', w, x, y, z]) ∨
    (0x20 ≤ c.toNat ∧ c ≠ '"' ∧ c ≠ '\\' ∧ quoteChar c = [c]) := by
  by_cases hq : c = '"'
  · subst hq
    exact Or.inl ⟨'"', by decide, rfl, rfl⟩
  by_cases hb : c = '\\'
  · subst hb
    exact Or.inl ⟨'\\', by decide, rfl, rfl⟩
  by_cases h8 : c = '\x08'
  · subst h8
    exact Or.inl ⟨'b', by decide, rfl, rfl⟩
  by_cases ht : c = '\t'
  · subst ht
    exact Or.inl ⟨'t', by decide, rfl, rfl⟩
  by_cases hn : c = '\n'
  · subst hn
    exact Or.inl ⟨'n', by decide, rfl, rfl⟩
  by_cases hf : c = '\x0c'
  · subst hf
    exact Or.inl ⟨'f', by decide, rfl, rfl⟩
  by_cases hr : c = '\r'
  · subst hr
    exact Or.inl ⟨'r', by decide, rfl, rfl⟩
  apply Or.inr
  have hquote : quoteChar c = if c.toNat < 0x20 then '\\' :: 'u' :: hex4 c.toNat else [c] := by
    simp only [quoteChar, hq, hb, h8, ht, hn, hf, hr, if_false]
  by_cases hlt : c.toNat < 0x20
  · rw [if_pos hlt] at hquote
    exact Or.inl ⟨_, _, _, _, hlt, hex4?_hex4 c.toNat hlt, hquote⟩
  · rw [if_neg hlt] at hquote
    exact Or.inr ⟨Nat.le_of_not_lt hlt, hq, hb, hquote⟩

theorem quote_cons (c : Char) (cs : List Char) : quote (c :: cs) = quoteChar c ++ quote cs := rfl

theorem stringLength?_escaped {e c : Char} (he : e ≠ 'u') (h : escaped? e = some c)
    (r : List Char) : stringLength? ('\\' :: e :: r) = (stringLength? r).map (2 + ·) := by
  rw [stringLength?, h]
  · cases stringLength? r <;> rfl
  · rintro a b c d rest rfl _
    exact he rfl

theorem stringLength?_hex {w x y z : Char} {n : Nat} (h : hex4? w x y z = some n)
    (r : List Char) :
    stringLength? ('\\' :: 'u' :: w :: x :: y :: z :: r) = (stringLength? r).map (6 + ·) := by
  rw [stringLength?, h]
  cases stringLength? r <;> rfl

theorem stringLength?_plain {c : Char} (hc : 0x20 ≤ c.toNat) (hq : c ≠ '"') (hb : c ≠ '\\')
    (r : List Char) : stringLength? (c :: r) = (stringLength? r).map (1 + ·) := by
  rw [stringLength?]
  · rw [if_neg]
    simp only [hb, decide_false, Bool.or_false, decide_eq_true_eq]
    omega
  · exact hq
  · intro _ _ _ _ _ hc'
    exact absurd hc' hb
  · intro _ _ hc'
    exact absurd hc' hb

/-- A string reaches up to the quote behind it. -/
theorem stringLength?_quote (cs r : List Char) :
    stringLength? (quote cs ++ '"' :: r) = some (quote cs).length := by
  induction cs with
  | nil => rfl
  | cons c cs ih =>
    rw [quote_cons, List.append_assoc]
    rcases quoteChar_cases c with ⟨e, he, hesc, hquote⟩ | ⟨w, x, y, z, hlt, hhex, hquote⟩ |
      ⟨hle, hq, hb, hquote⟩
    · rw [hquote, List.length_append]
      show stringLength? ('\\' :: e :: (quote cs ++ '"' :: r)) = some (2 + (quote cs).length)
      rw [stringLength?_escaped he hesc, ih]
      rfl
    · rw [hquote, List.length_append]
      show stringLength? ('\\' :: 'u' :: w :: x :: y :: z :: (quote cs ++ '"' :: r)) =
        some (6 + (quote cs).length)
      rw [stringLength?_hex hhex, ih]
      rfl
    · rw [hquote, List.length_append]
      show stringLength? (c :: (quote cs ++ '"' :: r)) = some (1 + (quote cs).length)
      rw [stringLength?_plain hle hq hb, ih]
      rfl

/-- A string literal is read up to its closing quote. -/
theorem stringLiteral?_quote (cs r : List Char) :
    stringLiteral? (quote cs ++ '"' :: r) = some (quote cs, r) := by
  rw [stringLiteral?, stringLength?_quote]
  show some ((quote cs ++ '"' :: r).take (quote cs).length,
    (quote cs ++ '"' :: r).drop ((quote cs).length + 1)) = _
  rw [List.take_left, ← List.drop_drop, List.drop_left]
  rfl

theorem unquote?_escaped {e c : Char} (he : e ≠ 'u') (h : escaped? e = some c) (r : List Char) :
    unquote? ('\\' :: e :: r) = (unquote? r).map (c :: ·) := by
  rw [unquote?, h]
  · cases unquote? r <;> rfl
  · rintro _ _ _ _ _ _ _ _ _ rfl _
    exact he rfl
  · rintro _ _ _ _ _ rfl _
    exact he rfl

/-- The code of a control character is no half of a surrogate pair, so what follows it does not
matter. -/
theorem unquote?_hex {w x y z : Char} {n : Nat} (h : hex4? w x y z = some n) (hn : n < 0x20)
    (r : List Char) :
    unquote? ('\\' :: 'u' :: w :: x :: y :: z :: r) = (unquote? r).map (Char.ofNat n :: ·) := by
  have hhigh : isHighSurrogate n = false := by
    simp only [isHighSurrogate, Bool.and_eq_false_iff, decide_eq_false_iff_not]
    omega
  have hlow : isLowSurrogate n = false := by
    simp only [isLowSurrogate, Bool.and_eq_false_iff, decide_eq_false_iff_not]
    omega
  rw [unquote?.eq_def]
  split
  · rename_i heq
    cases heq
  · -- another code follows
    rename_i heq
    cases heq
    simp only [h, hhigh, hlow, Option.bind_eq_bind, Option.bind_some, Bool.false_eq_true, if_false]
    cases unquote? _ <;> rfl
  · rename_i heq
    cases heq
    simp only [h, hhigh, hlow, Option.bind_eq_bind, Option.bind_some, Bool.or_self,
      Bool.false_eq_true, if_false]
    cases unquote? _ <;> rfl
  · rename_i hno heq
    cases heq
    exact absurd rfl (hno _ _ _ _ _ rfl)
  · rename_i hno heq
    cases heq
    exact absurd rfl (hno _ _ rfl)

theorem unquote?_plain {c : Char} (hb : c ≠ '\\') (r : List Char) :
    unquote? (c :: r) = (unquote? r).map (c :: ·) := by
  rw [unquote?]
  · cases unquote? r <;> rfl
  · intro _ _ _ _ _ _ _ _ _ hc
    exact absurd hc hb
  · intro _ _ _ _ _ hc
    exact absurd hc hb
  · intro _ _ hc
    exact absurd hc hb

/-- **A string is read as it was written.** -/
theorem unquote?_quote (cs : List Char) : unquote? (quote cs) = some cs := by
  induction cs with
  | nil => rfl
  | cons c cs ih =>
    rw [quote_cons]
    rcases quoteChar_cases c with ⟨e, he, hesc, hquote⟩ | ⟨w, x, y, z, hlt, hhex, hquote⟩ |
      ⟨hle, hq, hb, hquote⟩
    · rw [hquote]
      show unquote? ('\\' :: e :: quote cs) = some (c :: cs)
      rw [unquote?_escaped he hesc, ih]
      rfl
    · rw [hquote]
      show unquote? ('\\' :: 'u' :: w :: x :: y :: z :: quote cs) = some (c :: cs)
      rw [unquote?_hex hhex hlt, ih, Char.ofNat_toNat]
      rfl
    · rw [hquote]
      show unquote? (c :: quote cs) = some (c :: cs)
      rw [unquote?_plain hb, ih]
      rfl

/-! ### Integers -/

theorem digitsLength_append {ds r : List Char} (hds : ∀ c ∈ ds, c.isDigit = true)
    (hr : Ends r) : digitsLength (ds ++ r) = ds.length := by
  have hnone : r.takeWhile Char.isDigit = [] := by
    cases r with
    | nil => rfl
    | cons c r =>
      rw [List.takeWhile_cons, if_neg]
      intro hdigit
      have hc : (c = ',' || c = ']' || c = '}') = true := hr
      simp only [Bool.or_eq_true, decide_eq_true_eq] at hc
      rcases hc with (rfl | rfl) | rfl <;> exact absurd hdigit (by decide)
  rw [digitsLength, List.takeWhile_append_of_pos hds, hnone, List.append_nil]

theorem wholeLength?_toDigits (n : Nat) {r : List Char} (hr : Ends r) :
    wholeLength? (Nat.toDigits 10 n ++ r) = some (Nat.toDigits 10 n).length := by
  have hlength := digitsLength_append (digits_toDigits n) hr
  have hne : Nat.toDigits 10 n ≠ [] := Nat.toDigits_ne_nil
  have hzero := length_toDigits_of_head? n
  unfold wholeLength?
  split
  · rename_i h0
    rw [hlength] at h0
    exact absurd (List.eq_nil_of_length_eq_zero h0) hne
  · -- a zero in front is the only digit
    rename_i cs rest m happend hm
    rw [hlength] at hm
    have hhead : (Nat.toDigits 10 n).head? = some '0' := by
      cases hds : Nat.toDigits 10 n with
      | nil => exact absurd hds hne
      | cons d ds =>
        rw [hds] at happend
        injection happend with hd
        rw [hd]
        rfl
    have hone := hzero hhead
    rw [hm] at hone
    rw [if_pos (by omega), hm]
    exact congrArg some hone.symm
  · rw [hlength]

theorem fractionLength?_of_ends {r : List Char} (hr : Ends r) : fractionLength? r = some 0 := by
  unfold fractionLength?
  split
  · exact absurd rfl (hr.head_ne (c := '.') (by decide))
  · rfl

theorem exponentLength?_of_ends {r : List Char} (hr : Ends r) : exponentLength? r = some 0 := by
  cases r with
  | nil => rfl
  | cons c r =>
    have he : c ≠ 'e' := fun h => hr.head_ne (c := 'e') (by decide) (by rw [h]; rfl)
    have hE : c ≠ 'E' := fun h => hr.head_ne (c := 'E') (by decide) (by rw [h]; rfl)
    simp only [exponentLength?, he, hE, decide_false, Bool.or_self, Bool.false_eq_true, if_false]

/-- An integer reaches up to what ends it. -/
theorem numberLength?_toString (n : Int) {r : List Char} (hr : Ends r) :
    numberLength? ((toString n).toList ++ r) = some (toString n).toList.length := by
  have hwhole := wholeLength?_toDigits n.natAbs hr
  have hdrop : (Nat.toDigits 10 n.natAbs ++ r).drop (Nat.toDigits 10 n.natAbs).length = r :=
    List.drop_left
  rw [toList_toString]
  by_cases hneg : n < 0
  · rw [if_pos hneg]
    show (do
      let whole := 1 + (← wholeLength? (Nat.toDigits 10 n.natAbs ++ r))
      let plain := whole +
        (← fractionLength? (('-' :: (Nat.toDigits 10 n.natAbs ++ r)).drop whole))
      return plain + (← exponentLength? (('-' :: (Nat.toDigits 10 n.natAbs ++ r)).drop plain))) = _
    simp only [hwhole, Option.bind_eq_bind, Option.bind_some, Nat.add_comm 1, List.drop_succ_cons,
      hdrop, fractionLength?_of_ends hr, exponentLength?_of_ends hr, Nat.add_zero]
    rfl
  · have hsign : ∀ r', Nat.toDigits 10 n.natAbs ++ r ≠ '-' :: r' := by
      intro r' heq
      cases hds : Nat.toDigits 10 n.natAbs with
      | nil => exact absurd hds Nat.toDigits_ne_nil
      | cons d ds =>
        have hmem : d ∈ Nat.toDigits 10 n.natAbs := by
          rw [hds]
          exact List.mem_cons_self
        have hd : d.isDigit = true := digits_toDigits n.natAbs d hmem
        rw [hds] at heq
        injection heq with hd'
        rw [hd'] at hd
        exact absurd hd (by decide)
    rw [if_neg hneg, List.nil_append, numberLength?]
    · simp only [List.drop_zero, hwhole, Option.bind_eq_bind, Option.bind_some, Nat.zero_add, hdrop,
        fractionLength?_of_ends hr, exponentLength?_of_ends hr, Nat.add_zero]
      rfl
    · exact hsign

theorem le_ofDigitChars (ds : List Char) (n : Nat) : n ≤ Nat.ofDigitChars 10 ds n := by
  induction ds generalizing n with
  | nil => exact Nat.le_refl n
  | cons d ds ih =>
    have h := ih (10 * n + (d.toNat - '0'.toNat))
    rw [Nat.ofDigitChars_cons]
    omega

/-- Digits are read to the end when their number fits in a word. -/
theorem absorb_eq {ds : List Char} {n : Nat} (h : Nat.ofDigitChars 10 ds n < UInt64.size) :
    absorb n ds = (Nat.ofDigitChars 10 ds n, []) := by
  induction ds generalizing n with
  | nil => rfl
  | cons d ds ih =>
    rw [Nat.ofDigitChars_cons] at h ⊢
    have hfits : n * 10 + digit d < UInt64.size := by
      have hle := le_ofDigitChars ds (10 * n + (d.toNat - '0'.toNat))
      rw [digit]
      omega
    have hnext : n * 10 + digit d = 10 * n + (d.toNat - '0'.toNat) := by
      rw [digit, Nat.mul_comm]
    rw [absorb, if_pos hfits, hnext]
    exact ih h

theorem takeWhile_toDigits (n : Nat) {p : Char → Bool} (hp : ∀ c, c.isDigit = true → p c = true) :
    (Nat.toDigits 10 n).takeWhile p = Nat.toDigits 10 n := by
  have h := @List.takeWhile_append_of_pos Char p (Nat.toDigits 10 n) []
    fun c hc => hp c (digits_toDigits n c hc)
  rw [List.append_nil, List.takeWhile_nil, List.append_nil] at h
  exact h

/-- The literal of an integer has digits and a sign, and nothing else. -/
theorem ofLiteral_toString (n : Int) : NumberParts.ofLiteral (toString n).toList =
    { negative := n < 0, whole := Nat.toDigits 10 n.natAbs, fraction := [], exponent := [],
      exponentNegative := false, plain := true } := by
  have hmantissa : (Nat.toDigits 10 n.natAbs).takeWhile (fun c => c ≠ 'e' && c ≠ 'E') =
      Nat.toDigits 10 n.natAbs := by
    apply takeWhile_toDigits
    intro c hc
    have he : c ≠ 'e' := ne_of_class hc (by decide)
    have hE : c ≠ 'E' := ne_of_class hc (by decide)
    simp [he, hE]
  have hwhole : (Nat.toDigits 10 n.natAbs).takeWhile (fun c => c ≠ '.') =
      Nat.toDigits 10 n.natAbs := by
    apply takeWhile_toDigits
    intro c hc
    have hdot : c ≠ '.' := ne_of_class hc (by decide)
    simp [hdot]
  have hhead : (Nat.toDigits 10 n.natAbs).head? ≠ some '-' := by
    intro h
    have hmem : '-' ∈ Nat.toDigits 10 n.natAbs := List.mem_of_head? h
    exact absurd (digits_toDigits n.natAbs _ hmem) (by decide)
  rw [toList_toString]
  by_cases hneg : n < 0
  · rw [if_pos hneg]
    simp only [NumberParts.ofLiteral, List.singleton_append, List.head?_cons, decide_true, if_true,
      List.drop_succ_cons, List.drop_zero, hmantissa, hwhole, List.drop_length, List.drop_nil,
      List.filter_nil, List.head?_nil, reduceCtorEq, decide_false, hneg]
  · rw [if_neg hneg, List.nil_append]
    simp only [NumberParts.ofLiteral, hhead, decide_false, if_false, hmantissa,
      hwhole, List.drop_length, List.drop_nil, List.filter_nil, List.head?_nil, reduceCtorEq,
      decide_true, hneg]

/-- **An integer that fits in a word is read as it was written.** -/
theorem number?_toString {n : Int} (hlow : Int64.minValue.toInt ≤ n) (hhigh : n < UInt64.size) :
    number? (toString n).toList = some (.integer n) := by
  have habs : n.natAbs < UInt64.size := by
    have hmin : Int64.minValue.toInt = -9223372036854775808 := by decide
    have hsize : UInt64.size = 18446744073709551616 := rfl
    omega
  have hvalue : Nat.ofDigitChars 10 (Nat.toDigits 10 n.natAbs) 0 = n.natAbs :=
    Nat.ofDigitChars_ten_toDigits
  have hfits : Nat.ofDigitChars 10 (Nat.toDigits 10 n.natAbs) 0 < UInt64.size := by
    rw [hvalue]
    exact habs
  have habsorb := absorb_eq hfits
  rw [hvalue] at habsorb
  rw [number?, ofLiteral_toString]
  simp only [habsorb, List.isEmpty_nil, Bool.and_self, if_true]
  by_cases hneg : n < 0
  · have hmin : Int64.minValue.toInt = -9223372036854775808 := by decide
    have hsize : UInt64.size = 18446744073709551616 := rfl
    have hzero : n.natAbs ≠ 0 := by omega
    have hbound : ¬UInt64.size < 2 * n.natAbs := by omega
    have hself : -(n.natAbs : Int) = n := by omega
    simp only [hneg, decide_true, Bool.not_true, Bool.false_eq_true, if_false, hzero, decide_false,
      hbound, Bool.or_self, hself]
    rfl
  · have hself : (n.natAbs : Int) = n := by omega
    simp only [hneg, decide_false, Bool.not_false, if_true, hself]
    rfl

end CInterface.Json
