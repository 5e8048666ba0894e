import CInterface.Proofs.Macro.Boundaries
import CInterface.Proofs.Token.Fusing
/-!
# What remains of a token

A token is read as a whole by the lexer, and piece by piece by whoever cuts a text into segments. What
remains of it behind some of these pieces has one of a few shapes, and each token that is read has such
a shape as a whole: nothing of it is gone.

* `SignedDigits` — the part of a number that a segment may leave behind.
* `TokenKind.Remains` — the shapes of what remains of a token.
* `remains_nextToken` — the token at the head of a text.
-/

namespace CInterface

open Text

/-! ### Shapes -/

/-- A character that continues a number whatever stands before it. -/
def isNumberTail (c : Char) : Bool := isWordTail c || c = '.'

/-- A character of a punctuator. -/
def isMark (c : Char) : Bool :=
  !isIdentTail c && c ≠ '"' && c ≠ '\x27' && !isLexSpace c

/-- A sign with digits and letters behind it, of which the first is a digit; or nothing. -/
inductive SignedDigits : List Char → Prop where
  | none : SignedDigits []
  | sign {s d : Char} {w : List Char} (hs : s = '+' ∨ s = '-') (hd : d.isDigit = true)
      (hw : w.all isWordTail = true) : SignedDigits (s :: d :: w)

/-- A literal with an `L` before its quote. -/
def TokenKind.isWide : TokenKind → Bool
  | str t | char t => t.toList.head? = some 'L'
  | _ => false

/-- Of the token, behind which `v` stands, the characters `u` may remain where a segment ends. -/
inductive TokenKind.Remains : TokenKind → List Char → List Char → Prop where
  /-- A segment that ends inside a word ends at a dollar sign. -/
  | word {name : String} {u v : List Char} (hu : u <:+ name.toList) (hall : u.all isIdentTail = true)
      (hv : v.head?.any isIdentTail = false) (hdollar : u = name.toList ∨ '$' ∈ name.toList) :
      Remains (.ident name) u v
  | wide {k : TokenKind} {u v : List Char} (hk : k.isWide = true) (htext : k.text.toList = 'L' :: u)
      (hu : FirstSegment .quoted u v) : Remains k ('L' :: u) v
  | quoted {k : TokenKind} {u v : List Char} (hu : FirstSegment .quoted u v) : Remains k u v
  /-- A segment that ends inside a number ends before the sign of its exponent. -/
  | number {k : TokenKind} {a b v : List Char} (ha : a.all isNumberTail = true) (hb : SignedDigits b)
      (hstart : ∀ c r, a = c :: r → startsNumber c (r ++ b) = true) : Remains k (a ++ b) v
  | marks {k : TokenKind} {u v : List Char} (hu : u.all isMark = true) : Remains k u v

/-! ### Numbers -/

section Numbers

variable {c : Char} {cs r : List Char} {p : Char → Bool}

theorem all_take_spanLength (p : Char → Bool) (cs : List Char) :
    (cs.take (spanLength p cs)).all p = true := by
  rw [spanLength, ← List.prefix_iff_eq_take.1 (List.takeWhile_prefix p)]
  exact List.all_takeWhile

theorem all_take_add {m n : Nat} (hm : (cs.take m).all p = true)
    (hn : ((cs.drop m).take n).all p = true) : (cs.take (m + n)).all p = true := by
  rw [List.take_add, List.all_append, hm, hn]
  rfl

theorem all_of_imp {q : Char → Bool} (h : ∀ c, p c = true → q c = true) (hcs : cs.all p = true) :
    cs.all q = true :=
  List.all_eq_true.2 fun c hc => h c (List.all_eq_true.1 hcs c hc)

theorem isNumberTail_of_isWordTail (h : isWordTail c = true) : isNumberTail c = true := by
  rw [isNumberTail, h, Bool.true_or]

theorem isNumberTail_of_isDigit (h : c.isDigit = true) : isNumberTail c = true :=
  isNumberTail_of_isWordTail (isWordTail_of_isDigit h)

theorem isWordTail_of_isHexDigit (h : isHexDigit c = true) : isWordTail c = true := by
  unfold isHexDigit hexValue? at h
  split_ifs at h with hdigit hlower hupper
  · exact isWordTail_of_isDigit hdigit
  · rw [Bool.and_eq_true, decide_eq_true_eq, decide_eq_true_eq] at hlower
    have halpha : (decide (c.val ≥ 'a'.val) && decide (c.val ≤ 'z'.val)) = true := by
      rw [Bool.and_eq_true, decide_eq_true_eq, decide_eq_true_eq]
      exact ⟨hlower.1, Nat.le_trans hlower.2 (by decide)⟩
    refine isWordTail_of_isWordHead (Bool.or_eq_true_iff.2 (Or.inl ?_))
    exact Bool.or_eq_true_iff.2 (Or.inr halpha)
  · rw [Bool.and_eq_true, decide_eq_true_eq, decide_eq_true_eq] at hupper
    have halpha : decide (c.val ≥ 'A'.val ∧ c.val ≤ 'Z'.val) = true :=
      decide_eq_true ⟨hupper.1, Nat.le_trans hupper.2 (by decide)⟩
    refine isWordTail_of_isWordHead (Bool.or_eq_true_iff.2 (Or.inl ?_))
    exact Bool.or_eq_true_iff.2 (Or.inl halpha)
  · cases h

theorem all_integerSuffix (cs : List Char) :
    (cs.take (integerSuffixLength cs)).all isWordTail = true := by
  refine all_of_imp (fun c hc => ?_) (all_take_spanLength _ cs)
  simp only [Bool.or_eq_true, decide_eq_true_eq] at hc
  rcases hc with ((rfl | rfl) | rfl) | rfl <;> decide

theorem all_plainInteger (cs : List Char) :
    (cs.take (plainIntegerLength cs)).all isWordTail = true := by
  unfold plainIntegerLength
  split
  · rfl
  · exact all_take_add (all_of_imp (fun c => isWordTail_of_isDigit) (all_take_spanLength _ cs))
      (all_integerSuffix _)

/-- An integer consists of digits and letters. -/
theorem all_integer (cs : List Char) : (cs.take (integerLength cs)).all isWordTail = true := by
  by_cases h : ∃ x r, cs = '0' :: x :: r
  · obtain ⟨x, r, rfl⟩ := h
    rw [integerLength_hex]
    split
    · rename_i hx
      simp only [Bool.and_eq_true, Bool.or_eq_true, decide_eq_true_eq] at hx
      have hletter : isWordTail x = true := by rcases hx.1 with rfl | rfl <;> decide
      have hdigits : (r.take (spanLength isHexDigit r + integerSuffixLength
          (r.drop (spanLength isHexDigit r)))).all isWordTail = true :=
        all_take_add (all_of_imp (fun c => isWordTail_of_isHexDigit) (all_take_spanLength _ r))
          (all_integerSuffix _)
      rw [hexIntegerLength, Nat.add_assoc, Nat.add_comm 2, List.take_succ_cons, List.take_succ_cons,
        List.all_cons, List.all_cons, hletter, hdigits]
      rfl
    · exact all_plainInteger _
  · rw [integerLength_plain fun x r heq => h ⟨x, r, heq⟩]
    exact all_plainInteger cs

theorem all_floatSuffix (cs : List Char) :
    (cs.take (floatSuffixLength cs)).all isWordTail = true := by
  cases cs with
  | nil => rfl
  | cons c cs =>
    rw [floatSuffixLength]
    split
    · rename_i hc
      simp only [Bool.or_eq_true, decide_eq_true_eq] at hc
      rcases hc with ((rfl | rfl) | rfl) | rfl <;> rfl
    · rfl

/-- The characters are those of a number up to a sign with what follows it. -/
def Numeric (w : List Char) : Prop :=
  ∃ a b, w = a ++ b ∧ a.all isNumberTail = true ∧ SignedDigits b

theorem Numeric.of_all (h : cs.all isNumberTail = true) : Numeric cs :=
  ⟨cs, [], (List.append_nil cs).symm, h, .none⟩

theorem Numeric.append {w : List Char} (hw : w.all isNumberTail = true) (h : Numeric cs) :
    Numeric (w ++ cs) := by
  obtain ⟨a, b, rfl, ha, hb⟩ := h
  exact ⟨w ++ a, b, (List.append_assoc w a b).symm, by rw [List.all_append, hw, ha]; rfl, hb⟩

/-- Some digits with a floating suffix. -/
theorem all_digits_suffix (cs : List Char) : (cs.take (spanLength Char.isDigit cs +
    floatSuffixLength (cs.drop (spanLength Char.isDigit cs)))).all isWordTail = true :=
  all_take_add (all_of_imp (fun _ => isWordTail_of_isDigit) (all_take_spanLength _ cs))
    (all_floatSuffix _)

/-- Digits and letters with a sign before them, or with none. -/
theorem numeric_signed {tail : List Char} (htail : r.drop (signLength r) = tail) {n : Nat}
    (hdigits : spanLength Char.isDigit tail ≠ 0)
    (hall : (tail.take (spanLength Char.isDigit tail + n)).all isWordTail = true) :
    Numeric (r.take (signLength r + (spanLength Char.isDigit tail + n))) := by
  cases r with
  | nil =>
    obtain rfl : [] = tail := by rw [← htail, List.drop_nil]
    exact absurd rfl hdigits
  | cons s r =>
    rw [signLength_cons] at htail ⊢
    split at htail
    · rename_i hs
      obtain rfl : r = tail := htail
      rw [if_pos hs, Nat.add_comm 1, List.take_succ_cons]
      simp only [Bool.or_eq_true, decide_eq_true_eq] at hs
      cases r with
      | nil => exact absurd rfl hdigits
      | cons d r =>
        have hd : d.isDigit = true := by
          rw [← Bool.not_eq_false]
          intro hd
          exact hdigits (by simp [spanLength, hd])
        obtain ⟨m, hm⟩ := Nat.exists_eq_succ_of_ne_zero hdigits
        rw [hm, Nat.succ_add, List.take_succ_cons, List.all_cons, Bool.and_eq_true] at hall
        rw [hm, Nat.succ_add, List.take_succ_cons]
        exact ⟨[], _, rfl, rfl, .sign hs hd hall.2⟩
    · rename_i hs
      obtain rfl : s :: r = tail := htail
      rw [if_neg hs, Nat.zero_add]
      exact .of_all (all_of_imp (fun _ => isNumberTail_of_isWordTail) hall)

/-- An exponent, if there is one, with the suffix behind it. -/
theorem numeric_exponent (cs : List Char) : Numeric (cs.take (exponentLength cs +
    floatSuffixLength (cs.drop (exponentLength cs)))) := by
  have hsuffix : Numeric (cs.take (0 + floatSuffixLength (cs.drop 0))) := by
    rw [Nat.zero_add, List.drop_zero]
    exact .of_all (all_of_imp (fun _ => isNumberTail_of_isWordTail) (all_floatSuffix cs))
  cases cs with
  | nil => exact hsuffix
  | cons e r =>
    rw [exponentLength_cons]
    split
    · rename_i he
      have hletter : isNumberTail e = true := by
        simp only [Bool.or_eq_true, decide_eq_true_eq] at he
        rcases he with rfl | rfl <;> decide
      split
      · exact hsuffix
      · rename_i hdigits
        -- the digits behind the sign, if there is one, with the suffix
        generalize htail : r.drop (signLength r) = tail at hdigits ⊢
        have hall := all_digits_suffix tail
        have hdrop : (e :: r).drop (1 + signLength r + spanLength Char.isDigit tail) =
            tail.drop (spanLength Char.isDigit tail) := by
          rw [Nat.add_assoc, drop_one_add, ← List.drop_drop, htail]
        rw [hdrop, Nat.add_assoc, Nat.add_assoc, Nat.add_comm 1, List.take_succ_cons]
        refine Numeric.append (w := [e]) (by rw [List.all_cons, hletter]; rfl) ?_
        exact numeric_signed htail hdigits hall
    · exact hsuffix

/-- A floating literal from its mantissa on. -/
theorem numeric_floatEnd {mantissa : Nat} (hm : (cs.take mantissa).all isNumberTail = true) :
    Numeric (cs.take (floatEnd cs mantissa (exponentLength (cs.drop mantissa)))) := by
  rw [floatEnd, Nat.add_assoc, List.take_add, ← List.drop_drop]
  exact (numeric_exponent (cs.drop mantissa)).append hm

/-- A floating literal has a sign in its exponent at most. -/
theorem numeric_float (cs : List Char) : Numeric (cs.take (floatLength cs)) := by
  have hnone : Numeric (cs.take 0) := .of_all rfl
  have hwhole : (cs.take (spanLength Char.isDigit cs)).all isNumberTail = true :=
    all_of_imp (fun _ => isNumberTail_of_isDigit) (all_take_spanLength _ cs)
  rw [floatLength_eq]
  by_cases h : (cs.drop (spanLength Char.isDigit cs)).head? = some '.'
  · obtain ⟨r, hr⟩ := List.head?_eq_some_iff.1 h
    rw [hr, floatBehind_point]
    split
    · exact hnone
    · refine numeric_floatEnd (all_take_add (all_take_add hwhole ?_) ?_)
      · rw [hr]
        rfl
      · rw [← List.drop_drop, hr]
        exact all_of_imp (fun _ => isNumberTail_of_isDigit) (all_take_spanLength _ r)
  · rw [floatBehind_plain cs _ h]
    split
    · exact hnone
    · exact numeric_floatEnd hwhole

/-- The first characters of a floating literal are those of a number. -/
theorem startsNumber_of_floatLength {n : Nat} (h : floatLength (c :: r) = n + 1) :
    startsNumber c (r.take n) = true := by
  rw [startsNumber, Bool.or_eq_true, Bool.and_eq_true, decide_eq_true_eq]
  by_cases hc : c.isDigit = true
  · exact Or.inl hc
  · have hpoint : c = '.' ∧ r.head?.any Char.isDigit = true := by
      refine Classical.byContradiction fun hnot => ?_
      rw [floatLength_eq_zero (Bool.eq_false_iff.2 hc) fun hdot =>
        Bool.eq_false_iff.2 fun hdigit => hnot ⟨hdot, hdigit⟩] at h
      cases h
    obtain ⟨rfl, hdigit⟩ := hpoint
    cases r with
    | nil => cases hdigit
    | cons d r =>
      have hlong := one_lt_floatLength hdigit r
      obtain ⟨m, rfl⟩ : ∃ m, n = m + 1 := ⟨n - 1, by omega⟩
      exact Or.inr ⟨rfl, hdigit⟩

end Numbers

/-! ### Literals and punctuators -/

section Literals

variable {quote : Char} {r : List Char}

/-- The segment of a literal that is closed ends with its closing quote. -/
theorem quotedTail_of_closes (hslash : quote ≠ '\\') (hnewline : quote ≠ '\n')
    (h : ClosesLiteral quote r) : quotedTail quote r = literalItems quote r + 1 := by
  unfold ClosesLiteral at h
  fun_induction literalItems quote r with
  | case1 => cases h
  | case2 c hend =>
    obtain rfl : c = quote := Option.some.inj h
    rw [quotedTail, if_neg hnewline]
  | case3 c hend => cases h
  | case4 r => exact absurd (Option.some.inj h).symm hslash
  | case5 d r hd ih =>
    rw [drop_two_add] at h
    rw [quotedTail, if_pos rfl, ih h]
    rfl
  | case6 c d r hescape hend =>
    obtain rfl : c = quote := Option.some.inj h
    rw [quotedTail, if_neg hescape, if_neg hnewline, if_pos rfl]
  | case7 c d r hescape hend ih =>
    rw [drop_one_add] at h
    simp only [Bool.or_eq_true, decide_eq_true_eq, not_or] at hend
    rw [quotedTail, if_neg hescape, if_neg hend.2, if_neg hend.1, ih h]
    rfl

theorem firstSegment_of_closes (hquote : quote = '"' ∨ quote = '\x27') (h : ClosesLiteral quote r) :
    FirstSegment .quoted (quote :: r.take (literalItems quote r + 1))
      (r.drop (literalItems quote r + 1)) := by
  have hother : quote ≠ '\\' ∧ quote ≠ '\n' := by rcases hquote with rfl | rfl <;> decide
  have htail := quotedTail_of_closes hother.1 hother.2 h
  have hle := quotedTail_le quote r
  refine ⟨quote, _, rfl, ?_⟩
  rw [List.take_append_drop, nextSegment, if_pos (by simpa using hquote), List.length_take,
    Nat.min_eq_left (by omega), htail]

/-- A closed literal is one segment, but for the `L` before it. -/
theorem remains_literal {least : Nat} (hquote : quote = '"' ∨ quote = '\x27') {k : TokenKind}
    (hk : ∃ t, k = .str t ∨ k = .char t) {c : Char} {n : Nat}
    (htext : k.text.toList = c :: r.take n) (h : literalLength quote least (c :: r) = n + 1) :
    k.Remains (c :: r.take n) (r.drop n) := by
  have hL : quote ≠ 'L' := by rcases hquote with rfl | rfl <;> decide
  obtain ⟨hopen, hne, hclose⟩ := literalLength_eq_succ.1 h
  rw [openLiteralLength_eq] at hopen
  split at hopen
  · exact absurd hopen.symm hne
  rename_i hleast
  rw [not_or] at hleast
  rw [← hopen, ← List.drop_drop] at hclose
  rcases literalOpening_cases hleast.1 with ⟨r', heq⟩ | ⟨r', heq⟩
  · obtain ⟨rfl, rfl⟩ := List.cons.inj heq
    rw [literalOpening_quote, List.drop_one, List.tail_cons] at hopen hclose
    obtain rfl : literalItems c r + 1 = n := by omega
    exact .quoted (firstSegment_of_closes hquote hclose)
  · obtain ⟨rfl, rfl⟩ := List.cons.inj heq
    rw [literalOpening_wide hL] at hopen hclose
    obtain rfl : literalItems quote r' + 1 + 1 = n := by
      rw [← hopen]
      exact Nat.add_comm _ 2
    refine .wide ?_ htext (firstSegment_of_closes hquote hclose)
    obtain ⟨t, rfl | rfl⟩ := hk
    · exact decide_eq_true (by rw [show t.toList = _ from htext]; rfl)
    · exact decide_eq_true (by rw [show t.toList = _ from htext]; rfl)

theorem Punct.all_isMark (p : Punct) : p.text.toList.all isMark = true := by cases p <;> decide

end Literals

/-- **A token that is read is there as a whole.** -/
theorem remains_nextToken {c : Char} {r : List Char} {k : TokenKind} {n : Nat}
    (h : nextToken c r = (k, n)) (hk : ∀ d, k ≠ .error d) :
    k.Remains (c :: r.take n) (r.drop n) := by
  obtain ⟨hlongest, htext⟩ := nextToken_eq h hk
  have hlength := LexClass.length_longest hlongest
  cases k with
  | error d => exact absurd rfl (hk d)
  | ident name =>
    have hle := LexClass.longest_le_length (c :: r)
    rw [hlongest, List.length_cons] at hle
    have hw : (r.take n).length = n := by rw [List.length_take, Nat.min_eq_left (by omega)]
    obtain ⟨hhead, hspan⟩ := spanLength_of_longest_ident (w := r.take n) (r := r.drop n)
      (by rw [List.take_append_drop, hw]; exact hlongest)
    refine .word (by rw [← htext]; exact List.suffix_rfl) ?_ (any_head?_of_spanLength hspan)
      (Or.inl htext.symm)
    rw [List.all_cons, isIdentTail_of_isIdentHead hhead, all_of_le_spanLength (Nat.le_of_eq hspan.symm)]
    rfl
  | integer t =>
    have hinteger : integerLength (c :: r) = n + 1 := hlength
    have hall := all_integer (c :: r)
    rw [hinteger, List.take_succ_cons] at hall
    have hc : c.isDigit = true := isDigit_of_integerLength (by rw [hinteger]; exact Nat.succ_ne_zero n)
    rw [← List.append_nil (c :: r.take n)]
    refine .number (all_of_imp (fun _ => isNumberTail_of_isWordTail) hall) .none ?_
    intro d w hd
    rw [← (List.cons.inj hd).1, startsNumber, hc, Bool.true_or]
  | float t =>
    have hfloat : floatLength (c :: r) = n + 1 := hlength
    obtain ⟨a, b, hab, ha, hb⟩ := numeric_float (c :: r)
    rw [hfloat, List.take_succ_cons] at hab
    rw [hab]
    refine .number ha hb ?_
    rintro d w rfl
    obtain ⟨rfl, hw⟩ := List.cons.inj hab
    rw [show w ++ b = r.take n from hw.symm]
    exact startsNumber_of_floatLength hfloat
  | str t => exact remains_literal (Or.inl rfl) ⟨t, Or.inl rfl⟩ htext hlength
  | char t => exact remains_literal (Or.inr rfl) ⟨t, Or.inr rfl⟩ htext hlength
  | punct p =>
    rw [← htext]
    exact .marks p.all_isMark

end CInterface
