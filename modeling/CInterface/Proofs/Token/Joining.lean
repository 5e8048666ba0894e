import CInterface.Proofs.Token.Spelling
/-!
# Texts on lines of their own

No token goes on behind a newline. So a text that is followed by a newline and another text has the
tokens of both, those of the second at later places.

* `StopsAt` — a reader of characters that takes none from a given one on; every lexical class stops
  at a newline, and all but the literals stop at any blank.
* `Token.later` — a token at a later place.
* `tokenize_newline` — the tokens of two texts with a newline between them.
-/

namespace CInterface

open Text

/-! ### Readers that stop at a blank -/

/-- The number of characters that `f` takes at the head of a text is not changed by the character
`x` behind the text, whatever follows it. -/
structure StopsAt (x : Char) (f : List Char → Nat) : Prop where
  le_length : ∀ cs, f cs ≤ cs.length
  append : ∀ cs ds, f (cs ++ x :: ds) = f cs

/-- A class with none of the blanks. -/
theorem eq_false_of_isLexSpace {x : Char} (hx : isLexSpace x = true) (p : Char → Bool)
    (hp : [' ', '\t', '\r', '\n', '\x0c', '\x0b'].all (fun d => !p d) = true) : p x = false := by
  refine Bool.eq_false_iff.2 fun h => ?_
  rw [isLexSpace_eq_false h hp] at hx
  cases hx

section Words

variable {x : Char}

theorem drop_append_cons {n : Nat} {cs : List Char} (h : n ≤ cs.length) (x : Char)
    (ds : List Char) :
    (cs ++ x :: ds).drop n = cs.drop n ++ x :: ds := List.drop_append_of_le_length h

theorem stops_spanLength {p : Char → Bool} (hp : p x = false) : StopsAt x (spanLength p) where
  le_length cs := (List.takeWhile_prefix p).length_le
  append cs ds := by
    induction cs with
    | nil => simp [spanLength, hp]
    | cons c cs ih =>
      simp only [spanLength, List.cons_append, List.takeWhile_cons] at ih ⊢
      split
      · rw [List.length_cons, List.length_cons, ih]
      · rfl

theorem stops_identLength (hx : isLexSpace x = true) : StopsAt x identLength where
  le_length cs := by
    cases cs with
    | nil => exact Nat.le_refl 0
    | cons c cs =>
      rw [identLength]
      split
      · have htail := eq_false_of_isLexSpace hx isIdentTail (by decide)
        exact Nat.succ_le_succ ((stops_spanLength htail).le_length cs)
      · exact Nat.zero_le _
  append cs ds := by
    cases cs with
    | nil =>
      have hhead := eq_false_of_isLexSpace hx isIdentHead (by decide)
      exact identLength_eq_zero hhead ds
    | cons c cs =>
      have htail := eq_false_of_isLexSpace hx isIdentTail (by decide)
      rw [List.cons_append, identLength, identLength, (stops_spanLength htail).append]

theorem stops_integerSuffixLength (hx : isLexSpace x = true) : StopsAt x integerSuffixLength :=
  stops_spanLength (eq_false_of_isLexSpace hx
    (fun c => c = 'u' || c = 'U' || c = 'l' || c = 'L') (by decide))

theorem stops_decimal (hx : isLexSpace x = true) : StopsAt x (spanLength Char.isDigit) :=
  stops_spanLength (eq_false_of_isLexSpace hx _ (by decide))

theorem stops_hexadecimal (hx : isLexSpace x = true) : StopsAt x (spanLength isHexDigit) :=
  stops_spanLength (eq_false_of_isLexSpace hx _ (by decide))

/-- A decimal integer with its suffix. -/
def plainIntegerLength (cs : List Char) : Nat :=
  if spanLength Char.isDigit cs = 0 then 0
  else spanLength Char.isDigit cs + integerSuffixLength (cs.drop (spanLength Char.isDigit cs))

theorem stops_plainIntegerLength (hx : isLexSpace x = true) : StopsAt x plainIntegerLength where
  le_length cs := by
    have hdigits := (stops_decimal hx).le_length cs
    have hsuffix := (stops_integerSuffixLength hx).le_length (cs.drop (spanLength Char.isDigit cs))
    rw [List.length_drop] at hsuffix
    rw [plainIntegerLength]
    split <;> omega
  append cs ds := by
    rw [plainIntegerLength, (stops_decimal hx).append,
      drop_append_cons ((stops_decimal hx).le_length cs),
      (stops_integerSuffixLength hx).append]
    rfl

/-- A hexadecimal integer with its suffix, where `r` follows its `0x`. -/
def hexIntegerLength (r : List Char) : Nat :=
  2 + spanLength isHexDigit r + integerSuffixLength (r.drop (spanLength isHexDigit r))

theorem integerLength_hex (x : Char) (r : List Char) :
    integerLength ('0' :: x :: r) =
      if (x = 'x' || x = 'X') && spanLength isHexDigit r ≠ 0 then hexIntegerLength r
      else plainIntegerLength ('0' :: x :: r) := rfl

theorem integerLength_plain {cs : List Char} (h : ∀ x r, cs ≠ '0' :: x :: r) :
    integerLength cs = plainIntegerLength cs := by
  unfold integerLength
  dsimp only
  split
  · rename_i x r
    exact absurd rfl (h x r)
  · rfl

theorem stops_integerLength (hx : isLexSpace x = true) : StopsAt x integerLength where
  le_length cs := by
    have hplain := (stops_plainIntegerLength hx).le_length cs
    by_cases h : ∃ x r, cs = '0' :: x :: r
    · obtain ⟨x, r, rfl⟩ := h
      rw [integerLength_hex]
      split
      · have hdigits := (stops_hexadecimal hx).le_length r
        have hsuffix := (stops_integerSuffixLength hx).le_length (r.drop (spanLength isHexDigit r))
        rw [List.length_drop] at hsuffix
        rw [hexIntegerLength, List.length_cons, List.length_cons]
        omega
      · exact hplain
    · rw [integerLength_plain fun x r heq => h ⟨x, r, heq⟩]
      exact hplain
  append cs ds := by
    by_cases h : ∃ x r, cs = '0' :: x :: r
    · obtain ⟨x, r, rfl⟩ := h
      have hplain := (stops_plainIntegerLength hx).append ('0' :: x :: r) ds
      rw [List.cons_append, List.cons_append] at hplain ⊢
      rw [integerLength_hex, integerLength_hex, hplain, hexIntegerLength, hexIntegerLength,
        (stops_hexadecimal hx).append, drop_append_cons ((stops_hexadecimal hx).le_length r),
        (stops_integerSuffixLength hx).append]
    · rw [integerLength_plain fun x r heq => h ⟨x, r, heq⟩,
        ← (stops_plainIntegerLength hx).append cs ds]
      by_cases h' : cs = ['0']
      · -- behind the digit there is the blank, which is no `x`
        subst h'
        have hletter : x ≠ 'x' ∧ x ≠ 'X' := ⟨ne_of_class hx (by decide), ne_of_class hx (by decide)⟩
        rw [List.cons_append, List.nil_append, integerLength_hex, if_neg (by simp [hletter])]
      · refine integerLength_plain fun y r heq => ?_
        cases cs with
        | nil =>
          obtain ⟨rfl, -⟩ := List.cons.inj heq
          exact absurd hx (by decide)
        | cons c cs =>
          obtain ⟨rfl, heq⟩ := List.cons.inj heq
          cases cs with
          | nil => exact h' rfl
          | cons d cs => exact h ⟨d, cs, rfl⟩

/-- The sign of an exponent. -/
def signLength : List Char → Nat
  | '+' :: _ | '-' :: _ => 1
  | _ => 0

theorem signLength_cons (c : Char) (r : List Char) :
    signLength (c :: r) = if c = '+' || c = '-' then 1 else 0 := by
  unfold signLength
  split
  · rename_i heq
    obtain ⟨rfl, -⟩ := List.cons.inj heq
    rfl
  · rename_i heq
    obtain ⟨rfl, -⟩ := List.cons.inj heq
    rfl
  · rename_i hplus hminus
    have hc : c ≠ '+' := fun heq => hplus r (by rw [heq])
    have hc' : c ≠ '-' := fun heq => hminus r (by rw [heq])
    rw [decide_eq_false hc, decide_eq_false hc']
    rfl

theorem stops_signLength (hx : isLexSpace x = true) : StopsAt x signLength where
  le_length cs := by
    cases cs with
    | nil => exact Nat.le_refl 0
    | cons c cs =>
      rw [signLength_cons, List.length_cons]
      split <;> omega
  append cs ds := by
    cases cs with
    | nil =>
      have hsign : x ≠ '+' ∧ x ≠ '-' := ⟨ne_of_class hx (by decide), ne_of_class hx (by decide)⟩
      rw [List.nil_append, signLength_cons, if_neg (by simp [hsign])]
      rfl
    | cons c cs => rw [List.cons_append, signLength_cons, signLength_cons]

theorem exponentLength_cons (e : Char) (r : List Char) : exponentLength (e :: r) =
    if e = 'e' || e = 'E' then
      if spanLength Char.isDigit (r.drop (signLength r)) = 0 then 0
      else 1 + signLength r + spanLength Char.isDigit (r.drop (signLength r))
    else 0 := by
  unfold exponentLength signLength
  rfl

theorem stops_exponentLength (hx : isLexSpace x = true) : StopsAt x exponentLength where
  le_length cs := by
    cases cs with
    | nil => exact Nat.le_refl 0
    | cons e r =>
      have hsign := (stops_signLength hx).le_length r
      have hdigits := (stops_decimal hx).le_length (r.drop (signLength r))
      rw [List.length_drop] at hdigits
      rw [exponentLength_cons, List.length_cons]
      split
      · split <;> omega
      · exact Nat.zero_le _
  append cs ds := by
    cases cs with
    | nil =>
      have hletter : x ≠ 'e' ∧ x ≠ 'E' := ⟨ne_of_class hx (by decide), ne_of_class hx (by decide)⟩
      rw [List.nil_append, exponentLength_cons, if_neg (by simp [hletter])]
      rfl
    | cons e r =>
      rw [List.cons_append, exponentLength_cons, exponentLength_cons, (stops_signLength hx).append,
        drop_append_cons ((stops_signLength hx).le_length r), (stops_decimal hx).append]

theorem stops_floatSuffixLength (hx : isLexSpace x = true) : StopsAt x floatSuffixLength where
  le_length cs := by
    cases cs with
    | nil => exact Nat.le_refl 0
    | cons c cs =>
      rw [floatSuffixLength]
      split <;> simp
  append cs ds := by
    cases cs with
    | nil =>
      have hletter := eq_false_of_isLexSpace hx
        (fun c => c = 'f' || c = 'F' || c = 'l' || c = 'L') (by decide)
      rw [List.nil_append, floatSuffixLength, if_neg (Bool.eq_false_iff.1 hletter)]
      rfl
    | cons c cs => rfl

/-- A floating literal from its mantissa on, which has a number of characters. -/
def floatEnd (cs : List Char) (mantissa exponent : Nat) : Nat :=
  mantissa + exponent + floatSuffixLength (cs.drop (mantissa + exponent))

/-- The length of a floating literal, where `whole` digits stand before the characters `behind`. -/
def floatBehind (cs : List Char) (whole : Nat) (behind : List Char) : Nat :=
  match behind with
  | '.' :: r =>
    if whole = 0 && spanLength Char.isDigit r = 0 then 0
    else floatEnd cs (whole + 1 + spanLength Char.isDigit r)
      (exponentLength (cs.drop (whole + 1 + spanLength Char.isDigit r)))
  | r => if whole = 0 || exponentLength r = 0 then 0 else floatEnd cs whole (exponentLength r)

theorem floatLength_eq (cs : List Char) : floatLength cs =
    floatBehind cs (spanLength Char.isDigit cs) (cs.drop (spanLength Char.isDigit cs)) := by
  unfold floatLength floatBehind floatEnd
  rfl

theorem floatEnd_le {cs : List Char} {mantissa exponent : Nat}
    (h : mantissa + exponent ≤ cs.length) :
    floatEnd cs mantissa exponent ≤ cs.length := by
  have hsuffix := (stops_floatSuffixLength (x := ' ') (by decide)).le_length
    (cs.drop (mantissa + exponent))
  rw [List.length_drop] at hsuffix
  rw [floatEnd]
  omega

theorem floatEnd_append (hx : isLexSpace x = true) {cs : List Char} {mantissa exponent : Nat}
    (h : mantissa + exponent ≤ cs.length) (ds : List Char) :
    floatEnd (cs ++ x :: ds) mantissa exponent = floatEnd cs mantissa exponent := by
  rw [floatEnd, floatEnd, drop_append_cons h, (stops_floatSuffixLength hx).append]

theorem floatBehind_point (cs : List Char) (whole : Nat) (r : List Char) :
    floatBehind cs whole ('.' :: r) =
      if whole = 0 && spanLength Char.isDigit r = 0 then 0
      else floatEnd cs (whole + 1 + spanLength Char.isDigit r)
        (exponentLength (cs.drop (whole + 1 + spanLength Char.isDigit r))) := rfl

theorem floatBehind_plain (cs : List Char) (whole : Nat) {r : List Char} (h : r.head? ≠ some '.') :
    floatBehind cs whole r =
      if whole = 0 || exponentLength r = 0 then 0 else floatEnd cs whole (exponentLength r) := by
  unfold floatBehind
  split
  · exact absurd rfl h
  · rfl

theorem stops_floatLength (hx : isLexSpace x = true) : StopsAt x floatLength where
  le_length cs := by
    have hwhole := (stops_decimal hx).le_length cs
    rw [floatLength_eq]
    by_cases h : (cs.drop (spanLength Char.isDigit cs)).head? = some '.'
    · obtain ⟨r, hr⟩ := List.head?_eq_some_iff.1 h
      have hlength := congrArg List.length hr
      have hdigits := (stops_decimal hx).le_length r
      rw [List.length_drop, List.length_cons] at hlength
      rw [hr, floatBehind_point]
      split
      · exact Nat.zero_le _
      · refine floatEnd_le ?_
        have hexponent := (stops_exponentLength hx).le_length
          (cs.drop (spanLength Char.isDigit cs + 1 + spanLength Char.isDigit r))
        rw [List.length_drop] at hexponent
        omega
    · rw [floatBehind_plain cs _ h]
      split
      · exact Nat.zero_le _
      · refine floatEnd_le ?_
        have hexponent := (stops_exponentLength hx).le_length (cs.drop (spanLength Char.isDigit cs))
        rw [List.length_drop] at hexponent
        omega
  append cs ds := by
    have hwhole := (stops_decimal hx).le_length cs
    rw [floatLength_eq, floatLength_eq, (stops_decimal hx).append, drop_append_cons hwhole]
    by_cases h : (cs.drop (spanLength Char.isDigit cs)).head? = some '.'
    · obtain ⟨r, hr⟩ := List.head?_eq_some_iff.1 h
      have hlength := congrArg List.length hr
      have hdigits := (stops_decimal hx).le_length r
      rw [List.length_drop, List.length_cons] at hlength
      have hmantissa : spanLength Char.isDigit cs + 1 + spanLength Char.isDigit r ≤ cs.length := by
        omega
      have hexponent := (stops_exponentLength hx).le_length
        (cs.drop (spanLength Char.isDigit cs + 1 + spanLength Char.isDigit r))
      rw [List.length_drop] at hexponent
      rw [hr, List.cons_append, floatBehind_point, floatBehind_point, (stops_decimal hx).append,
        drop_append_cons hmantissa, (stops_exponentLength hx).append, floatEnd_append hx (by omega)]
    · have hother : (cs.drop (spanLength Char.isDigit cs) ++ x :: ds).head? ≠ some '.' := by
        cases hdrop : cs.drop (spanLength Char.isDigit cs) with
        | nil => simpa using (ne_of_class hx (by decide) : x ≠ '.')
        | cons c r =>
          rw [hdrop] at h
          exact h
      have hexponent := (stops_exponentLength hx).le_length (cs.drop (spanLength Char.isDigit cs))
      rw [List.length_drop] at hexponent
      rw [floatBehind_plain _ _ h, floatBehind_plain _ _ hother, (stops_exponentLength hx).append,
        floatEnd_append hx (by omega)]

end Words

/-! ### Literals and punctuators -/

section Literals

variable {quote : Char}

theorem literalItems_newline (ds : List Char) : literalItems quote ('\n' :: ds) = 0 := by
  cases ds <;> simp [literalItems]

theorem stops_literalItems : StopsAt '\n' (literalItems quote) where
  le_length cs := by
    fun_induction literalItems quote cs with
    | case1 => exact Nat.le_refl 0
    | case2 | case3 | case4 | case6 => simp
    | case5 c r hnewline ih => simp only [List.length_cons]; omega
    | case7 c d r hescape hend ih => simp only [List.length_cons] at ih ⊢; omega
  append cs ds := by
    fun_induction literalItems quote cs with
    | case1 => exact literalItems_newline ds
    | case2 c hend =>
      simp only [Bool.or_eq_true, decide_eq_true_eq] at hend
      rw [List.singleton_append, literalItems]
      split
      · rw [if_pos rfl]
      · rename_i hescape
        rw [if_pos]
        simp only [Bool.or_eq_true, decide_eq_true_eq]
        rcases hend with (hquote | hescape') | hnewline
        · exact Or.inl hquote
        · exact absurd hescape' hescape
        · exact Or.inr hnewline
    | case3 c hend =>
      simp only [Bool.or_eq_true, decide_eq_true_eq, not_or] at hend
      rw [List.singleton_append, literalItems, if_neg hend.1.2, if_neg (by simp [hend]),
        literalItems_newline]
    | case4 => rw [List.cons_append, List.cons_append, literalItems, if_pos rfl, if_pos rfl]
    | case5 d r hnewline ih =>
      rw [List.cons_append, List.cons_append, literalItems, if_pos rfl, if_neg hnewline, ih]
    | case6 c d r hescape hend =>
      rw [List.cons_append, List.cons_append, literalItems, if_neg hescape, if_pos hend]
    | case7 c d r hescape hend ih =>
      rw [List.cons_append] at ih
      rw [List.cons_append, List.cons_append, literalItems, if_neg hescape, if_neg hend, ih]

theorem stops_literalOpening (hquote : quote ≠ '\n') : StopsAt '\n' (literalOpening quote) where
  le_length cs := by
    cases cs with
    | nil => exact Nat.le_refl 0
    | cons c r =>
      rw [literalOpening]
      split
      · simp
      · split
        · rename_i hL
          cases r with
          | nil => simp at hL
          | cons d r => simp
        · exact Nat.zero_le _
  append cs ds := by
    cases cs with
    | nil => simp [literalOpening, hquote.symm]
    | cons c r =>
      rw [List.cons_append, literalOpening, literalOpening]
      cases r with
      | nil => simp [hquote.symm]
      | cons d r => rfl

theorem stops_openLiteralLength (hquote : quote ≠ '\n') (least : Nat) :
    StopsAt '\n' (openLiteralLength quote least) where
  le_length cs := by
    have hopening := (stops_literalOpening hquote).le_length cs
    have hitems := (@stops_literalItems quote).le_length
      (cs.drop (literalOpening quote cs))
    rw [List.length_drop] at hitems
    unfold openLiteralLength
    dsimp only
    split <;> omega
  append cs ds := by
    have hopening := (stops_literalOpening hquote).le_length cs
    unfold openLiteralLength
    dsimp only
    rw [(stops_literalOpening hquote).append, drop_append_cons hopening, stops_literalItems.append]

theorem stops_literalLength (hquote : quote ≠ '\n') (least : Nat) :
    StopsAt '\n' (literalLength quote least) where
  le_length cs := by
    have hopen := (stops_openLiteralLength hquote least).le_length cs
    unfold literalLength
    dsimp only
    split
    · rename_i hclose
      rw [Bool.and_eq_true, decide_eq_true_eq] at hclose
      cases hdrop : cs.drop (openLiteralLength quote least cs) with
      | nil =>
        rw [hdrop] at hclose
        cases hclose.2
      | cons c r =>
        have hlength := congrArg List.length hdrop
        rw [List.length_drop, List.length_cons] at hlength
        omega
    · exact Nat.zero_le _
  append cs ds := by
    have hopen := (stops_openLiteralLength hquote least).le_length cs
    have hhead : ∀ r : List Char,
        ((r ++ '\n' :: ds).head? = some quote) ↔ r.head? = some quote := by
      intro r
      cases r with
      | nil => simp [hquote.symm]
      | cons c r => rfl
    unfold literalLength
    simp only [(stops_openLiteralLength hquote least).append, drop_append_cons hopen, hhead]

end Literals

/-- No punctuator has a blank. -/
theorem Punct.not_mem_text {x : Char} (hx : isLexSpace x = true) (p : Punct) :
    x ∉ p.text.toList := by
  have hblank : p.text.toList.all (fun c => !isLexSpace c) = true := by cases p <;> rfl
  intro hmem
  have hother := List.all_eq_true.1 hblank x hmem
  rw [hx] at hother
  cases hother

theorem isPrefixOf_append_cons {x : Char} {w cs : List Char} (hw : x ∉ w) (ds : List Char) :
    w.isPrefixOf (cs ++ x :: ds) = w.isPrefixOf cs := by
  induction w generalizing cs with
  | nil => simp
  | cons c w ih =>
    have hc : c ≠ x := fun heq => hw (by rw [heq]; exact List.mem_cons_self)
    have hw' : x ∉ w := fun hmem => hw (List.mem_cons_of_mem c hmem)
    cases cs with
    | nil =>
      rw [List.nil_append, List.isPrefixOf_cons_cons, beq_false_of_ne hc, Bool.false_and]
      rfl
    | cons d cs =>
      rw [List.cons_append, List.isPrefixOf_cons_cons, List.isPrefixOf_cons_cons, ih hw']

theorem punctAt?_append_cons {x : Char} (hx : isLexSpace x = true) (cs ds : List Char) :
    punctAt? (cs ++ x :: ds) = punctAt? cs := by
  unfold punctAt?
  simp only [isPrefixOf_append_cons (Punct.not_mem_text hx _)]

/-- A punctuator that is found stands at the head of the text. -/
theorem isPrefixOf_of_punctAt? {cs : List Char} {p : Punct} (h : punctAt? cs = some p) :
    p.text.toList.isPrefixOf cs = true := by
  have hfold : ∀ (l : List Punct) (best : Option Punct),
      (∀ q, best = some q → q.text.toList.isPrefixOf cs = true) →
      ∀ q, l.foldl (longerPunct cs) best = some q → q.text.toList.isPrefixOf cs = true := by
    intro l
    induction l with
    | nil => exact fun best hbest => hbest
    | cons p l ih =>
      intro best hbest
      rw [List.foldl_cons]
      refine ih _ fun q hq => ?_
      unfold longerPunct at hq
      split at hq
      · rename_i hp
        split at hq
        · split at hq
          · cases hq
            exact hp
          · exact hbest q hq
        · cases hq
          exact hp
      · exact hbest q hq
  exact hfold Punct.all none (fun q hq => by cases hq) p h

/-! ### Tokens -/

/-- Every lexical class stops at a newline. -/
theorem LexClass.stops (k : LexClass) : StopsAt '\n' k.length := by
  cases k with
  | ident => exact stops_identLength (by decide)
  | integer => exact stops_integerLength (by decide)
  | float => exact stops_floatLength (by decide)
  | str => exact stops_literalLength (by decide) 0
  | char => exact stops_literalLength (by decide) 1
  | openStr => exact stops_openLiteralLength (by decide) 0
  | openChar => exact stops_openLiteralLength (by decide) 1
  | punct =>
    refine ⟨fun cs => ?_, fun cs ds => ?_⟩
    · simp only [LexClass.length]
      split
      · rename_i p hp
        have hprefix := List.isPrefixOf_iff_prefix.1 (isPrefixOf_of_punctAt? hp)
        rw [← String.length_toList]
        exact hprefix.length_le
      · exact Nat.zero_le _
    · simp only [LexClass.length, punctAt?_append_cons (x := '\n') (by decide)]

theorem LexClass.longest_newline (cs ds : List Char) :
    LexClass.longest (cs ++ '\n' :: ds) = LexClass.longest cs := by
  unfold LexClass.longest
  simp only [fun k : LexClass => k.stops.append]

theorem LexClass.longest_le_length (cs : List Char) : (LexClass.longest cs).2 ≤ cs.length := by
  have hfold : ∀ (l : List LexClass) (best : LexClass × Nat), best.2 ≤ cs.length →
      (l.foldl (fun best k => if best.2 < k.length cs then (k, k.length cs) else best) best).2 ≤
        cs.length := by
    intro l
    induction l with
    | nil => exact fun best hbest => hbest
    | cons k l ih =>
      intro best hbest
      rw [List.foldl_cons]
      refine ih _ ?_
      split
      · exact k.stops.le_length cs
      · exact hbest
  exact hfold LexClass.all (.ident, 0) (Nat.zero_le _)

/-- The token at the head of a text is the same before other text, if the longest lexeme is. -/
theorem nextToken_append {c : Char} {r ds : List Char}
    (h : LexClass.longest (c :: r ++ ds) = LexClass.longest (c :: r)) :
    nextToken c (r ++ ds) = nextToken c r ∧ (nextToken c r).2 ≤ r.length := by
  have hlength := LexClass.longest_le_length (c :: r)
  rw [List.length_cons] at hlength
  unfold nextToken
  rw [← List.cons_append, h]
  split
  · exact ⟨rfl, Nat.zero_le _⟩
  · rename_i k n hlongest
    have hn : n ≤ r.length := by
      rw [hlongest] at hlength
      exact Nat.le_of_succ_le_succ hlength
    rw [List.take_append_of_le_length hn]
    exact ⟨rfl, hn⟩

/-- The token at the head of a text ends before the newline behind the text. -/
theorem nextToken_newline (c : Char) (r ds : List Char) :
    nextToken c (r ++ '\n' :: ds) = nextToken c r ∧ (nextToken c r).2 ≤ r.length :=
  nextToken_append (LexClass.longest_newline (c :: r) ds)

theorem tokensFrom_space (offset : Nat) {c : Char} (h : isLexSpace c = true) (r : List Char) :
    tokensFrom offset (c :: r) = tokensFrom (offset + c.utf8Size) r := by
  rw [tokensFrom, if_pos h]

theorem tokensFrom_token (offset : Nat) {c : Char} (h : isLexSpace c = false) {r : List Char}
    {kind : TokenKind} {n : Nat} (hnext : nextToken c r = (kind, n)) :
    tokensFrom offset (c :: r) = ⟨kind, offset, offset + byteLength (c :: r.take n)⟩ ::
      tokensFrom (offset + byteLength (c :: r.take n)) (r.drop n) := by
  rw [tokensFrom, if_neg (Bool.eq_false_iff.1 h), hnext]

/-- The token, so many bytes later. -/
def Token.later (k : Nat) (t : Token) : Token := ⟨t.kind, k + t.start, k + t.stop⟩

theorem tokensFrom_add (k offset : Nat) (cs : List Char) :
    tokensFrom (k + offset) cs = (tokensFrom offset cs).map (·.later k) := by
  fun_induction tokensFrom offset cs with
  | case1 => simp [tokensFrom]
  | case2 offset c r hspace ih => rw [tokensFrom, if_pos hspace, Nat.add_assoc, ih]
  | case3 offset c r hspace kind n hnext stop ih =>
    rw [tokensFrom, if_neg hspace, hnext]
    dsimp only
    rw [Nat.add_assoc, ih]
    rfl

theorem tokensFrom_newline (offset : Nat) (cs ds : List Char) :
    tokensFrom offset (cs ++ '\n' :: ds) =
      tokensFrom offset cs ++ tokensFrom (offset + byteLength cs + 1) ds := by
  fun_induction tokensFrom offset cs with
  | case1 offset =>
    have hspace : isLexSpace '\n' = true := by decide
    rw [List.nil_append, tokensFrom, if_pos hspace]
    rfl
  | case2 offset c r hspace ih =>
    rw [List.cons_append, tokensFrom, if_pos hspace, ih, byteLength_cons, Nat.add_assoc offset]
  | case3 offset c r hspace kind n hnext stop ih =>
    obtain ⟨hsame, hn⟩ := nextToken_newline c r ds
    rw [hnext] at hsame hn
    have hplace : stop + byteLength (r.drop n) = offset + byteLength (c :: r) := by
      show offset + byteLength (c :: r.take n) + _ = _
      rw [Nat.add_assoc, ← byteLength_append, List.cons_append, List.take_append_drop]
    rw [List.cons_append, tokensFrom, if_neg hspace, hsame]
    dsimp only
    rw [List.take_append_of_le_length hn, List.drop_append_of_le_length hn, List.cons_append,
      ← hplace]
    exact congrArg _ ih

/-- **A newline between two texts separates their tokens.** -/
theorem tokenize_newline (a b : String) : tokenize (a ++ "\n" ++ b) =
    tokenize a ++ (tokenize b).map (·.later (byteLength a.toList + 1)) := by
  have htext : (a ++ "\n" ++ b).toList = a.toList ++ '\n' :: b.toList := by
    rw [String.toList_append, String.toList_append, List.append_assoc]
    rfl
  rw [tokenize, htext, tokensFrom_newline, Nat.zero_add]
  exact congrArg _ (tokensFrom_add (byteLength a.toList + 1) 0 b.toList)

end CInterface
