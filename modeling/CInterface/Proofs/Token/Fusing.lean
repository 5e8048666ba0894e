import CInterface.Proofs.Token.TrailingBlanks
/-!
# Tokens written against each other

The spellings of some tokens, written one behind the other without anything between them, are read as
these tokens only where no two of them fuse: a word goes on with the letters of the next word, a number
with its suffix or exponent, a punctuator with another one, and an `L` belongs to the literal behind it.

* `TokenKind.IsLexeme` — the token is one of some text; `isLexeme_of_mem_kindsOf`.
* `TokenKind.holdsBefore` — the token does not fuse with the text behind it.
* `longest_iff_holdsBefore` — just then its spelling is the longest lexeme where it stands.
* `kindsOf_spelled_iff` — the tokens are read back just where each of them holds before the rest.
-/

namespace CInterface

open Text

/-! ### The longest lexeme -/

namespace LexClass

/-- The longer of what was found so far and what a class finds. -/
def longer (cs : List Char) (best : LexClass × Nat) (k : LexClass) : LexClass × Nat :=
  if best.2 < k.length cs then (k, k.length cs) else best

theorem longer_spec (cs : List Char) (best : LexClass × Nat) (k : LexClass) :
    best.2 ≤ (longer cs best k).2 ∧ k.length cs ≤ (longer cs best k).2 ∧
      (longer cs best k = best ∨ (longer cs best k).1.length cs = (longer cs best k).2) := by
  unfold longer
  split
  · exact ⟨Nat.le_of_lt ‹_›, Nat.le_refl _, Or.inr rfl⟩
  · exact ⟨Nat.le_refl _, Nat.le_of_not_lt ‹_›, Or.inl rfl⟩

/-- What is found last is at least as long as what was found before and what any class finds, and it is
as long as it is said to be. -/
theorem foldl_longer (cs : List Char) (l : List LexClass) (best : LexClass × Nat) :
    best.2 ≤ (l.foldl (longer cs) best).2 ∧
      (∀ k ∈ l, k.length cs ≤ (l.foldl (longer cs) best).2) ∧
      (l.foldl (longer cs) best = best ∨
        (l.foldl (longer cs) best).1.length cs = (l.foldl (longer cs) best).2) := by
  induction l generalizing best with
  | nil => exact ⟨Nat.le_refl _, nofun, Or.inl rfl⟩
  | cons k l ih =>
    obtain ⟨hbest, hall, hlast⟩ := ih (longer cs best k)
    obtain ⟨hle, hk, hstep⟩ := longer_spec cs best k
    rw [List.foldl_cons]
    refine ⟨Nat.le_trans hle hbest, fun k' hk' => ?_, ?_⟩
    · rcases List.mem_cons.1 hk' with rfl | hk'
      · exact Nat.le_trans hk hbest
      · exact hall k' hk'
    · rcases hlast with hlast | hlast
      · rw [hlast]
        exact hstep
      · exact Or.inr hlast

/-- No class reaches further than the longest one. -/
theorem length_le_longest (k : LexClass) (cs : List Char) : k.length cs ≤ (longest cs).2 := by
  have hmem : k ∈ all := by cases k <;> decide
  exact (foldl_longer cs all (ident, 0)).2.1 k hmem

/-- The longest class reaches as far as it is said to. -/
theorem length_longest {k : LexClass} {cs : List Char} {n : Nat} (h : longest cs = (k, n + 1)) :
    k.length cs = n + 1 := by
  have hlast := (foldl_longer cs all (ident, 0)).2.2
  rw [show all.foldl (longer cs) (ident, 0) = (k, n + 1) from h] at hlast
  exact hlast.resolve_left fun heq => Nat.succ_ne_zero n (Prod.mk.inj heq).2

end LexClass

/-! ### Tokens as lexemes -/

namespace TokenKind

/-- The lexical class of a token. -/
def lexClass : TokenKind → LexClass
  | ident _ => .ident
  | integer _ => .integer
  | float _ => .float
  | str _ => .str
  | char _ => .char
  | punct _ => .punct
  | error _ => .openStr

/-- The token is one of some text: its spelling is the longest lexeme in some place. -/
def IsLexeme (k : TokenKind) : Prop :=
  (∀ d, k ≠ .error d) ∧ ∃ c w r, k.text.toList = c :: w ∧ isLexSpace c = false ∧
    LexClass.longest (c :: (w ++ r)) = (k.lexClass, w.length + 1)

end TokenKind

theorem TokenKind.kind_lexClass {k : TokenKind} (hk : ∀ d, k ≠ .error d) (c : Char) :
    k.lexClass.kind c k.text.toList = k := by
  cases k with
  | error d => exact absurd rfl (hk d)
  | punct p => simp only [lexClass, LexClass.kind, text, Punct.punctAt?_self]
  | ident t | integer t | float t | str t | char t =>
    simp only [lexClass, LexClass.kind, text, String.ofList_toList]

/-- What two texts have at their heads is the same if it is equally long. -/
theorem eq_take_of_isPrefixOf {u cs : List Char} (h : u.isPrefixOf cs = true) :
    u = cs.take u.length :=
  List.prefix_iff_eq_take.1 (List.isPrefixOf_iff_prefix.1 h)

/-- The token at the head of a text has the longest lexeme there as its spelling. -/
theorem nextToken_eq {c : Char} {r : List Char} {k : TokenKind} {n : Nat}
    (h : nextToken c r = (k, n)) (hk : ∀ d, k ≠ .error d) :
    LexClass.longest (c :: r) = (k.lexClass, n + 1) ∧ k.text.toList = c :: r.take n := by
  unfold nextToken at h
  split at h
  · exact absurd (Prod.mk.inj h).1.symm (hk c)
  · rename_i K m hlongest
    obtain ⟨hkind, rfl⟩ := Prod.mk.inj h
    rw [hlongest]
    cases K with
    | punct =>
      have hlength := LexClass.length_longest hlongest
      simp only [LexClass.length] at hlength
      split at hlength
      · rename_i p hp
        have htext : p.text.toList = c :: r.take m := by
          have htake := eq_take_of_isPrefixOf (isPrefixOf_of_punctAt? hp)
          rwa [String.length_toList, hlength, List.take_succ_cons] at htake
        rw [← htext, LexClass.kind, Punct.punctAt?_self] at hkind
        subst hkind
        exact ⟨rfl, htext⟩
      · cases hlength
    | openStr | openChar => exact absurd hkind.symm (hk c)
    | ident | integer | float | str | char =>
      subst hkind
      exact ⟨rfl, String.toList_ofList⟩

/-- A token that is the longest lexeme of its class where it stands is read there. -/
theorem kindsOf_of_longest {k : TokenKind} (hk : ∀ d, k ≠ .error d) {c : Char} {w r : List Char}
    (htext : k.text.toList = c :: w) (hc : isLexSpace c = false)
    (h : LexClass.longest (c :: (w ++ r)) = (k.lexClass, w.length + 1)) :
    kindsOf (k.text.toList ++ r) = k :: kindsOf r := by
  have hlexeme := kindsOf_lexeme hc h
  rw [← htext, TokenKind.kind_lexClass hk] at hlexeme
  rw [htext]
  exact hlexeme

/-- The tokens of a text are lexemes, but for errors. -/
theorem isLexeme_of_mem_kindsOf {cs : List Char} {k : TokenKind} (h : k ∈ kindsOf cs)
    (hk : ∀ d, k ≠ .error d) : k.IsLexeme := by
  unfold kindsOf at h
  generalize 0 = offset at h
  fun_induction tokensFrom offset cs with
  | case1 => cases h
  | case2 offset c r hspace ih => exact ih h
  | case3 offset c r hspace kind n hnext stop ih =>
    rw [List.map_cons] at h
    rcases List.mem_cons.1 h with rfl | h
    · obtain ⟨hlongest, htext⟩ := nextToken_eq hnext hk
      have hle := LexClass.longest_le_length (c :: r)
      rw [hlongest, List.length_cons] at hle
      refine ⟨hk, c, r.take n, r.drop n, htext, Bool.eq_false_iff.2 hspace, ?_⟩
      rw [List.take_append_drop, hlongest, List.length_take, Nat.min_eq_left (by omega)]
    · exact ih h

/-! ### Literals -/

section Literals

variable {quote : Char} {least : Nat}

/-- A scan for the end of a literal that stops inside a text does not depend on what follows it. -/
theorem literalItems_of_append {cs r : List Char}
    (h : literalItems quote (cs ++ r) < cs.length) :
    literalItems quote cs = literalItems quote (cs ++ r) := by
  fun_induction literalItems quote cs with
  | case1 => cases h
  | case2 c hend =>
    rw [List.length_singleton] at h
    exact (Nat.lt_one_iff.1 h).symm
  | case3 c hend =>
    -- an ordinary character does not end the literal
    simp only [Bool.or_eq_true, decide_eq_true_eq, not_or] at hend
    obtain ⟨⟨hquote, hslash⟩, hnewline⟩ := hend
    rw [List.singleton_append, List.length_singleton] at h
    cases r with
    | nil => simp [literalItems, hquote, hslash, hnewline] at h
    | cons d r =>
      rw [literalItems, if_neg hslash, if_neg (by simp [hquote, hnewline])] at h
      omega
  | case4 r => rw [List.cons_append, List.cons_append, literalItems, if_pos rfl, if_pos rfl]
  | case5 d r hnewline ih =>
    rw [List.cons_append, List.cons_append, literalItems, if_pos rfl, if_neg hnewline] at h ⊢
    rw [List.length_cons, List.length_cons] at h
    rw [ih (by omega)]
  | case6 c d r hescape hend =>
    rw [List.cons_append, List.cons_append, literalItems, if_neg hescape, if_pos hend]
  | case7 c d r hescape hend ih =>
    rw [List.cons_append, List.cons_append, literalItems, if_neg hescape, if_neg hend] at h ⊢
    rw [List.length_cons] at h
    rw [List.cons_append] at ih
    rw [ih (by omega)]

theorem literalLength_eq_succ {cs : List Char} {n : Nat} : literalLength quote least cs = n + 1 ↔
    openLiteralLength quote least cs = n ∧ n ≠ 0 ∧ (cs.drop n).head? = some quote := by
  unfold literalLength
  dsimp only
  split
  · rename_i h
    rw [Bool.and_eq_true, decide_eq_true_eq, decide_eq_true_eq] at h
    constructor
    · intro heq
      obtain rfl := Nat.succ.inj heq
      exact ⟨rfl, h⟩
    · rintro ⟨rfl, -⟩
      rfl
  · rename_i h
    rw [Bool.and_eq_true, decide_eq_true_eq, decide_eq_true_eq] at h
    refine ⟨fun heq => absurd heq.symm (Nat.succ_ne_zero n), ?_⟩
    rintro ⟨rfl, hne, hclose⟩
    exact absurd ⟨hne, hclose⟩ h

/-- A literal is read as far, whatever follows it. -/
theorem literalLength_lexeme (hquote : quote ≠ '\\') {t r : List Char} (hne : t ≠ [])
    (h : literalLength quote least (t ++ r) = t.length) (s : List Char) :
    literalLength quote least (t ++ s) = t.length := by
  obtain ⟨n, hn⟩ : ∃ n, t.length = n + 1 :=
    Nat.exists_eq_succ_of_ne_zero fun hzero => hne (List.eq_nil_of_length_eq_zero hzero)
  rw [hn, literalLength_eq_succ] at h ⊢
  obtain ⟨hopen, hpos, hclose⟩ := h
  rw [openLiteralLength_eq] at hopen ⊢
  -- the opening is a part of the literal
  have hopening : literalOpening quote (t ++ s) = literalOpening quote (t ++ r) := by
    match t, hn with
    | [_], hn => exact absurd (Nat.succ.inj hn).symm hpos
    | a :: b :: t, _ => rfl
  rw [hopening]
  generalize literalOpening quote (t ++ r) = o at hopen ⊢
  split at hopen
  · exact absurd hopen.symm hpos
  · rename_i hleast
    have ho : o ≤ t.length := by omega
    rw [List.drop_append_of_le_length ho] at hleast hopen ⊢
    rw [List.drop_append_of_le_length (by omega)] at hclose ⊢
    have hdrop : t.drop n ≠ [] := fun hnil => by
      have hlength := congrArg List.length hnil
      rw [List.length_drop, List.length_nil] at hlength
      omega
    obtain ⟨d, u, hu⟩ := List.exists_cons_of_ne_nil hdrop
    rw [hu] at hclose ⊢
    have hitems : literalItems quote (t.drop o) = literalItems quote (t.drop o ++ r) :=
      literalItems_of_append (by rw [List.length_drop]; omega)
    have hcloses : ClosesLiteral quote (t.drop o) := by
      rw [ClosesLiteral, hitems, List.drop_drop, hopen, hu]
      exact hclose
    rw [literalItems_append hquote hcloses, hitems]
    exact ⟨by rw [if_neg hleast, hopen], hpos, hclose⟩

/-- With an `L` before it a literal is a literal still. -/
theorem openLiteralLength_wide (hL : quote ≠ 'L') {cs : List Char}
    (h : openLiteralLength quote least (quote :: cs) ≠ 0) :
    1 < openLiteralLength quote least ('L' :: quote :: cs) := by
  rw [openLiteralLength_eq, literalOpening_quote] at h
  rw [openLiteralLength_eq, literalOpening_wide hL]
  split at h
  · exact absurd rfl h
  · rename_i hleast
    rw [not_or] at hleast
    have hitems : ¬ literalItems quote (('L' :: quote :: cs).drop 2) < least := hleast.2
    rw [if_neg (not_or.2 ⟨by decide, hitems⟩)]
    omega

end Literals

/-! ### Holding before a text -/

/-- The token does not fuse with a text that is written against it. No word goes on, and no `L` has a
literal behind it; no number reaches further, and no longer punctuator stands where a punctuator does,
nor a number where a point does. Literals are closed. -/
def TokenKind.holdsBefore : TokenKind → List Char → Bool
  | ident name, r =>
    !r.head?.any isIdentTail && !(name = "L" && r.head?.any fun c => c = '"' || c = '\x27')
  | integer t, r =>
    integerLength (t.toList ++ r) = t.toList.length && floatLength (t.toList ++ r) ≤ t.toList.length
  | float t, r =>
    floatLength (t.toList ++ r) = t.toList.length && integerLength (t.toList ++ r) < t.toList.length
  | str _, _ | char _, _ => true
  | punct p, r => punctAt? (p.text.toList ++ r) = some p && !(p = .dot && r.head?.any Char.isDigit)
  | error _, _ => false

/-- A quote at the head of the text opens a literal. -/
def OpensLiteral (r : List Char) : Prop :=
  ∀ quote least k, (quote, least, k) ∈ literalKinds → r.head? = some quote →
    openLiteralLength quote least r ≠ 0

theorem all_of_le_spanLength {p : Char → Bool} {w r : List Char}
    (h : w.length ≤ spanLength p (w ++ r)) : w.all p = true := by
  have hrun := List.prefix_of_prefix_length_le (List.prefix_append w r) (List.takeWhile_prefix p) h
  rw [List.all_eq_true]
  exact fun c hc => List.all_eq_true.1 List.all_takeWhile c (hrun.subset hc)

theorem any_head?_of_spanLength {p : Char → Bool} {w r : List Char}
    (h : spanLength p (w ++ r) = w.length) : r.head?.any p = false := by
  cases r with
  | nil => rfl
  | cons d r =>
    have hw := all_of_le_spanLength (Nat.le_of_eq h.symm)
    rw [List.head?_cons, Option.any_some, Bool.eq_false_iff]
    intro hd
    have hlonger : spanLength p (w ++ d :: r) = w.length + 1 + spanLength p r := by
      rw [spanLength, List.takeWhile_append_of_pos fun c hc => List.all_eq_true.1 hw c hc,
        List.takeWhile_cons, if_pos hd, List.length_append, List.length_cons, spanLength]
      omega
    omega

section Lexemes

variable {c : Char} {w r : List Char}

theorem spanLength_of_longest_ident (h : LexClass.longest (c :: (w ++ r)) = (.ident, w.length + 1)) :
    isIdentHead c = true ∧ spanLength isIdentTail (w ++ r) = w.length := by
  have hlength : identLength (c :: (w ++ r)) = w.length + 1 := LexClass.length_longest h
  rw [identLength] at hlength
  split at hlength
  · exact ⟨‹_›, Nat.succ.inj hlength⟩
  · cases hlength

theorem longest_ident_iff (hword : isIdentifier (c :: w) = true) (hr : OpensLiteral r) :
    LexClass.longest (c :: (w ++ r)) = (.ident, w.length + 1) ↔
      r.head?.any isIdentTail = false ∧
        ¬ (c :: w = ['L'] ∧ r.head?.any (fun c => c = '"' || c = '\x27') = true) := by
  have hquotes : ∀ quote : Char, quote = '"' ∨ quote = '\x27' →
      ∃ least k, (quote, least, k) ∈ literalKinds := by
    rintro quote (rfl | rfl)
    · exact ⟨0, .openStr, by decide⟩
    · exact ⟨1, .openChar, by decide⟩
  constructor
  · intro h
    refine ⟨any_head?_of_spanLength (spanLength_of_longest_ident h).2, ?_⟩
    rintro ⟨hL, hhead⟩
    obtain ⟨rfl, rfl⟩ := List.cons.inj hL
    cases r with
    | nil => cases hhead
    | cons quote r =>
      rw [List.head?_cons, Option.any_some, Bool.or_eq_true, decide_eq_true_eq,
        decide_eq_true_eq] at hhead
      obtain ⟨least, k, hk⟩ := hquotes quote hhead
      have hne : quote ≠ 'L' := by rcases hhead with rfl | rfl <;> decide
      -- the literal with its `L` is longer than the word
      have hwide := openLiteralLength_wide hne (hr quote least k hk rfl)
      have hle := LexClass.length_le_longest k ('L' :: quote :: r)
      rw [List.nil_append] at h
      rw [h, length_of_mem_literalKinds hk] at hle
      exact absurd hwide (Nat.not_lt_of_le hle)
  · rintro ⟨htail, hL⟩
    refine longest_ident hword htail fun hcw quote hquote hhead => hL ⟨hcw, ?_⟩
    rw [hhead, Option.any_some, Bool.or_eq_true, decide_eq_true_eq, decide_eq_true_eq]
    exact hquote

/-- Where a number can begin no word and no literal does. -/
theorem length_of_number (hc : c.isDigit = true ∨ c = '.') (r : List Char) :
    identLength (c :: r) = 0 ∧ ∀ quote, quote = '"' ∨ quote = '\x27' →
      ∀ least, openLiteralLength quote least (c :: r) = 0 := by
  have hother : isIdentHead c = false ∧ c ≠ '"' ∧ c ≠ '\x27' ∧ c ≠ 'L' := by
    rcases hc with hc | rfl
    · refine ⟨isIdentHead_of_isDigit hc, ?_, ?_, ?_⟩ <;> exact ne_of_class hc (by decide)
    · decide
  obtain ⟨hhead, hdouble, hsingle, hL⟩ := hother
  refine ⟨identLength_eq_zero hhead r, ?_⟩
  rintro quote (rfl | rfl) least
  · exact openLiteralLength_eq_zero hdouble (fun h => absurd h hL) least
  · exact openLiteralLength_eq_zero hsingle (fun h => absurd h hL) least

theorem isDigit_of_integerLength (h : integerLength (c :: r) ≠ 0) : c.isDigit = true := by
  rw [← Bool.not_eq_false]
  exact fun hc => h (integerLength_eq_zero hc r)

theorem longest_integer_iff : LexClass.longest (c :: (w ++ r)) = (.integer, w.length + 1) ↔
    integerLength (c :: (w ++ r)) = w.length + 1 ∧
      floatLength (c :: (w ++ r)) ≤ w.length + 1 := by
  constructor
  · intro h
    have hle := LexClass.length_le_longest .float (c :: (w ++ r))
    rw [h] at hle
    exact ⟨LexClass.length_longest h, hle⟩
  · rintro ⟨hinteger, hfloat⟩
    have hc : c.isDigit = true := isDigit_of_integerLength (by rw [hinteger]; exact Nat.succ_ne_zero _)
    obtain ⟨hident, hopen⟩ := length_of_number (Or.inl hc) (w ++ r)
    have hstr := hopen '"' (Or.inl rfl)
    have hchar := hopen '\x27' (Or.inr rfl)
    have hpunct := punctAt?_eq_none_of_isIdentTail (isIdentTail_of_isDigit hc) (w ++ r)
    simp [LexClass.longest, LexClass.all, LexClass.length, hident, hinteger, hpunct, hstr, hchar,
      literalLength_eq_zero, Nat.not_lt_of_le hfloat]

/-- Behind a point a digit makes a number. -/
theorem one_lt_floatLength {d : Char} (hd : d.isDigit = true) (r : List Char) :
    1 < floatLength ('.' :: d :: r) := by
  have hdigits : spanLength Char.isDigit (d :: r) ≠ 0 := by
    rw [spanLength, List.takeWhile_cons, if_pos hd]
    exact Nat.succ_ne_zero _
  rw [floatLength_eq, show spanLength Char.isDigit ('.' :: d :: r) = 0 from rfl, List.drop_zero,
    floatBehind_point, if_neg (by simp [hdigits]), floatEnd]
  omega

theorem punct_length_point {d : Char} (hd : d.isDigit = true) (r : List Char) :
    LexClass.punct.length ('.' :: d :: r) ≤ 1 := by
  simp only [LexClass.length]
  split
  · rename_i p hp
    have hprefix := isPrefixOf_of_punctAt? hp
    obtain ⟨c, u, htext, -, -, -, -, hdots⟩ := p.toList_text
    rw [htext, List.isPrefixOf_cons_cons, Bool.and_eq_true, beq_iff_eq] at hprefix
    rcases hdots hprefix.1 with rfl | hu
    · decide
    · obtain ⟨u, rfl⟩ := List.head?_eq_some_iff.1 hu
      rw [List.isPrefixOf_cons_cons, Bool.and_eq_true, beq_iff_eq] at hprefix
      rw [← hprefix.2.1] at hd
      exact absurd hd (by decide)
  · exact Nat.zero_le 1

theorem longest_float_iff : LexClass.longest (c :: (w ++ r)) = (.float, w.length + 1) ↔
    floatLength (c :: (w ++ r)) = w.length + 1 ∧
      integerLength (c :: (w ++ r)) < w.length + 1 := by
  constructor
  · intro h
    have hle := LexClass.length_le_longest .integer (c :: (w ++ r))
    have hfloat : floatLength (c :: (w ++ r)) = w.length + 1 := LexClass.length_longest h
    rw [h] at hle
    refine ⟨hfloat, Nat.lt_of_le_of_ne hle fun hinteger => ?_⟩
    -- of two numbers that are equally long the integer would be taken
    have hlongest := longest_integer_iff.2 ⟨hinteger, Nat.le_of_eq hfloat⟩
    rw [hlongest] at h
    cases h
  · rintro ⟨hfloat, hinteger⟩
    have hc : c.isDigit = true ∨ c = '.' ∧ (w ++ r).head?.any Char.isDigit = true := by
      by_cases hc : c.isDigit = true
      · exact Or.inl hc
      · refine Or.inr (Classical.byContradiction fun hpoint => ?_)
        rw [floatLength_eq_zero (Bool.eq_false_iff.2 hc)] at hfloat
        · cases hfloat
        · intro hdot
          rw [← Bool.not_eq_true]
          exact fun hdigit => hpoint ⟨hdot, hdigit⟩
    have hpunct : LexClass.punct.length (c :: (w ++ r)) < w.length + 1 := by
      rcases hc with hc | ⟨rfl, hhead⟩
      · have hnone := punctAt?_eq_none_of_isIdentTail (isIdentTail_of_isDigit hc) (w ++ r)
        simp only [LexClass.length, hnone]
        exact Nat.succ_pos _
      · cases hwr : w ++ r with
        | nil =>
          rw [hwr] at hhead
          cases hhead
        | cons d u =>
          rw [hwr] at hfloat hhead
          have hlong := one_lt_floatLength hhead u
          rw [hfloat] at hlong
          exact Nat.lt_of_le_of_lt (punct_length_point hhead u) hlong
    obtain ⟨hident, hopen⟩ := length_of_number (hc.imp id And.left) (w ++ r)
    have hstr := hopen '"' (Or.inl rfl)
    have hchar := hopen '\x27' (Or.inr rfl)
    refine longest_of_length_lt hfloat (Nat.succ_pos _) ?_
    intro k hk
    have hnone : ∀ n, n = 0 → n < w.length + 1 := fun n hn => by omega
    cases k with
    | ident => exact hnone _ hident
    | integer => exact hinteger
    | float => exact absurd rfl hk
    | str => exact hnone _ (literalLength_eq_zero (hstr 0))
    | char => exact hnone _ (literalLength_eq_zero (hchar 1))
    | punct => exact hpunct
    | openStr => exact hnone _ (hstr 0)
    | openChar => exact hnone _ (hchar 1)

theorem longest_punct_iff {p : Punct} : LexClass.longest (p.text.toList ++ r) =
      (.punct, p.text.toList.length) ↔
    punctAt? (p.text.toList ++ r) = some p ∧ ¬ (p = .dot ∧ r.head?.any Char.isDigit = true) := by
  constructor
  · intro h
    obtain ⟨c, w, htext, -⟩ := p.toList_text
    have hlength := h
    rw [htext, List.length_cons] at hlength
    have hpunct := LexClass.length_longest hlength
    rw [← List.length_cons, ← htext] at hpunct
    simp only [LexClass.length] at hpunct
    split at hpunct
    · rename_i q hq
      -- the punctuator that is found is as long and stands at the same place
      have htake := eq_take_of_isPrefixOf (isPrefixOf_of_punctAt? hq)
      rw [String.length_toList, hpunct, List.take_left] at htake
      obtain rfl := Punct.eq_of_text htake
      refine ⟨hq, ?_⟩
      rintro ⟨rfl, hhead⟩
      cases r with
      | nil => cases hhead
      | cons d r =>
        have hlong := one_lt_floatLength hhead r
        have hle := LexClass.length_le_longest .float (Punct.dot.text.toList ++ d :: r)
        rw [h] at hle
        exact absurd hlong (Nat.not_lt_of_le hle)
    · rw [htext] at hpunct
      cases hpunct
  · rintro ⟨hat, hdot⟩
    exact Punct.longest_text hat fun hp => Bool.eq_false_iff.2 fun hdigit => hdot ⟨hp, hdigit⟩

/-- Where a literal begins only its `L` can be another lexeme. -/
theorem length_of_opening {quote : Char} (hquote : quote = '"' ∨ quote = '\x27') {cs : List Char}
    (h : literalOpening quote cs ≠ 0) :
    (identLength cs = 0 ∨ identLength cs = 1 ∧ literalOpening quote cs = 2) ∧
      integerLength cs = 0 ∧ floatLength cs = 0 ∧ punctAt? cs = none ∧
      ∀ other, other = '"' ∨ other = '\x27' → other ≠ quote →
        ∀ least, openLiteralLength other least cs = 0 := by
  have hclass : isIdentHead quote = false ∧ isIdentTail quote = false ∧ quote.isDigit = false ∧
      quote ≠ '.' ∧ quote ≠ 'L' := by
    rcases hquote with rfl | rfl <;> decide
  obtain ⟨hhead, htail, hdigit, hdot, hL⟩ := hclass
  rcases literalOpening_cases h with ⟨r, rfl⟩ | ⟨r, rfl⟩
  · refine ⟨Or.inl (identLength_eq_zero hhead r), integerLength_eq_zero hdigit r,
      floatLength_eq_zero hdigit fun hc => absurd hc hdot, punctAt?_quote hquote r, ?_⟩
    exact fun other _ hne => openLiteralLength_eq_zero (Ne.symm hne) fun hc => absurd hc hL
  · refine ⟨Or.inr ⟨?_, literalOpening_wide hL⟩, integerLength_eq_zero (by decide) _,
      floatLength_eq_zero (r := quote :: r) (by decide) fun hc => absurd hc (by decide),
      punctAt?_eq_none_of_isIdentTail (by decide) _, ?_⟩
    · simp [identLength, spanLength, htail, isIdentHead, isWordHead]
    · intro other hother hne
      refine openLiteralLength_eq_zero ?_ fun _ hc => hne (Option.some.inj hc).symm
      rcases hother with rfl | rfl <;> decide

/-- The class of the literals with a quote that are closed. -/
def closedKind (quote : Char) : LexClass := if quote = '"' then .str else .char

/-- A literal that is closed is the longest lexeme where it stands. -/
theorem longest_closed {quote : Char} {least : Nat} {k : LexClass}
    (h : (quote, least, k) ∈ literalKinds) {n : Nat} {cs : List Char}
    (hlength : literalLength quote least cs = n + 1) :
    LexClass.longest cs = (closedKind quote, n + 1) := by
  have hquote := quote_of_mem_literalKinds h
  obtain ⟨hopen, hpos, -⟩ := literalLength_eq_succ.1 hlength
  have hopening : literalOpening quote cs ≠ 0 ∧ literalOpening quote cs ≤ n := by
    rw [openLiteralLength_eq] at hopen
    split at hopen
    · exact absurd hopen.symm hpos
    · rename_i hne
      rw [not_or] at hne
      exact ⟨hne.1, by omega⟩
  obtain ⟨hident, hinteger, hfloat, hpunct, hother⟩ := length_of_opening hquote hopening.1
  have hnone : ∀ m, m = 0 → m < n + 1 := fun m hm => by omega
  -- of the four classes of literals two have the other quote, and one lacks the closing quote
  have hliterals : (closedKind quote).length cs = n + 1 ∧ ∀ k', k' ∈ [LexClass.str, .char, .openStr,
      .openChar] → k' ≠ closedKind quote → k'.length cs < n + 1 := by
    simp only [literalKinds, List.mem_cons, Prod.mk.injEq, List.not_mem_nil, or_false] at h ⊢
    rcases h with ⟨rfl, rfl, rfl⟩ | ⟨rfl, rfl, rfl⟩
    · have hchar := hother '\x27' (Or.inr rfl) (by decide) 1
      refine ⟨hlength, ?_⟩
      rintro k' (rfl | rfl | rfl | rfl) hk'
      · exact absurd rfl hk'
      · exact hnone _ (literalLength_eq_zero hchar)
      · exact Nat.lt_succ_of_le (Nat.le_of_eq hopen)
      · exact hnone _ hchar
    · have hstr := hother '"' (Or.inl rfl) (by decide) 0
      refine ⟨hlength, ?_⟩
      rintro k' (rfl | rfl | rfl | rfl) hk'
      · exact hnone _ (literalLength_eq_zero hstr)
      · exact absurd rfl hk'
      · exact hnone _ hstr
      · exact Nat.lt_succ_of_le (Nat.le_of_eq hopen)
  refine longest_of_length_lt hliterals.1 (Nat.succ_pos n) fun k' hk' => ?_
  cases k' with
  | ident => rcases hident with hident | hident <;> simp only [LexClass.length] <;> omega
  | integer => exact hnone _ hinteger
  | float => exact hnone _ hfloat
  | punct => exact hnone _ (by simp only [LexClass.length, hpunct])
  | str | char | openStr | openChar => exact hliterals.2 _ (by decide) hk'

end Lexemes

/-! ### Reading tokens back -/

/-- A literal is read as far before any text. -/
theorem TokenKind.IsLexeme.literalLength_append {t : TokenKind} (ht : t.IsLexeme) {quote : Char}
    {least : Nat} {k : LexClass} (h : (quote, least, k) ∈ literalKinds)
    (hclass : t.lexClass = closedKind quote) (s : List Char) :
    literalLength quote least (t.text.toList ++ s) = t.text.toList.length := by
  obtain ⟨-, c, w, r, htext, -, hlongest⟩ := ht
  have hslash : quote ≠ '\\' := by rcases quote_of_mem_literalKinds h with rfl | rfl <;> decide
  have hlength := LexClass.length_longest hlongest
  rw [hclass] at hlength
  rw [htext]
  refine literalLength_lexeme hslash (List.cons_ne_nil c w) (r := r) ?_ s
  simp only [literalKinds, List.mem_cons, Prod.mk.injEq, List.not_mem_nil, or_false] at h
  rcases h with ⟨rfl, rfl, rfl⟩ | ⟨rfl, rfl, rfl⟩
  · exact hlength
  · exact hlength

/-- The token that begins with a quote is a literal. -/
theorem TokenKind.IsLexeme.lexClass_of_quote {t : TokenKind} (ht : t.IsLexeme) {quote : Char}
    (hquote : quote = '"' ∨ quote = '\x27') (hhead : t.text.toList.head? = some quote) :
    t.lexClass = closedKind quote := by
  obtain ⟨herror, c, w, r, htext, -, hlongest⟩ := ht
  rw [htext, List.head?_cons, Option.some.injEq] at hhead
  subst hhead
  have hlength := LexClass.length_longest hlongest
  have hopening : literalOpening c (c :: (w ++ r)) = 1 := literalOpening_quote
  obtain ⟨hident, hinteger, hfloat, hpunct, hother⟩ :=
    length_of_opening hquote (by rw [hopening]; exact Nat.one_ne_zero)
  have hident := hident.resolve_right (by rw [hopening]; simp)
  cases t with
  | error d => exact absurd rfl (herror d)
  | ident => exact absurd (hident.symm.trans hlength) (Nat.succ_ne_zero _).symm
  | integer => exact absurd (hinteger.symm.trans hlength) (Nat.succ_ne_zero _).symm
  | float => exact absurd (hfloat.symm.trans hlength) (Nat.succ_ne_zero _).symm
  | punct p =>
    simp only [TokenKind.lexClass, LexClass.length, hpunct] at hlength
    cases hlength
  | str =>
    rcases hquote with rfl | rfl
    · rfl
    · have hnone := literalLength_eq_zero (hother '"' (Or.inl rfl) (by decide) 0)
      exact absurd (hnone.symm.trans hlength) (Nat.succ_ne_zero _).symm
  | char =>
    rcases hquote with rfl | rfl
    · have hnone := literalLength_eq_zero (hother '\x27' (Or.inr rfl) (by decide) 1)
      exact absurd (hnone.symm.trans hlength) (Nat.succ_ne_zero _).symm
    · rfl

/-- The spellings of some tokens, one behind the other. -/
def spelled (ks : List TokenKind) : List Char := ks.flatMap (·.text.toList)

/-- Each of the tokens holds before those behind it. -/
def keptApart : List TokenKind → Bool
  | [] => true
  | k :: ks => k.holdsBefore (spelled ks) && keptApart ks

/-- In the spellings of lexemes every quote at the head opens a literal. -/
theorem opensLiteral_spelled {ks : List TokenKind} (h : ∀ k ∈ ks, k.IsLexeme) :
    OpensLiteral (spelled ks) := by
  intro quote least open' hmem hhead
  cases ks with
  | nil => cases hhead
  | cons k ks =>
    have hk := h k List.mem_cons_self
    obtain ⟨-, c, w, r, htext, -, -⟩ := hk
    have hquote := quote_of_mem_literalKinds hmem
    rw [spelled, List.flatMap_cons] at hhead ⊢
    have hfirst : k.text.toList.head? = some quote := by
      rw [htext] at hhead ⊢
      exact hhead
    have hlength := (h k List.mem_cons_self).literalLength_append hmem
      ((h k List.mem_cons_self).lexClass_of_quote hquote hfirst) (ks.flatMap (·.text.toList))
    rw [htext, List.length_cons, literalLength_eq_succ] at hlength
    rw [htext, hlength.1]
    exact hlength.2.1

/-- **The spelling of a token is the longest lexeme just where the token holds before the text behind
it.** -/
theorem longest_iff_holdsBefore {k : TokenKind} (hk : k.IsLexeme) {r : List Char}
    (hr : OpensLiteral r) : LexClass.longest (k.text.toList ++ r) =
      (k.lexClass, k.text.toList.length) ↔ k.holdsBefore r = true := by
  obtain ⟨herror, c, w, s, htext, -, hlongest⟩ := id hk
  cases k with
  | error d => exact absurd rfl (herror d)
  | ident name =>
    obtain ⟨hc, hspan⟩ := spanLength_of_longest_ident hlongest
    have hname : name = "L" ↔ c :: w = ['L'] := by
      rw [← htext, ← String.toList_inj]
      rfl
    have hword : isIdentifier (c :: w) = true :=
      Bool.and_eq_true_iff.2 ⟨hc, all_of_le_spanLength (Nat.le_of_eq hspan.symm)⟩
    rw [htext, List.cons_append, List.length_cons]
    refine (longest_ident_iff hword hr).trans ?_
    rw [← hname, TokenKind.holdsBefore, Bool.and_eq_true, Bool.not_eq_true', Bool.not_eq_true',
      ← Bool.not_eq_true (decide _ && _), Bool.and_eq_true, decide_eq_true_eq]
  | integer t =>
    have ht : t.toList = c :: w := htext
    rw [htext, List.cons_append, List.length_cons]
    refine longest_integer_iff.trans ?_
    rw [TokenKind.holdsBefore, ht, Bool.and_eq_true, decide_eq_true_eq, decide_eq_true_eq]
    rfl
  | float t =>
    have ht : t.toList = c :: w := htext
    rw [htext, List.cons_append, List.length_cons]
    refine longest_float_iff.trans ?_
    rw [TokenKind.holdsBefore, ht, Bool.and_eq_true, decide_eq_true_eq, decide_eq_true_eq]
    rfl
  | punct p =>
    refine longest_punct_iff.trans ?_
    rw [TokenKind.holdsBefore, Bool.and_eq_true, Bool.not_eq_true', decide_eq_true_eq,
      ← Bool.not_eq_true, Bool.and_eq_true, decide_eq_true_eq]
  | str t =>
    have hlength := hk.literalLength_append (by decide : ('"', 0, .openStr) ∈ literalKinds) rfl r
    rw [htext] at hlength ⊢
    exact iff_of_true (longest_closed (by decide : ('"', 0, .openStr) ∈ literalKinds) hlength) rfl
  | char t =>
    have hlength := hk.literalLength_append (by decide : ('\x27', 1, .openChar) ∈ literalKinds) rfl r
    rw [htext] at hlength ⊢
    exact iff_of_true (longest_closed (by decide : ('\x27', 1, .openChar) ∈ literalKinds) hlength) rfl

/-- **The spellings of some tokens, written one behind the other, are read as these tokens just where
each of them holds before the rest.** -/
theorem kindsOf_spelled_iff {ks : List TokenKind} (h : ∀ k ∈ ks, k.IsLexeme) :
    kindsOf (spelled ks) = ks ↔ keptApart ks = true := by
  induction ks with
  | nil => exact iff_of_true kindsOf_nil rfl
  | cons k ks ih =>
    have hks : ∀ k ∈ ks, k.IsLexeme := fun k hk => h k (List.mem_cons_of_mem _ hk)
    have hk := h k List.mem_cons_self
    have hholds := longest_iff_holdsBefore hk (opensLiteral_spelled hks)
    obtain ⟨herror, c, w, -, htext, hc, -⟩ := hk
    have hspelled : spelled (k :: ks) = k.text.toList ++ spelled ks := List.flatMap_cons
    rw [keptApart, Bool.and_eq_true, ← hholds, ← ih hks, hspelled]
    constructor
    · intro hkinds
      rw [htext, List.cons_append, kindsOf_cons hc] at hkinds
      obtain ⟨hfirst, hrest⟩ := List.cons.inj hkinds
      obtain ⟨n, hnext⟩ : ∃ n, nextToken c (w ++ spelled ks) = (k, n) := ⟨_, Prod.ext hfirst rfl⟩
      obtain ⟨hlongest, hlexeme⟩ := nextToken_eq hnext herror
      -- the token that is read first has its spelling as the lexeme, so the rest is the rest
      have hn : n = w.length := by
        have hle := LexClass.longest_le_length (c :: (w ++ spelled ks))
        have hlength := congrArg List.length (htext.symm.trans hlexeme)
        rw [hlongest, List.length_cons] at hle
        rw [List.length_cons, List.length_cons, List.length_take, Nat.min_eq_left (by omega)] at hlength
        exact (Nat.succ.inj hlength).symm
      rw [hnext, hn, List.drop_left] at hrest
      rw [hn] at hlongest
      rw [htext]
      exact ⟨hlongest, hrest⟩
    · rintro ⟨hlongest, hrest⟩
      rw [htext] at hlongest
      rw [kindsOf_of_longest herror htext hc hlongest, hrest]

end CInterface
