import CInterface.Proofs.Token.Covering
/-!
# Printing tokens again

A text that is read without an error can be printed from its tokens, with a space between any two of
them, and it is read as the same tokens again. For a token is the longest of its class where it stands,
and so it is by itself; and no token but a literal goes on with a blank.

* `Settles` — a reader of characters that takes what it takes for the sake of these alone.
* `TokenKind.IsLexeme.holdsBefore_blank` — no token fuses with a blank or with the end of the text.
* `kindsOf_printed` — tokens that are printed with spaces between them are read back.
* `tokenize_reprints` — the tokens of every text.
-/

namespace CInterface

open Text

/-! ### Readers that settle -/

/-- What `f` takes at the head of a text is the same without the rest, if it does not reach into
it. -/
def Settles (f : List Char → Nat) : Prop := ∀ cs ds, f (cs ++ ds) ≤ cs.length → f cs = f (cs ++ ds)

theorem settles_spanLength (p : Char → Bool) : Settles (spanLength p) := by
  intro cs ds h
  induction cs with
  | nil => exact (Nat.le_zero.1 h).symm
  | cons c cs ih =>
    simp only [spanLength, List.cons_append, List.takeWhile_cons] at h ih ⊢
    split
    · rename_i hc
      rw [if_pos hc, List.length_cons, List.length_cons] at h
      rw [List.length_cons, List.length_cons, ih (Nat.le_of_succ_le_succ h)]
    · rfl

/-- Two readers one behind the other. -/
theorem Settles.seq {f g : List Char → Nat} (hf : Settles f) (hg : Settles g) :
    Settles fun cs => f cs + g (cs.drop (f cs)) := by
  intro cs ds h
  dsimp only at h ⊢
  have hle : f (cs ++ ds) ≤ cs.length := Nat.le_trans (Nat.le_add_right _ _) h
  rw [List.drop_append_of_le_length hle] at h ⊢
  have hrest : g (cs.drop (f (cs ++ ds)) ++ ds) ≤ (cs.drop (f (cs ++ ds))).length := by
    rw [List.length_drop]
    omega
  rw [hf cs ds hle, hg _ ds hrest]

theorem settles_integerSuffixLength : Settles integerSuffixLength := settles_spanLength _

theorem settles_plainIntegerLength : Settles plainIntegerLength := by
  intro cs ds h
  have hboth := (settles_spanLength Char.isDigit).seq settles_integerSuffixLength cs ds
  have hdigits := settles_spanLength Char.isDigit cs ds
  unfold plainIntegerLength at h ⊢
  split at h
  · rename_i hzero
    rw [hdigits (by omega), if_pos hzero, if_pos hzero]
  · rename_i hsome
    have hsame := hdigits (by omega)
    rw [if_neg hsome, if_neg (by rwa [hsame])]
    exact hboth h

theorem settles_integerLength : Settles integerLength := by
  intro cs ds h
  have hplain : (∀ x r, cs ++ ds ≠ '0' :: x :: r) → integerLength cs = integerLength (cs ++ ds) := by
    intro hother
    rw [integerLength_plain hother] at h ⊢
    rw [integerLength_plain, settles_plainIntegerLength cs ds h]
    rintro x r rfl
    exact hother x (r ++ ds) rfl
  match cs with
  | [] => exact (Nat.le_zero.1 h).symm
  | [c] =>
    by_cases hhex : ∃ x r, c = '0' ∧ ds = x :: r
    · obtain ⟨x, r, rfl, rfl⟩ := hhex
      rw [List.singleton_append, integerLength_hex] at h ⊢
      split at h
      · rw [hexIntegerLength, List.length_singleton] at h
        omega
      · rename_i hnot
        rw [if_neg hnot]
        exact settles_plainIntegerLength ['0'] (x :: r) h
    · refine hplain fun x r heq => ?_
      obtain ⟨rfl, rfl⟩ := List.cons.inj heq
      exact hhex ⟨x, r, rfl, rfl⟩
  | c :: x :: r =>
    by_cases hzero : c = '0'
    · subst hzero
      have hdigits := settles_spanLength isHexDigit r ds
      have hhex := (settles_spanLength isHexDigit).seq settles_integerSuffixLength r ds
      have hsame := settles_plainIntegerLength ('0' :: x :: r) ds
      simp only [List.cons_append, integerLength_hex] at h ⊢
      split at h
      · rename_i hx
        rw [hexIntegerLength, List.length_cons, List.length_cons] at h
        have hcount := hdigits (by omega)
        rw [if_pos hx, if_pos (by rwa [hcount]), hexIntegerLength, hexIntegerLength]
        have hrest := hhex (by dsimp only; omega)
        dsimp only at hrest
        omega
      · rename_i hx
        rw [if_neg hx, if_neg]
        · exact hsame h
        · intro hx'
          obtain ⟨hletter, hsome⟩ := Bool.and_eq_true_iff.1 hx'
          refine hx (Bool.and_eq_true_iff.2 ⟨hletter, decide_eq_true fun hnone => ?_⟩)
          exact of_decide_eq_true hsome (by rw [hdigits (by omega), hnone])
    · exact hplain fun y r' heq => hzero (List.cons.inj heq).1

theorem settles_exponentLength : Settles exponentLength := by
  intro cs ds h
  match cs with
  | [] => exact (Nat.le_zero.1 h).symm
  | [e] =>
    -- an exponent has more than its letter
    have hnone : exponentLength [e] = 0 := by
      rw [exponentLength_cons]
      split <;> rfl
    have hmore : exponentLength (e :: ds) ≠ 0 → 2 ≤ exponentLength (e :: ds) := by
      rw [exponentLength_cons]
      split
      · split <;> omega
      · exact fun h => absurd rfl h
    rw [List.singleton_append, List.length_singleton] at h
    rw [List.singleton_append, hnone]
    omega
  | e :: c :: r =>
    have hsign : signLength (c :: (r ++ ds)) = signLength (c :: r) := by
      rw [signLength_cons, signLength_cons]
    have hle : signLength (c :: r) ≤ (c :: r).length := (stops_signLength (x := ' ') rfl).le_length _
    have hdigits := settles_spanLength Char.isDigit ((c :: r).drop (signLength (c :: r))) ds
    rw [← List.drop_append_of_le_length hle, List.cons_append, List.length_drop] at hdigits
    rw [List.cons_append, List.cons_append, exponentLength_cons, hsign] at h
    rw [List.cons_append, List.cons_append, exponentLength_cons, exponentLength_cons, hsign]
    split at h
    · rename_i hletter
      rw [if_pos hletter, if_pos hletter]
      rw [List.length_cons] at h
      have hsame := hdigits (by split at h <;> omega)
      rw [hsame]
    · rename_i hletter
      rw [if_neg hletter, if_neg hletter]

theorem settles_floatSuffixLength : Settles floatSuffixLength := by
  intro cs ds h
  cases cs with
  | nil => exact (Nat.le_zero.1 h).symm
  | cons c cs => rfl

/-- The end of a floating literal, if it does not reach into the rest. -/
theorem floatEnd_settles {cs ds : List Char} {mantissa exponent : Nat}
    (h : floatEnd (cs ++ ds) mantissa exponent ≤ cs.length) :
    floatEnd cs mantissa exponent = floatEnd (cs ++ ds) mantissa exponent := by
  rw [floatEnd, floatEnd] at *
  have hle : mantissa + exponent ≤ cs.length := by omega
  rw [List.drop_append_of_le_length hle] at h ⊢
  rw [settles_floatSuffixLength _ ds (by rw [List.length_drop]; omega)]

/-- A floating literal has more than the digits that it begins with. -/
theorem lt_floatBehind (cs : List Char) (whole : Nat) (behind : List Char) :
    floatBehind cs whole behind = 0 ∨ whole < floatBehind cs whole behind := by
  unfold floatBehind
  split
  · split
    · exact Or.inl rfl
    · refine Or.inr ?_
      rw [floatEnd]
      omega
  · split
    · exact Or.inl rfl
    · rename_i hsome
      rw [Bool.or_eq_true, decide_eq_true_eq, decide_eq_true_eq, not_or] at hsome
      refine Or.inr ?_
      rw [floatEnd]
      omega

/-- Digits alone are no floating literal. -/
theorem floatBehind_nil (cs : List Char) (whole : Nat) : floatBehind cs whole [] = 0 := by
  rw [floatBehind_plain cs whole (by simp), if_pos (by simp [exponentLength])]

/-- The length of a floating literal behind its first digits, if it does not reach into the rest. -/
theorem floatBehind_settles {cs ds behind : List Char} {whole : Nat} (hbehind : cs.drop whole = behind)
    (hwhole : whole ≤ cs.length) (h : floatBehind (cs ++ ds) whole (behind ++ ds) ≤ cs.length) :
    floatBehind cs whole behind = floatBehind (cs ++ ds) whole (behind ++ ds) := by
  have hlength := congrArg List.length hbehind
  rw [List.length_drop] at hlength
  by_cases hpoint : behind.head? = some '.'
  · obtain ⟨r, rfl⟩ := List.head?_eq_some_iff.1 hpoint
    have hdigits := settles_spanLength Char.isDigit r ds
    rw [List.length_cons] at hlength
    rw [List.cons_append, floatBehind_point] at h
    rw [List.cons_append, floatBehind_point, floatBehind_point]
    split at h
    · rename_i hnone
      have hzero := of_decide_eq_true (Bool.and_eq_true_iff.1 hnone).2
      rw [if_pos hnone, if_pos (by rwa [hdigits (by omega)])]
    · rename_i hsome
      generalize hm : whole + 1 + spanLength Char.isDigit (r ++ ds) = m at h ⊢
      have hle : m ≤ cs.length := by
        rw [floatEnd] at h
        omega
      rw [List.drop_append_of_le_length hle] at h ⊢
      have hexponent := settles_exponentLength (cs.drop m) ds (by
        rw [floatEnd] at h
        rw [List.length_drop]
        omega)
      rw [hdigits (by omega), hm, if_neg hsome, if_neg hsome, hexponent]
      exact floatEnd_settles h
  · cases behind with
    | nil =>
      rw [floatBehind_nil]
      rcases lt_floatBehind (cs ++ ds) whole ([] ++ ds) with hzero | hlt
      · exact hzero.symm
      · rw [List.length_nil] at hlength
        omega
    | cons c r =>
      have hpoint' : (c :: r ++ ds).head? ≠ some '.' := hpoint
      have hexponent := settles_exponentLength (c :: r) ds
      rw [floatBehind_plain _ _ hpoint'] at h
      rw [floatBehind_plain _ _ hpoint, floatBehind_plain _ _ hpoint']
      by_cases hzero : whole = 0
      · simp only [hzero, decide_true, Bool.true_or, if_true]
      · simp only [hzero, decide_false, Bool.false_or] at h ⊢
        split at h
        · rename_i hnone
          rw [if_pos hnone, hexponent (by rw [of_decide_eq_true hnone]; exact Nat.zero_le _), if_pos hnone]
        · rename_i hsome
          have hsame := hexponent (by rw [floatEnd] at h; omega)
          rw [hsame, if_neg hsome, if_neg hsome]
          exact floatEnd_settles h

theorem settles_floatLength : Settles floatLength := by
  intro cs ds h
  have hwhole := settles_spanLength Char.isDigit cs ds
  rw [floatLength_eq] at h
  rw [floatLength_eq, floatLength_eq]
  by_cases hle : spanLength Char.isDigit (cs ++ ds) ≤ cs.length
  · rw [hwhole hle]
    rw [List.drop_append_of_le_length hle] at h ⊢
    exact floatBehind_settles rfl hle h
  · -- the first digits go on in the rest, so there is nothing behind them
    have hall := all_of_le_spanLength (Nat.le_of_not_le hle)
    have hdigits : spanLength Char.isDigit (cs ++ []) = cs.length := spanLength_append hall rfl
    rw [List.append_nil] at hdigits
    rw [hdigits, List.drop_length, floatBehind_nil]
    rcases lt_floatBehind (cs ++ ds) (spanLength Char.isDigit (cs ++ ds))
      ((cs ++ ds).drop (spanLength Char.isDigit (cs ++ ds))) with hzero | hlt
    · exact hzero.symm
    · omega

/-! ### Blanks behind tokens -/

/-- A blank at the head of a text, or nothing. -/
def BeginsBlank (r : List Char) : Prop := r.head?.all isLexSpace = true

/-- What stops at blanks takes as many characters before a blank as at the end. -/
theorem append_beginsBlank {α : Type} {f : List Char → α}
    (hf : ∀ x, isLexSpace x = true → ∀ cs ds, f (cs ++ x :: ds) = f cs) (cs : List Char)
    {r : List Char} (hr : BeginsBlank r) : f (cs ++ r) = f cs := by
  cases r with
  | nil => rw [List.append_nil]
  | cons x r => exact hf x hr cs r

/-- A blank is in no other class. -/
theorem BeginsBlank.any_eq_false {r : List Char} (hr : BeginsBlank r) {p : Char → Bool}
    (hp : [' ', '\t', '\r', '\n', '\x0c', '\x0b'].all (fun d => !p d) = true) :
    r.head?.any p = false := by
  cases r with
  | nil => rfl
  | cons x r => exact eq_false_of_isLexSpace hr p hp

/-- **No token fuses with a blank or with the end of the text.** -/
theorem TokenKind.IsLexeme.holdsBefore_blank {k : TokenKind} (hk : k.IsLexeme) {r : List Char}
    (hr : BeginsBlank r) : k.holdsBefore r = true := by
  obtain ⟨herror, c, w, s, htext, -, hlongest⟩ := hk
  have hinteger := append_beginsBlank (fun x hx => (stops_integerLength hx).append) (c :: w) hr
  have hfloat := append_beginsBlank (fun x hx => (stops_floatLength hx).append) (c :: w) hr
  have hshort := (stops_floatLength (x := ' ') rfl).le_length (c :: w)
  cases k with
  | error d => exact absurd rfl (herror d)
  | str t | char t => rfl
  | ident name =>
    have htail := hr.any_eq_false (p := isIdentTail) (by decide)
    have hquote := hr.any_eq_false (p := fun c => c = '"' || c = '\x27') (by decide)
    rw [TokenKind.holdsBefore, htail, hquote, Bool.and_false]
    rfl
  | integer t =>
    obtain ⟨hlength, -⟩ := longest_integer_iff.1 hlongest
    have hsettled := settles_integerLength (c :: w) s (Nat.le_of_eq hlength)
    rw [TokenKind.holdsBefore, show t.toList = c :: w from htext, hinteger, hfloat, hsettled,
      Bool.and_eq_true, decide_eq_true_eq, decide_eq_true_eq]
    exact ⟨hlength, hshort⟩
  | float t =>
    obtain ⟨hlength, hlt⟩ := longest_float_iff.1 hlongest
    have hsettled := settles_floatLength (c :: w) s (Nat.le_of_eq hlength)
    have hsettled' := settles_integerLength (c :: w) s (Nat.le_of_lt hlt)
    rw [TokenKind.holdsBefore, show t.toList = c :: w from htext, hinteger, hfloat, hsettled,
      hsettled', Bool.and_eq_true, decide_eq_true_eq, decide_eq_true_eq]
    exact ⟨hlength, hlt⟩
  | punct p =>
    have hpunct := append_beginsBlank (fun x hx => punctAt?_append_cons hx) p.text.toList hr
    have hdigit := hr.any_eq_false (p := Char.isDigit) (by decide)
    simp [TokenKind.holdsBefore, hpunct, p.punctAt?_self, hdigit]

/-- Blanks open no literal. -/
theorem BeginsBlank.opensLiteral {r : List Char} (hr : BeginsBlank r) : OpensLiteral r := by
  intro quote least k hmem hhead
  rw [BeginsBlank, hhead] at hr
  rcases quote_of_mem_literalKinds hmem with rfl | rfl <;> cases hr

/-- A lexeme is read before a blank or at the end of the text. -/
theorem TokenKind.IsLexeme.kindsOf_append {k : TokenKind} (hk : k.IsLexeme) {r : List Char}
    (hr : BeginsBlank r) : kindsOf (k.text.toList ++ r) = k :: kindsOf r := by
  have hlongest := (longest_iff_holdsBefore hk hr.opensLiteral).2 (hk.holdsBefore_blank hr)
  obtain ⟨herror, c, w, s, htext, hc, -⟩ := hk
  rw [htext] at hlongest
  exact kindsOf_of_longest herror htext hc hlongest

/-- The spellings of some tokens with a space between any two of them. -/
def printed (ks : List TokenKind) : String := " ".intercalate (ks.map (·.text))

theorem printed_cons_cons (k l : TokenKind) (ks : List TokenKind) :
    (printed (k :: l :: ks)).toList = k.text.toList ++ ' ' :: (printed (l :: ks)).toList := by
  rw [printed, printed, List.map_cons, List.map_cons, String.intercalate_cons_cons]
  simp

/-- **Tokens that are printed with spaces between them are read back.** -/
theorem kindsOf_printed {ks : List TokenKind} (h : ∀ k ∈ ks, k.IsLexeme) :
    kindsOf (printed ks).toList = ks := by
  induction ks with
  | nil => exact kindsOf_nil
  | cons k ks ih =>
    have hk := h k List.mem_cons_self
    have hks := ih fun k hk => h k (List.mem_cons_of_mem _ hk)
    cases ks with
    | nil =>
      have hlast := hk.kindsOf_append (r := []) rfl
      rw [List.append_nil, kindsOf_nil] at hlast
      rw [printed, List.map_singleton, String.intercalate_singleton]
      exact hlast
    | cons l ks =>
      rw [printed_cons_cons, hk.kindsOf_append (r := ' ' :: _) rfl, kindsOf_space rfl, hks]

/-! ### The tokens of a text -/

/-- **The tokens of a text can be printed again.** Each token stands for a part of the text that is not
empty and goes from character to character, one behind the other; what is between them, before them and
behind them is white space. A token that is no error is spelled as its part of the text, and the errors
are those of the error tokens, in order, each with the place and the first character of its part. Where
there is no error, the spellings with spaces between them are read as the same tokens, without an
error. -/
theorem tokenize_reprints (text : String) :
    let ts := tokenize text
    (∀ t ∈ ts, t.start < t.stop ∧ ∃ pre lexeme post : List Char,
      text.toList = pre ++ (lexeme ++ post) ∧ t.start = byteLength pre ∧
        t.stop = byteLength (pre ++ lexeme) ∧
        ((∀ first, t.kind ≠ .error first) → t.kind.text.toList = lexeme)) ∧
      ts.Pairwise (fun a b => a.stop ≤ b.start) ∧
      (∀ pre c post, text.toList = pre ++ c :: post →
        (∀ t ∈ ts, ¬ (t.start ≤ byteLength pre ∧ byteLength pre < t.stop)) →
        c ∈ [' ', '\t', '\r', '\n', '\x0c', '\x0b']) ∧
      List.Forall₂ (fun (e : LexError) (t : Token) => t.kind = .error e.first ∧ e.offset = t.start ∧
        (slice t.start t.stop text.toList).head? = some e.first)
        (lexErrors ts) (ts.filter Token.isError) ∧
      (lexErrors ts = [] →
        let again := tokenize (" ".intercalate (ts.map (·.kind.text)))
        again.map (·.kind) = ts.map (·.kind) ∧ lexErrors again = []) := by
  intro ts
  have hcovers : Covers 0 text.toList ts := covers_tokensFrom 0 text.toList
  refine ⟨fun t ht => ?_, pairwise_tokensFrom 0 text.toList, fun pre c post htext hout => ?_, ?_, ?_⟩
  · obtain ⟨pre, lexeme, post, htext, hne, hstart, hstop, hkind⟩ := hcovers.exists_part ht
    obtain ⟨c, w, rfl⟩ := List.exists_cons_of_ne_nil hne
    have hc := c.utf8Size_pos
    refine ⟨by rw [hstop, byteLength_cons]; omega, pre, c :: w, post, htext, by omega, ?_, ?_⟩
    · rw [hstop, hstart, byteLength_append, Nat.zero_add]
    · intro herror
      cases hk : t.kind with
      | error first => exact absurd hk (herror first)
      | _ =>
        rw [hk] at hkind
        exact hkind
  · have hspace := hcovers.isLexSpace_of_outside htext fun t ht => by
      rw [Nat.zero_add]
      exact hout t ht
    simpa [isLexSpace, or_assoc] using hspace
  · refine (forall₂_lexErrors ts).imp ?_
    rintro e t ⟨ht, hkind, hoffset⟩
    obtain ⟨pre, lexeme, post, htext, -, hstart, hstop, hstands⟩ := hcovers.exists_part ht
    refine ⟨hkind, hoffset, ?_⟩
    have hslice := slice_append pre (lexeme ++ post) 0 (byteLength lexeme)
    rw [Nat.add_zero, slice_zero_append] at hslice
    rw [hstop, hstart, Nat.zero_add, htext, hslice]
    rw [hkind] at hstands
    exact hstands
  · intro hclean
    have hreadable : ∀ d, .error d ∉ ts.map (·.kind) := fun d hd =>
      (lexErrors_eq_nil_iff text.toList).1 hclean ⟨d, hd⟩
    have hlexemes : ∀ k ∈ ts.map (·.kind), k.IsLexeme := fun k hk =>
      isLexeme_of_mem_kindsOf hk fun d hd => hreadable d (by rwa [← hd])
    have hkinds : (tokenize (printed (ts.map (·.kind)))).map (·.kind) = ts.map (·.kind) :=
      kindsOf_printed hlexemes
    rw [printed, List.map_map] at hkinds
    refine ⟨hkinds, (lexErrors_eq_nil_iff _).2 ?_⟩
    rintro ⟨d, hd⟩
    exact hreadable d (by rwa [← hkinds])

/-- Tokens that fuse without the spaces between them, and a literal with a closing quote in it. -/
theorem tokenize_reprints_sample :
    let text := "0x1fUL+ +.5e3f\tL\"\\\"w\"L 1. .. <<=="
    lexErrors (tokenize text) = [] ∧
      (tokenize "0x1fUL + + .5e3f L\"\\\"w\" L 1. . . <<= =").map (·.kind) =
        (tokenize text).map (·.kind) := by
  intro text
  have hclean : lexErrors (tokenize text) = [] := by decide +kernel
  have hprinted : " ".intercalate ((tokenize text).map (·.kind.text)) =
      "0x1fUL + + .5e3f L\"\\\"w\" L 1. . . <<= =" := by decide +kernel
  have hagain := ((tokenize_reprints text).2.2.2.2 hclean).1
  rw [hprinted] at hagain
  exact ⟨hclean, hagain⟩

end CInterface
