import CInterface.Expr.Parser
import CInterface.Proofs.Token.Joining
/-!
# Blanks behind a text

Blanks behind a text are no tokens of their own. At most they belong to a literal that is never
closed, and then the text has no value with or without them.

* `Unclosed` — the text begins with a literal that is never closed.
* `Unreadable` — some part of the text is no token.
* `kindsOf_append_blanks` — a text has the same tokens with blanks behind it, or is not readable.
* `evalText_append_blanks` — it has the same value.
-/

namespace CInterface

open Text

/-! ### Literals -/

/-- The literal at the head of `cs`, where it has a quote at its head, is closed. -/
def ClosesLiteral (quote : Char) (cs : List Char) : Prop :=
  (cs.drop (literalItems quote cs)).head? = some quote

/-- The text begins with a literal that is never closed. -/
def Unclosed (quote : Char) (cs : List Char) : Prop :=
  literalOpening quote cs ≠ 0 ∧ ¬ ClosesLiteral quote (cs.drop (literalOpening quote cs))

theorem mem_of_head?_drop {α : Type} {l : List α} {n : Nat} {a : α}
    (h : (l.drop n).head? = some a) : a ∈ l :=
  List.mem_of_mem_drop (List.mem_of_mem_head? h)

section Literals

variable {quote : Char} {least : Nat} {cs w : List Char}

theorem drop_one_add {α : Type} (a : α) (l : List α) (n : Nat) :
    (a :: l).drop (1 + n) = l.drop n := by rw [Nat.add_comm, List.drop_succ_cons]

theorem drop_two_add {α : Type} (a b : α) (l : List α) (n : Nat) :
    (a :: b :: l).drop (2 + n) = l.drop n := by
  rw [Nat.add_comm, List.drop_succ_cons, List.drop_succ_cons]

/-- A literal that is closed is closed where it is, whatever follows it. -/
theorem literalItems_append (hquote : quote ≠ '\\') (h : ClosesLiteral quote cs) (w : List Char) :
    literalItems quote (cs ++ w) = literalItems quote cs := by
  unfold ClosesLiteral at h
  fun_induction literalItems quote cs with
  | case1 => cases h
  | case2 c hend =>
    have hc : c = quote := Option.some.inj h
    subst hc
    cases w with
    | nil => simp [literalItems]
    | cons d w => simp [literalItems, hquote]
  | case3 c hend => cases h
  | case4 r => exact absurd (Option.some.inj h).symm hquote
  | case5 d r hnewline ih =>
    rw [drop_two_add] at h
    rw [List.cons_append, List.cons_append, literalItems, if_pos rfl, if_neg hnewline, ih h]
  | case6 c d r hescape hend =>
    rw [List.cons_append, List.cons_append, literalItems, if_neg hescape, if_pos hend]
  | case7 c d r hescape hend ih =>
    rw [drop_one_add] at h
    rw [List.cons_append] at ih
    rw [List.cons_append, List.cons_append, literalItems, if_neg hescape, if_neg hend, ih h]

/-- What has no quote closes no literal. -/
theorem closesLiteral_of_append (hw : quote ∉ w) (h : ClosesLiteral quote (cs ++ w)) :
    ClosesLiteral quote cs := by
  unfold ClosesLiteral at h ⊢
  fun_induction literalItems quote cs with
  | case1 => exact absurd (mem_of_head?_drop h) hw
  | case2 c hend =>
    have hmem := mem_of_head?_drop h
    rw [List.singleton_append, List.mem_cons] at hmem
    rw [hmem.resolve_right hw]
    rfl
  | case3 c hend =>
    have hmem := mem_of_head?_drop h
    rw [List.singleton_append, List.mem_cons] at hmem
    rw [hmem.resolve_right hw] at hend
    simp at hend
  | case4 r =>
    rw [List.cons_append, List.cons_append, literalItems, if_pos rfl, if_pos rfl] at h
    exact h
  | case5 d r hnewline ih =>
    rw [List.cons_append, List.cons_append, literalItems, if_pos rfl, if_neg hnewline,
      drop_two_add] at h
    rw [drop_two_add]
    exact ih h
  | case6 c d r hescape hend =>
    rw [List.cons_append, List.cons_append, literalItems, if_neg hescape, if_pos hend] at h
    exact h
  | case7 c d r hescape hend ih =>
    rw [List.cons_append, List.cons_append, literalItems, if_neg hescape, if_neg hend,
      drop_one_add] at h
    rw [drop_one_add]
    exact ih h

theorem openLiteralLength_eq (quote : Char) (least : Nat) (cs : List Char) :
    openLiteralLength quote least cs =
      if literalOpening quote cs = 0 ∨
          literalItems quote (cs.drop (literalOpening quote cs)) < least then 0
      else literalOpening quote cs + literalItems quote (cs.drop (literalOpening quote cs)) := by
  unfold openLiteralLength
  simp only [Bool.or_eq_true, decide_eq_true_eq]

theorem literalLength_of_unclosed (h : Unclosed quote cs) (least : Nat) :
    literalLength quote least cs = 0 := by
  have hopen := openLiteralLength_eq quote least cs
  unfold literalLength
  dsimp only
  rw [if_neg]
  rw [Bool.and_eq_true, decide_eq_true_eq, decide_eq_true_eq]
  rintro ⟨hne, hclose⟩
  rw [hopen] at hne hclose
  split at hclose
  · rename_i hnone
    exact hne (if_pos hnone)
  · rw [← List.drop_drop] at hclose
    exact h.2 hclose

theorem literalOpening_append (hw : quote ∉ w) (c : Char) (r : List Char) :
    literalOpening quote (c :: r ++ w) = literalOpening quote (c :: r) := by
  rw [List.cons_append, literalOpening, literalOpening]
  cases r with
  | nil =>
    have hhead : w.head? ≠ some quote := fun h => hw (List.mem_of_mem_head? h)
    rw [List.nil_append, decide_eq_false hhead]
    rfl
  | cons d r => rfl

theorem unclosed_append (hnewline : quote ≠ '\n') (hw : quote ∉ w) {c : Char} {r : List Char}
    (h : Unclosed quote (c :: r)) : Unclosed quote (c :: r ++ w) := by
  have hopening := (stops_literalOpening hnewline).le_length (c :: r)
  rw [Unclosed, literalOpening_append hw, List.drop_append_of_le_length hopening]
  exact ⟨h.1, fun hcloses => h.2 (closesLiteral_of_append hw hcloses)⟩

section Closed

variable {c : Char} {r : List Char}

theorem openLiteralLength_append (hquote : quote ≠ '\\') (hnewline : quote ≠ '\n') (hw : quote ∉ w)
    (h : ¬ Unclosed quote (c :: r)) (least : Nat) :
    openLiteralLength quote least (c :: r ++ w) = openLiteralLength quote least (c :: r) := by
  have hopening := (stops_literalOpening hnewline).le_length (c :: r)
  rw [openLiteralLength_eq, openLiteralLength_eq, literalOpening_append hw,
    List.drop_append_of_le_length hopening]
  by_cases hnone : literalOpening quote (c :: r) = 0
  · rw [if_pos (Or.inl hnone), if_pos (Or.inl hnone)]
  · have hcloses : ClosesLiteral quote ((c :: r).drop (literalOpening quote (c :: r))) :=
      Classical.byContradiction fun hopen => h ⟨hnone, hopen⟩
    rw [literalItems_append hquote hcloses]

theorem literalLength_append (hquote : quote ≠ '\\') (hnewline : quote ≠ '\n') (hw : quote ∉ w)
    (h : ¬ Unclosed quote (c :: r)) (least : Nat) :
    literalLength quote least (c :: r ++ w) = literalLength quote least (c :: r) := by
  have hopen := (stops_openLiteralLength hnewline least).le_length (c :: r)
  have hhead : ∀ l : List Char, (l ++ w).head? = some quote ↔ l.head? = some quote := by
    intro l
    cases l with
    | nil =>
      rw [List.nil_append]
      exact ⟨fun hmem => absurd (List.mem_of_mem_head? hmem) hw, nofun⟩
    | cons d l => rfl
  unfold literalLength
  simp only [openLiteralLength_append hquote hnewline hw h,
    List.drop_append_of_le_length hopen, hhead]

end Closed

end Literals

/-! ### Lexical classes -/

/-- The two kinds of literals: the quote, the least number of characters between quotes, and the
class of what is never closed. -/
def literalKinds : List (Char × Nat × LexClass) := [('"', 0, .openStr), ('\x27', 1, .openChar)]

section Classes

variable {quote : Char} {least : Nat} {k : LexClass} {r : List Char}

theorem kind_of_mem_literalKinds (h : (quote, least, k) ∈ literalKinds) (first : Char)
    (lexeme : List Char) : k.kind first lexeme = .error first := by
  simp only [literalKinds, List.mem_cons, Prod.mk.injEq, List.not_mem_nil, or_false] at h
  rcases h with ⟨-, -, rfl⟩ | ⟨-, -, rfl⟩ <;> rfl

theorem length_of_mem_literalKinds (h : (quote, least, k) ∈ literalKinds) (cs : List Char) :
    k.length cs = openLiteralLength quote least cs := by
  simp only [literalKinds, List.mem_cons, Prod.mk.injEq, List.not_mem_nil, or_false] at h
  rcases h with ⟨rfl, rfl, rfl⟩ | ⟨rfl, rfl, rfl⟩ <;> rfl

theorem quote_of_mem_literalKinds (h : (quote, least, k) ∈ literalKinds) :
    quote = '"' ∨ quote = '\x27' := by
  simp only [literalKinds, List.mem_cons, Prod.mk.injEq, List.not_mem_nil, or_false] at h
  exact h.imp And.left And.left

theorem punctAt?_quote {c : Char} (hc : c = '"' ∨ c = '\x27') (r : List Char) :
    punctAt? (c :: r) = none := by
  refine punctAt?_eq_none fun p => ?_
  obtain ⟨d, w, hp, -, hdouble, hsingle, -⟩ := p.toList_text
  have hne : d ≠ c := by rcases hc with rfl | rfl <;> assumption
  rw [hp, List.isPrefixOf_cons_cons, beq_false_of_ne hne, Bool.false_and]

/-- Where a literal is never closed, no other class of literals matches. -/
theorem length_of_unclosed (h : (quote, least, k) ∈ literalKinds) {cs : List Char}
    (hu : Unclosed quote cs)
    (hother : ∀ q, q = '"' ∨ q = '\x27' → q ≠ quote → ∀ least, openLiteralLength q least cs = 0)
    {k' : LexClass}
    (hliteral : k' ∈ [LexClass.str, .char, .openStr, .openChar]) (hk : k' ≠ k) :
    k'.length cs = 0 := by
  simp only [literalKinds, List.mem_cons, Prod.mk.injEq, List.not_mem_nil, or_false] at h hliteral
  rcases h with ⟨rfl, rfl, rfl⟩ | ⟨rfl, rfl, rfl⟩
  · have hother := hother '\x27' (Or.inr rfl) (by decide) 1
    rcases hliteral with rfl | rfl | rfl | rfl
    · exact literalLength_of_unclosed hu 0
    · exact literalLength_eq_zero hother
    · exact absurd rfl hk
    · exact hother
  · have hother := hother '"' (Or.inl rfl) (by decide) 0
    rcases hliteral with rfl | rfl | rfl | rfl
    · exact literalLength_eq_zero hother
    · exact literalLength_of_unclosed hu 1
    · exact hother
    · exact absurd rfl hk

/-- At a quote no word, number or punctuator begins. -/
theorem length_quote (h : (quote, least, k) ∈ literalKinds) (hu : Unclosed quote (quote :: r))
    {k' : LexClass} (hk : k' ≠ k) : k'.length (quote :: r) = 0 := by
  have hquote := quote_of_mem_literalKinds h
  have hclass : isIdentHead quote = false ∧ quote.isDigit = false ∧ quote ≠ '.' ∧ quote ≠ 'L' := by
    rcases hquote with rfl | rfl <;> decide
  obtain ⟨hident, hdigit, hdot, hL⟩ := hclass
  have hother : ∀ q, q = '"' ∨ q = '\x27' → q ≠ quote →
      ∀ least, openLiteralLength q least (quote :: r) = 0 :=
    fun q _ hq => openLiteralLength_eq_zero (Ne.symm hq) fun hc => absurd hc hL
  cases k' with
  | ident => exact identLength_eq_zero hident r
  | integer => exact integerLength_eq_zero hdigit r
  | float => exact floatLength_eq_zero hdigit fun hc => absurd hc hdot
  | punct => simp only [LexClass.length, punctAt?_quote hquote]
  | str | char | openStr | openChar => exact length_of_unclosed h hu hother (by decide) hk

/-- The `L` of a literal is a word, but nothing else. -/
theorem length_wide (h : (quote, least, k) ∈ literalKinds)
    (hu : Unclosed quote ('L' :: quote :: r)) {k' : LexClass} (hk : k' ≠ k) :
    k'.length ('L' :: quote :: r) = if k' = .ident then 1 else 0 := by
  have htail : isIdentTail quote = false := by
    rcases quote_of_mem_literalKinds h with rfl | rfl <;> decide
  have hletter : ∀ q, q = '"' ∨ q = '\x27' → 'L' ≠ q := by
    rintro q (rfl | rfl) <;> decide
  have hother : ∀ q, q = '"' ∨ q = '\x27' → q ≠ quote →
      ∀ least, openLiteralLength q least ('L' :: quote :: r) = 0 :=
    fun q hq hne => openLiteralLength_eq_zero (hletter q hq) fun _ hhead =>
      hne (Option.some.inj hhead).symm
  have hdigit : 'L'.isDigit = false := by decide
  cases k' with
  | ident => simp [LexClass.length, identLength, spanLength, htail, isIdentHead, isWordHead]
  | integer => exact integerLength_eq_zero hdigit (quote :: r)
  | float => exact floatLength_eq_zero (r := quote :: r) hdigit fun hc => absurd hc (by decide)
  | punct =>
    have hnone := punctAt?_eq_none_of_isIdentTail (c := 'L') (by decide) (quote :: r)
    simp only [LexClass.length, hnone]
    rfl
  | str | char | openStr | openChar => exact length_of_unclosed h hu hother (by decide) hk

end Classes

/-! ### Texts that cannot be read -/

/-- Some part of the text is no token. -/
def Unreadable (cs : List Char) : Prop := ∃ c, TokenKind.error c ∈ kindsOf cs

theorem Unreadable.of_nextToken {c d : Char} {r : List Char} (hc : isLexSpace c = false)
    (h : (nextToken c r).1 = .error d) : Unreadable (c :: r) := by
  refine ⟨d, ?_⟩
  rw [kindsOf_cons hc, h]
  exact List.mem_cons_self

theorem longest_of_length_zero {cs : List Char} (h : ∀ k : LexClass, k.length cs = 0) :
    LexClass.longest cs = (.ident, 0) := by
  simp [LexClass.longest, LexClass.all, h]

section Unreadable

variable {quote : Char} {least : Nat} {k : LexClass} {r : List Char}

/-- A literal without `L` that is never closed. -/
theorem unreadable_quote (h : (quote, least, k) ∈ literalKinds) (hu : Unclosed quote (quote :: r)) :
    Unreadable (quote :: r) := by
  have hspace : isLexSpace quote = false := by
    rcases quote_of_mem_literalKinds h with rfl | rfl <;> decide
  refine .of_nextToken (d := quote) hspace ?_
  unfold nextToken
  cases hlength : k.length (quote :: r) with
  | zero =>
    rw [longest_of_length_zero fun k' => ?_]
    by_cases hk : k' = k
    · rw [hk, hlength]
    · exact length_quote h hu hk
  | succ n =>
    rw [longest_of_length_lt hlength (Nat.succ_pos n) fun k' hk => ?_]
    · exact kind_of_mem_literalKinds h quote _
    · rw [length_quote h hu hk]
      exact Nat.succ_pos n

theorem literalOpening_quote : literalOpening quote (quote :: r) = 1 := by
  rw [literalOpening, if_pos rfl]

theorem literalOpening_wide (h : quote ≠ 'L') : literalOpening quote ('L' :: quote :: r) = 2 := by
  simp [literalOpening, Ne.symm h]

theorem literalOpening_cases {cs : List Char} (h : literalOpening quote cs ≠ 0) :
    (∃ r, cs = quote :: r) ∨ ∃ r, cs = 'L' :: quote :: r := by
  cases cs with
  | nil => exact absurd rfl h
  | cons c r =>
    by_cases hc : c = quote
    · exact Or.inl ⟨r, by rw [hc]⟩
    · rw [literalOpening, if_neg hc] at h
      split at h
      · rename_i hL
        rw [Bool.and_eq_true, decide_eq_true_eq, decide_eq_true_eq] at hL
        obtain ⟨r', rfl⟩ := List.head?_eq_some_iff.1 hL.2
        exact Or.inr ⟨r', by rw [hL.1]⟩
      · exact absurd rfl h

/-- A literal that is never closed cannot be read. -/
theorem unreadable_of_unclosed (h : (quote, least, k) ∈ literalKinds) {cs : List Char}
    (hu : Unclosed quote cs) : Unreadable cs := by
  rcases literalOpening_cases hu.1 with ⟨r, rfl⟩ | ⟨r, rfl⟩
  · exact unreadable_quote h hu
  · have hL : quote ≠ 'L' := by
      rcases quote_of_mem_literalKinds h with rfl | rfl <;> decide
    have hident : k ≠ .ident := by
      simp only [literalKinds, List.mem_cons, Prod.mk.injEq, List.not_mem_nil, or_false] at h
      rcases h with ⟨-, -, rfl⟩ | ⟨-, -, rfl⟩ <;> decide
    cases hlength : k.length ('L' :: quote :: r) with
    | zero =>
      -- the literal is shorter than any of its kind, so the `L` is a word
      have hlongest : LexClass.longest ('L' :: quote :: r) = (.ident, 1) := by
        refine longest_of_length_lt (length_wide h hu (Ne.symm hident)) Nat.one_pos fun k' hk => ?_
        by_cases hk' : k' = k
        · rw [hk', hlength]
          exact Nat.one_pos
        · rw [length_wide h hu hk', if_neg hk]
          exact Nat.one_pos
      have hkinds : kindsOf ('L' :: quote :: r) = .ident "L" :: kindsOf (quote :: r) :=
        kindsOf_lexeme (w := []) (by decide) hlongest
      have hquote : Unclosed quote (quote :: r) := by
        rw [Unclosed, literalOpening_wide hL] at hu
        rw [Unclosed, literalOpening_quote]
        exact ⟨Nat.one_ne_zero, hu.2⟩
      obtain ⟨d, hd⟩ := unreadable_quote h hquote
      exact ⟨d, by rw [hkinds]; exact List.mem_cons_of_mem _ hd⟩
    | succ n =>
      have hlong : LexClass.longest ('L' :: quote :: r) = (k, n + 1) := by
        refine longest_of_length_lt hlength (Nat.succ_pos n) fun k' hk => ?_
        rw [length_wide h hu hk]
        have htwo : 2 ≤ n + 1 := by
          rw [length_of_mem_literalKinds h, openLiteralLength_eq, literalOpening_wide hL] at hlength
          split at hlength <;> omega
        split <;> omega
      refine .of_nextToken (d := 'L') (by decide) ?_
      rw [nextToken, hlong]
      exact kind_of_mem_literalKinds h 'L' _

end Unreadable

/-! ### Blanks -/

section Blanks

variable {w : List Char}

theorem kindsOf_blanks (hw : w.all isLexSpace = true) : kindsOf w = [] := by
  induction w with
  | nil => exact kindsOf_nil
  | cons x w ih =>
    rw [List.all_cons, Bool.and_eq_true] at hw
    rw [kindsOf_space hw.1, ih hw.2]

/-- What stops at any blank stops before blanks. -/
theorem append_blanks {α : Type} {f : List Char → α}
    (hf : ∀ x cs ds, isLexSpace x = true → f (cs ++ x :: ds) = f cs)
    (hw : w.all isLexSpace = true) (cs : List Char) : f (cs ++ w) = f cs := by
  cases w with
  | nil => rw [List.append_nil]
  | cons x w =>
    rw [List.all_cons, Bool.and_eq_true] at hw
    exact hf x cs w hw.1

theorem not_mem_blanks {x : Char} (hx : isLexSpace x = false) (hw : w.all isLexSpace = true) :
    x ∉ w := by
  intro hmem
  rw [List.all_eq_true.1 hw x hmem] at hx
  cases hx

/-- Where no literal stays open, every class reaches as far with blanks behind the text. -/
theorem LexClass.length_append_blanks (hw : w.all isLexSpace = true) {c : Char} {r : List Char}
    (hstr : ¬ Unclosed '"' (c :: r)) (hchar : ¬ Unclosed '\x27' (c :: r)) (k : LexClass) :
    k.length (c :: r ++ w) = k.length (c :: r) := by
  have hdouble : '"' ∉ w := not_mem_blanks (by decide) hw
  have hsingle : '\x27' ∉ w := not_mem_blanks (by decide) hw
  cases k with
  | ident => exact append_blanks (fun x cs ds hx => (stops_identLength hx).append cs ds) hw (c :: r)
  | integer =>
    exact append_blanks (fun x cs ds hx => (stops_integerLength hx).append cs ds) hw (c :: r)
  | float => exact append_blanks (fun x cs ds hx => (stops_floatLength hx).append cs ds) hw (c :: r)
  | punct =>
    have hpunct : punctAt? (c :: r ++ w) = punctAt? (c :: r) :=
      append_blanks (fun x cs ds hx => punctAt?_append_cons hx cs ds) hw (c :: r)
    simp only [LexClass.length, hpunct]
  | str => exact literalLength_append (by decide) (by decide) hdouble hstr 0
  | char => exact literalLength_append (by decide) (by decide) hsingle hchar 1
  | openStr => exact openLiteralLength_append (by decide) (by decide) hdouble hstr 0
  | openChar => exact openLiteralLength_append (by decide) (by decide) hsingle hchar 1

/-- Blanks do not close a literal. -/
theorem unreadable_append_blanks (hw : w.all isLexSpace = true) {quote c : Char} {least : Nat}
    {k : LexClass} (h : (quote, least, k) ∈ literalKinds) {r : List Char}
    (hu : Unclosed quote (c :: r)) : Unreadable (c :: r) ∧ Unreadable (c :: r ++ w) := by
  have hquote : quote ≠ '\n' ∧ isLexSpace quote = false := by
    rcases quote_of_mem_literalKinds h with rfl | rfl <;> decide
  have hblanks := unclosed_append hquote.1 (not_mem_blanks hquote.2 hw) hu
  exact ⟨unreadable_of_unclosed h hu, unreadable_of_unclosed h hblanks⟩

/-- **Blanks behind a text are no tokens**, or the text cannot be read with or without them. -/
theorem kindsOf_append_blanks (hw : w.all isLexSpace = true) (cs : List Char) :
    kindsOf (cs ++ w) = kindsOf cs ∨ Unreadable cs ∧ Unreadable (cs ++ w) := by
  match cs with
  | [] =>
    rw [List.nil_append, kindsOf_blanks hw, kindsOf_nil]
    exact Or.inl rfl
  | c :: r =>
    by_cases hspace : isLexSpace c = true
    · rw [List.cons_append, kindsOf_space hspace, kindsOf_space hspace, Unreadable, Unreadable,
        kindsOf_space hspace, kindsOf_space hspace]
      exact kindsOf_append_blanks hw r
    · by_cases hstr : Unclosed '"' (c :: r)
      · exact Or.inr (unreadable_append_blanks hw
          (by decide : ('"', 0, LexClass.openStr) ∈ literalKinds) hstr)
      · by_cases hchar : Unclosed '\x27' (c :: r)
        · exact Or.inr (unreadable_append_blanks hw
            (by decide : ('\x27', 1, LexClass.openChar) ∈ literalKinds) hchar)
        · have hspace := Bool.eq_false_iff.2 hspace
          have hlongest : LexClass.longest (c :: r ++ w) = LexClass.longest (c :: r) := by
            unfold LexClass.longest
            simp only [LexClass.length_append_blanks hw hstr hchar]
          obtain ⟨hnext, hle⟩ := nextToken_append hlongest
          have ih := kindsOf_append_blanks hw (r.drop (nextToken c r).2)
          rw [← List.drop_append_of_le_length hle] at ih
          rw [List.cons_append, kindsOf_cons hspace, hnext, kindsOf_cons hspace]
          rcases ih with hkinds | ⟨⟨d, hd⟩, d', hd'⟩
          · exact Or.inl (by rw [hkinds])
          · refine Or.inr ⟨⟨d, ?_⟩, d', ?_⟩
            · rw [kindsOf_cons hspace]
              exact List.mem_cons_of_mem _ hd
            · rw [kindsOf_cons hspace, hnext]
              exact List.mem_cons_of_mem _ hd'
  termination_by cs.length
  decreasing_by
    · exact Nat.lt_succ_self r.length
    · simp only [List.length_drop, List.length_cons]
      omega

/-! ### Values -/

theorem lexErrors_eq_nil_iff (cs : List Char) :
    lexErrors (tokensFrom 0 cs) = [] ↔ ¬ Unreadable cs := by
  rw [lexErrors, List.filterMap_eq_nil_iff, Unreadable, kindsOf]
  constructor
  · rintro h ⟨c, hc⟩
    obtain ⟨t, ht, hkind⟩ := List.mem_map.1 hc
    have hnone := h t ht
    rw [Token.error?, hkind] at hnone
    cases hnone
  · intro h t ht
    unfold Token.error?
    split
    · rename_i c hkind
      exact absurd ⟨c, List.mem_map.2 ⟨t, ht, hkind⟩⟩ h
    · rfl

theorem evalText_eq_ok_iff (env : Env) (cs : List Char) (v : Value) :
    evalText env (String.ofList cs) = .ok v ↔
      ¬ Unreadable cs ∧ evalTokens env (kindsOf cs) = .ok v := by
  rw [evalText, tokenize, String.toList_ofList, ← lexErrors_eq_nil_iff]
  cases lexErrors (tokensFrom 0 cs) with
  | nil => exact ⟨fun h => ⟨rfl, h⟩, fun h => h.2⟩
  | cons e es =>
    constructor
    · intro h
      cases h
    · rintro ⟨h, -⟩
      cases h

/-- **Blanks behind a text do not change its value.** -/
theorem evalText_append_blanks (hw : w.all isLexSpace = true) (env : Env) (cs : List Char)
    (v : Value) :
    evalText env (String.ofList (cs ++ w)) = .ok v ↔ evalText env (String.ofList cs) = .ok v := by
  rw [evalText_eq_ok_iff, evalText_eq_ok_iff]
  rcases kindsOf_append_blanks hw cs with hkinds | ⟨hbare, hblanks⟩
  · rw [Unreadable, Unreadable, hkinds]
  · exact ⟨fun h => absurd hblanks h.1, fun h => absurd hbare h.1⟩

end Blanks

end CInterface
