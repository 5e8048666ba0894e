import CInterface.Proofs.CType.Wording
import CInterface.Proofs.Literal.Decimal
import CInterface.Proofs.Literal.Escapes
import CInterface.Proofs.Token.TrailingBlanks
/-!
# Writing values

The text of a value that is built from integers, texts and lists is read as the tokens of the value,
and these have the value again.

* `Value.IsLiteral` — the values that can be written and read back: no floats, and no null character in
  a text, since the digit behind it would belong to its escape.
* `Value.kinds` — the tokens of a value.
* `kindsOf_valueText` — the text of a value is read as its tokens.
* `evalTokens_int`, `evalTokens_str` — the tokens of an integer or a text have its value.
* `evalText_scalarText` — what the texts of integers and texts evaluate to.
-/

namespace CInterface

open Text

/-! ### Values and their tokens -/

namespace Value

mutual

/-- The value is built from integers, texts without a null character, and lists. -/
def IsLiteral : Value → Prop
  | int _ => True
  | float _ => False
  | str s => '\x00' ∉ s.toList
  | list items => AreLiterals items

/-- So are all values of a list. -/
def AreLiterals : List Value → Prop
  | [] => True
  | v :: rest => v.IsLiteral ∧ AreLiterals rest

end

/-- The tokens of an integer: a sign, if it is negative, and its digits. -/
def intKinds (n : Int) : List TokenKind :=
  (if n < 0 then [.punct .minus] else []) ++ [.integer (toString n.natAbs)]

mutual

/-- The tokens of a value. A float has none here. -/
def kinds : Value → List TokenKind
  | int n => intKinds n.toInt
  | float _ => []
  | str s => [.str (quoteText s)]
  | list items => .punct .lbrace :: (itemKinds items ++ [.punct .rbrace])

/-- The tokens of the items of a list. -/
def itemKinds : List Value → List TokenKind
  | [] => []
  | [v] => v.kinds
  | v :: w :: rest => v.kinds ++ .punct .comma :: itemKinds (w :: rest)

end

end Value

/-! ### Strings -/

theorem toList_quoteText (s : String) : (Value.quoteText s).toList =
    '"' :: (s.toList.flatMap Value.escapeChar ++ ['"']) := by
  simp [Value.quoteText]

/-- A string literal stands for the text that was written, less the digits that a null character takes
along. -/
theorem string_quoteText (s : String) :
    Literal.string (Value.quoteText s) = String.ofList (Literal.readBack s.toList) := by
  have hbody : Literal.body '"' ('"' :: (s.toList.flatMap Value.escapeChar ++ ['"'])) =
      s.toList.flatMap Value.escapeChar := by
    simp [Literal.body]
  rw [Literal.string, toList_quoteText, hbody, Literal.unescape_escape]

section Items

variable {quote c d : Char}

theorem literalItems_escape (hd : d ≠ '\n') (r : List Char) :
    literalItems quote ('\\' :: d :: r) = 2 + literalItems quote r := by
  rw [literalItems, if_pos rfl, if_neg hd]

theorem literalItems_self (hquote : c ≠ quote) (hslash : c ≠ '\\') (hnewline : c ≠ '\n')
    (r : List Char) : literalItems quote (c :: r) = 1 + literalItems quote r := by
  cases r with
  | nil => simp [literalItems, hquote, hslash, hnewline]
  | cons d r =>
    rw [literalItems, if_neg hslash, if_neg]
    simp [hquote, hnewline]

theorem literalItems_quote (hquote : quote ≠ '\\') (r : List Char) :
    literalItems quote (quote :: r) = 0 := by
  cases r with
  | nil => simp [literalItems]
  | cons d r =>
    rw [literalItems, if_neg hquote, if_pos]
    simp

end Items

theorem literalItems_flatMap (cs r : List Char) :
    literalItems '"' (cs.flatMap Value.escapeChar ++ '"' :: r) =
      (cs.flatMap Value.escapeChar).length := by
  induction cs with
  | nil => exact literalItems_quote (by decide) r
  | cons c cs ih =>
    rw [List.flatMap_cons, List.append_assoc, List.length_append]
    rcases escapeChar_cases c with ⟨d, hd, hescape, -⟩ | ⟨hquote, hslash, hnewline, hself⟩
    · rw [hescape, List.cons_append, List.cons_append, List.nil_append, literalItems_escape hd, ih]
      rfl
    · rw [hself, List.cons_append, List.nil_append, literalItems_self hquote hslash hnewline, ih]
      rfl

/-- A string literal is one token, whatever follows it. -/
theorem kindsOf_quoteText (s : String) (r : List Char) :
    kindsOf ((Value.quoteText s).toList ++ r) = .str (Value.quoteText s) :: kindsOf r := by
  have hitems := literalItems_flatMap s.toList r
  have htext := toList_quoteText s
  generalize s.toList.flatMap Value.escapeChar = es at hitems htext
  have hopening : ∀ cs, literalOpening '"' ('"' :: cs) = 1 := fun cs => by
    rw [literalOpening, if_pos rfl]
  have hopen : openLiteralLength '"' 0 ('"' :: (es ++ '"' :: r)) = es.length + 1 := by
    simp only [openLiteralLength, hopening, List.drop_one, List.tail_cons, hitems]
    simp [Nat.add_comm]
  have hstr : literalLength '"' 0 ('"' :: (es ++ '"' :: r)) = es.length + 1 + 1 := by
    simp [literalLength, hopen]
  have hchar : ∀ least, openLiteralLength '\x27' least ('"' :: (es ++ '"' :: r)) = 0 :=
    openLiteralLength_eq_zero (by decide) fun h => by cases h
  have hlongest : LexClass.longest ('"' :: ((es ++ ['"']) ++ r)) = (.str, (es ++ ['"']).length + 1) := by
    rw [List.append_assoc, List.singleton_append, List.length_append]
    refine longest_of_length_lt hstr (Nat.succ_pos _) ?_
    intro k hk
    have hnone : ∀ n, n = 0 → n < es.length + 1 + 1 := fun n hn => by omega
    have hident : identLength ('"' :: (es ++ '"' :: r)) = 0 := identLength_eq_zero (by decide) _
    have hinteger : integerLength ('"' :: (es ++ '"' :: r)) = 0 :=
      integerLength_eq_zero (by decide) _
    have hfloat : floatLength ('"' :: (es ++ '"' :: r)) = 0 :=
      floatLength_eq_zero (by decide) fun h => absurd h (by decide)
    cases k with
    | ident => exact hnone _ hident
    | integer => exact hnone _ hinteger
    | float => exact hnone _ hfloat
    | str => exact absurd rfl hk
    | char => exact hnone _ (literalLength_eq_zero (hchar 1))
    | punct =>
      have hpunct : punctAt? ('"' :: (es ++ '"' :: r)) = none := by
        refine punctAt?_eq_none fun p => ?_
        obtain ⟨c, w, hp, -, hc, -⟩ := p.toList_text
        rw [hp, List.isPrefixOf_cons_cons, beq_false_of_ne hc, Bool.false_and]
      exact hnone _ (by simp only [LexClass.length, hpunct])
    | openStr => exact Nat.lt_succ_of_le (Nat.le_of_eq hopen)
    | openChar => exact hnone _ (hchar 1)
  have hlexeme := kindsOf_lexeme (by decide) hlongest
  have htoken : LexClass.str.kind '"' ('"' :: (es ++ ['"'])) = .str (Value.quoteText s) := by
    show TokenKind.str (String.ofList ('"' :: (es ++ ['"']))) = _
    rw [← htext, String.ofList_toList]
  rw [htext]
  rw [htoken] at hlexeme
  exact hlexeme

theorem kindsOf_separator {p : Punct} (hp : p ∈ Punct.separators) (r : List Char) :
    kindsOf (p.text.toList ++ r) = .punct p :: kindsOf r := by
  refine kindsOf_punct ?_
  cases r with
  | nil => rfl
  | cons c r => exact Punct.bracket_endsBefore hp c

/-! ### Integers -/

theorem toList_toString_int (n : Int) : (toString n).toList =
    (if n < 0 then ['-'] else []) ++ (toString n.natAbs).toList := by
  have hdigits : (toString n.natAbs).toList = Nat.toDigits 10 n.natAbs := Nat.toList_repr
  rw [toList_toString, hdigits]

/-- A minus before a number is a token by itself. -/
theorem minus_endsBefore {c : Char} (h : c.isDigit = true) : Punct.minus.endsBefore c = true := by
  refine Punct.endsBefore_of_forall (by decide) fun q hq hprefix hmem => ?_
  have hcases : q = .minus ∨ q = .minusMinus ∨ q = .minusAssign ∨ q = .arrow := by
    revert hprefix
    cases q <;> decide
  rcases hcases with rfl | rfl | rfl | rfl
  · exact hq rfl
  all_goals
    obtain rfl := List.mem_singleton.1 hmem
    exact absurd h (by decide)

theorem kindsOf_natText (n : Nat) {r : List Char} (hr : r.head?.all endsWord = true) :
    kindsOf ((toString n).toList ++ r) = .integer (toString n) :: kindsOf r := by
  have htoList : (toString n).toList = Nat.toDigits 10 n := Nat.toList_repr
  have hplain : (TokenKind.integer (toString n)).IsPlain := by
    refine ⟨?_, ?_, ?_⟩
    · rw [htoList, List.all_eq_true]
      exact digits_toDigits n
    · rw [htoList]
      exact Nat.toDigits_ne_nil
    · rw [htoList]
      exact length_toDigits_of_head? n
  exact TokenKind.kindsOf_text hplain hr

/-- An integer is a sign and its digits, before a text that does not go on with a word. -/
theorem kindsOf_intText (n : Int) {r : List Char} (hr : r.head?.all endsWord = true) :
    kindsOf ((toString n).toList ++ r) = Value.intKinds n ++ kindsOf r := by
  have hdigits := kindsOf_natText n.natAbs hr
  rw [toList_toString_int, Value.intKinds]
  by_cases hneg : n < 0
  · obtain ⟨c, w, hw⟩ := List.exists_cons_of_ne_nil
      (show (toString n.natAbs).toList ≠ [] by
        rw [show (toString n.natAbs).toList = Nat.toDigits 10 n.natAbs from Nat.toList_repr]
        exact Nat.toDigits_ne_nil)
    have hc : c.isDigit = true := by
      refine digits_toDigits n.natAbs c ?_
      rw [← show (toString n.natAbs).toList = Nat.toDigits 10 n.natAbs from Nat.toList_repr, hw]
      exact List.mem_cons_self
    have hminus : kindsOf (Punct.minus.text.toList ++ ((toString n.natAbs).toList ++ r)) = _ :=
      kindsOf_punct (by rw [hw]; exact minus_endsBefore hc)
    rw [if_pos hneg, if_pos hneg, List.append_assoc, List.append_assoc]
    rw [hdigits] at hminus
    exact hminus
  · rw [if_neg hneg, if_neg hneg]
    exact hdigits

/-- A sign before an integer that has a value has the opposite value. -/
theorem evalTokens_minus (env : Env) {text : String} {n : Int64}
    (h : Literal.integer? text.toList = some n) :
    evalTokens env [.punct .minus, .integer text] = .ok (.int (-n)) := by
  simp [evalTokens, Expr.ofTokens?, Expr.fuelFor, Expr.Scope.conditional, Expr.Scope.operand,
    Expr.Scope.operators, Expr.Scope.unary, Expr.Scope.atom, Expr.binaryOp?, Expr.unaryOp?,
    BinaryOp.levels, h, bind, Except.bind, pure, Except.pure, Expr.eval, UnaryOp.apply]

/-- The tokens of an integer have it as their value, that of the least integer too. -/
theorem evalTokens_int (env : Env) (n : Int64) :
    evalTokens env (Value.intKinds n.toInt) = .ok (.int n) := by
  have hlow := n.le_toInt
  have hhigh := n.toInt_lt
  have hdigits : Literal.integer? (toString n.toInt.natAbs).toList =
      some (Int64.ofInt n.toInt.natAbs) := by
    rw [Literal.integer?_toString (by omega), UInt64.toInt64_ofNat', Int64.ofInt_eq_ofNat]
  rw [Value.intKinds]
  by_cases hneg : n.toInt < 0
  · have hvalue : -Int64.ofInt n.toInt.natAbs = n := by
      rw [Int64.neg_ofInt, show -(n.toInt.natAbs : Int) = n.toInt by omega, Int64.ofInt_toInt]
    rw [if_pos hneg]
    show evalTokens env [.punct .minus, .integer _] = _
    rw [evalTokens_minus env hdigits, hvalue]
  · have hvalue : Int64.ofInt n.toInt.natAbs = n := by
      rw [show (n.toInt.natAbs : Int) = n.toInt by omega, Int64.ofInt_toInt]
    rw [if_neg hneg]
    show evalTokens env [.integer _] = _
    rw [evalTokens_integer env hdigits, hvalue]

/-- The token of a text has the text that it stands for as its value. -/
theorem evalTokens_quoteText (env : Env) (s : String) :
    evalTokens env [.str (Value.quoteText s)] =
      .ok (.str (String.ofList (Literal.readBack s.toList))) := by
  simp [evalTokens, Expr.ofTokens?, Expr.fuelFor, Expr.Scope.conditional, Expr.Scope.operand,
    Expr.Scope.operators, Expr.Scope.unary, Expr.Scope.atom, Expr.joinStrings, Expr.binaryOp?,
    Expr.unaryOp?, BinaryOp.levels, bind, Except.bind, pure, Except.pure, Expr.eval,
    string_quoteText]

/-- The token of a text without null characters has it as its value. -/
theorem evalTokens_str (env : Env) {s : String} (h : '\x00' ∉ s.toList) :
    evalTokens env [.str (Value.quoteText s)] = .ok (.str s) := by
  rw [evalTokens_quoteText,
    (Literal.readBack_eq_self_iff s.toList).2 (Literal.nullsApart_of_not_mem h), String.ofList_toList]

/-! ### Texts of values -/

mutual

/-- **The text of a value is read as its tokens**, before a text that does not go on with a word. -/
theorem kindsOf_valueText (v : Value) (h : v.IsLiteral) {r : List Char}
    (hr : r.head?.all endsWord = true) :
    kindsOf (v.text.toList ++ r) = v.kinds ++ kindsOf r := by
  match v with
  | .int n => exact kindsOf_intText n.toInt hr
  | .str s => exact kindsOf_quoteText s r
  | .list items =>
    have hclose : kindsOf (Punct.rbrace.text.toList ++ r) = .punct .rbrace :: kindsOf r :=
      kindsOf_separator (by decide) r
    have hitems := kindsOf_itemTexts items h (r := Punct.rbrace.text.toList ++ r) rfl
    have hopen := kindsOf_separator (p := .lbrace) (by decide)
      ((Value.itemTexts items).toList ++ (Punct.rbrace.text.toList ++ r))
    rw [hitems, hclose] at hopen
    rw [Value.text, Value.kinds, String.toList_append, String.toList_append, List.append_assoc,
      List.append_assoc, List.cons_append, List.append_assoc]
    exact hopen

theorem kindsOf_itemTexts (items : List Value) (h : Value.AreLiterals items) {r : List Char}
    (hr : r.head?.all endsWord = true) :
    kindsOf ((Value.itemTexts items).toList ++ r) = Value.itemKinds items ++ kindsOf r := by
  match items with
  | [] => rfl
  | [v] => exact kindsOf_valueText v h.1 hr
  | v :: w :: rest =>
    have hrest := kindsOf_itemTexts (w :: rest) h.2 hr
    have hcomma := kindsOf_separator (p := .comma) (by decide)
      (' ' :: ((Value.itemTexts (w :: rest)).toList ++ r))
    rw [kindsOf_space (by decide), hrest] at hcomma
    have hv := kindsOf_valueText v h.1 (r := Punct.comma.text.toList ++
      ' ' :: ((Value.itemTexts (w :: rest)).toList ++ r)) rfl
    rw [hcomma] at hv
    rw [Value.itemTexts, Value.itemKinds, String.toList_append, String.toList_append,
      List.append_assoc, List.append_assoc, List.append_assoc]
    exact hv

end

/-! ### Texts of scalars -/

/-- What is read as tokens none of which is an error has the value of these tokens. -/
theorem evalText_of_kindsOf {cs : List Char} {ks : List TokenKind} (hks : kindsOf cs = ks)
    (herrors : ∀ c, TokenKind.error c ∉ ks) {env : Env} {v : Value} :
    evalText env (String.ofList cs) = .ok v ↔ evalTokens env ks = .ok v := by
  rw [evalText_eq_ok_iff, hks]
  refine and_iff_right ?_
  rintro ⟨c, hc⟩
  rw [hks] at hc
  exact herrors c hc

theorem evalText_intText (env : Env) (n : Int64) : evalText env (Value.int n).text = .ok (.int n) := by
  have hkinds := kindsOf_intText n.toInt (r := []) rfl
  rw [List.append_nil, kindsOf_nil, List.append_nil] at hkinds
  have herrors : ∀ c, TokenKind.error c ∉ Value.intKinds n.toInt := by
    intro c
    unfold Value.intKinds
    split <;> simp
  rw [Value.text, ← String.ofList_toList (s := toString n.toInt)]
  exact (evalText_of_kindsOf hkinds herrors).2 (evalTokens_int env n)

/-- The text of a text always has a value, which is a text. -/
theorem evalText_quoteText (env : Env) (s : String) : evalText env (Value.str s).text =
    .ok (.str (String.ofList (Literal.readBack s.toList))) := by
  have hkinds := kindsOf_quoteText s []
  rw [List.append_nil, kindsOf_nil] at hkinds
  rw [Value.text, ← String.ofList_toList (s := Value.quoteText s)]
  exact (evalText_of_kindsOf hkinds (fun c hc => by simp at hc)).2 (evalTokens_quoteText env s)

/-- **What the written forms of scalars evaluate to**, in any environment: an integer to itself, and a
text to itself just where no octal digit follows a null character in it. Else the escape of the null
character takes the digit along, and the value is another text. -/
theorem evalText_scalarText (env : Env) :
    (∀ n : Int64, evalText env (Value.int n).text = .ok (.int n)) ∧
    ∀ s : String,
      evalText env (Value.str s).text =
        .ok (.str (String.ofList (Literal.readBack s.toList))) ∧
      (evalText env (Value.str s).text = .ok (.str s) ↔ Literal.nullsApart s.toList = true) := by
  refine ⟨evalText_intText env, fun s => ⟨evalText_quoteText env s, ?_⟩⟩
  rw [evalText_quoteText, ← Literal.readBack_eq_self_iff, Except.ok.injEq, Value.str.injEq,
    ← String.toList_inj, String.toList_ofList]

/-- A null character before the digit one is written as the octal escape of another character. -/
theorem not_evalText_quoteText :
    ¬ ∀ (env : Env) (s : String), evalText env (Value.str s).text = .ok (.str s) := by
  intro h
  have hback := h (fun _ => none) "\x001"
  rw [evalText_quoteText, Except.ok.injEq, Value.str.injEq, ← String.toList_inj,
    String.toList_ofList, Literal.readBack_eq_self_iff] at hback
  exact absurd hback (by decide)

end CInterface
