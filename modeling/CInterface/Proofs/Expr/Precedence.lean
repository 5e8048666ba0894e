import CInterface.Proofs.Expr.Derivation
import CInterface.Proofs.Expr.Evaluation
import CInterface.Proofs.Literal.Decimal
/-!
# Precedence and associativity

The expressions of C, with its table of operators, against what is read.

* `BinaryOp.table`, `BinaryOp.rank` — the table, from `||` up to `*`.
* `Expr.Denotes` — the tokens spell the tree at a level of the grammar: operators with two operands
  group to the left, `?:` groups to the right, and parentheses may stand around any expression.
* `Expr.tokens` — a spelling with no more parentheses than every other one.
* `Expr.NoCastGroup` — no group in parentheses can be taken for a cast.
* `Expr.ofTokens?_of_denotes` — what spells a tree without such a group is read as that tree.
* `Expr.evalTokens_tokens` — the value of the spelling is the value of the tree.
-/

namespace CInterface

/-! ### The operators of C -/

namespace BinaryOp

/-- The operators with two operands, from those that bind loosest to those that bind tightest. -/
def table : List (List BinaryOp) :=
  [[or], [and], [bitOr], [bitXor], [bitAnd], [eq, ne], [lt, gt, le, ge], [shl, shr], [add, sub],
   [mul, div, rem]]

/-- The line of the table on which an operator stands. -/
def rank (op : BinaryOp) : Nat := table.findIdx (·.contains op)

theorem rank_eq_level (op : BinaryOp) : op.rank = op.level := by
  cases op <;> decide

end BinaryOp

namespace Expr

/-! ### Spellings -/

/-- The level of the operators with one operand and of all that binds tighter. -/
def tightest : Nat := BinaryOp.table.length + 1

/-- The tokens spell the tree at a level: zero is that of `?:`, and `op.rank + 1` that of `op`. -/
inductive Denotes : Nat → List TokenKind → Expr → Prop where
  | integer {text : String} {n : Int64} (h : Literal.integer? text.toList = some n) :
      Denotes tightest [.integer text] (.literal (.int n))
  | name {n : String} (h : n ≠ "sizeof") : Denotes tightest [.ident n] (.name n)
  | parens {ts : List TokenKind} {e : Expr} (h : Denotes 0 ts e) :
      Denotes tightest (inParens ts) e
  | unary {op : UnaryOp} {ts : List TokenKind} {e : Expr} (h : Denotes tightest ts e) :
      Denotes tightest (.punct op.punct :: ts) (.unary op e)
  /-- The left operand can have operators of the same level, the right one cannot. -/
  | binary {op : BinaryOp} {ts us : List TokenKind} {l r : Expr}
      (hl : Denotes (op.rank + 1) ts l) (hr : Denotes (op.rank + 2) us r) :
      Denotes (op.rank + 1) (ts ++ .punct op.punct :: us) (.binary op l r)
  /-- The last branch can be another `?:`, the test cannot. -/
  | conditional {ts us vs : List TokenKind} {c t f : Expr} (hc : Denotes 1 ts c)
      (ht : Denotes 0 us t) (hf : Denotes 0 vs f) :
      Denotes 0 (ts ++ .punct .question :: (us ++ .punct .colon :: vs)) (.conditional c t f)
  /-- What stands at a level stands at the looser ones. -/
  | weaken {level : Nat} {ts : List TokenKind} {e : Expr} (hlevel : level < tightest)
      (h : Denotes (level + 1) ts e) : Denotes level ts e

theorem Denotes.of_le {m l : Nat} {ts : List TokenKind} {e : Expr} (h : Denotes l ts e)
    (hml : m ≤ l) (hl : l ≤ tightest) : Denotes m ts e := by
  induction l with
  | zero =>
    obtain rfl : m = 0 := by omega
    exact h
  | succ l ih =>
    by_cases hm : m = l + 1
    · rw [hm]
      exact h
    · exact ih (.weaken (by omega) h) (by omega) (by omega)

/-! ### The spelling with the fewest parentheses -/

/-- The level at which a tree can stand without parentheses. -/
def precedence : Expr → Nat
  | binary op _ _ => op.rank + 1
  | conditional _ _ _ => 0
  | _ => tightest

/-- The tokens `ts` of `e` where the grammar asks for a level. -/
def atLevel (level : Nat) (e : Expr) (ts : List TokenKind) : List TokenKind :=
  if e.precedence < level then inParens ts else ts

/-- The tokens of a tree, with parentheses around an operand only where it binds looser than its
place asks for. Trees with other literals than integers have no tokens here. -/
def tokens : Expr → List TokenKind
  | literal (.int n) => [.integer (toString n.toUInt64.toNat)]
  | literal _ => []
  | name n => [.ident n]
  | unary op e => .punct op.punct :: atLevel tightest e e.tokens
  | binary op l r =>
    atLevel (op.rank + 1) l l.tokens ++ .punct op.punct :: atLevel (op.rank + 2) r r.tokens
  | conditional c t f =>
    atLevel 1 c c.tokens ++ .punct .question :: (t.tokens ++ .punct .colon :: f.tokens)

/-- The literals are integers, and no name is a keyword of the grammar. An integer is a word of 64
bits: it stands for the number below `2 ^ 64` with these bits. -/
def IsPlain : Expr → Prop
  | literal (.int _) => True
  | literal _ => False
  | name n => n ≠ "sizeof"
  | unary _ e => e.IsPlain
  | binary _ l r => l.IsPlain ∧ r.IsPlain
  | conditional c t f => c.IsPlain ∧ t.IsPlain ∧ f.IsPlain

theorem rank_lt (op : BinaryOp) : op.rank + 1 < tightest := by
  cases op <;> decide

theorem precedence_le (e : Expr) : e.precedence ≤ tightest := by
  cases e with
  | binary op l r => exact Nat.le_of_lt (rank_lt op)
  | conditional c t f => exact Nat.zero_le _
  | _ => exact Nat.le_refl _

/-- A spelling of a tree at its own level makes one at any level. -/
theorem denotes_atLevel {e : Expr} {ts : List TokenKind} {level : Nat}
    (h : Denotes e.precedence ts e) (hlevel : level ≤ tightest) :
    Denotes level (atLevel level e ts) e := by
  unfold atLevel
  by_cases hlt : e.precedence < level
  · rw [if_pos hlt]
    have h0 : Denotes 0 ts e := h.of_le (Nat.zero_le _) e.precedence_le
    exact Denotes.of_le (.parens h0) hlevel (Nat.le_refl _)
  · rw [if_neg hlt]
    exact h.of_le (Nat.le_of_not_lt hlt) e.precedence_le

/-- The tokens of a tree spell it. -/
theorem denotes_tokens {e : Expr} (he : e.IsPlain) : Denotes e.precedence e.tokens e := by
  induction e with
  | literal v =>
    cases v with
    | int n =>
      have h := Literal.integer?_toString n.toUInt64.toNat_lt
      rw [UInt64.ofNat_toNat, Int64.toInt64_toUInt64] at h
      exact .integer h
    | _ => cases he
  | name n => exact .name he
  | unary op e ih => exact .unary (denotes_atLevel (ih he) (Nat.le_refl _))
  | binary op l r ihl ihr =>
    have hop := rank_lt op
    exact .binary (denotes_atLevel (ihl he.1) (by omega)) (denotes_atLevel (ihr he.2) (by omega))
  | conditional c t f ihc iht ihf =>
    exact .conditional (denotes_atLevel (ihc he.1) (by decide))
      ((iht he.2.1).of_le (Nat.zero_le _) t.precedence_le)
      ((ihf he.2.2).of_le (Nat.zero_le _) f.precedence_le)

/-- The number of opening parentheses. -/
def parenCount (ts : List TokenKind) : Nat := ts.count (.punct .lparen)

theorem parenCount_append (ts us : List TokenKind) :
    parenCount (ts ++ us) = parenCount ts + parenCount us :=
  List.count_append

theorem parenCount_cons_of_ne {t : TokenKind} (h : t ≠ .punct .lparen) (ts : List TokenKind) :
    parenCount (t :: ts) = parenCount ts :=
  List.count_cons_of_ne h

theorem parenCount_inParens (ts : List TokenKind) :
    parenCount (inParens ts) = parenCount ts + 1 := by
  rw [inParens, parenCount, List.count_cons_self, List.count_append]
  rfl

theorem parenCount_atLevel_mono {e : Expr} {m l : Nat} (h : m ≤ l) (ts : List TokenKind) :
    parenCount (atLevel m e ts) ≤ parenCount (atLevel l e ts) := by
  unfold atLevel
  by_cases hm : e.precedence < m
  · have hl : e.precedence < l := Nat.lt_of_lt_of_le hm h
    exact Nat.le_of_eq (by rw [if_pos hm, if_pos hl])
  · rw [if_neg hm]
    by_cases hl : e.precedence < l
    · rw [if_pos hl, parenCount_inParens]
      exact Nat.le_succ _
    · exact Nat.le_of_eq (by rw [if_neg hl])

theorem atLevel_of_le {e : Expr} {level : Nat} (h : level ≤ e.precedence) (ts : List TokenKind) :
    atLevel level e ts = ts :=
  if_neg (Nat.not_lt.2 h)

theorem unaryPunct_ne_lparen (op : UnaryOp) : TokenKind.punct op.punct ≠ .punct .lparen := by
  cases op <;> decide

/-- The punctuators around and between expressions are no operators with two operands. -/
theorem binaryPunct_ne (op : BinaryOp) {p : Punct}
    (h : p ∈ [Punct.lparen, .rparen, .question, .colon]) : op.punct ≠ p := by
  intro hop
  rw [← hop] at h
  revert h
  cases op <;> decide

theorem binaryPunct_ne_lparen (op : BinaryOp) : TokenKind.punct op.punct ≠ .punct .lparen := by
  intro h
  exact binaryPunct_ne op (by decide) (TokenKind.punct.inj h)

/-- No spelling of a tree has fewer parentheses than its tokens. -/
theorem Denotes.parenCount_le {level : Nat} {ts : List TokenKind} {e : Expr}
    (h : Denotes level ts e) : parenCount (atLevel level e e.tokens) ≤ parenCount ts := by
  induction h with
  | @integer text n h => exact Nat.zero_le _
  | @name n h => exact Nat.zero_le _
  | @parens ts e h ih =>
    have hbare : parenCount e.tokens ≤ parenCount ts := ih
    rw [parenCount_inParens]
    unfold atLevel
    split
    · rw [parenCount_inParens]
      exact Nat.succ_le_succ hbare
    · exact Nat.le_succ_of_le hbare
  | @unary op ts e h ih =>
    have hlevel : tightest ≤ (Expr.unary op e).precedence := Nat.le_refl _
    have hpunct := unaryPunct_ne_lparen op
    rw [atLevel_of_le hlevel, tokens, parenCount_cons_of_ne hpunct, parenCount_cons_of_ne hpunct]
    exact ih
  | @binary op ts us l r hl hr ihl ihr =>
    have hlevel : op.rank + 1 ≤ (Expr.binary op l r).precedence := Nat.le_refl _
    have hpunct := binaryPunct_ne_lparen op
    rw [atLevel_of_le hlevel, tokens, parenCount_append, parenCount_append,
      parenCount_cons_of_ne hpunct, parenCount_cons_of_ne hpunct]
    exact Nat.add_le_add ihl ihr
  | @conditional ts us vs c t f hc ht hf ihc iht ihf =>
    have hquestion : TokenKind.punct .question ≠ .punct .lparen := by decide
    have hcolon : TokenKind.punct .colon ≠ .punct .lparen := by decide
    rw [atLevel_of_le (Nat.zero_le _)] at iht ihf ⊢
    simp only [tokens, parenCount_append, parenCount_cons_of_ne hquestion,
      parenCount_cons_of_ne hcolon]
    omega
  | @weaken level ts e hlevel h ih =>
    exact Nat.le_trans (parenCount_atLevel_mono (Nat.le_succ _) _) ih

/-! ### No casts -/

/-- No group in parentheses consists of identifiers and stars alone. -/
def NoCastGroup (ts : List TokenKind) : Prop :=
  ∀ inside, inParens inside <:+: ts → inside.all isCastWord = false

/-- The search for such a group, from the left to the right. -/
def hasCastGroup : List TokenKind → Bool
  | [] => false
  | t :: ts =>
    t = .punct .lparen && (ts.dropWhile isCastWord).head? = some (.punct .rparen) ||
      hasCastGroup ts

/-- What stands behind the words and stars at the head of some tokens. -/
theorem head?_dropWhile_isCastWord {ts : List TokenKind} :
    (ts.dropWhile isCastWord).head? = some (.punct .rparen) ↔
      ∃ inside, inside ++ [.punct .rparen] <+: ts ∧ inside.all isCastWord = true := by
  refine ⟨fun h => ?_, fun ⟨inside, hinside, hall⟩ => ?_⟩
  · obtain ⟨us, hus⟩ := List.head?_eq_some_iff.1 h
    refine ⟨ts.takeWhile isCastWord, ⟨us, ?_⟩, List.all_takeWhile⟩
    rw [List.append_assoc, List.singleton_append, ← hus, List.takeWhile_append_dropWhile]
  · obtain ⟨us, rfl⟩ := hinside
    rw [List.append_assoc, List.dropWhile_append_of_pos (List.all_eq_true.1 hall)]
    rfl

theorem noCastGroup_iff {ts : List TokenKind} : NoCastGroup ts ↔ hasCastGroup ts = false := by
  induction ts with
  | nil =>
    refine ⟨fun _ => rfl, fun _ inside hinside => ?_⟩
    cases List.infix_nil.1 hinside
  | cons t ts ih =>
    have hhead : (∀ inside, inParens inside <+: t :: ts → inside.all isCastWord = false) ↔
        ¬(t = .punct .lparen ∧ (ts.dropWhile isCastWord).head? = some (.punct .rparen)) := by
      rw [head?_dropWhile_isCastWord]
      refine ⟨fun h ⟨ht, inside, hinside, hall⟩ => ?_, fun h inside hinside => ?_⟩
      · rw [h inside (List.cons_prefix_cons.2 ⟨ht.symm, hinside⟩)] at hall
        cases hall
      · obtain ⟨ht, hinside⟩ := List.cons_prefix_cons.1 hinside
        exact Bool.eq_false_iff.2 fun hall => h ⟨ht.symm, inside, hinside, hall⟩
    have hcons : NoCastGroup (t :: ts) ↔
        (∀ inside, inParens inside <+: t :: ts → inside.all isCastWord = false) ∧
          NoCastGroup ts := by
      refine ⟨fun h => ⟨fun inside hp => h inside hp.isInfix, fun inside hi => ?_⟩,
        fun ⟨hp, hi⟩ inside hinside => ?_⟩
      · exact h inside (hi.trans (List.suffix_cons _ _).isInfix)
      · exact (List.infix_cons_iff.1 hinside).elim (hp inside) (hi inside)
    rw [hcons, hhead, ih, hasCastGroup]
    simp

instance : DecidablePred NoCastGroup :=
  fun _ => decidable_of_iff _ noCastGroup_iff.symm

theorem NoCastGroup.suffix {ts us : List TokenKind} (h : NoCastGroup ts) (hus : us <:+ ts) :
    NoCastGroup us :=
  fun inside hinside => h inside (hinside.trans hus.isInfix)

theorem NoCastGroup.castEnd?_eq_none {g : Scope} {ts : List TokenKind}
    (h : NoCastGroup (.punct .lparen :: ts)) : castEnd? g ts = none := by
  cases hcast : castEnd? g ts with
  | none => rfl
  | some us =>
    obtain ⟨inside, rfl, hinside⟩ := castEnd?_eq_some hcast
    have hgroup : inParens inside <:+: .punct .lparen :: (inside ++ .punct .rparen :: us) :=
      ⟨[], us, inParens_append inside us⟩
    rw [h inside hgroup] at hinside
    cases hinside

theorem hasCastGroup_cons_of_ne {t : TokenKind} (h : t ≠ .punct .lparen) (ts : List TokenKind) :
    hasCastGroup (t :: ts) = hasCastGroup ts := by
  rw [hasCastGroup, decide_eq_false h, Bool.false_and, Bool.false_or]

/-- A spelling does not begin with a closing parenthesis. -/
theorem Denotes.exists_cons {level : Nat} {ts : List TokenKind} {e : Expr}
    (h : Denotes level ts e) : ∃ t us, ts = t :: us ∧ t ≠ .punct .rparen := by
  induction h with
  | integer h => exact ⟨_, _, rfl, by simp⟩
  | name h => exact ⟨_, _, rfl, by simp⟩
  | parens h ih => exact ⟨_, _, rfl, by simp⟩
  | @unary op ts e h ih =>
    refine ⟨_, _, rfl, ?_⟩
    cases op <;> decide
  | binary hl hr ihl ihr =>
    obtain ⟨t, us, rfl, ht⟩ := ihl
    exact ⟨t, _, List.cons_append, ht⟩
  | conditional hc ht hf ihc iht ihf =>
    obtain ⟨t, us, rfl, ht⟩ := ihc
    exact ⟨t, _, List.cons_append, ht⟩
  | weaken hlevel h ih => exact ih

/-- In a spelling without identifiers and stars no group consists of them, before any tokens. -/
theorem Denotes.hasCastGroup_append {level : Nat} {ts : List TokenKind} {e : Expr}
    (h : Denotes level ts e) (hts : ts.all (fun t => !isCastWord t) = true)
    (rest : List TokenKind) : hasCastGroup (ts ++ rest) = hasCastGroup rest := by
  induction h generalizing rest with
  | integer h => exact hasCastGroup_cons_of_ne (by simp) rest
  | name h => cases hts
  | @parens ts e h ih =>
    have hinside : ts.all (fun t => !isCastWord t) = true := by
      rw [inParens, List.all_cons, List.all_append, Bool.and_eq_true, Bool.and_eq_true] at hts
      exact hts.2.1
    rw [inParens_append, hasCastGroup, ih hinside, hasCastGroup_cons_of_ne (by simp)]
    -- the group holds a token, which is neither a word nor a star nor the end of the group
    obtain ⟨t, us, rfl, ht⟩ := h.exists_cons
    rw [List.all_cons, Bool.and_eq_true, Bool.not_eq_true'] at hinside
    rw [List.cons_append, List.dropWhile_cons_of_neg (by rw [hinside.1]; exact Bool.false_ne_true)]
    simp [ht]
  | @unary op ts e h ih =>
    rw [List.all_cons, Bool.and_eq_true] at hts
    rw [List.cons_append, hasCastGroup_cons_of_ne (unaryPunct_ne_lparen op), ih hts.2]
  | @binary op ts us l r hl hr ihl ihr =>
    rw [List.all_append, List.all_cons, Bool.and_eq_true, Bool.and_eq_true] at hts
    rw [List.append_assoc, List.cons_append, ihl hts.1,
      hasCastGroup_cons_of_ne (binaryPunct_ne_lparen op), ihr hts.2.2]
  | @conditional ts us vs c t f hc ht hf ihc iht ihf =>
    simp only [List.all_append, List.all_cons, Bool.and_eq_true] at hts
    simp only [List.append_assoc, List.cons_append]
    rw [ihc hts.1, hasCastGroup_cons_of_ne (by simp), iht hts.2.2.1,
      hasCastGroup_cons_of_ne (by simp), ihf hts.2.2.2.2]
  | weaken hlevel h ih => exact ih hts rest

/-- A spelling without identifiers and stars has no group that can be taken for a cast. -/
theorem Denotes.noCastGroup {level : Nat} {ts : List TokenKind} {e : Expr} (h : Denotes level ts e)
    (hts : ts.all (fun t => !isCastWord t) = true) : NoCastGroup ts := by
  rw [noCastGroup_iff, ← List.append_nil ts, h.hasCastGroup_append hts]
  rfl

/-! ### Reading a spelling -/

variable {known : String → Bool}

/-- What stands behind a spelling at a level does not go on with it: no operator of this level or a
tighter one, and no call. -/
structure Ends (level : Nat) (rest : List TokenKind) : Prop where
  noOperator : ∀ j, level ≤ j → binaryOp? j rest = none
  noCall : rest.head? ≠ some (.punct .lparen)

theorem Ends.of_le {m l : Nat} {rest : List TokenKind} (h : Ends m rest) (hml : m ≤ l) :
    Ends l rest :=
  ⟨fun j hj => h.noOperator j (Nat.le_trans hml hj), h.noCall⟩

theorem Ends.of_punct {p : Punct} (h : p ∈ [Punct.rparen, .question, .colon]) (level : Nat)
    (rest : List TokenKind) : Ends level (.punct p :: rest) := by
  refine ⟨fun j _ => binaryOp?_eq_none fun op _ hhead => ?_, fun hhead => ?_⟩
  · cases hhead
    exact binaryPunct_ne op (.tail _ h) rfl
  · cases hhead
    revert h
    decide

theorem Ends.of_binary (op : BinaryOp) (rest : List TokenKind) :
    Ends (op.rank + 1) (.punct op.punct :: rest) := by
  refine ⟨fun j hj => binaryOp?_punct_of_ne ?_ rest, fun hhead => ?_⟩
  · rw [← op.rank_eq_level]
    exact Nat.ne_of_lt hj
  · exact binaryPunct_ne_lparen op (Option.some_inj.1 hhead)

/-- Below the last level of operators there are none. -/
theorem Ends.of_noCall {rest : List TokenKind} (h : rest.head? ≠ some (.punct .lparen)) :
    Ends BinaryOp.levels rest := by
  refine ⟨fun j hj => binaryOp?_eq_none fun op hlevel _ => ?_, h⟩
  have hlt := op.level_lt
  omega

/-- The tokens are read as the tree, before any tokens that do not go on with it. At a level of
operators the tree can be the left operand of what follows, and is then read as a part of this. -/
def ReadsAs (known : String → Bool) : Nat → List TokenKind → Expr → Prop
  | 0, ts, e => ∀ rest, NoCastGroup (ts ++ rest) → Ends 0 rest →
      rest.head? ≠ some (.punct .question) → Parses known .conditional (ts ++ rest) e rest
  | level + 1, ts, e => ∀ rest e' rest', NoCastGroup (ts ++ rest) → Ends (level + 1) rest →
      Parses known (.operators level e) rest e' rest' →
      Parses known (.operand level) (ts ++ rest) e' rest'

/-- At the end of a level only the tree itself is read. -/
theorem ReadsAs.operand {level : Nat} {ts : List TokenKind} {e : Expr}
    (h : ReadsAs known (level + 1) ts e) {rest : List TokenKind} (hcast : NoCastGroup (ts ++ rest))
    (hends : Ends level rest) : Parses known (.operand level) (ts ++ rest) e rest :=
  h rest e rest hcast (hends.of_le (Nat.le_succ _))
    (.stop (hends.noOperator level (Nat.le_refl _)))

/-- Behind an operand of the operators with one operand no left operand is looked for. -/
theorem readsAs_tightest {ts : List TokenKind} {e : Expr}
    (h : ∀ rest, NoCastGroup (ts ++ rest) → rest.head? ≠ some (.punct .lparen) →
      Parses known .unary (ts ++ rest) e rest) : ReadsAs known tightest ts e := by
  intro rest e' rest' hcast hends hop
  cases hop with
  | stop _ => exact .bottom (h rest hcast hends.noCall)
  | step hop _ _ =>
    cases hop.symm.trans ((Ends.of_noCall hends.noCall).noOperator _ (Nat.le_refl _))

theorem ReadsAs.unary {ts : List TokenKind} {e : Expr} (h : ReadsAs known tightest ts e)
    {rest : List TokenKind} (hcast : NoCastGroup (ts ++ rest))
    (hcall : rest.head? ≠ some (.punct .lparen)) : Parses known .unary (ts ++ rest) e rest := by
  have hread : Parses known (.operand BinaryOp.levels) (ts ++ rest) e rest :=
    ReadsAs.operand h hcast (Ends.of_noCall hcall)
  cases hread with
  | bottom h => exact h
  | level hlevel _ _ => exact absurd rfl hlevel

/-- What spells a tree is read as this tree. -/
theorem Denotes.readsAs {level : Nat} {ts : List TokenKind} {e : Expr} (h : Denotes level ts e) :
    ReadsAs known level ts e := by
  induction h with
  | @integer text n h =>
    refine readsAs_tightest fun rest hcast hcall => .atom (by simp) rfl ?_
    rw [Scope.atom, h]
    rfl
  | @name n h =>
    refine readsAs_tightest fun rest hcast hcall => .atom (by simp) rfl ?_
    show (if n = "sizeof" then _ else if rest.head? = some (.punct .lparen) then _ else _) = _
    rw [if_neg h, if_neg hcall]
    rfl
  | @parens ts e h ih =>
    refine readsAs_tightest fun rest hcast hcall => ?_
    rw [inParens_append] at hcast ⊢
    exact .group hcast.castEnd?_eq_none (ih _ (hcast.suffix (List.suffix_cons _ _))
      (Ends.of_punct (by decide) 0 rest) (by simp))
  | @unary op ts e h ih =>
    refine readsAs_tightest fun rest hcast hcall => .sign (unaryOp?_eq_some_iff.2 rfl) ?_
    exact ReadsAs.unary ih (hcast.suffix (List.suffix_cons _ _)) hcall
  | @binary op ts us l r hl hr ihl ihr =>
    intro rest e' rest' hcast hends hop
    rw [List.append_assoc] at hcast ⊢
    have hcastr : NoCastGroup (us ++ rest) :=
      hcast.suffix ((List.suffix_cons _ _).trans (List.suffix_append _ _))
    have hr : Parses known (.operand (op.rank + 1)) (us ++ rest) r rest :=
      ReadsAs.operand ihr hcastr hends
    exact ihl _ e' rest' hcast (Ends.of_binary op (us ++ rest))
      (.step (binaryOp?_eq_some_iff.2 ⟨rfl, op.rank_eq_level.symm⟩) hr hop)
  | @conditional ts us vs c t f hc ht hf ihc iht ihf =>
    intro rest hcast hends hquestion
    have htokens : ts ++ .punct .question :: (us ++ .punct .colon :: vs) ++ rest =
        ts ++ .punct .question :: (us ++ .punct .colon :: (vs ++ rest)) := by
      simp
    rw [htokens] at hcast ⊢
    have hcastt := hcast.suffix ((List.suffix_cons _ _).trans (List.suffix_append _ _))
    have hcastf := hcastt.suffix ((List.suffix_cons _ _).trans (List.suffix_append _ _))
    exact .choice (ReadsAs.operand ihc hcast (Ends.of_punct (by decide) 0 _))
      (iht _ hcastt (Ends.of_punct (by decide) 0 _) (by simp))
      (ihf rest hcastf hends hquestion)
  | @weaken level ts e hlevel h ih =>
    cases level with
    | zero =>
      intro rest hcast hends hquestion
      exact .test (ReadsAs.operand ih hcast hends) hquestion
    | succ level =>
      intro rest e' rest' hcast hends hop
      have hne : level ≠ BinaryOp.levels := by
        have hlevels : tightest = BinaryOp.levels + 1 := rfl
        omega
      exact .level hne (ReadsAs.operand ih hcast hends) hop

/-- A spelling without a group that can be taken for a cast is read as the tree that it spells. -/
theorem ofTokens?_of_denotes {ts : List TokenKind} {e : Expr} (h : Denotes 0 ts e)
    (hcast : NoCastGroup ts) : ofTokens? known ts = .ok e := by
  have hends : Ends 0 [] := ⟨fun _ _ => rfl, by nofun⟩
  have hread : ReadsAs known 0 ts e := h.readsAs
  have hparses := hread [] (by rwa [List.append_nil]) hends (by nofun)
  rw [List.append_nil] at hparses
  exact ofTokens?_eq_ok_iff.2 hparses

/-- The tokens of a tree spell it, with no more parentheses than any spelling; and where no group in
parentheses consists of identifiers and stars alone, their value is that of the tree. -/
theorem evalTokens_tokens {e : Expr} (he : e.IsPlain) :
    (Denotes 0 e.tokens e ∧ ∀ ts, Denotes 0 ts e → parenCount e.tokens ≤ parenCount ts) ∧
      (NoCastGroup e.tokens → ∀ env r, evalTokens env e.tokens = r ↔ Evaluates env e r) := by
  have hdenotes : Denotes 0 e.tokens e :=
    (denotes_tokens he).of_le (Nat.zero_le _) e.precedence_le
  refine ⟨⟨hdenotes, fun ts h => h.parenCount_le⟩, fun hcast env r => ?_⟩
  have heval : evalTokens env e.tokens = e.eval env := by
    rw [evalTokens, ofTokens?_of_denotes hdenotes hcast]
    rfl
  rw [heval, evaluates_iff]

/-- The tree of `a || 1 < b ? x - (y - 2) : -((a + 3) * b)`. -/
def sampleTree : Expr :=
  .conditional (.binary .or (.name "a") (.binary .lt (.literal (.int 1)) (.name "b")))
    (.binary .sub (.name "x") (.binary .sub (.name "y") (.literal (.int 2))))
    (.unary .neg (.binary .mul (.binary .add (.name "a") (.literal (.int 3))) (.name "b")))

/-- Zero for `a` and one for `b`. -/
def zeroAndOne : Env := fun n =>
  if n = "a" then some (.int 0) else if n = "b" then some (.int 1) else none

/-- The second branch is selected, and `x` and `y` are not looked up. -/
theorem evalTokens_sampleTree :
    sampleTree.IsPlain ∧ NoCastGroup sampleTree.tokens ∧
      evalTokens zeroAndOne sampleTree.tokens = .ok (.int (-3)) := by
  have hplain : sampleTree.IsPlain := by simp [sampleTree, IsPlain]
  have hcast : NoCastGroup sampleTree.tokens := by decide
  exact ⟨hplain, hcast, ((evalTokens_tokens hplain).2 hcast _ _).2 (evaluates_iff.2 rfl)⟩

end Expr

end CInterface
