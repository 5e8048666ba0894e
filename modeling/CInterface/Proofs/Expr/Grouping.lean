import CInterface.Proofs.Expr.Derivation
import CInterface.Proofs.Expr.Evaluation
import CInterface.Proofs.Literal.Decimal
/-!
# Parentheses before a sign

A sign behind a group in parentheses joins two operands, unless the group is taken for a cast: then
the sign is that of the second operand alone.

* `Expr.Parses.beforeClose` — a closing parenthesis behind a part does not change how it is read.
* `Expr.looksLikeCast` — the expression consists of several words and stars.
* `Expr.castEnd?_group` — in parentheses before a sign, these expressions and no others are taken
  for a cast, if their names have values.
* `Expr.evalTokens_group_sign` — the value of a group in parentheses with a sign and an operand
  behind it.
* `Expr.not_evalTokens_group_sub` — a product of names in parentheses is such a group, so the law of
  subtraction fails for it.
-/

namespace CInterface

namespace Expr

variable {known : String → Bool} {g : Scope} {ts us rest more : List TokenKind} {e : Expr}
  {part : Part}

/-! ### A closing parenthesis behind a part -/

theorem binaryOp?_beforeClose {level : Nat} (h : binaryOp? level ts = none) :
    binaryOp? level (ts ++ .punct .rparen :: more) = none := by
  cases ts with
  | nil =>
    refine binaryOp?_eq_none fun op _ hhead => ?_
    cases op <;> cases hhead
  | cons t ts =>
    cases t with
    | punct p =>
      exact Option.map_eq_none_iff.2 (Option.map_eq_none_iff.1 h)
    | _ => rfl

theorem head?_beforeClose {p : Punct} (hp : p ≠ .rparen) (h : ts.head? ≠ some (.punct p)) :
    (ts ++ .punct .rparen :: more).head? ≠ some (.punct p) := by
  cases ts with
  | nil =>
    intro hhead
    cases hhead
    exact hp rfl
  | cons t ts => exact h

theorem joinStrings_beforeClose (ts : List TokenKind) :
    joinStrings (ts ++ .punct .rparen :: more) =
      ((joinStrings ts).1, (joinStrings ts).2 ++ .punct .rparen :: more) := by
  induction ts with
  | nil => rfl
  | cons t ts ih =>
    cases t with
    | str text =>
      rw [List.cons_append, joinStrings, ih]
      rfl
    | _ => rfl

theorem Scope.atom_beforeClose {t : TokenKind} (h : g.atom (t :: ts) = .ok (e, rest)) :
    g.atom (t :: ts ++ .punct .rparen :: more) = .ok (e, rest ++ .punct .rparen :: more) := by
  cases t with
  | integer text =>
    simp only [List.cons_append, Scope.atom] at h ⊢
    cases hn : Literal.integer? text.toList with
    | none => rw [hn] at h; cases h
    | some n => rw [hn] at h; cases h; rfl
  | float text =>
    simp only [List.cons_append, Scope.atom] at h ⊢
    cases hx : Literal.float? text.toList with
    | none => rw [hx] at h; cases h
    | some x => rw [hx] at h; cases h; rfl
  | char text => cases h; rfl
  | str text =>
    cases h
    rw [List.cons_append, Scope.atom, ← List.cons_append, joinStrings_beforeClose]
    rfl
  | ident n =>
    simp only [List.cons_append, Scope.atom] at h ⊢
    split at h
    · cases h
    · rename_i hn
      split at h
      · cases h
      · rename_i hcall
        cases h
        rw [if_neg hn, if_neg (head?_beforeClose (by decide) hcall)]
  | punct p => cases h
  | error c => cases h

theorem Scope.castOperand?_beforeClose (inside tail : List TokenKind) {t : TokenKind} :
    g.castOperand? inside (t :: tail ++ .punct .rparen :: more) =
      (g.castOperand? inside (t :: tail)).map (· ++ .punct .rparen :: more) := by
  by_cases ht : t = .punct .rparen
  · rw [ht]
    cases tail with
    | nil =>
      -- a closing parenthesis starts no operand
      show (if g.namesType inside && false then _ else none) = none
      rw [Bool.and_false, if_neg Bool.false_ne_true]
    | cons operand tail =>
      show (if _ then _ else none) = (if _ then _ else none : Option _).map _
      by_cases hoperand : (g.namesType inside && startsOperand operand) = true
      · rw [if_pos hoperand, if_pos hoperand]
        rfl
      · rw [if_neg hoperand, if_neg hoperand]
        rfl
  · have hnone : ∀ tail, g.castOperand? inside (t :: tail) = none := by
      intro tail
      unfold Scope.castOperand?
      split
      · rename_i heq
        exact absurd (List.cons.inj heq).1 ht
      · rfl
    rw [List.cons_append, hnone, hnone]
    rfl

/-- With a closing parenthesis among the tokens, one behind them does not change what is a cast. -/
theorem castEnd?_beforeClose (hclose : .punct .rparen ∈ ts) :
    castEnd? g (ts ++ .punct .rparen :: more) =
      (castEnd? g ts).map (· ++ .punct .rparen :: more) := by
  obtain ⟨inside, tail, rfl, hinside, htail⟩ := exists_castWords ts
  cases tail with
  | nil =>
    rw [List.append_nil] at hclose
    cases List.all_eq_true.1 hinside _ hclose
  | cons t tail =>
    have htail' : ∀ u, (t :: tail ++ .punct .rparen :: more).head? = some u →
        isCastWord u = false := htail
    rw [List.append_assoc, castEnd?_append hinside htail', castEnd?_append hinside htail,
      g.castOperand?_beforeClose]

/-- A closing parenthesis behind a part is left, with all behind it. -/
theorem Parses.beforeClose (h : Parses known part ts e rest) (more : List TokenKind) :
    Parses known part (ts ++ .punct .rparen :: more) e (rest ++ .punct .rparen :: more) := by
  induction h with
  | test h hend ih => exact .test ih (head?_beforeClose (by decide) hend)
  | choice hc ht hf ihc iht ihf => exact .choice ihc iht ihf
  | bottom h ih => exact .bottom ih
  | level hlevel ha h iha ih => exact .level hlevel iha ih
  | stop h => exact .stop (binaryOp?_beforeClose h)
  | step hop hb h ihb ih =>
    obtain ⟨rfl, hlevel⟩ := binaryOp?_eq_some_iff.1 hop
    exact .step (binaryOp?_eq_some_iff.2 ⟨rfl, hlevel⟩) ihb ih
  | @cast ts us rest e hcast h ih =>
    obtain ⟨inside, hts, -⟩ := castEnd?_eq_some hcast
    have hclose : .punct .rparen ∈ ts := by simp [hts]
    exact .cast ((castEnd?_beforeClose hclose).trans (congrArg _ hcast)) ih
  | @group ts rest e hcast h ih =>
    have hclose : .punct .rparen ∈ ts := h.suffix.subset List.mem_cons_self
    exact .group ((castEnd?_beforeClose hclose).trans (congrArg _ hcast)) ih
  | sign hop h ih => exact .sign hop ih
  | atom hparen hop h => exact .atom hparen hop (Scope.atom_beforeClose h)

/-! ### Casts and groups -/

/-- Inside balanced parentheses the first parenthesis is no closing one. -/
theorem Balanced.head_ne {inside tail : List TokenKind} {t : TokenKind}
    (h : Balanced (inside ++ t :: tail)) (hinside : inside.all isCastWord = true) :
    t ≠ .punct .rparen := by
  intro ht
  induction inside with
  | nil =>
    rw [ht] at h
    cases h with
    | cons hplain _ => cases hplain
  | cons u inside ih =>
    obtain ⟨hu, hinside⟩ := Bool.and_eq_true_iff.1 hinside
    rw [List.cons_append] at h
    generalize hws : inside ++ t :: tail = ws at h
    cases h with
    | cons _ h =>
      rw [← hws] at h
      exact ih h hinside
    | group _ _ => cases hu

/-- No expression starts with a star. -/
theorem Parses.head_ne_star (h : Parses known part ts e rest) (hpart : part.consumes = true) :
    ts.head? ≠ some (.punct .star) := by
  induction h with
  | test h hend ih => exact ih rfl
  | choice hc ht hf ihc iht ihf => exact ihc rfl
  | bottom h ih => exact ih rfl
  | level hlevel ha h iha ih => exact iha rfl
  | stop h => cases hpart
  | step hop hb h ihb ih => cases hpart
  | cast hcast h ih => nofun
  | group hcast h ih => nofun
  | sign hop h ih =>
    intro hhead
    cases hhead
    cases hop
  | atom hparen hop h =>
    intro hhead
    cases hhead
    cases h

/-- The expression consists of several words and stars. -/
def looksLikeCast (e : List TokenKind) : Bool := e.all isCastWord && 1 < e.length

/-- An expression of words and stars names a type, unless it is a single name with a value. -/
theorem Scope.namesType_of_parses {E : Expr} {w : List TokenKind}
    (h : Parses g.known .conditional w E []) (hw : w.all isCastWord = true)
    (hknown : ∀ n, .ident n ∈ w → g.known n = true) :
    g.namesType w = decide (1 < w.length) := by
  have hstar := h.head_ne_star rfl
  have hlt := h.length_lt rfl
  cases w with
  | nil => cases hlt
  | cons t w =>
    cases t with
    | ident n =>
      cases w with
      | nil =>
        have hn : g.known n = true := hknown n List.mem_cons_self
        simp [Scope.namesType, hn]
      | cons u w => simp [Scope.namesType]
    | punct p =>
      cases p with
      | star => exact absurd rfl hstar
      | _ => cases hw
    | _ => cases hw

/-- In parentheses before a sign an expression over known names is taken for a cast just if it
looks like one. -/
theorem castEnd?_group {E : Expr} {w : List TokenKind} (h : Parses g.known .conditional w E [])
    (hknown : ∀ n, .ident n ∈ w → g.known n = true) (sign : UnaryOp) (f : List TokenKind) :
    castEnd? g (w ++ .punct .rparen :: .punct sign.punct :: f) =
      if looksLikeCast w then some (.punct sign.punct :: f) else none := by
  have hsign : startsOperand (.punct sign.punct) = true := by
    cases sign <;> rfl
  by_cases hw : w.all isCastWord = true
  · have htail : ∀ t, (.punct .rparen :: .punct sign.punct :: f).head? = some t →
        isCastWord t = false := by
      intro t ht
      cases ht
      rfl
    rw [castEnd?_append hw htail, Scope.castOperand?, g.namesType_of_parses h hw hknown, hsign,
      looksLikeCast, hw, Bool.and_true, Bool.true_and]
  · obtain ⟨inside, tail, rfl, hinside, htail⟩ := exists_castWords w
    obtain ⟨used, hused, hbalanced⟩ := h.exists_balanced
    rw [List.append_nil] at hused
    rw [← hused] at hbalanced
    cases tail with
    | nil => exact absurd (by rwa [List.append_nil]) hw
    | cons t tail =>
      have ht : t ≠ .punct .rparen := hbalanced.head_ne hinside
      have hlook : looksLikeCast (inside ++ t :: tail) = false := by
        rw [looksLikeCast, Bool.eq_false_iff.2 hw, Bool.false_and]
      rw [hlook, if_neg Bool.false_ne_true, List.append_assoc]
      exact castEnd?_eq_none_of_ne hinside htail fun hhead => ht (Option.some_inj.1 hhead)

/-! ### A sign behind a group -/

/-- An operand that ends the tokens is an expression. -/
theorem Parses.conditional_of_unary (h : Parses known .unary ts e []) :
    Parses known .conditional ts e [] :=
  .test (Parses.lower (.bottom h) (Nat.zero_le _) fun _ _ _ => rfl) (by nofun)

/-- Between an operand and another that ends the tokens, an operator joins the two. -/
theorem Parses.conditional_of_binary {op : BinaryOp} {a b : Expr}
    (ha : Parses known .unary ts a (.punct op.punct :: us)) (hb : Parses known .unary us b []) :
    Parses known .conditional ts (.binary op a b) [] := by
  have hlevels := op.level_lt
  have hleft : Parses known (.operand (op.level + 1)) ts a (.punct op.punct :: us) :=
    Parses.lower (.bottom ha) hlevels fun j hj _ =>
      binaryOp?_punct_of_ne (Nat.ne_of_lt hj) us
  have hright : Parses known (.operand (op.level + 1)) us b [] :=
    Parses.lower (.bottom hb) hlevels fun _ _ _ => rfl
  have hboth : Parses known (.operand op.level) ts (.binary op a b) [] :=
    .level (Nat.ne_of_lt hlevels) hleft
      (.step (binaryOp?_eq_some_iff.2 ⟨rfl, rfl⟩) hright (.stop rfl))
  exact .test (hboth.lower (Nat.zero_le _) fun _ _ _ => rfl) (by nofun)

/-- The value of a group in parentheses, a sign and an operand, where the names in the group have
values. The sign is the operator between the two, unless the group is taken for a cast. -/
theorem evalTokens_group_sign {env : Env} {w f : List TokenKind} {a b : Expr} {op : BinaryOp}
    {sign : UnaryOp} (hop : op.punct = sign.punct)
    (hw : ofTokens? (fun n => (env n).isSome) w = .ok a)
    (hknown : ∀ n, .ident n ∈ w → (env n).isSome = true)
    (hf : Scope.unary ⟨fun n => (env n).isSome, f.length⟩ (fuelFor f) f = .ok (b, [])) :
    evalTokens env (inParens w ++ .punct op.punct :: f) =
      if looksLikeCast w then evalTokens env f >>= sign.apply
      else evalTokens env w >>= fun v => evalTokens env f >>= fun u => op.apply v u := by
  have hw := ofTokens?_eq_ok_iff.1 hw
  have hf : Parses (fun n => (env n).isSome) .unary f b [] :=
    parses_of_read (fuelFor f) .unary f b [] hf
  have hcast := castEnd?_group (g := ⟨fun n => (env n).isSome, 0⟩) hw hknown sign f
  rw [inParens_append, evalTokens_of_parses hf.conditional_of_unary]
  by_cases hlook : looksLikeCast w = true
  · rw [if_pos hlook] at hcast
    have hwhole : Parses (fun n => (env n).isSome) .unary
        (.punct .lparen :: (w ++ .punct .rparen :: .punct op.punct :: f)) (.unary sign b) [] := by
      rw [hop]
      exact .cast hcast (.sign (unaryOp?_eq_some_iff.2 rfl) hf)
    rw [if_pos hlook, evalTokens_of_parses hwhole.conditional_of_unary, eval_unary]
  · rw [if_neg hlook, ← hop] at hcast
    have hwhole : Parses (fun n => (env n).isSome) .conditional
        (.punct .lparen :: (w ++ .punct .rparen :: .punct op.punct :: f)) (.binary op a b) [] :=
      .conditional_of_binary (.group hcast (hw.beforeClose _)) hf
    have hstrict : op.settledBy = none := by
      cases op <;> cases sign <;> first | rfl | cases hop
    rw [if_neg hlook, evalTokens_of_parses hwhole, evalTokens_of_parses hw,
      eval_binary_of_none hstrict]

/-- Two for `a` and three for `b`. -/
def twoAndThree : Env := fun n =>
  if n = "a" then some (.int 2) else if n = "b" then some (.int 3) else none

/-- The two names with a punctuator between them. -/
def aAndB (p : Punct) : List TokenKind := [.ident "a", .punct p, .ident "b"]

theorem twoAndThree_isSome {p : Punct} {n : String} (h : .ident n ∈ aAndB p) :
    (twoAndThree n).isSome = true := by
  simp only [aAndB, List.mem_cons, TokenKind.ident.injEq, reduceCtorEq, List.not_mem_nil, or_false,
    false_or] at h
  obtain rfl | rfl := h <;> rfl

/-- The operand `1`. -/
def one : List TokenKind := [.integer "1"]

theorem unary_one (known : String → Bool) :
    Scope.unary ⟨known, one.length⟩ (fuelFor one) one = .ok (.literal (.int 1), []) := rfl

/-- `a * b` and `a - b`, each in parentheses before `- 1`. -/
theorem evalTokens_twoAndThree :
    evalTokens twoAndThree (inParens (aAndB .star) ++ .punct .minus :: one) =
        .ok (.int (-1)) ∧
      evalTokens twoAndThree (inParens (aAndB .minus) ++ .punct .minus :: one) =
        .ok (.int (-2)) := by
  have hop : BinaryOp.sub.punct = UnaryOp.neg.punct := rfl
  exact ⟨(evalTokens_group_sign hop rfl (fun _ => twoAndThree_isSome) (unary_one _)).trans rfl,
    (evalTokens_group_sign hop rfl (fun _ => twoAndThree_isSome) (unary_one _)).trans rfl⟩

/-- A product of names in parentheses is taken for a cast: `(a * b) - 1` is `-1`. -/
theorem not_evalTokens_group_sub :
    ¬∀ (env : Env) (w f : List TokenKind) (a b : Expr),
      ofTokens? (fun n => (env n).isSome) w = .ok a →
      (∀ n, .ident n ∈ w → (env n).isSome = true) →
      Scope.unary ⟨fun n => (env n).isSome, f.length⟩ (fuelFor f) f = .ok (b, []) →
      evalTokens env (inParens w ++ .punct .minus :: f) =
        evalTokens env w >>= fun v => evalTokens env f >>= fun u => BinaryOp.sub.apply v u := by
  intro h
  have hlaw := h twoAndThree (aAndB .star) one _ _ rfl
    (fun _ => twoAndThree_isSome) (unary_one _)
  have hvalues : Except.ok (.int (-1)) = (Except.ok (.int 5) : Except EvalError Value) := hlaw
  exact absurd (Value.int.inj (Except.ok.inj hvalues)) (by decide)

end Expr

end CInterface
