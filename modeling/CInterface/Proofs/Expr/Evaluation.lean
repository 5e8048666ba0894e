import CInterface.Expr
/-!
# The values of expression trees, by rules

Which operands of an expression are evaluated, and what the expression then is.

* `BinaryOp.settledBy` — the truth of a left operand with which an operator needs no right operand.
* `Expr.Evaluates` — the rules: an operand has a premise only in the rules where it is evaluated.
* `Expr.evaluates_iff` — `Expr.eval` is the function that the rules describe.
-/

namespace CInterface

/-- `&&` is settled by a false operand on its left, and `||` by a true one. -/
def BinaryOp.settledBy : BinaryOp → Option Bool
  | and => some false
  | or => some true
  | _ => none

namespace Expr

/-- The result of an expression, which is a value or an error. -/
inductive Evaluates (env : Env) : Expr → Except EvalError Value → Prop where
  | literal (v : Value) : Evaluates env (.literal v) (.ok v)
  | known {n : String} {v : Value} (h : env n = some v) : Evaluates env (.name n) (.ok v)
  | unknown {n : String} (h : env n = none) :
      Evaluates env (.name n) (.error (.unknownIdentifier n))
  | unary {op : UnaryOp} {e : Expr} {v : Value} (he : Evaluates env e (.ok v)) :
      Evaluates env (.unary op e) (op.apply v)
  | unaryError {op : UnaryOp} {e : Expr} {x : EvalError} (he : Evaluates env e (.error x)) :
      Evaluates env (.unary op e) (.error x)
  /-- The left operand settles the result, whatever stands on the right. -/
  | settled {op : BinaryOp} {l r : Expr} {b : Bool} {v : Value} (hop : op.settledBy = some b)
      (hl : Evaluates env l (.ok v)) (hv : v.isTruthy = b) :
      Evaluates env (.binary op l r) (.ok (.ofBool b))
  /-- The left operand does not settle the result, which is the truth of the right one. -/
  | unsettled {op : BinaryOp} {l r : Expr} {b : Bool} {v w : Value} (hop : op.settledBy = some b)
      (hl : Evaluates env l (.ok v)) (hv : v.isTruthy = !b) (hr : Evaluates env r (.ok w)) :
      Evaluates env (.binary op l r) (.ok (.ofBool w.isTruthy))
  | binary {op : BinaryOp} {l r : Expr} {v w : Value} (hop : op.settledBy = none)
      (hl : Evaluates env l (.ok v)) (hr : Evaluates env r (.ok w)) :
      Evaluates env (.binary op l r) (op.apply v w)
  | leftError {op : BinaryOp} {l r : Expr} {x : EvalError} (hl : Evaluates env l (.error x)) :
      Evaluates env (.binary op l r) (.error x)
  | rightError {op : BinaryOp} {l r : Expr} {v : Value} {x : EvalError}
      (hl : Evaluates env l (.ok v)) (hv : op.settledBy ≠ some v.isTruthy)
      (hr : Evaluates env r (.error x)) : Evaluates env (.binary op l r) (.error x)
  /-- The test has a value, and selects a branch. -/
  | branch {c t f : Expr} {v : Value} {r : Except EvalError Value}
      (hc : Evaluates env c (.ok v)) (h : Evaluates env (if v.isTruthy then t else f) r) :
      Evaluates env (.conditional c t f) r
  | testError {c t f : Expr} {x : EvalError} (hc : Evaluates env c (.error x)) :
      Evaluates env (.conditional c t f) (.error x)

variable {env : Env}

/-! ### The function -/

theorem eval_unary (op : UnaryOp) (e : Expr) :
    (unary op e).eval env = e.eval env >>= op.apply := by
  rw [Expr.eval]

/-- An operator that its left operand can settle. -/
theorem eval_binary_of_some {op : BinaryOp} {b : Bool} (hop : op.settledBy = some b)
    (l r : Expr) :
    (binary op l r).eval env = l.eval env >>= fun v =>
      if v.isTruthy = b then .ok (.ofBool b)
      else r.eval env >>= fun w => .ok (.ofBool w.isTruthy) := by
  have branches : ∀ v : Value, v.isTruthy = true ∨ v.isTruthy = false :=
    fun v => Bool.eq_false_or_eq_true _
  cases op with
  | and =>
    cases hop
    rw [Expr.eval]
    refine congrArg (l.eval env >>= ·) (funext fun v => ?_)
    rcases branches v with hv | hv <;> rw [hv] <;> rfl
  | or =>
    cases hop
    rw [Expr.eval]
    refine congrArg (l.eval env >>= ·) (funext fun v => ?_)
    rcases branches v with hv | hv <;> rw [hv] <;> rfl
  | _ => cases hop

/-- An operator that evaluates both operands. -/
theorem eval_binary_of_none {op : BinaryOp} (hop : op.settledBy = none) (l r : Expr) :
    (binary op l r).eval env =
      l.eval env >>= fun v => r.eval env >>= fun w => op.apply v w := by
  cases op with
  | and => cases hop
  | or => cases hop
  | _ => rfl

theorem eval_conditional (c t f : Expr) :
    (conditional c t f).eval env =
      c.eval env >>= fun v => (if v.isTruthy then t else f).eval env := by
  rw [Expr.eval]
  refine congrArg (c.eval env >>= ·) (funext fun v => ?_)
  by_cases hv : v.isTruthy = true
  · rw [if_pos hv, if_pos hv]
  · rw [if_neg hv, if_neg hv]

/-! ### The function and the rules -/

/-- The rules give what the function does. -/
theorem Evaluates.eval_eq {e : Expr} {r : Except EvalError Value} (h : Evaluates env e r) :
    e.eval env = r := by
  induction h with
  | literal v => rfl
  | known h => rw [Expr.eval, h]
  | unknown h => rw [Expr.eval, h]
  | unary he ih => rw [eval_unary, ih]; rfl
  | unaryError he ih => rw [eval_unary, ih]; rfl
  | @settled op l r b v hop hl hv ih =>
    rw [eval_binary_of_some hop, ih]
    exact if_pos hv
  | @unsettled op l r b v w hop hl hv hr ihl ihr =>
    have hne : v.isTruthy ≠ b := by
      rw [hv]
      exact (Bool.not_eq_self b).1
    rw [eval_binary_of_some hop, ihl, ihr]
    exact if_neg hne
  | binary hop hl hr ihl ihr => rw [eval_binary_of_none hop, ihl, ihr]; rfl
  | @leftError op l r x hl ih =>
    cases hop : op.settledBy with
    | none => rw [eval_binary_of_none hop, ih]; rfl
    | some b => rw [eval_binary_of_some hop, ih]; rfl
  | @rightError op l r v x hl hv hr ihl ihr =>
    cases hop : op.settledBy with
    | none => rw [eval_binary_of_none hop, ihl, ihr]; rfl
    | some b =>
      have hne : v.isTruthy ≠ b := fun h => hv (by rw [hop, h])
      rw [eval_binary_of_some hop, ihl, ihr]
      exact if_neg hne
  | branch hc h ihc ih => rw [eval_conditional, ihc]; exact ih
  | testError hc ih => rw [eval_conditional, ih]; rfl

/-- Every expression has a result: in each case that its operands leave there is a rule. -/
theorem exists_evaluates (e : Expr) : ∃ r, Evaluates env e r := by
  induction e with
  | literal v => exact ⟨_, .literal v⟩
  | name n =>
    cases h : env n with
    | some v => exact ⟨_, .known h⟩
    | none => exact ⟨_, .unknown h⟩
  | unary op e ih =>
    obtain ⟨v | v, he⟩ := ih
    · exact ⟨_, .unaryError he⟩
    · exact ⟨_, .unary he⟩
  | binary op l r ihl ihr =>
    obtain ⟨v | v, hl⟩ := ihl
    · exact ⟨_, .leftError hl⟩
    · by_cases hv : op.settledBy = some v.isTruthy
      · exact ⟨_, .settled hv hl rfl⟩
      · obtain ⟨w | w, hr⟩ := ihr
        · exact ⟨_, .rightError hl hv hr⟩
        · cases hop : op.settledBy with
          | none => exact ⟨_, .binary hop hl hr⟩
          | some b =>
            rw [hop, Option.some_inj] at hv
            exact ⟨_, .unsettled hop hl (Bool.eq_not_of_ne (Ne.symm hv)) hr⟩
  | conditional c t f ihc iht ihf =>
    obtain ⟨v | v, hc⟩ := ihc
    · exact ⟨_, .testError hc⟩
    · obtain ⟨r, h⟩ : ∃ r, Evaluates env (if v.isTruthy then t else f) r := by
        by_cases hv : v.isTruthy = true
        · rw [if_pos hv]; exact iht
        · rw [if_neg hv]; exact ihf
      exact ⟨r, .branch hc h⟩

/-- The function gives exactly what the rules do. -/
theorem evaluates_iff {e : Expr} {r : Except EvalError Value} :
    Evaluates env e r ↔ e.eval env = r := by
  refine ⟨fun h => h.eval_eq, fun h => ?_⟩
  obtain ⟨r', hr'⟩ : ∃ r', Evaluates env e r' := exists_evaluates e
  rw [hr'.eval_eq] at h
  rw [← h]
  exact hr'

end Expr

end CInterface
