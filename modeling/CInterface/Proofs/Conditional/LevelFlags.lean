import CInterface.Proofs.Conditional.Nesting
import Mathlib.Data.List.Induction
/-!
# Flags by level

The open conditional groups may as well be kept as two lists of flags that grow and shrink at their
ends: one says of each level whether its lines count, beginning with the text itself, and the other of
each group whether a branch of it was taken. A directive then reads and writes the lists by position,
each at a place that the length of the other gives.

Conditions are computations over a state here, so that the state tells whether one was evaluated.

* `GroupStep` — a directive of conditional groups.
* `ConditionStack.step`, `ConditionStack.run` — what directives do to the stack of groups.
* `PreprocessState.exists_run_lines` — the groups of a text that is preprocessed are those of a run.
* `LevelFlags.step?`, `LevelFlags.run?` — what directives do to the flags; there is no answer where a
  place outside a list is read or written.
* `run?_eq_flags` — this never happens, whatever the directives are, and the flags are those of the
  groups.
-/

namespace CInterface

/-! ### Directives -/

/-- A directive of conditional groups, with the condition that it evaluates if that matters. -/
inductive GroupStep (σ : Type) where
  | opens (condition : σ → Bool × σ)
  | elif (condition : σ → Bool × σ)
  | otherwise
  | endif

variable {σ : Type}

/-- Evaluates a condition where it matters. Elsewhere it counts as false and leaves no trace. -/
def evaluateIf (live : Bool) (condition : σ → Bool × σ) (x : σ) : Bool × σ :=
  if live then condition x else (false, x)

/-- What does not matter is false. -/
theorem live_of_evaluateIf {live : Bool} {condition : σ → Bool × σ} {x : σ}
    (h : (evaluateIf live condition x).1 = true) : live = true := by
  cases live with
  | true => rfl
  | false => cases h

namespace ConditionStack

/-- What a directive does to the groups and to the state of the conditions. A directive without the
group that it needs does nothing. -/
def step (s : ConditionStack) (d : GroupStep σ) (x : σ) : ConditionStack × σ :=
  match d with
  | .opens condition =>
    let (value, x) := evaluateIf s.opensLive condition x
    (s.pushIf value, x)
  | .elif condition =>
    let (value, x) := evaluateIf s.elifLive condition x
    ((s.elif? value).getD s, x)
  | .otherwise => (s.else?.getD s, x)
  | .endif => (s.endif?.getD s, x)

/-- What some directives do, where certain groups are open. -/
def runFrom (start : ConditionStack × σ) (steps : List (GroupStep σ)) : ConditionStack × σ :=
  steps.foldl (fun reached d => reached.1.step d reached.2) start

/-- What some directives do, where no group is open. -/
def run (steps : List (GroupStep σ)) (x : σ) : ConditionStack × σ := runFrom (.empty, x) steps

theorem runFrom_append (start : ConditionStack × σ) (a b : List (GroupStep σ)) :
    runFrom start (a ++ b) = runFrom (runFrom start a) b := List.foldl_append

theorem run_concat (steps : List (GroupStep σ)) (d : GroupStep σ) (x : σ) :
    run (steps ++ [d]) x = (run steps x).1.step d (run steps x).2 := by
  rw [run, runFrom_append]
  rfl

/-- A condition that is evaluated is what decides. -/
theorem step_opens (s : ConditionStack) (condition : σ → Bool × σ) (x : σ) :
    s.step (.opens condition) x =
      (⟨⟨(evaluateIf s.isActive condition x).1, (evaluateIf s.isActive condition x).1⟩ :: s.groups⟩,
        (evaluateIf s.isActive condition x).2) := by
  have htaken : (s.isActive && (evaluateIf s.isActive condition x).1) =
      (evaluateIf s.isActive condition x).1 := by
    cases s.isActive <;> rfl
  simp only [step, pushIf, opensLive, htaken]

theorem step_elif_cons (g : ConditionGroup) (outer : List ConditionGroup)
    (condition : σ → Bool × σ) (x : σ) :
    step ⟨g :: outer⟩ (.elif condition) x =
      (⟨⟨(evaluateIf (elifLive ⟨g :: outer⟩) condition x).1,
        g.hit || (evaluateIf (elifLive ⟨g :: outer⟩) condition x).1⟩ :: outer⟩,
        (evaluateIf (elifLive ⟨g :: outer⟩) condition x).2) := by
  have htaken : (elifLive ⟨g :: outer⟩ && (evaluateIf (elifLive ⟨g :: outer⟩) condition x).1) =
      (evaluateIf (elifLive ⟨g :: outer⟩) condition x).1 := by
    cases elifLive ⟨g :: outer⟩ <;> rfl
  simp only [step, elif?, htaken, Option.getD_some]

end ConditionStack

/-! ### Texts -/

namespace PreprocessState

theorem conditions_regroup (s : PreprocessState) (n : Nat) (directive : GroupDirective)
    (next : Option ConditionStack) :
    (s.regroup n directive next).conditions = next.getD s.conditions := by
  cases next <;> rfl

/-- A line does to the groups what some directive does, or nothing. -/
theorem exists_runFrom_line (s : PreprocessState) (file : String) (n : Nat) (text : List Char) :
    ∃ steps : List (GroupStep Unit), (s.line file n text).1.conditions =
      (ConditionStack.runFrom (s.conditions, ()) steps).1 := by
  -- the directive whose condition has the value that the line finds
  have hvalue : ∀ (live : Bool) (condition : List Char), (s.condition live n condition).1 =
      (evaluateIf live (fun x => ((s.condition live n condition).1, x)) ()).1 := by
    intro live condition
    cases live <;> rfl
  rw [line_eq_of_role]
  cases hrole : lineRole text with
  | plain =>
    refine ⟨[], ?_⟩
    cases hs : s.conditions.isActive with
    | true => exact conditions_line hrole hs file n
    | false =>
      dsimp only
      rw [line_of_not_active hrole hs]
      rfl
  | opens condition =>
    refine ⟨[.opens fun x => ((s.condition s.conditions.opensLive n condition).1, x)], ?_⟩
    exact congrArg s.conditions.pushIf (hvalue s.conditions.opensLive condition)
  | elif condition =>
    refine ⟨[.elif fun x => ((s.condition s.conditions.elifLive n condition).1, x)], ?_⟩
    have hregroup := conditions_regroup
      (s.report (s.condition s.conditions.elifLive n condition).2) n .elif
      (s.conditions.elif? (s.condition s.conditions.elifLive n condition).1)
    exact hregroup.trans (congrArg (fun value => (s.conditions.elif? value).getD s.conditions)
      (hvalue s.conditions.elifLive condition))
  | otherwise => exact ⟨[.otherwise], conditions_regroup s n .otherwise s.conditions.else?⟩
  | endif => exact ⟨[.endif], conditions_regroup s n .endif s.conditions.endif?⟩

/-- **The groups of a text are those of a run of directives.** -/
theorem exists_run_lines (r : Registry) (file : String) (n : Nat) (lines : List (List Char)) :
    ∃ steps : List (GroupStep Unit), (PreprocessState.lines { registry := r } file n lines).1.conditions =
      (ConditionStack.run steps ()).1 := by
  suffices h : ∀ (s : PreprocessState) (n : Nat), ∃ steps : List (GroupStep Unit),
      (s.lines file n lines).1.conditions = (ConditionStack.runFrom (s.conditions, ()) steps).1 from
    h { registry := r } n
  induction lines with
  | nil => exact fun s n => ⟨[], rfl⟩
  | cons text rest ih =>
    intro s n
    obtain ⟨first, hfirst⟩ := exists_runFrom_line s file n text
    obtain ⟨more, hmore⟩ := ih (s.line file n text).1 (n + 1)
    refine ⟨first ++ more, ?_⟩
    rw [lines_cons, ConditionStack.runFrom_append]
    rw [hfirst] at hmore
    exact hmore

end PreprocessState

/-! ### Flags -/

/-- The flags of the open groups by level, from the outside in. -/
structure LevelFlags where
  /-- The lines of a level count. The first level is the text itself. -/
  active : List Bool
  /-- A branch of the group was taken. The text itself is no group. -/
  hit : List Bool
  deriving DecidableEq, Repr

/-- The list with another flag at a place that it has. -/
def putFlag? (flags : List Bool) (i : Nat) (b : Bool) : Option (List Bool) :=
  if i < flags.length then some (flags.set i b) else none

theorem putFlag?_concat (flags : List Bool) (a b : Bool) :
    putFlag? (flags ++ [a]) flags.length b = some (flags ++ [b]) := by
  rw [putFlag?, if_pos (by rw [List.length_append]; exact Nat.lt_succ_self _), List.set_append_right
    _ _ (Nat.le_refl _), Nat.sub_self]
  rfl

namespace LevelFlags

/-- No group is open. -/
def start : LevelFlags := ⟨[true], []⟩

/-- The lines of the innermost level count. -/
def isActive (f : LevelFlags) : Bool := f.active.getLast?.getD true

/-- The lines of all levels but the innermost count, if there is a level. -/
def parentsActive? (f : LevelFlags) : Option Bool :=
  if f.active.isEmpty then none else some (f.active.dropLast.all id)

/-- A branch of the innermost group may be taken. The levels around it are looked at only where none
was taken before. -/
def branchLive? (f : LevelFlags) (hit : Bool) : Option Bool :=
  if hit then some false else f.parentsActive?

/-- Puts the flags of the innermost group, by the number of open groups. -/
def putGroup? (f : LevelFlags) (active hit : Bool) : Option LevelFlags := do
  let actives ← putFlag? f.active f.hit.length active
  let hits ← putFlag? f.hit (f.hit.length - 1) hit
  return ⟨actives, hits⟩

/-- What a directive does to the flags and to the state of the conditions. -/
def step? (f : LevelFlags) (d : GroupStep σ) (x : σ) : Option (LevelFlags × σ) :=
  match d with
  | .opens condition =>
    let (taken, x) := evaluateIf f.isActive condition x
    some (⟨f.active ++ [taken], f.hit ++ [taken]⟩, x)
  | .elif condition =>
    match f.hit.getLast? with
    | none => some (f, x)
    | some hit => do
      let (taken, x) := evaluateIf (← f.branchLive? hit) condition x
      return (← f.putGroup? taken (hit || taken), x)
  | .otherwise =>
    match f.hit.getLast? with
    | none => some (f, x)
    | some hit => do return (← f.putGroup? (← f.branchLive? hit) true, x)
  | .endif =>
    match f.hit.getLast? with
    | none => some (f, x)
    | some _ => some (⟨f.active.dropLast, f.hit.dropLast⟩, x)

/-- What some directives do to the flags, where no group is open. -/
def run? (steps : List (GroupStep σ)) (x : σ) : Option (LevelFlags × σ) :=
  steps.foldlM (fun reached d => reached.1.step? d reached.2) (start, x)

theorem run?_concat (steps : List (GroupStep σ)) (d : GroupStep σ) (x : σ) :
    run? (steps ++ [d]) x = (run? steps x).bind fun reached => reached.1.step? d reached.2 := by
  simp [run?]

end LevelFlags

/-! ### The flags of a stack -/

namespace ConditionStack

/-- The flags of the groups of a stack. -/
def flags (s : ConditionStack) : LevelFlags :=
  ⟨true :: (s.groups.map (·.active)).reverse, (s.groups.map (·.hit)).reverse⟩

theorem flags_cons (g : ConditionGroup) (outer : List ConditionGroup) : flags ⟨g :: outer⟩ =
    ⟨(flags ⟨outer⟩).active ++ [g.active], (flags ⟨outer⟩).hit ++ [g.hit]⟩ := by
  simp only [flags, List.map_cons, List.reverse_cons, List.cons_append]

/-- There is one level more than there are groups. -/
theorem length_flags (s : ConditionStack) :
    s.flags.active.length = s.flags.hit.length + 1 ∧ s.flags.hit.length = s.depth := by
  simp [flags, depth]

theorem isActive_flags (s : ConditionStack) : s.flags.isActive = s.isActive := by
  obtain ⟨_ | ⟨g, outer⟩⟩ := s
  · rfl
  · rw [flags_cons, LevelFlags.isActive, List.getLast?_concat]
    rfl

theorem getLast?_hit_flags (g : ConditionGroup) (outer : List ConditionGroup) :
    (flags ⟨g :: outer⟩).hit.getLast? = some g.hit := by
  rw [flags_cons, List.getLast?_concat]

theorem branchLive?_flags (g : ConditionGroup) (outer : List ConditionGroup) :
    (flags ⟨g :: outer⟩).branchLive? g.hit = some (elifLive ⟨g :: outer⟩) := by
  have hlive : elifLive ⟨g :: outer⟩ = (!g.hit && outer.all (·.active)) := rfl
  have houter : (flags ⟨outer⟩).active.all id = outer.all (·.active) := by
    simp [flags]
  rw [hlive, flags_cons, LevelFlags.branchLive?, LevelFlags.parentsActive?]
  cases g.hit with
  | true => rfl
  | false => simp [houter]

theorem putGroup?_flags (g : ConditionGroup) (outer : List ConditionGroup) (active hit : Bool) :
    (flags ⟨g :: outer⟩).putGroup? active hit = some (flags ⟨⟨active, hit⟩ :: outer⟩) := by
  have hlength := (length_flags ⟨outer⟩).1
  rw [flags_cons, flags_cons, LevelFlags.putGroup?]
  simp only [List.length_append, List.length_singleton, Nat.add_sub_cancel]
  rw [← hlength, putFlag?_concat, putFlag?_concat]
  rfl

/-- A directive does the same to the flags and to the groups. -/
theorem step?_flags (s : ConditionStack) (d : GroupStep σ) (x : σ) :
    s.flags.step? d x = some ((s.step d x).1.flags, (s.step d x).2) := by
  cases d with
  | opens condition => rw [step_opens, flags_cons, LevelFlags.step?, isActive_flags]
  | elif condition =>
    obtain ⟨_ | ⟨g, outer⟩⟩ := s
    · rfl
    · rw [step_elif_cons]
      simp only [LevelFlags.step?, getLast?_hit_flags, branchLive?_flags, putGroup?_flags,
        Option.bind_eq_bind, Option.bind_some, pure]
  | otherwise =>
    obtain ⟨_ | ⟨g, outer⟩⟩ := s
    · rfl
    · simp only [LevelFlags.step?, getLast?_hit_flags, branchLive?_flags, putGroup?_flags,
        Option.bind_eq_bind, Option.bind_some, pure, step, else?, Option.getD_some]
  | endif =>
    obtain ⟨_ | ⟨g, outer⟩⟩ := s
    · rfl
    · simp only [LevelFlags.step?, flags_cons, List.getLast?_concat, List.dropLast_concat, step,
        endif?, Option.getD_some]

/-- **The flags of a run are those of its groups.** No place outside the lists is read or written,
whatever the directives are. -/
theorem run?_eq_flags (steps : List (GroupStep σ)) (x : σ) :
    LevelFlags.run? steps x = some ((run steps x).1.flags, (run steps x).2) := by
  induction steps using List.reverseRecOn with
  | nil => rfl
  | append_singleton steps d ih =>
    rw [LevelFlags.run?_concat, ih, run_concat]
    exact step?_flags (run steps x).1 d (run steps x).2

end ConditionStack

end CInterface
