import CInterface.Grammar.Header
/-!
# Reading as a script

A declaration is read on one stage: definitions and errors are put on top of what was found before,
and where an alternative fails, what it has put there is taken off again, down to the height that was
noted before it. Here a step of reading is a piece of syntax. It stands for a production, and it can
be run on a machine that works as described and writes a journal of what happens, also on the ways
that are given up.

* `Finding` — a definition or an error.
* `Script` — a step of reading as syntax; `Script.run` is the production that it stands for.
* `Journal` — what happens in the course of a script.
* `Script.machine` — the run of a script on a stage that is changed in place.
* `Script.machine_faithful` — the machine reads as the production does, and leaves on the stage what
  the journal keeps.

What is found on a way that is given up is in the journal, but it is not kept, and nothing that looks
at the stage later sees it (`Journal.Sees`).
-/

namespace CInterface

variable {α β : Type}

/-! ### Findings -/

/-- What is staged while a declaration is read. -/
inductive Finding where
  | definition (name : String) (x : Definition)
  | error (e : DefinitionError)

namespace Finding

def definition? : Finding → Option (String × Definition)
  | definition name x => some (name, x)
  | error _ => none

def error? : Finding → Option DefinitionError
  | definition _ _ => none
  | error e => some e

end Finding

/-- The definitions among some findings, in order. -/
def definitionsOf (found : List Finding) : List (String × Definition) :=
  found.filterMap Finding.definition?

/-- The errors among some findings, in order. -/
def errorsOf (found : List Finding) : List DefinitionError := found.filterMap Finding.error?

theorem definitionsOf_append (a b : List Finding) :
    definitionsOf (a ++ b) = definitionsOf a ++ definitionsOf b := List.filterMap_append

theorem errorsOf_append (a b : List Finding) : errorsOf (a ++ b) = errorsOf a ++ errorsOf b :=
  List.filterMap_append

/-- The stage before the tokens `ts`, when all that was found is `found`. -/
def stageOf (ts : List Token) (found : List Finding) : Stage :=
  ⟨ts, (definitionsOf found).reverse, (errorsOf found).reverse⟩

/-! ### Scripts -/

/-- A step of reading, as syntax. -/
inductive Script : Type → Type 1 where
  | pure {α : Type} (a : α) : Script α
  | bind {α β : Type} (p : Script α) (f : α → Script β) : Script β
  /-- Reads tokens, or fails. What is staged is neither seen nor changed. -/
  | tokens {α : Type} (read : List Token → Except ParseError (α × List Token)) : Script α
  /-- Looks at what is staged. -/
  | look : Script Stage
  | define (name : String) (x : Definition) : Script Unit
  | report (e : DefinitionError) : Script Unit
  /-- Tries a script, and goes back where it fails. -/
  | attempt {α : Type} (p : Script α) : Script (Option α)
  /-- Tries a script, and where it fails goes back and takes another. -/
  | either {α : Type} (p q : Script α) : Script α

instance : Monad Script where
  pure := .pure
  bind := .bind

/-- A production of which only the tokens are used. -/
instance : MonadLift Production Script where
  monadLift p := .tokens fun ts => (p ⟨ts, [], []⟩).map fun r => (r.1, r.2.rest)

/-- The production that a script stands for. -/
def Script.run {α : Type} : Script α → Production α
  | pure a => Pure.pure a
  | bind p f => p.run >>= fun a => (f a).run
  | tokens read => fun s => (read s.rest).map fun r => (r.1, { s with rest := r.2 })
  | look => get
  | define name x => CInterface.define name x
  | report e => CInterface.report e
  | attempt p => CInterface.attempt p.run
  | either p q => CInterface.either p.run q.run

/-! ### Journals -/

/-- What happens while a script is run, in order. -/
inductive Journal where
  | done
  | found (f : Finding) (next : Journal)
  /-- The script looks at the stage, which is as given. -/
  | looked (s : Stage) (next : Journal)
  /-- A way is tried and given up. -/
  | abandoned (inside next : Journal)

namespace Journal

/-- One journal behind another. -/
def append : Journal → Journal → Journal
  | done, k => k
  | found f next, k => found f (next.append k)
  | looked s next, k => looked s (next.append k)
  | abandoned inside next, k => abandoned inside (next.append k)

/-- What is found on the way that is not given up. -/
def kept : Journal → List Finding
  | done => []
  | found f next => f :: next.kept
  | looked _ next => next.kept
  | abandoned _ next => next.kept

/-- Whenever the script looks at the stage, it sees what was found on the way to that point, and
nothing else; `before` is what was found before the journal. This goes for the ways that are given up
too: they see what they have found themselves, but what comes behind them does not see it. -/
def Sees (before : List Finding) : Journal → Prop
  | done => True
  | found f next => next.Sees (before ++ [f])
  | looked s next =>
    (s.staged = (definitionsOf before).reverse ∧ s.errors = (errorsOf before).reverse) ∧
      next.Sees before
  | abandoned inside next => inside.Sees before ∧ next.Sees before

theorem kept_append (j k : Journal) : (j.append k).kept = j.kept ++ k.kept := by
  induction j with
  | done => rfl
  | found f next ih => rw [append, kept, ih, kept, List.cons_append]
  | looked s next ih => rw [append, kept, ih, kept]
  | abandoned inside next _ ih => rw [append, kept, ih, kept]

theorem sees_append {before : List Finding} {j k : Journal} (hj : j.Sees before)
    (hk : k.Sees (before ++ j.kept)) : (j.append k).Sees before := by
  induction j generalizing before with
  | done =>
    rw [kept, List.append_nil] at hk
    exact hk
  | found f next ih =>
    refine ih hj ?_
    rw [List.append_assoc]
    exact hk
  | looked s next ih => exact ⟨hj.1, ih hj.2 hk⟩
  | abandoned inside next _ ih => exact ⟨hj.1, ih hj.2 hk⟩

end Journal

/-! ### The machine -/

/-- What is noted before an alternative is tried. -/
structure Checkpoint where
  rest : List Token
  /-- The number of definitions that are staged. -/
  staged : Nat
  /-- The number of errors that are staged. -/
  errors : Nat

namespace Stage

/-- What has to be noted of a stage so that reading can go back to it. -/
def checkpoint (s : Stage) : Checkpoint := ⟨s.rest, s.staged.length, s.errors.length⟩

/-- Goes back to a checkpoint: what was staged since is taken off. -/
def rollback (s : Stage) (c : Checkpoint) : Stage :=
  ⟨c.rest, s.staged.drop (s.staged.length - c.staged), s.errors.drop (s.errors.length - c.errors)⟩

end Stage

/-- How a script ends on the machine. Where it fails, the stage is left as it is at that moment. -/
structure Outcome (α : Type) where
  journal : Journal
  result : Except ParseError α
  stage : Stage

/-- Runs a script on a stage that is changed in place. -/
def Script.machine {α : Type} : Script α → Stage → Outcome α
  | pure a, s => ⟨.done, .ok a, s⟩
  | bind p f, s =>
    match p.machine s with
    | ⟨j, .ok a, t⟩ =>
      let next := (f a).machine t
      ⟨j.append next.journal, next.result, next.stage⟩
    | ⟨j, .error e, t⟩ => ⟨j, .error e, t⟩
  | tokens read, s =>
    match read s.rest with
    | .ok (a, rest) => ⟨.done, .ok a, { s with rest }⟩
    | .error e => ⟨.done, .error e, s⟩
  | look, s => ⟨.looked s .done, .ok s, s⟩
  | define name x, s =>
    ⟨.found (.definition name x) .done, .ok (), { s with staged := (name, x) :: s.staged }⟩
  | report e, s => ⟨.found (.error e) .done, .ok (), { s with errors := e :: s.errors }⟩
  | attempt p, s =>
    match p.machine s with
    | ⟨j, .ok a, t⟩ => ⟨j, .ok (some a), t⟩
    | ⟨j, .error _, t⟩ => ⟨.abandoned j .done, .ok none, t.rollback s.checkpoint⟩
  | either p q, s =>
    match p.machine s with
    | ⟨j, .ok a, t⟩ => ⟨j, .ok a, t⟩
    | ⟨j, .error _, t⟩ =>
      let other := q.machine (t.rollback s.checkpoint)
      ⟨.abandoned j other.journal, other.result, other.stage⟩

/-- The machine reads from a stage as the production does. What the journal keeps is staged, also
where the script has failed, and what was looked at was in sight. -/
structure Outcome.Faithful (p : Production α) (s : Stage) (o : Outcome α) : Prop where
  run : p s = o.result.map fun a => (a, o.stage)
  staged : o.stage.staged = (definitionsOf o.journal.kept).reverse ++ s.staged
  errors : o.stage.errors = (errorsOf o.journal.kept).reverse ++ s.errors
  sees : ∀ before, s = stageOf s.rest before → o.journal.Sees before

namespace Outcome.Faithful

variable {p : Production α} {s t : Stage} {j : Journal}

/-- Going back takes off exactly what was staged since. -/
theorem rollback {r : Except ParseError α} (h : Outcome.Faithful p s ⟨j, r, t⟩) :
    t.rollback s.checkpoint = s := by
  have hstaged : t.staged = (definitionsOf j.kept).reverse ++ s.staged := h.staged
  have herrors : t.errors = (errorsOf j.kept).reverse ++ s.errors := h.errors
  rw [Stage.rollback, Stage.checkpoint, hstaged, herrors]
  simp only [List.length_append, Nat.add_sub_cancel, List.drop_left]

/-- What is found in sight of `before` comes behind it. -/
theorem stage_eq {r : Except ParseError α} (h : Outcome.Faithful p s ⟨j, r, t⟩)
    {before : List Finding} (hs : s = stageOf s.rest before) :
    t = stageOf t.rest (before ++ j.kept) := by
  have hstaged : t.staged = (definitionsOf j.kept).reverse ++ s.staged := h.staged
  have herrors : t.errors = (errorsOf j.kept).reverse ++ s.errors := h.errors
  rw [hs] at hstaged herrors
  rw [stageOf, definitionsOf_append, errorsOf_append, List.reverse_append, List.reverse_append]
  cases t
  dsimp only at hstaged herrors ⊢
  rw [hstaged, herrors]
  rfl

end Outcome.Faithful

/-- **The machine is faithful to the production**, by induction on the script. -/
theorem Script.machine_faithful (p : Script α) (s : Stage) :
    Outcome.Faithful p.run s (p.machine s) := by
  induction p generalizing s with
  | pure a => exact ⟨rfl, rfl, rfl, fun _ _ => trivial⟩
  | @bind α β p f ihp ihf =>
    have hfirst := ihp s
    have hrun : (Script.bind p f).run s = p.run s >>= fun r => (f r.1).run r.2 := rfl
    rw [machine]
    generalize p.machine s = o at hfirst
    obtain ⟨j, e | a, t⟩ := o
    · have hfails : p.run s = .error e := hfirst.run
      exact ⟨by rw [hrun, hfails]; rfl, hfirst.staged, hfirst.errors, hfirst.sees⟩
    · have hnext := ihf a t
      have hreads : p.run s = .ok (a, t) := hfirst.run
      refine ⟨?_, ?_, ?_, fun before hs => ?_⟩
      · rw [hrun, hreads]
        exact hnext.run
      · show ((f a).machine t).stage.staged = _
        rw [hnext.staged, hfirst.staged, Journal.kept_append, definitionsOf_append,
          List.reverse_append, List.append_assoc]
      · show ((f a).machine t).stage.errors = _
        rw [hnext.errors, hfirst.errors, Journal.kept_append, errorsOf_append,
          List.reverse_append, List.append_assoc]
      · exact Journal.sees_append (hfirst.sees before hs) (hnext.sees _ (hfirst.stage_eq hs))
  | tokens read =>
    have hrun : (Script.tokens read).run s =
        (read s.rest).map fun r => (r.1, { s with rest := r.2 }) := rfl
    rw [machine]
    cases hread : read s.rest with
    | error e => exact ⟨by rw [hrun, hread]; rfl, rfl, rfl, fun _ _ => trivial⟩
    | ok r => exact ⟨by rw [hrun, hread]; rfl, rfl, rfl, fun _ _ => trivial⟩
  | look =>
    refine ⟨rfl, rfl, rfl, fun before hs => ⟨?_, trivial⟩⟩
    rw [hs]
    exact ⟨rfl, rfl⟩
  | define name x => exact ⟨rfl, rfl, rfl, fun _ _ => trivial⟩
  | report e => exact ⟨rfl, rfl, rfl, fun _ _ => trivial⟩
  | attempt p ih =>
    have htried := ih s
    have hrun : (Script.attempt p).run s = CInterface.attempt p.run s := rfl
    rw [machine]
    generalize p.machine s = o at htried
    obtain ⟨j, e | a, t⟩ := o
    · have hfails : p.run s = .error e := htried.run
      -- the stage is that of before
      dsimp only
      rw [htried.rollback]
      refine ⟨?_, rfl, rfl, fun before hs => ⟨htried.sees before hs, trivial⟩⟩
      rw [hrun, CInterface.attempt, hfails]
      rfl
    · have hreads : p.run s = .ok (a, t) := htried.run
      refine ⟨?_, htried.staged, htried.errors, htried.sees⟩
      rw [hrun, CInterface.attempt, hreads]
      rfl
  | either p q ihp ihq =>
    have htried := ihp s
    have hrun : (Script.either p q).run s = CInterface.either p.run q.run s := rfl
    rw [machine]
    generalize p.machine s = o at htried
    obtain ⟨j, e | a, t⟩ := o
    · have hfails : p.run s = .error e := htried.run
      dsimp only
      rw [htried.rollback]
      have hother := ihq s
      refine ⟨?_, hother.staged, hother.errors,
        fun before hs => ⟨htried.sees before hs, hother.sees before hs⟩⟩
      rw [hrun, CInterface.either, hfails]
      exact hother.run
    · have hreads : p.run s = .ok (a, t) := htried.run
      refine ⟨?_, htried.staged, htried.errors, htried.sees⟩
      rw [hrun, CInterface.either, hreads]
      rfl

/-- The first alternative defines a name and fails. The second looks at the stage, and the name is not
there. -/
example :
    let failing : Script Stage := do
      .define "a" ⟨.values, .int 1⟩
      .tokens fun _ => .error (.endOfInput .typeName)
    (failing.either .look).machine ⟨[], [], []⟩ =
      ⟨.abandoned (.found (.definition "a" ⟨.values, .int 1⟩) .done) (.looked ⟨[], [], []⟩ .done),
        .ok ⟨[], [], []⟩, ⟨[], [], []⟩⟩ := rfl

end CInterface
