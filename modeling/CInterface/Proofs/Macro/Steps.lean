import Mathlib.Logic.Function.Iterate
import CInterface.Preprocess
import CInterface.Proofs.Macro.Derivation
/-!
# Expansion step by step

Expanding a text as a machine runs: in one step it passes a segment, replaces a macro, or begins or
ends the expansion of an argument. Calls whose arguments are being expanded wait on a stack, so that
nothing is hidden in a recursion, and replacements are counted wherever they are made. That the
machine halts is no matter of its definition.

* `ExpansionState` — what the machine works on.
* `MacroTable.step` — one step.
* `MacroTable.spent_step` — a replacement takes one from the budget, and nothing else does.
* `MacroTable.comesTo_scan` — the machine comes to what the scan gives.
* `MacroTable.expand_eq_of_iterate` — so an expansion is evaluated by running the machine.
* `Registry.expandText_within_limit` — the machine halts, within the budget.
-/

namespace CInterface

/-- A call of a function macro whose arguments are being expanded. -/
structure PendingCall where
  /-- The macros that are hidden at the call. -/
  hidden : List HiddenMacro
  /-- The finished text before the call, reversed. -/
  before : List Char
  /-- The name of the macro. -/
  word : List Char
  /-- The text behind the name. -/
  rest : List Char
  callee : FnMacro
  /-- The text behind the call. -/
  after : List Char
  /-- The arguments that are expanded already. -/
  expanded : List String

/-- What the machine is at. -/
inductive ExpansionFocus where
  /-- It scans the text `cs`, before which the text `before`, reversed, is finished. -/
  | scan (hidden : List HiddenMacro) (before cs : List Char)
  /-- It has these arguments of a call still to expand. -/
  | call (c : PendingCall) (args : List (List Char))
  /-- It has finished a text. -/
  | done (text : List Char)

/-- A state of the machine. -/
structure ExpansionState where
  focus : ExpansionFocus
  /-- The calls around the present text, the innermost first, with their remaining arguments. -/
  stack : List (PendingCall × List (List Char))
  budget : Nat
  /-- The number of replacements that were made. -/
  replacements : Nat
  failures : List (String × MacroError)

namespace ExpansionState

/-- The machine at the beginning of a text. -/
def start (hidden : List String) (text : List Char) : ExpansionState :=
  ⟨.scan (hidden.map (⟨·, 0⟩)) [] text, [], MacroTable.expansionLimit, 0, []⟩

/-- Leaves a word as it is. -/
def pass (s : ExpansionState) (hidden : List HiddenMacro) (before word rest : List Char) :
    ExpansionState :=
  { s with focus := .scan hidden (word.reverse ++ before) rest }

/-- Records a call that is left as it is. -/
def fail (s : ExpansionState) (name : String) (e : MacroError) : ExpansionState :=
  { s with failures := (name, e) :: s.failures }

/-- Replaces a macro, and goes on at the beginning of the replacement. -/
def replace (s : ExpansionState) (hidden : List HiddenMacro) (before : List Char) (name : String)
    (text after : List Char) : ExpansionState :=
  { s with
    focus := .scan (hideMacro hidden name after.length) before (text ++ after)
    budget := s.budget - 1
    replacements := s.replacements + 1 }

/-- Goes on with the arguments of a call: expands the next, or replaces the call. -/
def stepCall (s : ExpansionState) (c : PendingCall) : List (List Char) → ExpansionState
  | arg :: args =>
    { s with focus := .scan (c.hidden.map (⟨·.name, 0⟩)) [] arg, stack := (c, args) :: s.stack }
  | [] =>
    match c.callee.substitute c.expanded with
    | .error e => (s.fail (String.ofList c.word) e).pass c.hidden c.before c.word c.rest
    | .ok text =>
      if s.budget = 0 then { s with focus := .done (c.before.reverse ++ (c.word ++ c.rest)) }
      else s.replace c.hidden c.before (String.ofList c.word) text.toList c.after

/-- The expansion that is finished, if no text is left. -/
def finished? (s : ExpansionState) : Option Expansion :=
  match s.focus, s.stack with
  | .done text, [] => some ⟨text, s.budget, s.failures⟩
  | _, _ => none

theorem finished?_eq_some {s : ExpansionState} {e : Expansion} (h : s.finished? = some e) :
    ∃ text budget replacements failures,
      s = ⟨.done text, [], budget, replacements, failures⟩ ∧ e = ⟨text, budget, failures⟩ := by
  obtain ⟨focus, stack, budget, replacements, failures⟩ := s
  unfold finished? at h
  split at h
  · rename_i text hfocus hstack
    cases hfocus
    cases hstack
    cases h
    exact ⟨text, budget, replacements, failures, rfl, rfl⟩
  · cases h

end ExpansionState

namespace MacroTable

/-- Goes on at a word that is not hidden. -/
def stepName (t : MacroTable) (s : ExpansionState) (hidden : List HiddenMacro)
    (before word rest : List Char) : ExpansionState :=
  let name := String.ofList word
  match t.objects.get? name with
  | some body => s.replace hidden before name body.toList rest
  | none => match t.functions.get? name with
    | none => s.pass hidden before word rest
    | some m => match callArguments? rest with
      | none => s.pass hidden before word rest
      | some (.error e) => (s.fail name e).pass hidden before word rest
      | some (.ok (args, after)) =>
        { s with focus := .call ⟨hidden, before, word, rest, m, after, []⟩ args }

/-- Goes on with a text. -/
def stepScan (t : MacroTable) (s : ExpansionState) (hidden : List HiddenMacro)
    (before : List Char) : List Char → ExpansionState
  | [] => { s with focus := .done before.reverse }
  | c :: r =>
    let n := (nextSegment c r).2
    let word := c :: r.take n
    let rest := r.drop n
    if (nextSegment c r).1 ≠ .ident then s.pass hidden before word rest
    else if s.budget = 0 then { s with focus := .done (before.reverse ++ c :: r) }
    else
      let inside := hidden.filter (·.tail < (c :: r).length)
      if inside.any (·.name = String.ofList word) then s.pass inside before word rest
      else t.stepName s inside before word rest

/-- One step of the machine. With a finished text and no call around it, it stands still. -/
def step (t : MacroTable) (s : ExpansionState) : ExpansionState :=
  match s.focus with
  | .scan hidden before cs => t.stepScan s hidden before cs
  | .call c args => s.stepCall c args
  | .done text => match s.stack with
    | [] => s
    | (c, args) :: stack =>
      { s with
        focus := .call { c with expanded := c.expanded ++ [String.ofList text] } args
        stack }

/-! ### Replacements -/

theorem spent_replace {s : ExpansionState} (h : s.budget ≠ 0) (hidden : List HiddenMacro)
    (before : List Char) (name : String) (text after : List Char) :
    (s.replace hidden before name text after).replacements +
      (s.replace hidden before name text after).budget = s.replacements + s.budget := by
  show s.replacements + 1 + (s.budget - 1) = s.replacements + s.budget
  omega

theorem spent_stepCall (s : ExpansionState) (c : PendingCall) (args : List (List Char)) :
    (s.stepCall c args).replacements + (s.stepCall c args).budget = s.replacements + s.budget := by
  cases args with
  | cons arg args => rfl
  | nil =>
    rw [ExpansionState.stepCall]
    split
    · rfl
    · split
      · rfl
      · rename_i hb
        exact spent_replace hb _ _ _ _ _

theorem spent_stepScan (t : MacroTable) (s : ExpansionState) (hidden : List HiddenMacro)
    (before cs : List Char) :
    (t.stepScan s hidden before cs).replacements + (t.stepScan s hidden before cs).budget =
      s.replacements + s.budget := by
  cases cs with
  | nil => rfl
  | cons c r =>
    rw [stepScan]
    dsimp only
    split
    · rfl
    · split
      · rfl
      · rename_i hb
        split
        · rfl
        · unfold stepName
          dsimp only
          split
          · exact spent_replace hb _ _ _ _ _
          · split
            · rfl
            · split <;> rfl

/-- A replacement takes one from the budget, and nothing else does. -/
theorem spent_step (t : MacroTable) (s : ExpansionState) :
    (t.step s).replacements + (t.step s).budget = s.replacements + s.budget := by
  unfold step
  split
  · exact spent_stepScan t s _ _ _
  · exact spent_stepCall s _ _
  · split <;> rfl

theorem spent_iterate (t : MacroTable) (n : Nat) (s : ExpansionState) :
    (t.step^[n] s).replacements + (t.step^[n] s).budget = s.replacements + s.budget := by
  induction n generalizing s with
  | zero => rfl
  | succ n ih => rw [Function.iterate_succ_apply, ih, spent_step]

/-! ### Runs -/

/-- The machine comes from one state to another. -/
def Reaches (t : MacroTable) (s s' : ExpansionState) : Prop := ∃ n, t.step^[n] s = s'

theorem Reaches.refl (t : MacroTable) (s : ExpansionState) : t.Reaches s s := ⟨0, rfl⟩

theorem Reaches.trans {t : MacroTable} {a b c : ExpansionState} (h : t.Reaches a b)
    (h' : t.Reaches b c) : t.Reaches a c := by
  obtain ⟨n, rfl⟩ := h
  obtain ⟨m, rfl⟩ := h'
  exact ⟨m + n, Function.iterate_add_apply _ _ _ _⟩

theorem Reaches.of_step {t : MacroTable} {a b c : ExpansionState} (h : t.step a = b)
    (h' : t.Reaches b c) : t.Reaches a c := by
  obtain ⟨n, rfl⟩ := h'
  exact ⟨n + 1, by rw [Function.iterate_succ_apply, h]⟩

variable {t : MacroTable} {hidden : List HiddenMacro} {before : List Char} {budget : Nat}
  {failures : List (String × MacroError)}

/-- With the same calls around it, the machine expands the text `cs` to `e`. -/
def ComesTo (t : MacroTable) (hidden : List HiddenMacro) (before : List Char) (budget : Nat)
    (failures : List (String × MacroError)) (cs : List Char) (e : Expansion) : Prop :=
  ∀ stack k, ∃ k', t.Reaches ⟨.scan hidden before cs, stack, budget, k, failures⟩
    ⟨.done e.text, stack, e.budget, k', e.failures⟩

/-- The first step goes on with another text. -/
theorem ComesTo.of_step {hidden' : List HiddenMacro} {before' : List Char} {budget' : Nat}
    {failures' : List (String × MacroError)} {cs cs' : List Char} {e : Expansion}
    (hstep : ∀ stack k, ∃ k', t.step ⟨.scan hidden before cs, stack, budget, k, failures⟩ =
      ⟨.scan hidden' before' cs', stack, budget', k', failures'⟩)
    (h : t.ComesTo hidden' before' budget' failures' cs' e) :
    t.ComesTo hidden before budget failures cs e := by
  intro stack k
  obtain ⟨k₁, h₁⟩ := hstep stack k
  obtain ⟨k₂, h₂⟩ := h stack k₁
  exact ⟨k₂, .of_step h₁ h₂⟩

/-- Where each argument of a call is expanded, all are, one after the other. -/
theorem reaches_call (failures : List (String × MacroError)) (c : PendingCall)
    {args : List (List Char)}
    (h : ∀ arg ∈ args, ∀ b ≤ budget, ∀ f, t.ComesTo (c.hidden.map (⟨·.name, 0⟩)) [] b f arg
      (t.scan (c.hidden.map (⟨·.name, 0⟩)) [] b f arg))
    (stack : List (PendingCall × List (List Char))) (k : Nat) :
    ∃ k', t.Reaches ⟨.call c args, stack, budget, k, failures⟩
      ⟨.call { c with expanded := c.expanded ++
          (t.scanAll (c.hidden.map (·.name)) budget failures args).texts } [], stack,
        (t.scanAll (c.hidden.map (·.name)) budget failures args).budget, k',
        (t.scanAll (c.hidden.map (·.name)) budget failures args).failures⟩ := by
  induction args generalizing c budget failures k with
  | nil =>
    rw [scanAll]
    dsimp only
    rw [List.append_nil]
    exact ⟨k, .refl t _⟩
  | cons arg args ih =>
    have hle := scan_budget_le t (c.hidden.map (⟨·.name, 0⟩)) [] budget failures arg
    obtain ⟨k₁, h₁⟩ := h arg List.mem_cons_self budget (Nat.le_refl _) failures
      ((c, args) :: stack) k
    rw [scanAll, List.map_map, Function.comp_def]
    dsimp only
    rw [Nat.min_eq_left hle]
    generalize t.scan (c.hidden.map (⟨·.name, 0⟩)) [] budget failures arg = first at *
    obtain ⟨k₂, h₂⟩ := ih first.failures
      { c with expanded := c.expanded ++ [String.ofList first.text] }
      (fun a ha b hb f => h a (List.mem_cons_of_mem _ ha) b (Nat.le_trans hb hle) f) k₁
    rw [List.append_assoc, List.singleton_append] at h₂
    exact ⟨k₂, .of_step rfl (h₁.trans (.of_step rfl h₂))⟩

section Segment

variable {c : Char} {r : List Char} {stack : List (PendingCall × List (List Char))} {k : Nat}

theorem step_other (hk : (nextSegment c r).1 ≠ .ident) :
    t.step ⟨.scan hidden before (c :: r), stack, budget, k, failures⟩ =
      ⟨.scan hidden ((c :: r.take (nextSegment c r).2).reverse ++ before)
        (r.drop (nextSegment c r).2), stack, budget, k, failures⟩ := by
  show t.stepScan _ hidden before (c :: r) = _
  rw [stepScan, if_pos hk]
  rfl

theorem step_spent (hk : (nextSegment c r).1 = .ident) :
    t.step ⟨.scan hidden before (c :: r), stack, 0, k, failures⟩ =
      ⟨.done (before.reverse ++ c :: r), stack, 0, k, failures⟩ := by
  show t.stepScan _ hidden before (c :: r) = _
  rw [stepScan, if_neg fun h => h hk, if_pos rfl]

theorem step_ident (hk : (nextSegment c r).1 = .ident) (hb : budget ≠ 0) :
    t.step ⟨.scan hidden before (c :: r), stack, budget, k, failures⟩ =
      let s : ExpansionState := ⟨.scan hidden before (c :: r), stack, budget, k, failures⟩
      let word := c :: r.take (nextSegment c r).2
      let rest := r.drop (nextSegment c r).2
      let inside := hidden.filter (·.tail < (c :: r).length)
      if inside.any (·.name = String.ofList word) then s.pass inside before word rest
      else t.stepName s inside before word rest := by
  show t.stepScan _ hidden before (c :: r) = _
  rw [stepScan, if_neg fun h => h hk, if_neg hb]

/-- The machine follows the scan at a call, where it does so behind the name, at any replacement,
and in the arguments. -/
theorem reaches_done (failures : List (String × MacroError)) (m : FnMacro) (after : List Char)
    {inside : List HiddenMacro} {word rest : List Char} {args : List (List Char)}
    (hpass : ∀ b ≤ budget, ∀ f, t.ComesTo inside (word.reverse ++ before) b f rest
      (t.scan inside (word.reverse ++ before) b f rest))
    (hreplace : ∀ hidden, ∀ b < budget, ∀ f cs,
      t.ComesTo hidden before b f cs (t.scan hidden before b f cs))
    (hargs : ∀ arg ∈ args, ∀ hidden, ∀ b ≤ budget, ∀ f,
      t.ComesTo hidden [] b f arg (t.scan hidden [] b f arg))
    (stack : List (PendingCall × List (List Char))) (k : Nat) :
    let found := t.scanAll (inside.map (·.name)) budget failures args
    let e := match m.substitute found.texts with
      | .error e => t.scan inside (word.reverse ++ before) found.budget
          ((String.ofList word, e) :: found.failures) rest
      | .ok text =>
        if found.budget = 0 then ⟨before.reverse ++ (word ++ rest), found.budget, found.failures⟩
        else t.scan (hideMacro inside (String.ofList word) after.length) before (found.budget - 1)
          found.failures (text.toList ++ after)
    ∃ k', t.Reaches
      ⟨.call ⟨inside, before, word, rest, m, after, []⟩ args, stack, budget, k, failures⟩
      ⟨.done e.text, stack, e.budget, k', e.failures⟩ := by
  obtain ⟨k₁, h₁⟩ := reaches_call failures ⟨inside, before, word, rest, m, after, []⟩
    (fun arg harg b hb f => hargs arg harg _ b hb f) stack k
  have hle := scanAll_budget_le t (inside.map (·.name)) budget failures args
  dsimp only [List.nil_append] at h₁ ⊢
  generalize t.scanAll (inside.map (·.name)) budget failures args = found at *
  cases hs : m.substitute found.texts with
  | error e =>
    obtain ⟨k₂, h₂⟩ := hpass found.budget hle ((String.ofList word, e) :: found.failures) stack k₁
    refine ⟨k₂, h₁.trans (.of_step ?_ h₂)⟩
    show ExpansionState.stepCall _ _ [] = _
    rw [ExpansionState.stepCall, hs]
    rfl
  | ok text =>
    dsimp only
    split
    · rename_i hspent
      refine ⟨k₁, h₁.trans (.of_step ?_ (.refl t _))⟩
      show ExpansionState.stepCall _ _ [] = _
      rw [ExpansionState.stepCall, hs]
      exact if_pos hspent
    · rename_i hleft
      obtain ⟨k₂, h₂⟩ := hreplace (hideMacro inside (String.ofList word) after.length)
        (found.budget - 1) (by omega) found.failures (text.toList ++ after) stack (k₁ + 1)
      refine ⟨k₂, h₁.trans (.of_step ?_ h₂)⟩
      show ExpansionState.stepCall _ _ [] = _
      rw [ExpansionState.stepCall, hs]
      exact if_neg hleft

/-- The machine follows the scan at a name, where it does so behind the name, at any replacement,
and in the arguments of a call. -/
theorem comesTo_name (hk : (nextSegment c r).1 = .ident) (hb : budget ≠ 0)
    (hpass : ∀ hidden passed, ∀ b ≤ budget, ∀ f, t.ComesTo hidden passed b f
      (r.drop (nextSegment c r).2) (t.scan hidden passed b f (r.drop (nextSegment c r).2)))
    (hreplace : ∀ hidden, ∀ b < budget, ∀ f cs,
      t.ComesTo hidden before b f cs (t.scan hidden before b f cs))
    (hargs : ∀ args after, callArguments? (r.drop (nextSegment c r).2) = some (.ok (args, after)) →
      ∀ arg ∈ args, ∀ hidden, ∀ b ≤ budget, ∀ f,
        t.ComesTo hidden [] b f arg (t.scan hidden [] b f arg)) :
    t.ComesTo hidden before budget failures (c :: r)
      (t.scan hidden before budget failures (c :: r)) := by
  have hsplit : c :: r.take (nextSegment c r).2 ++ r.drop (nextSegment c r).2 = c :: r := by
    rw [List.cons_append, List.take_append_drop]
  have hstep : ∀ stack k,
      t.step ⟨.scan hidden before (c :: r), stack, budget, k, failures⟩ = _ :=
    fun stack k => step_ident hk hb
  rw [scan_name hk hb]
  dsimp only at hstep ⊢
  generalize c :: r.take (nextSegment c r).2 = word at *
  generalize r.drop (nextSegment c r).2 = rest at *
  generalize hidden.filter (·.tail < (c :: r).length) = inside at *
  by_cases hin : inside.any (·.name = String.ofList word) = true
  · rw [if_pos hin]
    refine .of_step (fun stack k => ⟨k, ?_⟩) (hpass _ _ budget (Nat.le_refl _) failures)
    rw [hstep, if_pos hin]
    rfl
  rw [if_neg hin]
  simp only [if_neg hin, stepName] at hstep
  cases ho : t.objects.get? (String.ofList word) with
  | some body =>
    refine .of_step (fun stack k => ⟨k + 1, ?_⟩)
      (hreplace _ (budget - 1) (by omega) failures (body.toList ++ rest))
    rw [hstep, ho]
    rfl
  | none =>
    dsimp only
    cases hm : t.functions.get? (String.ofList word) with
    | none =>
      refine .of_step (fun stack k => ⟨k, ?_⟩) (hpass _ _ budget (Nat.le_refl _) failures)
      rw [hstep, ho, hm]
      rfl
    | some m =>
      dsimp only
      rcases hc : callArguments? rest with _ | (e | ⟨args, after⟩)
      · refine .of_step (fun stack k => ⟨k, ?_⟩) (hpass _ _ budget (Nat.le_refl _) failures)
        rw [hstep, ho, hm, hc]
        rfl
      · refine .of_step (fun stack k => ⟨k, ?_⟩)
          (hpass _ _ budget (Nat.le_refl _) ((String.ofList word, e) :: failures))
        rw [hstep, ho, hm, hc]
        rfl
      · intro stack k
        obtain ⟨k', h⟩ := reaches_done failures m after (hpass inside _) hreplace
          (hargs args after hc) stack k
        have hle := scanAll_budget_le t (inside.map (·.name)) budget failures args
        dsimp only at h ⊢
        rw [Nat.min_eq_left hle]
        rw [hsplit] at h
        refine ⟨k', .of_step ?_ h⟩
        rw [hstep, ho, hm, hc]

end Segment

theorem comesTo_scan (t : MacroTable) (hidden : List HiddenMacro) (before : List Char)
    (budget : Nat) (failures : List (String × MacroError)) (cs : List Char) :
    t.ComesTo hidden before budget failures cs (t.scan hidden before budget failures cs) := by
  match cs with
  | [] =>
    rw [scan_nil]
    exact fun stack k => ⟨k, .of_step rfl (.refl t _)⟩
  | c :: r =>
    have hdrop := length_drop_lt c r (nextSegment c r).2
    by_cases hk : (nextSegment c r).1 = .ident
    · by_cases hb : budget = 0
      · subst hb
        rw [scan_of_budget_zero hk]
        exact fun stack k => ⟨k, .of_step (step_spent hk) (.refl t _)⟩
      · refine comesTo_name hk hb (fun hidden passed b hle f => ?_) (fun hidden b hlt f cs => ?_)
          fun args after hc arg harg hidden b hle f => ?_
        · exact comesTo_scan t hidden passed b f _
        · exact comesTo_scan t hidden before b f cs
        · have hshorter := length_lt_of_mem_callArguments hc harg
          exact comesTo_scan t hidden [] b f arg
    · rw [scan_other hk]
      exact .of_step (fun stack k => ⟨k, step_other hk⟩) (comesTo_scan t hidden _ budget failures _)
  termination_by (budget, cs.length)
  decreasing_by
    · exact lex_of_le_of_lt hle hdrop
    · exact Prod.Lex.left _ _ hlt
    · exact lex_of_le_of_lt hle (Nat.lt_trans hshorter hdrop)
    · exact Prod.Lex.right _ hdrop

/-- With a finished text and no call around it the machine stands still. -/
theorem iterate_done (t : MacroTable) (n : Nat) (text : List Char) (budget replacements : Nat)
    (failures : List (String × MacroError)) :
    t.step^[n] ⟨.done text, [], budget, replacements, failures⟩ =
      ⟨.done text, [], budget, replacements, failures⟩ :=
  Function.iterate_fixed rfl n

/-- **What the machine has finished** is the expansion. -/
theorem expand_eq_of_iterate {t : MacroTable} {hidden : List String} {text : List Char}
    {e : Expansion} (n : Nat) (h : (t.step^[n] (.start hidden text)).finished? = some e) :
    t.expand hidden text = e := by
  obtain ⟨made, m, hm⟩ :=
    t.comesTo_scan (hidden.map (⟨·, 0⟩)) [] expansionLimit [] text [] 0
  change t.step^[m] (.start hidden text) =
    ⟨.done (t.expand hidden text).text, [], (t.expand hidden text).budget, made,
      (t.expand hidden text).failures⟩ at hm
  obtain ⟨out, budget, replacements, failures, hn, rfl⟩ := ExpansionState.finished?_eq_some h
  -- the machine is where it stands still after `m + n` steps, however these are taken
  have hboth : t.step^[n + m] (.start hidden text) = t.step^[m + n] (.start hidden text) := by
    rw [Nat.add_comm]
  rw [Function.iterate_add_apply, Function.iterate_add_apply, hm, hn, iterate_done,
    iterate_done] at hboth
  injection hboth with hfocus _ hbudget _ hfailures
  injection hfocus with htext
  cases hexpand : t.expand hidden text
  rw [hexpand] at htext hbudget hfailures
  cases htext
  cases hbudget
  cases hfailures
  rfl

end MacroTable

/-! ### The limit -/

/-- The diagnostic that the budget of an expansion is used up. -/
def Diagnostic.isLimit : Diagnostic → Bool
  | expansionLimit _ => true
  | _ => false

/-- The limit is reported once, where the budget is used up. -/
theorem Registry.filter_expandText (r : Registry) (hidden : List String) (line : Nat)
    (text : List Char) : (r.expandText hidden line text).2.filter Diagnostic.isLimit =
      if (r.macroTable.expand hidden text).budget = 0 then [.expansionLimit line] else [] := by
  have hcalls : ∀ fs : List (String × MacroError),
      (fs.map fun f => Diagnostic.macroExpansion line f.1 f.2).filter Diagnostic.isLimit = [] := by
    intro fs
    rw [List.filter_map]
    exact List.map_eq_nil_iff.2 (List.filter_eq_nil_iff.2 fun f _ => Bool.false_ne_true)
  show ((_ : List Diagnostic) ++ _).filter Diagnostic.isLimit = _
  rw [List.filter_append, hcalls, List.nil_append, Expansion.exhausted]
  by_cases hb : (r.macroTable.expand hidden text).budget = 0
  · rw [if_pos (decide_eq_true hb), if_pos hb]
    rfl
  · rw [if_neg (mt of_decide_eq_true hb), if_neg hb]
    rfl

open MacroTable in
/-- **Expansion ends within its budget.** From the beginning of any text the machine comes to the
text that the expansion gives, with no call left. On its way, in arguments too, it has made no more
replacements than the limit, and the limit is reported, once, exactly if it has made as many. -/
theorem Registry.expandText_within_limit (r : Registry) (hidden : List String) (line : Nat)
    (text : List Char) :
    ∃ n s, r.macroTable.step^[n] (.start hidden text) = s ∧
      s.focus = .done (r.expandText hidden line text).1 ∧ s.stack = [] ∧
      s.replacements ≤ expansionLimit ∧
      (r.expandText hidden line text).2.filter Diagnostic.isLimit =
        if s.replacements = expansionLimit then [.expansionLimit line] else [] := by
  obtain ⟨k, n, hn⟩ :=
    comesTo_scan r.macroTable (hidden.map (⟨·, 0⟩)) [] expansionLimit [] text [] 0
  have hspent := spent_iterate r.macroTable n (.start hidden text)
  rw [ExpansionState.start, hn, Nat.zero_add] at hspent
  refine ⟨n, _, hn, rfl, rfl, Nat.le.intro hspent, ?_⟩
  have hused : (r.macroTable.expand hidden text).budget = 0 ↔ k = expansionLimit := by
    change k + (r.macroTable.expand hidden text).budget = expansionLimit at hspent
    omega
  rw [r.filter_expandText, if_congr hused rfl rfl]

end CInterface
