import CInterface.Proofs.Conditional.LevelFlags
import Mathlib.Data.List.Forall2
/-!
# The branches of conditional groups

Whether a branch of a group counts depends on the branches before it, of which the stack keeps one
flag. Here the branches of the open groups are listed by the positions of the directives that began
them, which is a matter of nesting alone, and the flags of the groups are related to this list. So they
mean the same after any directives, in whatever order these stand.

* `openBranches` — the open groups and their branches.
* `ConditionStack.beginsActive` — the branch that a directive begins counts.
* `ConditionStack.FlagsTell` — what the flags of a group say of its branches: the invariant.
* `ConditionStack.flagsTell_run` — it holds after any directives.
* `ConditionStack.nested_run`, `ConditionStack.nested_lines` — within a level that does not count no
  level counts, after any directives and so in any text.
* `ConditionStack.run_wellFormed` — all of it, and what a directive without a group does.
-/

namespace CInterface

variable {σ : Type}

/-! ### Branches -/

/-- What a directive at a position does to the open groups, the innermost first, each with the
positions at which its branches begin, the latest first. -/
def GroupStep.branches (d : GroupStep σ) (position : Nat) (groups : List (List Nat)) :
    List (List Nat) :=
  match d, groups with
  | .opens _, _ => [position] :: groups
  | .elif _, group :: outer | .otherwise, group :: outer => (position :: group) :: outer
  | .endif, _ :: outer => outer
  | _, [] => []

/-- The groups that some directives leave open, with their branches. -/
def openBranches (steps : List (GroupStep σ)) : List (List Nat) :=
  steps.zipIdx.foldl (fun groups d => d.1.branches d.2 groups) []

theorem openBranches_concat (steps : List (GroupStep σ)) (d : GroupStep σ) :
    openBranches (steps ++ [d]) = d.branches steps.length (openBranches steps) := by
  rw [openBranches, List.zipIdx_append, List.foldl_append, Nat.zero_add]
  rfl

/-- The directive begins the branch without a condition. -/
def GroupStep.isElse : GroupStep σ → Bool
  | .otherwise => true
  | _ => false

/-- There is an `#else` at a position. -/
def elseAt (steps : List (GroupStep σ)) (position : Nat) : Bool := steps[position]?.any (·.isElse)

namespace ConditionStack

/-- The lines behind the directive at a position count. -/
def beginsActive (steps : List (GroupStep σ)) (x : σ) (position : Nat) : Bool :=
  (run (steps.take (position + 1)) x).1.isActive

variable {steps : List (GroupStep σ)} {x y : σ} {s : ConditionStack} {g : ConditionGroup}
  {branches : List Nat}

/-- What is at a position stays there. -/
theorem beginsActive_concat (d : GroupStep σ) {position : Nat} (h : position < steps.length) :
    beginsActive (steps ++ [d]) x position = beginsActive steps x position ∧
      elseAt (steps ++ [d]) position = elseAt steps position := by
  constructor
  · rw [beginsActive, List.take_append_of_le_length h, beginsActive]
  · rw [elseAt, List.getElem?_append_left h, elseAt]

theorem beginsActive_last (hrun : run steps x = (s, y))
    (d : GroupStep σ) : beginsActive (steps ++ [d]) x steps.length = (s.step d y).1.isActive ∧
      elseAt (steps ++ [d]) steps.length = d.isElse := by
  constructor
  · rw [beginsActive, List.take_of_length_le (by simp), run_concat, hrun]
  · rw [elseAt, List.getElem?_concat_length, Option.any_some]

/-! ### What the flags tell -/

/-- The flags of a group say whether the latest of its branches counts, and whether one of them counted
or was an `#else`. A branch that counts has no such branch before it. -/
structure FlagsTell (steps : List (GroupStep σ)) (x : σ) (g : ConditionGroup)
    (branches : List Nat) : Prop where
  bounded : ∀ position ∈ branches, position < steps.length
  active : branches.head?.any (beginsActive steps x) = g.active
  hit : g.hit = true ↔
    ∃ position ∈ branches, beginsActive steps x position = true ∨ elseAt steps position = true
  alone : branches.Pairwise fun later earlier => earlier < later ∧
    (beginsActive steps x later = true →
      beginsActive steps x earlier = false ∧ elseAt steps earlier = false)

namespace FlagsTell

/-- A directive further on changes nothing of this. -/
theorem concat (h : FlagsTell steps x g branches) (d : GroupStep σ) :
    FlagsTell (steps ++ [d]) x g branches where
  bounded position hposition := by
    rw [List.length_append]
    exact Nat.lt_add_right _ (h.bounded position hposition)
  active := by
    rw [← h.active]
    cases branches with
    | nil => rfl
    | cons position rest => exact (beginsActive_concat d (h.bounded position List.mem_cons_self)).1
  hit := by
    rw [h.hit]
    refine exists_congr fun position => and_congr_right fun hposition => ?_
    obtain ⟨hactive, helse⟩ := beginsActive_concat (x := x) d (h.bounded position hposition)
    rw [hactive, helse]
  alone := by
    refine h.alone.imp_of_mem fun {later earlier} hlater hearlier hpair => ?_
    rw [(beginsActive_concat d (h.bounded later hlater)).1,
      (beginsActive_concat d (h.bounded earlier hearlier)).1,
      (beginsActive_concat (x := x) d (h.bounded earlier hearlier)).2]
    exact hpair

/-- A group begins with one branch. -/
theorem single (hrun : run steps x = (s, y)) {d : GroupStep σ} {taken : Bool}
    (helse : d.isElse = false) (htaken : (s.step d y).1.isActive = taken) :
    FlagsTell (steps ++ [d]) x ⟨taken, taken⟩ [steps.length] := by
  obtain ⟨hlast, hnoElse⟩ := beginsActive_last hrun d
  refine ⟨fun position hposition => ?_, ?_, ?_, List.pairwise_singleton _ _⟩
  · rw [List.mem_singleton.1 hposition, List.length_append]
    exact Nat.lt_succ_self _
  · rw [List.head?_cons, Option.any_some, hlast, htaken]
  · simp [hlast, hnoElse, htaken, helse]

/-- The next branch of a group may count where none before it did and none was an `#else`. -/
theorem next (h : FlagsTell steps x g branches) (hrun : run steps x = (s, y)) {d : GroupStep σ}
    {taken : Bool} (htaken : (s.step d y).1.isActive = taken) (hfirst : taken = true → g.hit = false) :
    FlagsTell (steps ++ [d]) x ⟨taken, g.hit || (taken || d.isElse)⟩ (steps.length :: branches) := by
  obtain ⟨hlast, helse⟩ := beginsActive_last hrun d
  have hkept := h.concat d
  refine ⟨fun position hposition => ?_, ?_, ?_, ?_⟩
  · rcases List.mem_cons.1 hposition with rfl | hposition
    · rw [List.length_append]
      exact Nat.lt_succ_self _
    · exact hkept.bounded position hposition
  · rw [List.head?_cons, Option.any_some, hlast, htaken]
  · rw [Bool.or_eq_true, Bool.or_eq_true, hkept.hit, List.exists_mem_cons_iff, hlast, helse, htaken,
      or_comm]
  · refine .cons (fun earlier hearlier => ⟨h.bounded earlier hearlier, fun hactive => ?_⟩) hkept.alone
    rw [hlast, htaken] at hactive
    have hnone := mt hkept.hit.2 (by rw [hfirst hactive]; exact Bool.false_ne_true)
    exact ⟨Bool.eq_false_iff.2 fun h => hnone ⟨earlier, hearlier, Or.inl h⟩,
      Bool.eq_false_iff.2 fun h => hnone ⟨earlier, hearlier, Or.inr h⟩⟩

/-- Before a branch that counts there is none that does, and no `#else`. -/
theorem earlier (h : FlagsTell steps x g branches) {p q : Nat} (hp : p ∈ branches)
    (hq : q ∈ branches) (hlt : q < p) (hactive : beginsActive steps x p = true) :
    beginsActive steps x q = false ∧ elseAt steps q = false := by
  obtain ⟨i, hi, rfl⟩ := List.getElem_of_mem hp
  obtain ⟨j, hj, rfl⟩ := List.getElem_of_mem hq
  have hpair := List.pairwise_iff_getElem.1 h.alone
  rcases Nat.lt_trichotomy i j with hij | rfl | hij
  · exact (hpair i j hi hj hij).2 hactive
  · exact absurd hlt (Nat.lt_irrefl _)
  · exact absurd hlt (Nat.lt_asymm (hpair j i hj hi hij).1)

end FlagsTell

/-- A branch may be taken only where the group has none yet. -/
theorem hit_of_elifLive {outer : List ConditionGroup} (h : elifLive ⟨g :: outer⟩ = true) :
    g.hit = false := by
  rw [elifLive, Bool.and_eq_true] at h
  simpa using h.1

/-- **After any directives the flags of the open groups say what they mean.** -/
theorem flagsTell_run (steps : List (GroupStep σ)) (x : σ) :
    List.Forall₂ (FlagsTell steps x) (run steps x).1.groups (openBranches steps) := by
  induction steps using List.reverseRecOn with
  | nil => exact .nil
  | append_singleton steps d ih =>
    have hkept := ih.imp fun _ _ h => h.concat d
    rw [run_concat, openBranches_concat]
    generalize openBranches steps = open' at ih hkept ⊢
    rcases hrun : run steps x with ⟨⟨groups⟩, y⟩
    rw [hrun] at ih hkept
    cases d with
    | opens condition =>
      have hactive : (step ⟨groups⟩ (.opens condition) y).1.isActive =
          (evaluateIf (isActive ⟨groups⟩) condition y).1 := by
        rw [step_opens]
        rfl
      rw [step_opens]
      exact .cons (.single hrun rfl hactive) hkept
    | elif condition =>
      cases ih with
      | nil => exact .nil
      | @cons g branches outer _ hg houter =>
        have hactive : (step ⟨g :: outer⟩ (.elif condition) y).1.isActive =
            (evaluateIf (elifLive ⟨g :: outer⟩) condition y).1 := by
          rw [step_elif_cons]
          rfl
        have htell := hg.next hrun hactive fun h => hit_of_elifLive (live_of_evaluateIf h)
        rw [show (GroupStep.elif condition).isElse = false from rfl, Bool.or_false] at htell
        rw [step_elif_cons]
        exact .cons htell (List.forall₂_cons.1 hkept).2
    | otherwise =>
      cases ih with
      | nil => exact .nil
      | cons hg houter =>
        have htell := hg.next hrun (d := .otherwise) rfl hit_of_elifLive
        rw [show (GroupStep.otherwise : GroupStep σ).isElse = true from rfl, Bool.or_true,
          Bool.or_true] at htell
        exact .cons htell (List.forall₂_cons.1 hkept).2
    | endif =>
      cases ih with
      | nil => exact .nil
      | cons hg houter => exact (List.forall₂_cons.1 hkept).2

/-! ### Levels -/

/-- Around a group that counts all groups count. -/
def Nested (s : ConditionStack) : Prop :=
  s.groups.Pairwise fun inner outer => inner.active = true → outer.active = true

/-- Where the present lines count, all groups count. -/
theorem Nested.active_of_isActive (h : s.Nested) (hs : s.isActive = true) :
    ∀ g ∈ s.groups, g.active = true := by
  obtain ⟨_ | ⟨g, outer⟩⟩ := s
  · exact fun _ hg => absurd hg List.not_mem_nil
  · intro g' hg'
    rcases List.mem_cons.1 hg' with rfl | hg'
    · exact hs
    · exact (List.pairwise_cons.1 h).1 g' hg' hs

/-- A directive keeps the groups nested: a branch is taken only where the lines around it count. -/
theorem Nested.step (h : s.Nested) (d : GroupStep σ) (y : σ) : (s.step d y).1.Nested := by
  have hbranch : ∀ {g : ConditionGroup} {outer : List ConditionGroup} {g' : ConditionGroup},
      Nested ⟨g :: outer⟩ → (g'.active = true → elifLive ⟨g :: outer⟩ = true) →
        Nested ⟨g' :: outer⟩ := by
    intro g outer g' hgroups hlive
    refine .cons (fun around haround hactive => ?_) (List.pairwise_cons.1 hgroups).2
    have hparents := hlive hactive
    rw [elifLive, Bool.and_eq_true] at hparents
    exact List.all_eq_true.1 hparents.2 around haround
  cases d with
  | opens condition =>
    rw [step_opens]
    exact .cons (fun around haround hactive =>
      h.active_of_isActive (live_of_evaluateIf hactive) around haround) h
  | elif condition =>
    obtain ⟨_ | ⟨g, outer⟩⟩ := s
    · exact h
    · rw [step_elif_cons]
      exact hbranch h live_of_evaluateIf
  | otherwise =>
    obtain ⟨_ | ⟨g, outer⟩⟩ := s
    · exact h
    · exact hbranch h id
  | endif =>
    obtain ⟨_ | ⟨g, outer⟩⟩ := s
    · exact h
    · exact (List.pairwise_cons.1 h).2

theorem nested_run (steps : List (GroupStep σ)) (x : σ) : (run steps x).1.Nested := by
  induction steps using List.reverseRecOn with
  | nil => exact .nil
  | append_singleton steps d ih =>
    rw [run_concat]
    exact ih.step d _

/-- By level from the outside in, a level that counts has only such levels before it. -/
theorem Nested.pairwise_flags (h : s.Nested) :
    s.flags.active.Pairwise fun outer inner => inner = true → outer = true := by
  refine .cons (fun _ _ _ => rfl) ?_
  rw [List.pairwise_reverse, List.pairwise_map]
  exact h

/-- So it is behind any lines of a text that is preprocessed. -/
theorem nested_lines (r : Registry) (file : String) (n : Nat) (lines : List (List Char)) :
    (PreprocessState.lines { registry := r } file n lines).1.conditions.Nested := by
  obtain ⟨steps, hsteps⟩ := PreprocessState.exists_run_lines r file n lines
  rw [hsteps]
  exact nested_run steps ()

/-! ### Runs -/

/-- A directive without the group that it needs does nothing, and its condition is not evaluated. -/
theorem step_of_no_group (hs : s.groups = []) (condition : σ → Bool × σ) (y : σ) :
    s.step (.elif condition) y = (s, y) ∧ s.step .otherwise y = (s, y) ∧ s.step .endif y = (s, y) := by
  obtain ⟨groups⟩ := s
  obtain rfl : groups = [] := hs
  exact ⟨rfl, rfl, rfl⟩

/-- **The stack of conditional groups is well formed after any directives.** Kept as two lists of flags
that are read and written by position it is never read or written outside of them, and there is one
level more than there are groups. A level that counts has only such levels around it. A level counts
just where the present branch of its group counted when it began; at most one branch of a group ever
counts, and none that begins behind an `#else` of the group. Where no group is open, a directive that
needs one is refused, leaves the stack as it is and does not evaluate its condition. -/
theorem run_wellFormed (steps : List (GroupStep σ)) (x : σ) :
    let s := (run steps x).1
    let y := (run steps x).2
    (LevelFlags.run? steps x = some (s.flags, y) ∧
        s.flags.active.length = s.flags.hit.length + 1) ∧
      (s.flags.active.Pairwise fun outer inner => inner = true → outer = true) ∧
      (s.groups.map (·.active) =
          (openBranches steps).map fun branches => branches.head?.any (beginsActive steps x)) ∧
      (∀ branches ∈ openBranches steps, ∀ p ∈ branches, ∀ q ∈ branches,
        (beginsActive steps x p = true → beginsActive steps x q = true → p = q) ∧
          (q < p → elseAt steps q = true → beginsActive steps x p = false)) ∧
      (openBranches steps = [] → ∀ condition : σ → Bool × σ,
        ((∀ value, s.elif? value = none) ∧ s.else? = none ∧ s.endif? = none) ∧
          run (steps ++ [.elif condition]) x = (s, y) ∧ run (steps ++ [.otherwise]) x = (s, y) ∧
          run (steps ++ [.endif]) x = (s, y)) := by
  intro s y
  have htell := flagsTell_run steps x
  refine ⟨⟨run?_eq_flags steps x, (length_flags s).1⟩, (nested_run steps x).pairwise_flags, ?_,
    fun branches hbranches p hp q hq => ?_, fun hnone condition => ?_⟩
  · rw [← List.forall₂_eq_eq_eq, List.forall₂_map_left_iff, List.forall₂_map_right_iff]
    exact htell.imp fun _ _ h => h.active.symm
  · obtain ⟨i, hi, rfl⟩ := List.getElem_of_mem hbranches
    have hgroup := htell.get (htell.length_eq ▸ hi) hi
    constructor
    · intro hactive hother
      rcases Nat.lt_trichotomy p q with hlt | heq | hlt
      · exact Bool.noConfusion (hactive.symm.trans (hgroup.earlier hq hp hlt hother).1)
      · exact heq
      · exact Bool.noConfusion (hother.symm.trans (hgroup.earlier hp hq hlt hactive).1)
    · intro hlt helse
      refine Bool.eq_false_iff.2 fun hactive => ?_
      exact Bool.noConfusion (helse.symm.trans (hgroup.earlier hp hq hlt hactive).2)
  · have hgroups : s.groups = [] := by
      rw [← List.length_eq_zero_iff, htell.length_eq, hnone]
      rfl
    obtain ⟨helif, helse, hendif⟩ := step_of_no_group hgroups condition y
    refine ⟨?_, ?_, ?_, ?_⟩
    · simp [elif?, else?, endif?, hgroups]
    · rw [run_concat]
      exact helif
    · rw [run_concat]
      exact helse
    · rw [run_concat]
      exact hendif

/-- A condition that counts how often it is evaluated. -/
def countedCondition (value : Bool) (count : Nat) : Bool × Nat := (value, count + 1)

/-- Two directives without a group, a group with an `#elif` behind its `#else`, and within that branch a
group of its own. -/
def malformedOrder : List (GroupStep Nat) :=
  [.endif, .elif (countedCondition true), .opens (countedCondition false), .otherwise,
    .elif (countedCondition true), .opens (countedCondition true), .otherwise]

theorem run_wellFormed_malformedOrder :
    openBranches malformedOrder = [[6, 5], [4, 3, 2]] ∧
      LevelFlags.run? malformedOrder 0 = some (⟨[true, false, false], [true, true]⟩, 1) ∧
      beginsActive malformedOrder 0 3 = true ∧ beginsActive malformedOrder 0 4 = false ∧
      run [.elif (countedCondition true)] 0 = (.empty, 0) := by
  have hopen : openBranches malformedOrder = [[6, 5], [4, 3, 2]] := by decide
  obtain ⟨⟨hflags, -⟩, -, -, hbranches, -⟩ := run_wellFormed malformedOrder 0
  obtain ⟨-, -, -, -, hstray⟩ := run_wellFormed (σ := Nat) [] 0
  obtain ⟨-, hlater⟩ := hbranches [4, 3, 2] (by rw [hopen]; decide) 4 (by decide) 3 (by decide)
  exact ⟨hopen, hflags, by decide, hlater (by decide) (by decide),
    (hstray rfl (countedCondition true)).2.1⟩

end ConditionStack

end CInterface
