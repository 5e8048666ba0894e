import CInterface.Preprocess
/-!
# Nested conditional groups

Preprocessing keeps the open conditional groups on a flat stack and looks at one line at a time.
Here the same text is read along the tree of its groups, and both readings are proved to agree.

* `LineRole` — what a line means for the nesting: it opens a group, goes on to another branch,
  closes the group, or is a plain line.
* `Block`, `Branches` — a well nested run of lines, and what follows the first branch of a group.
* `Block.read`, `Branches.read` — the reading along the tree: the conditions of a group are
  evaluated in their order until one is true, that branch is read, and every other branch is passed
  over.
* `lines_read`, `lines_readBranches` — where the lines around count, the stack does what the tree
  says.
* `lines_skip`, `lines_skipBranches` — where they do not, or where a branch was taken already,
  nothing happens.
* `preprocessNormal_eq_preprocess` — a whole text.
-/

namespace CInterface

open Text

/-! ### Lines -/

/-- What a line means for the nesting of conditional groups. -/
inductive LineRole where
  /-- A line of text, or a directive that leaves the groups alone. -/
  | plain
  | opens (condition : List Char)
  | elif (condition : List Char)
  | otherwise
  | endif
  deriving DecidableEq

/-- The role of a line. `#ifdef` and `#ifndef` open a group like `#if`. -/
def lineRole (text : List Char) : LineRole :=
  match Directive.ofLine? text with
  | none => .plain
  | some d =>
    match d.keyword with
    | .ifTrue => .opens d.rest
    | .ifdef => .opens ("defined ".toList ++ d.rest)
    | .ifndef => .opens ("!defined ".toList ++ d.rest)
    | .elif => .elif d.rest
    | .otherwise => .otherwise
    | .endif => .endif
    | .define | .undef | .pragma | .other _ => .plain

/-! ### The tree of groups -/

mutual

/-- A well nested run of lines. Each line carries the proof of its role. -/
inductive Block where
  | nil
  | line (text : List Char) (role : lineRole text = .plain) (rest : Block)
  | group (opening condition : List Char) (role : lineRole opening = .opens condition)
      (body : Block) (others : Branches) (rest : Block)

/-- What follows the first branch of a group, down to its closing line. The branch without a
condition comes last. -/
inductive Branches where
  | endif (closing : List Char) (role : lineRole closing = .endif)
  | otherwise (text : List Char) (role : lineRole text = .otherwise) (body : Block)
      (closing : List Char) (closes : lineRole closing = .endif)
  | elif (text condition : List Char) (role : lineRole text = .elif condition) (body : Block)
      (others : Branches)

end

mutual

/-- The lines of a run, in order. -/
def Block.lines : Block → List (List Char)
  | .nil => []
  | .line text _ rest => text :: rest.lines
  | .group opening _ _ body others rest => opening :: (body.lines ++ (others.lines ++ rest.lines))

/-- The lines that follow the first branch of a group, in order. -/
def Branches.lines : Branches → List (List Char)
  | .endif closing _ => [closing]
  | .otherwise text _ body closing _ => text :: (body.lines ++ [closing])
  | .elif text _ _ body others => text :: (body.lines ++ others.lines)

end

/-- The lines that some lines which do not count give: empty ones. -/
def blankLines (lines : List (List Char)) : List (List Char) := lines.map fun _ => []

mutual

/-- Reads a run of lines that counts, the first of which has the given number: the state after it,
and the lines that it gives. -/
def Block.read (file : String) (number : Nat) (s : PreprocessState) :
    Block → PreprocessState × List (List Char)
  | .nil => (s, [])
  | .line text _ rest =>
    let first := s.line file number text
    let more := rest.read file (number + 1) first.1
    (more.1, first.2 :: more.2)
  | .group _ condition _ body others rest =>
    let outcome := s.registry.condition number condition
    let s := s.report outcome.2
    let next := number + 1 + body.lines.length
    let chosen :=
      if outcome.1 then
        let inside := body.read file (number + 1) s
        (inside.1, inside.2 ++ blankLines others.lines)
      else
        let other := others.read file next s
        (other.1, blankLines body.lines ++ other.2)
    let more := rest.read file (next + others.lines.length) chosen.1
    (more.1, [] :: (chosen.2 ++ more.2))

/-- Reads the branches behind the first one of a group that counts, none of which was taken yet. -/
def Branches.read (file : String) (number : Nat) (s : PreprocessState) :
    Branches → PreprocessState × List (List Char)
  | .endif _ _ => (s, [[]])
  | .otherwise _ _ body _ _ =>
    let inside := body.read file (number + 1) s
    (inside.1, [] :: (inside.2 ++ [[]]))
  | .elif _ condition _ body others =>
    let outcome := s.registry.condition number condition
    let s := s.report outcome.2
    if outcome.1 then
      let inside := body.read file (number + 1) s
      (inside.1, [] :: (inside.2 ++ blankLines others.lines))
    else
      let other := others.read file (number + 1 + body.lines.length) s
      (other.1, [] :: (blankLines body.lines ++ other.2))

end

/-- Preprocesses a well nested text along the tree of its groups. -/
def Block.preprocess (b : Block) (r : Registry) (file : String) : Registry × Preprocessed :=
  let found := b.read file 0 { registry := r }
  (found.1.registry,
    ⟨String.ofList (joinWith ['\n'] found.2), found.1.packing, found.1.diagnostics⟩)

/-! ### Single lines -/

namespace PreprocessState

/-- The state with other conditional groups. -/
def inGroups (s : PreprocessState) (c : ConditionStack) : PreprocessState :=
  { s with conditions := c }

theorem inGroups_inGroups (s : PreprocessState) (c c' : ConditionStack) :
    (s.inGroups c).inGroups c' = s.inGroups c' := rfl

theorem inGroups_of_eq {s : PreprocessState} {c : ConditionStack} (h : s.conditions = c) :
    s.inGroups c = s := by
  rw [← h]
  rfl

theorem inGroups_define (s : PreprocessState) (c : ConditionStack) (file : String) (n : Nat)
    (rest : List Char) :
    (s.inGroups c).define file n rest = (s.define file n rest).inGroups c := by
  unfold define
  split <;> rfl

theorem inGroups_undef (s : PreprocessState) (c : ConditionStack) (n : Nat) (rest : List Char) :
    (s.inGroups c).undef n rest = (s.undef n rest).inGroups c := by
  unfold undef
  split <;> rfl

theorem inGroups_pragma (s : PreprocessState) (c : ConditionStack) (n : Nat) (rest : List Char) :
    (s.inGroups c).pragma n rest = (s.pragma n rest).inGroups c := by
  unfold pragma
  split
  · rfl
  · rename_i parsed _
    have hp : (s.inGroups c).pack = s.pack := rfl
    rw [hp]
    rcases parsed.bind s.pack.apply with (_ | _) | _ <;> rfl

/-- A plain line that counts does the same under any groups that let it count. -/
theorem line_inGroups {s : PreprocessState} {c : ConditionStack} {text : List Char}
    (role : lineRole text = .plain) (hs : s.conditions.isActive = true) (hc : c.isActive = true)
    (file : String) (n : Nat) :
    (s.inGroups c).line file n text
      = ((s.line file n text).1.inGroups c, (s.line file n text).2) := by
  unfold lineRole at role
  unfold line
  cases hd : Directive.ofLine? text with
  | none =>
    have hc' : (s.inGroups c).conditions.isActive = true := hc
    simp only [hc', hs, if_true]
    rfl
  | some d =>
    rw [hd] at role
    have hc' : (s.inGroups c).conditions.isActive = true := hc
    simp only [directive, hc', hs, if_true]
    cases hk : d.keyword with
    | define => simp only [inGroups_define]
    | undef => simp only [inGroups_undef]
    | pragma => simp only [inGroups_pragma]
    | other w => rfl
    | ifTrue | ifdef | ifndef | elif | otherwise | endif => simp [hk] at role

/-- A plain line leaves the groups alone. -/
theorem conditions_line {s : PreprocessState} {text : List Char} (role : lineRole text = .plain)
    (hs : s.conditions.isActive = true) (file : String) (n : Nat) :
    (s.line file n text).1.conditions = s.conditions := by
  have h := line_inGroups role hs hs file n
  rw [inGroups_of_eq rfl] at h
  rw [h]
  rfl

/-- A plain line that does not count gives an empty line and does nothing. -/
theorem line_of_not_active {s : PreprocessState} {text : List Char}
    (role : lineRole text = .plain) (hs : s.conditions.isActive = false) (file : String) (n : Nat) :
    s.line file n text = (s, []) := by
  unfold lineRole at role
  unfold line
  cases hd : Directive.ofLine? text with
  | none => simp [hs]
  | some d =>
    rw [hd] at role
    simp only [directive, hs]
    cases hk : d.keyword with
    | define | undef | pragma | other w => rfl
    | ifTrue | ifdef | ifndef | elif | otherwise | endif => simp [hk] at role

/-! ### Lines that open, divide and close groups -/

/-- What a line does to the groups is decided by its role. -/
theorem line_eq_of_role (s : PreprocessState) (file : String) (n : Nat) (text : List Char) :
    s.line file n text =
      match lineRole text with
      | .plain => s.line file n text
      | .opens condition => (s.openGroup n condition, [])
      | .elif condition => (s.elif n condition, [])
      | .otherwise => (s.regroup n .otherwise s.conditions.else?, [])
      | .endif => (s.regroup n .endif s.conditions.endif?, []) := by
  cases hd : Directive.ofLine? text with
  | none => simp only [lineRole, hd]
  | some d => cases hk : d.keyword <;> simp only [lineRole, line, directive, hd, hk]

/-- The lines behind some lines are read in the state that these leave. -/
theorem lines_append (s : PreprocessState) (file : String) (n : Nat) (a b : List (List Char)) :
    s.lines file n (a ++ b)
      = (((s.lines file n a).1.lines file (n + a.length) b).1,
          (s.lines file n a).2 ++ ((s.lines file n a).1.lines file (n + a.length) b).2) := by
  induction a generalizing s n with
  | nil => rfl
  | cons text rest ih =>
    simp only [List.cons_append, lines, ih, List.length_cons, Nat.add_assoc, Nat.add_comm 1]

theorem lines_cons (s : PreprocessState) (file : String) (n : Nat) (text : List Char)
    (rest : List (List Char)) :
    s.lines file n (text :: rest)
      = (((s.line file n text).1.lines file (n + 1) rest).1,
          (s.line file n text).2 :: ((s.line file n text).1.lines file (n + 1) rest).2) := rfl

/-! ### What the group directives do -/

theorem openGroup_of_not_active {s : PreprocessState} (h : s.conditions.isActive = false) (n : Nat)
    (condition : List Char) :
    s.openGroup n condition = s.inGroups ⟨⟨false, false⟩ :: s.conditions.groups⟩ := by
  simp only [openGroup, PreprocessState.condition, ConditionStack.opensLive, h,
    ConditionStack.pushIf, report, inGroups, List.append_nil, Bool.false_and, Bool.false_eq_true,
    if_false]

theorem openGroup_of_active {s : PreprocessState} (h : s.conditions.isActive = true) (n : Nat)
    (condition : List Char) :
    s.openGroup n condition
      = (s.report (s.registry.condition n condition).2).inGroups
          ⟨⟨(s.registry.condition n condition).1, (s.registry.condition n condition).1⟩ ::
            s.conditions.groups⟩ := by
  simp only [openGroup, PreprocessState.condition, ConditionStack.opensLive, h,
    ConditionStack.pushIf, inGroups, Bool.true_and, if_true]

theorem elif_of_not_live {s : PreprocessState} {g : ConditionGroup} {outer : List ConditionGroup}
    (hc : s.conditions = ⟨g :: outer⟩) (h : s.conditions.elifLive = false) (n : Nat)
    (condition : List Char) :
    s.elif n condition = s.inGroups ⟨⟨false, g.hit⟩ :: outer⟩ := by
  simp only [PreprocessState.elif, PreprocessState.condition, h, Bool.false_eq_true, if_false,
    report, List.append_nil, ConditionStack.elif?, Bool.false_and]
  rw [hc]
  simp only [Bool.or_false, regroup, inGroups]

theorem elif_of_live {s : PreprocessState} {g : ConditionGroup} {outer : List ConditionGroup}
    (hc : s.conditions = ⟨g :: outer⟩) (h : s.conditions.elifLive = true) (n : Nat)
    (condition : List Char) :
    s.elif n condition
      = (s.report (s.registry.condition n condition).2).inGroups
          ⟨⟨(s.registry.condition n condition).1,
            g.hit || (s.registry.condition n condition).1⟩ :: outer⟩ := by
  simp only [PreprocessState.elif, PreprocessState.condition, h, if_true, ConditionStack.elif?,
    Bool.true_and]
  rw [hc]
  rfl

theorem otherwise_eq {s : PreprocessState} {g : ConditionGroup} {outer : List ConditionGroup}
    (hc : s.conditions = ⟨g :: outer⟩) (n : Nat) :
    s.regroup n .otherwise s.conditions.else?
      = s.inGroups ⟨⟨s.conditions.elifLive, true⟩ :: outer⟩ := by
  simp only [ConditionStack.else?]
  rw [hc]
  rfl

theorem endif_eq {s : PreprocessState} {g : ConditionGroup} {outer : List ConditionGroup}
    (hc : s.conditions = ⟨g :: outer⟩) (n : Nat) :
    s.regroup n .endif s.conditions.endif? = s.inGroups ⟨outer⟩ := by
  simp only [ConditionStack.endif?]
  rw [hc]
  rfl

end PreprocessState

/-! ### Runs of lines that do not count -/

/-- An inner group of lines that do not count has no branch that counts. -/
theorem elifLive_of_not_active {c : ConditionStack} (h : c.isActive = false) (g : ConditionGroup) :
    ConditionStack.elifLive ⟨g :: c.groups⟩ = false := by
  obtain ⟨_ | ⟨outer, rest⟩⟩ := c
  · cases h
  · have hg : outer.active = false := h
    simp [ConditionStack.elifLive, ConditionStack.parentsActive, hg]

mutual

/-- Lines that do not count give empty lines and do nothing, whatever groups they hold. -/
theorem lines_skip (file : String) :
    ∀ (b : Block) (s : PreprocessState) (n : Nat), s.conditions.isActive = false →
      s.lines file n b.lines = (s, blankLines b.lines)
  | .nil, _, _, _ => rfl
  | .line text role rest, s, n, h => by
    rw [Block.lines, PreprocessState.lines_cons, PreprocessState.line_of_not_active role h,
      lines_skip file rest s (n + 1) h]
    rfl
  | .group opening condition role body others rest, s, n, h => by
    rw [Block.lines, PreprocessState.lines_cons, PreprocessState.line_eq_of_role, role]
    simp only [PreprocessState.openGroup_of_not_active h]
    rw [PreprocessState.lines_append, PreprocessState.lines_append,
      lines_skip file body _ _ rfl,
      lines_skipBranches file others _ _ _ _ rfl (elifLive_of_not_active h _),
      PreprocessState.inGroups_inGroups, PreprocessState.inGroups_of_eq rfl,
      lines_skip file rest s _ h]
    simp only [blankLines, List.map_cons, List.map_append]

/-- Branches behind one that was taken, or in a group that does not count, do nothing. -/
theorem lines_skipBranches (file : String) :
    ∀ (others : Branches) (s : PreprocessState) (n : Nat) (g : ConditionGroup)
      (outer : List ConditionGroup), s.conditions = ⟨g :: outer⟩ → s.conditions.elifLive = false →
      s.lines file n others.lines = (s.inGroups ⟨outer⟩, blankLines others.lines)
  | .endif closing role, s, n, g, outer, hc, h => by
    rw [Branches.lines, PreprocessState.lines_cons, PreprocessState.line_eq_of_role, role]
    simp only [PreprocessState.endif_eq hc]
    rfl
  | .otherwise text role body closing closes, s, n, g, outer, hc, h => by
    rw [Branches.lines, PreprocessState.lines_cons, PreprocessState.line_eq_of_role, role]
    simp only [PreprocessState.otherwise_eq hc, h]
    rw [PreprocessState.lines_append, lines_skip file body _ _ rfl, PreprocessState.lines_cons,
      PreprocessState.line_eq_of_role, closes]
    simp only [PreprocessState.endif_eq (s := s.inGroups _) rfl,
      PreprocessState.inGroups_inGroups, PreprocessState.lines, blankLines, List.map_cons,
      List.map_append, List.map_nil]
  | .elif text condition role body others, s, n, g, outer, hc, h => by
    have hspent : ConditionStack.elifLive ⟨⟨false, g.hit⟩ :: outer⟩ = false := by
      rw [← h, hc]
      rfl
    rw [Branches.lines, PreprocessState.lines_cons, PreprocessState.line_eq_of_role, role]
    simp only [PreprocessState.elif_of_not_live hc h]
    rw [PreprocessState.lines_append, lines_skip file body _ _ rfl,
      lines_skipBranches file others _ _ _ _ rfl hspent, PreprocessState.inGroups_inGroups]
    simp only [blankLines, List.map_cons, List.map_append]

end

/-! ### Runs of lines that count -/

mutual

/-- Reading along the tree leaves the groups around it alone. -/
theorem conditions_read (file : String) :
    ∀ (b : Block) (s : PreprocessState) (n : Nat), s.conditions.isActive = true →
      (b.read file n s).1.conditions = s.conditions
  | .nil, _, _, _ => rfl
  | .line text role rest, s, n, h => by
    have hline := PreprocessState.conditions_line role h file n
    rw [Block.read, conditions_read file rest _ _ (by rw [hline]; exact h), hline]
  | .group opening condition role body others rest, s, n, h => by
    have hs : (s.report (s.registry.condition n condition).2).conditions = s.conditions := rfl
    have hbody := conditions_read file body (s.report (s.registry.condition n condition).2) (n + 1)
      (by rw [hs]; exact h)
    have hothers := conditions_readBranches file others
      (s.report (s.registry.condition n condition).2) (n + 1 + body.lines.length)
      (by rw [hs]; exact h)
    rw [Block.read]
    split
    · rw [conditions_read file rest _ _ (by rw [hbody]; exact h), hbody, hs]
    · rw [conditions_read file rest _ _ (by rw [hothers]; exact h), hothers, hs]

theorem conditions_readBranches (file : String) :
    ∀ (others : Branches) (s : PreprocessState) (n : Nat), s.conditions.isActive = true →
      (others.read file n s).1.conditions = s.conditions
  | .endif _ _, _, _, _ => rfl
  | .otherwise text role body closing closes, s, n, h => by
    rw [Branches.read, conditions_read file body s (n + 1) h]
  | .elif text condition role body others, s, n, h => by
    have hs : (s.report (s.registry.condition n condition).2).conditions = s.conditions := rfl
    rw [Branches.read]
    split
    · rw [conditions_read file body _ _ (by rw [hs]; exact h), hs]
    · rw [conditions_readBranches file others _ _ (by rw [hs]; exact h), hs]

end

/-- All groups of the stack are in a branch that counts. -/
def ConditionStack.allActive (c : ConditionStack) : Bool := c.groups.all (·.active)

theorem ConditionStack.isActive_of_allActive {c : ConditionStack} (h : c.allActive = true) :
    c.isActive = true := by
  obtain ⟨_ | ⟨g, outer⟩⟩ := c
  · rfl
  · simp only [allActive, List.all_cons, Bool.and_eq_true] at h
    exact h.1

mutual

/-- Where the lines around count, the stack reads lines as the tree of their groups says. -/
theorem lines_read (file : String) :
    ∀ (b : Block) (s : PreprocessState) (n : Nat) (c : ConditionStack),
      s.conditions.isActive = true → c.allActive = true →
      (s.inGroups c).lines file n b.lines
        = ((b.read file n s).1.inGroups c, (b.read file n s).2)
  | .nil, _, _, _, _, _ => rfl
  | .line text role rest, s, n, c, h, hc => by
    have hrest : (s.line file n text).1.conditions.isActive = true := by
      rw [PreprocessState.conditions_line role h]
      exact h
    rw [Block.lines, PreprocessState.lines_cons,
      PreprocessState.line_inGroups role h (ConditionStack.isActive_of_allActive hc),
      lines_read file rest _ _ c hrest hc]
    rfl
  | .group opening condition role body others rest, s, n, c, h, hc => by
    have hopen : (s.inGroups c).openGroup n condition
        = (s.report (s.registry.condition n condition).2).inGroups
            ⟨⟨(s.registry.condition n condition).1, (s.registry.condition n condition).1⟩ ::
              c.groups⟩ :=
      PreprocessState.openGroup_of_active (s := s.inGroups c)
        (ConditionStack.isActive_of_allActive hc) n condition
    have h' : (s.report (s.registry.condition n condition).2).conditions.isActive = true := h
    rw [Block.lines, PreprocessState.lines_cons, PreprocessState.line_eq_of_role, role]
    simp only [hopen]
    rw [PreprocessState.lines_append, PreprocessState.lines_append, Block.read]
    generalize s.report (s.registry.condition n condition).2 = t at h' ⊢
    have hbody := conditions_read file body t (n + 1) h'
    have hothers := conditions_readBranches file others t (n + 1 + body.lines.length) h'
    cases (s.registry.condition n condition).1 with
    | true =>
      -- the branch counts: it is read, and what follows it is passed over
      rw [lines_read file body t _ ⟨⟨true, true⟩ :: c.groups⟩ h' hc,
        lines_skipBranches file others _ _ _ _ rfl rfl, PreprocessState.inGroups_inGroups,
        lines_read file rest _ _ c (by rw [hbody]; exact h') hc]
      simp only [if_true, List.append_assoc]
    | false =>
      rw [lines_skip file body _ _ rfl, lines_readBranches file others t _ _ _ h' hc,
        lines_read file rest _ _ c (by rw [hothers]; exact h') hc]
      simp only [Bool.false_eq_true, if_false, List.append_assoc]

/-- Where the lines around a group count and none of its branches was taken, the stack reads its
further branches as the tree says, and closes it. -/
theorem lines_readBranches (file : String) :
    ∀ (others : Branches) (s : PreprocessState) (n : Nat) (a : Bool)
      (outer : List ConditionGroup), s.conditions.isActive = true →
      ConditionStack.allActive ⟨outer⟩ = true →
      (s.inGroups ⟨⟨a, false⟩ :: outer⟩).lines file n others.lines
        = ((others.read file n s).1.inGroups ⟨outer⟩, (others.read file n s).2)
  | .endif closing role, s, n, a, outer, h, hc => by
    rw [Branches.lines, PreprocessState.lines_cons, PreprocessState.line_eq_of_role, role]
    simp only [PreprocessState.endif_eq (s := s.inGroups _) rfl]
    rfl
  | .otherwise text role body closing closes, s, n, a, outer, h, hc => by
    have hlive : (s.inGroups ⟨⟨a, false⟩ :: outer⟩).conditions.elifLive = true := hc
    rw [Branches.lines, PreprocessState.lines_cons, PreprocessState.line_eq_of_role, role]
    simp only [PreprocessState.otherwise_eq (s := s.inGroups _) rfl, hlive,
      PreprocessState.inGroups_inGroups]
    rw [PreprocessState.lines_append, lines_read file body _ _ ⟨⟨true, true⟩ :: outer⟩ h hc,
      PreprocessState.lines_cons, PreprocessState.line_eq_of_role, closes]
    simp only [PreprocessState.endif_eq (s := PreprocessState.inGroups _ _) rfl,
      PreprocessState.inGroups_inGroups, PreprocessState.lines]
    rfl
  | .elif text condition role body others, s, n, a, outer, h, hc => by
    have helif : (s.inGroups ⟨⟨a, false⟩ :: outer⟩).elif n condition
        = (s.report (s.registry.condition n condition).2).inGroups
            ⟨⟨(s.registry.condition n condition).1, (s.registry.condition n condition).1⟩ ::
              outer⟩ :=
      PreprocessState.elif_of_live (s := s.inGroups ⟨⟨a, false⟩ :: outer⟩) rfl hc n condition
    rw [Branches.lines, PreprocessState.lines_cons, PreprocessState.line_eq_of_role, role]
    simp only [helif]
    rw [PreprocessState.lines_append, Branches.read]
    have h' : (s.report (s.registry.condition n condition).2).conditions.isActive = true := h
    generalize s.report (s.registry.condition n condition).2 = t at h' ⊢
    cases (s.registry.condition n condition).1 with
    | true =>
      rw [lines_read file body t _ ⟨⟨true, true⟩ :: outer⟩ h' hc,
        lines_skipBranches file others _ _ _ _ rfl rfl, PreprocessState.inGroups_inGroups]
      rfl
    | false =>
      rw [lines_skip file body _ _ rfl, lines_readBranches file others t _ _ _ h' hc]
      rfl

end

/-! ### Texts -/

/-- **Conditional groups mean what their nesting says.** Preprocessing a well nested text line by
line, with a stack of groups, gives what the reading along the tree of the groups gives. -/
theorem preprocessNormal_eq_preprocess (r : Registry) (file text : String) (b : Block)
    (hb : b.lines = splitAt '\n' text.toList) :
    preprocessNormal r file text = b.preprocess r file := by
  have hrun := lines_read file b { registry := r } 0 .empty rfl rfl
  have hgroups : (b.read file 0 { registry := r }).1.conditions = .empty :=
    conditions_read file b { registry := r } 0 rfl
  have hfinish : (b.read file 0 { registry := r }).1.finish
      = (b.read file 0 { registry := r }).1 := by
    rw [PreprocessState.finish, hgroups]
    rfl
  have hstart : PreprocessState.inGroups { registry := r } .empty = { registry := r } := rfl
  rw [hstart, PreprocessState.inGroups_of_eq hgroups, hb] at hrun
  simp only [preprocessNormal, hrun, hfinish, Block.preprocess]

/-- A group within a branch that does not count, and a branch that comes alive behind it. -/
def nestedSample : Block :=
  .line "#define A 1".toList (by decide)
    (.group "#if A > 1".toList " A > 1".toList (by decide)
      (.group "#ifndef B".toList "!defined  B".toList (by decide)
        (.line "#undef A".toList (by decide) .nil)
        (.otherwise "#else".toList (by decide) .nil "#endif".toList (by decide)) .nil)
      (.elif "#elif A".toList " A".toList (by decide) (.line "x = A;".toList (by decide) .nil)
        (.otherwise "#else".toList (by decide) (.line "y".toList (by decide) .nil)
          "#endif".toList (by decide)))
      .nil)

/-- The text of `nestedSample`. -/
def nestedSampleText : String :=
  "#define A 1\n#if A > 1\n#ifndef B\n#undef A\n#else\n#endif\n#elif A\nx = A;\n#else\ny\n#endif"

theorem preprocessNormal_nestedSample :
    nestedSample.lines = splitAt '\n' nestedSampleText.toList ∧
      preprocessNormal .empty "a.h" nestedSampleText = nestedSample.preprocess .empty "a.h" :=
  ⟨by decide, preprocessNormal_eq_preprocess .empty "a.h" nestedSampleText nestedSample (by decide)⟩

end CInterface
