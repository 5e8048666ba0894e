/-!
# Conditional groups

The state of nested `#if` groups while a text is read line by line.

* `ConditionStack.isActive` — whether the present lines count.
* `ConditionStack.opensLive`, `ConditionStack.elifLive` — whether the condition of an `#if` or
  `#elif` is to be evaluated.
* `ConditionStack.pushIf`, `ConditionStack.elif?`, `ConditionStack.else?`,
  `ConditionStack.endif?` — the directives; without a group the latter three fail.
-/

namespace CInterface

/-- One conditional group. -/
structure ConditionGroup where
  /-- The present branch counts. -/
  active : Bool
  /-- Some branch up to the present one was taken. -/
  hit : Bool
  deriving DecidableEq, Repr

/-- The conditional groups that are open, the innermost first. -/
structure ConditionStack where
  groups : List ConditionGroup
  deriving DecidableEq, Repr

namespace ConditionStack

/-- No group is open. -/
def empty : ConditionStack := ⟨[]⟩

instance : Inhabited ConditionStack := ⟨empty⟩

/-- The present lines count: there is no group, or the present branch of the innermost counts. -/
def isActive (s : ConditionStack) : Bool := s.groups.head?.all (·.active)

/-- The lines around the innermost group count. -/
def parentsActive (s : ConditionStack) : Bool := s.groups.tail.all (·.active)

/-- The number of open groups. -/
def depth (s : ConditionStack) : Nat := s.groups.length

/-- The condition of an `#if` matters. -/
def opensLive (s : ConditionStack) : Bool := s.isActive

/-- Opens a group whose condition has a truth value. -/
def pushIf (s : ConditionStack) (condition : Bool) : ConditionStack :=
  let taken := s.opensLive && condition
  ⟨⟨taken, taken⟩ :: s.groups⟩

/-- The condition of an `#elif` matters: no branch of the group was taken yet, and the lines around
it count. -/
def elifLive (s : ConditionStack) : Bool :=
  (s.groups.head?.any fun g => !g.hit) && s.parentsActive

/-- Goes on to the next branch, whose condition has a truth value. -/
def elif? (s : ConditionStack) (condition : Bool) : Option ConditionStack :=
  match s.groups with
  | [] => none
  | g :: outer =>
    let taken := s.elifLive && condition
    some ⟨⟨taken, g.hit || taken⟩ :: outer⟩

/-- Goes on to the branch without a condition. -/
def else? (s : ConditionStack) : Option ConditionStack :=
  match s.groups with
  | [] => none
  | _ :: outer => some ⟨⟨s.elifLive, true⟩ :: outer⟩

/-- Closes the innermost group. -/
def endif? (s : ConditionStack) : Option ConditionStack :=
  match s.groups with
  | [] => none
  | _ :: outer => some ⟨outer⟩

end ConditionStack

end CInterface
