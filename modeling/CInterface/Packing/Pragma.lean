import CInterface.Aggregate
import CInterface.Literal
/-!
# Packing pragmas

`#pragma pack` sets the packing of structures, saves it and brings saved values back.

* `PackPragma.ofText?` — the pragma that a text is.
* `PackState.apply` — what a pragma does.
-/

namespace CInterface

open Text

/-- What a packing pragma asks for. -/
inductive PackAction where
  | set | push | pop | show
  deriving DecidableEq, Repr

/-- A packing pragma. -/
structure PackPragma where
  action : PackAction := .set
  /-- The name for a saved value. -/
  id : Option String := none
  /-- The new packing. -/
  value : Option UInt32 := none
  deriving DecidableEq, Repr

/-- Why a packing pragma does nothing. -/
inductive PackIssue where
  /-- The new packing is no power of two, or too large. -/
  | invalidValue (text : String)
  /-- There is nothing to bring back. -/
  | underflow
  deriving DecidableEq, Repr

namespace PackPragma

/-- The packing that digits denote, which has to be a power of two. -/
def value? (digits : List Char) : Option UInt32 :=
  match Literal.digitsFrom? 10 0 digits with
  | some n =>
    if n < UInt32.size && isPowerOfTwo (UInt32.ofNat n) then some (UInt32.ofNat n) else none
  | none => none

/-- The pragma with one more of its options: what to do, a packing, or a name. -/
def withOption (p : PackPragma) (option : List Char) : Except PackIssue PackPragma :=
  let text := String.ofList option
  if text = "push" then .ok { p with action := .push }
  else if text = "pop" then .ok { p with action := .pop }
  else if text = "show" then .ok { p with action := .show }
  else if option.all Char.isDigit then
    match value? option with
    | some v => .ok { p with value := some v }
    | none => .error (.invalidValue text)
  else .ok { p with id := some text }

/-- The packing pragma that the text behind `#pragma` is, if it is one. -/
def ofText? (rest : List Char) : Option (Except PackIssue PackPragma) := do
  let list ← afterHead? ['('] (trimStart (← afterHead? "pack".toList (trimStart rest)))
  let (inside, _) ← cut? [')'] list
  let options := ((splitAt ',' inside).map trim).filter fun o => !o.isEmpty
  return options.foldlM withOption {}

end PackPragma

/-- The packing with the saved values, the latest first. -/
structure PackState where
  current : Option UInt32 := none
  saved : List (Option UInt32 × Option String) := []
  deriving DecidableEq, Repr

namespace PackState

/-- The saved values from the one on that a pop brings back: the latest, or the latest under a name. -/
def target (s : PackState) : Option String → List (Option UInt32 × Option String)
  | some id => s.saved.dropWhile fun save => save.2 ≠ some id
  | none => s.saved

/-- The state after a pragma. A push saves the present packing and a pop brings one back; both then
set a new packing, if the pragma has one. -/
def apply (s : PackState) (p : PackPragma) : Except PackIssue PackState :=
  match p.action with
  | .show => .ok s
  | .set => .ok { s with current := p.value }
  | .push => .ok ⟨p.value.or s.current, (s.current, p.id) :: s.saved⟩
  | .pop =>
    match s.target p.id with
    | [] => .error .underflow
    | save :: rest => .ok ⟨p.value.or save.1, rest⟩

end PackState

end CInterface
