import CInterface.Word
/-!
# Function macros

A function macro is a text with parameters. It is kept with a template: the text cut at the places
where a parameter stands, so that all parameters are replaced at once.

* `Template.compile` — the template of a text and its parameters.
* `FnMacro.ofContent` — the macro with the template of its content.
* `FnMacro.substitute` — the content with arguments in the places of the parameters.
* `MacroError` — why a call is no call of the macro.

An object macro is just its text.
-/

namespace CInterface

open Text

/-- Why a call is no call of a function macro. -/
inductive MacroError where
  /-- The number of arguments does not fit. -/
  | argumentCount (expected found : Nat)
  /-- A slot of the template is beyond the arguments. -/
  | placeholderOutOfRange (index available : Nat)
  /-- No argument list follows the name. -/
  | missingArguments
  /-- The argument list is not closed. -/
  | unbalancedArguments
  deriving DecidableEq, Repr

/-- The text of a macro error. -/
def MacroError.message : MacroError → String
  | argumentCount expected found =>
    "macro expects " ++ toString expected ++ " argument(s), got " ++ toString found
  | placeholderOutOfRange index available =>
    "placeholder " ++ toString index ++ " out of range for " ++ toString available ++
      " argument(s)"
  | missingArguments => "missing argument list"
  | unbalancedArguments => "unbalanced argument list"

/-- A text cut at the places of parameters: piece, parameter, piece, …, piece. -/
structure Template where
  /-- The literal text before each slot and behind the last. -/
  pieces : List String
  /-- The number of the parameter in each slot. -/
  slots : List Nat
  deriving DecidableEq, Repr

namespace Template

/-- The place of a parameter; of two with one name the last. -/
def slot? (params : List String) (name : String) : Option Nat :=
  ((params.zipIdx.filter (·.1 = name)).getLast?).map (·.2)

/-- A slot holds the number of a parameter. -/
theorem slot?_lt {params : List String} {name : String} {n : Nat}
    (h : slot? params name = some n) : n < params.length := by
  rw [slot?, Option.map_eq_some_iff] at h
  obtain ⟨⟨p, i⟩, hlast, rfl⟩ := h
  have hmem : (p, i) ∈ params.zipIdx := (List.mem_filter.1 (List.mem_of_getLast? hlast)).1
  exact List.snd_lt_of_mem_zipIdx hmem

/-- Cuts segments at the parameters; `piece` is the present piece. -/
def cut (params : List String) (piece : List Char) : List Segment → Template
  | [] => ⟨[String.ofList piece], []⟩
  | s :: rest =>
    let slot := if s.kind = .ident then slot? params (String.ofList s.text) else none
    match slot with
    | some i =>
      let t := cut params [] rest
      ⟨String.ofList piece :: t.pieces, i :: t.slots⟩
    | none => cut params (piece ++ s.text) rest

/-- The template of a text. -/
def compile (params : List String) (content : String) : Template :=
  cut params [] (segments content.toList)

/-- The pieces with arguments in the slots, up to the last piece. -/
def fillSlots (args : List String) : List String → List Nat → Except MacroError String
  | piece :: pieces, slot :: slots =>
    match args[slot]? with
    | none => .error (.placeholderOutOfRange slot args.length)
    | some arg => do return piece ++ arg ++ (← fillSlots args pieces slots)
  | _, _ => .ok ""

/-- The text of a template with arguments in its slots. -/
def fill (t : Template) (args : List String) : Except MacroError String := do
  return (← fillSlots args t.pieces t.slots) ++ t.pieces.getLast?.getD ""

end Template

/-- A function macro. -/
structure FnMacro where
  params : List String
  /-- The last parameter takes all remaining arguments. -/
  variadic : Bool
  content : String
  template : Template
  deriving DecidableEq, Repr

namespace FnMacro

/-- The macro with some content. -/
def ofContent (params : List String) (content : String) (variadic : Bool) : FnMacro :=
  ⟨params, variadic, content, .compile params content⟩

/-- The arguments of a macro without parameters: none, also where one blank one is given. -/
def dropBlank (expected : Nat) (args : List String) : List String :=
  match expected, args with
  | 0, [arg] => if (trim arg.toList).isEmpty then [] else args
  | _, _ => args

/-- Matches the arguments of a call with the parameters. The last parameter of a variadic macro
takes what is left, trimmed and with commas between. -/
def bind (m : FnMacro) (args : List String) : Except MacroError (List String) :=
  let expected := m.params.length
  let args := dropBlank expected args
  if m.variadic && 0 < expected then
    let fixed := expected - 1
    if args.length < fixed then .error (.argumentCount expected args.length)
    else
      let rest := (args.drop fixed).map fun a => String.ofList (trim a.toList)
      .ok (args.take fixed ++ [", ".intercalate rest])
  else if args.length ≠ expected then .error (.argumentCount expected args.length)
  else .ok args

/-- The content with arguments in the places of the parameters. -/
def substitute (m : FnMacro) (args : List String) : Except MacroError String := do
  m.template.fill (← m.bind args)

end FnMacro

end CInterface
