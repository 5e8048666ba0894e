import CInterface.Conditional
import CInterface.Directive
import CInterface.Expr.Parser
import CInterface.Macro.Expansion
import CInterface.Packing
import CInterface.Packing.Pragma
import CInterface.Registry
import CInterface.Text.Normal
/-!
# Preprocessing

Preprocessing turns the text of a header into text without directives. Macros that it defines go to
the registry, with their values where their bodies are constant expressions. Every line of the
normal text gives one line, so that lines keep their numbers.

* `Diagnostic` — what went wrong; nothing stops preprocessing.
* `PreprocessState.line` — what one line does.
* `preprocessNormal`, `preprocess` — a whole text, normal or as it is written.
* `predefine` — a macro that is defined before any header.
-/

namespace CInterface

open Text

/-- The directives that need an open conditional group. -/
inductive GroupDirective where
  | elif | otherwise | endif
  deriving DecidableEq, Repr

/-- The keyword of a directive. -/
def GroupDirective.text : GroupDirective → String
  | elif => "elif"
  | otherwise => "else"
  | endif => "endif"

/-- What went wrong while a text was preprocessed. -/
inductive Diagnostic where
  /-- A call of a function macro was left as it is. -/
  | macroExpansion (line : Nat) (name : String) (cause : MacroError)
  /-- A condition has no value and counts as false. -/
  | conditionEval (line : Nat) (condition : String) (cause : EvalError)
  /-- A directive stands outside any conditional group. -/
  | unbalancedConditional (line : Nat) (directive : GroupDirective)
  /-- Conditional groups are open at the end. -/
  | unterminatedConditional (count : Nat)
  /-- No packing can be brought back. -/
  | packUnderflow (line : Nat)
  /-- A packing value cannot be used. -/
  | invalidPack (line : Nat) (value : String)
  /-- A directive does not say what it has to; `keyword` is the directive. -/
  | malformedDirective (line : Nat) (keyword text : String)
  /-- The budget of an expansion is used up. -/
  | expansionLimit (line : Nat)

/-- The text of a diagnostic. -/
def Diagnostic.message : Diagnostic → String
  | macroExpansion line name cause =>
    "line " ++ toString line ++ ": call to macro '" ++ name ++ "' left unexpanded: " ++
      cause.message
  | conditionEval line condition cause =>
    "line " ++ toString line ++ ": condition '" ++ condition ++ "' treated as false: " ++
      cause.message
  | unbalancedConditional line directive =>
    "line " ++ toString line ++ ": #" ++ directive.text ++ " without matching #if"
  | unterminatedConditional count =>
    toString count ++ " conditional block(s) still open at end of file"
  | packUnderflow line => "line " ++ toString line ++ ": #pragma pack(pop) with nothing to pop"
  | invalidPack line value =>
    "line " ++ toString line ++ ": ignoring packing value '" ++ value ++ "'"
  | malformedDirective line keyword text =>
    "line " ++ toString line ++ ": malformed #" ++ keyword ++ " '" ++ text ++ "'"
  | expansionLimit line => "line " ++ toString line ++ ": macro expansion limit reached"

/-! ### Expanding -/

/-- The macros of a registry. -/
def Registry.macroTable (r : Registry) : MacroTable := ⟨r.flat.macros, r.flat.fnmacros⟩

/-- Expands a text of a line with the macros of a registry. -/
def Registry.expandText (r : Registry) (hidden : List String) (line : Nat) (text : List Char) :
    List Char × List Diagnostic :=
  let e := r.macroTable.expand hidden text
  (e.text,
    e.failures.reverse.map (fun f => .macroExpansion line f.1 f.2) ++
      if e.exhausted then [.expansionLimit line] else [])

/-- The truth of a condition. `defined` is resolved before macros are expanded, and names that are
left count as zero. -/
def Registry.condition (r : Registry) (line : Nat) (text : List Char) : Bool × List Diagnostic :=
  let (expanded, diagnostics) := r.expandText [] line (resolveDefined r.isMacro text)
  match evalText (fun _ => some (.int 0)) (String.ofList expanded) with
  | .ok v => (v.isTruthy, diagnostics)
  | .error e => (false, diagnostics ++ [.conditionEval line (String.ofList (trim text)) e])

/-! ### Defining -/

/-- The registry without the macro of a name and its value. -/
def Registry.undefine (r : Registry) (name : String) : Registry :=
  ((r.erase .macros name).erase .fnmacros name).erase .values name

/-- The registry with an object macro. Its body is expanded with the macros so far, and if it then is
a constant expression its value is a constant. -/
def Registry.defineObject (r : Registry) (file : Option String) (name body : String) (line : Nat) :
    Registry × List Diagnostic :=
  let (expanded, diagnostics) := r.expandText [name] line body.toList
  let content := String.ofList expanded
  let cleared := r.undefine name
  let valued := match evalText cleared.env content with
    | .ok v => cleared.insert file name ⟨.values, v⟩
    | .error _ => cleared
  (valued.insert file name ⟨.macros, content⟩, diagnostics)

/-- The registry with a function macro. -/
def Registry.defineFunction (r : Registry) (file : Option String) (name : String) (m : FnMacro) :
    Registry :=
  (r.undefine name).insert file name ⟨.fnmacros, m⟩

/-- The registry with an object macro that no header defines. -/
def predefine (r : Registry) (name body : String) : Registry × List Diagnostic :=
  r.defineObject none name body 0

/-! ### Lines -/

/-- Where preprocessing stands. -/
structure PreprocessState where
  registry : Registry
  conditions : ConditionStack := .empty
  pack : PackState := {}
  packing : PackingLog := .initial
  diagnostics : List Diagnostic := []

namespace PreprocessState

/-- The state with more diagnostics. -/
def report (s : PreprocessState) (more : List Diagnostic) : PreprocessState :=
  { s with diagnostics := s.diagnostics ++ more }

/-- The truth of a condition, which is evaluated only where it matters. -/
def condition (s : PreprocessState) (live : Bool) (line : Nat) (text : List Char) :
    Bool × List Diagnostic :=
  if live then s.registry.condition line text else (false, [])

/-- Opens a conditional group. -/
def openGroup (s : PreprocessState) (line : Nat) (text : List Char) : PreprocessState :=
  let (value, diagnostics) := s.condition s.conditions.opensLive line text
  { s.report diagnostics with conditions := s.conditions.pushIf value }

/-- Goes on with other conditional groups, or reports that there is none to go on with. -/
def regroup (s : PreprocessState) (line : Nat) (directive : GroupDirective)
    (next : Option ConditionStack) : PreprocessState :=
  match next with
  | some conditions => { s with conditions }
  | none => s.report [.unbalancedConditional line directive]

/-- Goes on to a branch with a condition. -/
def elif (s : PreprocessState) (line : Nat) (text : List Char) : PreprocessState :=
  let (value, diagnostics) := s.condition s.conditions.elifLive line text
  (s.report diagnostics).regroup line .elif (s.conditions.elif? value)

/-- Defines a macro. -/
def define (s : PreprocessState) (file : String) (line : Nat) (rest : List Char) :
    PreprocessState :=
  match MacroDefinition.ofText? rest with
  | none => s.report [.malformedDirective line "define" (String.ofList (trim rest))]
  | some (.object name body) =>
    let (registry, diagnostics) := s.registry.defineObject (some file) name body line
    { s.report diagnostics with registry }
  | some (.function name params variadic body) =>
    let m := FnMacro.ofContent params body variadic
    { s with registry := s.registry.defineFunction (some file) name m }

/-- Removes a macro. -/
def undef (s : PreprocessState) (line : Nat) (rest : List Char) : PreprocessState :=
  match leadingName? rest with
  | some name => { s with registry := s.registry.undefine name }
  | none => s.report [.malformedDirective line "undef" (String.ofList (trim rest))]

/-- Applies a packing pragma. Other pragmas do nothing. -/
def pragma (s : PreprocessState) (line : Nat) (rest : List Char) : PreprocessState :=
  match PackPragma.ofText? rest with
  | none => s
  | some parsed =>
    match parsed.bind s.pack.apply with
    | .ok pack => { s with pack, packing := s.packing.record line pack.current }
    | .error .underflow => s.report [.packUnderflow line]
    | .error (.invalidValue value) => s.report [.invalidPack line value]

/-- Follows a directive. In lines that do not count only the conditional groups matter. -/
def directive (s : PreprocessState) (file : String) (line : Nat) (d : Directive) :
    PreprocessState :=
  match d.keyword with
  | .ifTrue => s.openGroup line d.rest
  | .ifdef => s.openGroup line ("defined ".toList ++ d.rest)
  | .ifndef => s.openGroup line ("!defined ".toList ++ d.rest)
  | .elif => s.elif line d.rest
  | .otherwise => s.regroup line .otherwise s.conditions.else?
  | .endif => s.regroup line .endif s.conditions.endif?
  | .define => if s.conditions.isActive then s.define file line d.rest else s
  | .undef => if s.conditions.isActive then s.undef line d.rest else s
  | .pragma => if s.conditions.isActive then s.pragma line d.rest else s
  | .other _ => s

/-- What a line does, and the line that it gives: an empty one for a directive or where lines do not
count, the expanded line otherwise. -/
def line (s : PreprocessState) (file : String) (number : Nat) (text : List Char) :
    PreprocessState × List Char :=
  match Directive.ofLine? text with
  | some d => (s.directive file number d, [])
  | none =>
    if s.conditions.isActive then
      let (expanded, diagnostics) := s.registry.expandText [] number text
      (s.report diagnostics, expanded)
    else (s, [])

/-- What some lines do, the first of which has the given number, and the lines that they give. -/
def lines (s : PreprocessState) (file : String) (number : Nat) :
    List (List Char) → PreprocessState × List (List Char)
  | [] => (s, [])
  | text :: rest =>
    let (s, out) := s.line file number text
    let (s, outs) := s.lines file (number + 1) rest
    (s, out :: outs)

/-- Reports the conditional groups that are open at the end. -/
def finish (s : PreprocessState) : PreprocessState :=
  if s.conditions.depth = 0 then s
  else s.report [.unterminatedConditional s.conditions.depth]

end PreprocessState

/-! ### Texts -/

/-- A preprocessed text. -/
structure Preprocessed where
  /-- The text, with a line for each line of the normal text. -/
  text : String
  packing : PackingLog
  diagnostics : List Diagnostic

/-- Preprocesses a text that is normal already. -/
def preprocessNormal (r : Registry) (file text : String) : Registry × Preprocessed :=
  let (s, out) := PreprocessState.lines { registry := r } file 0 (splitAt '\n' text.toList)
  let s := s.finish
  (s.registry, ⟨String.ofList (joinWith ['\n'] out), s.packing, s.diagnostics⟩)

/-- Preprocesses the text of a header as it is written. -/
def preprocess (r : Registry) (file text : String) : Registry × Preprocessed :=
  preprocessNormal r file (String.ofList (normalize text.toList))

end CInterface
