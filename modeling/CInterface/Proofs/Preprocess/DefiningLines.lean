import CInterface.Preprocess
/-!
# Lines that define macros

What a line does that defines a macro, and with it what a text of a single line does. Which macros a
registry has behind a definition is no matter of the values of their bodies: whether an object macro
has one decides about the constants alone.

* `Registry.macros_defineObject`, `Registry.macros_defineFunction` — the macros behind a definition.
* `PreprocessState.line_defineObject`, `PreprocessState.line_defineFunction` — a line that defines;
  `PreprocessState.line_undefine` is one that removes.
* `preprocess_of_line` — a text of a single line; `preprocess_defineObject` and
  `preprocess_defineFunction` are those that define.
-/

namespace CInterface

open Text

namespace Registry

variable (r : Registry) (file : Option String) (name : String)

theorem macros_defineObject (body : String) (line : Nat) :
    (r.defineObject file name body line).1.flat.macros =
      (r.flat.macros.erase name).insert name
        (String.ofList (r.expandText [name] line body.toList).1) := by
  rw [defineObject]
  dsimp only
  split <;> rfl

theorem fnmacros_defineObject (body : String) (line : Nat) :
    (r.defineObject file name body line).1.flat.fnmacros = r.flat.fnmacros.erase name := by
  rw [defineObject]
  dsimp only
  split <;> rfl

theorem macroTable_defineObject (body : String) (line : Nat) :
    (r.defineObject file name body line).1.macroTable =
      ⟨(r.flat.macros.erase name).insert name
        (String.ofList (r.expandText [name] line body.toList).1), r.flat.fnmacros.erase name⟩ := by
  rw [macroTable, macros_defineObject, fnmacros_defineObject]

theorem macros_defineFunction (m : FnMacro) :
    (r.defineFunction file name m).flat.macros = r.flat.macros.erase name := rfl

theorem fnmacros_defineFunction (m : FnMacro) :
    (r.defineFunction file name m).flat.fnmacros = (r.flat.fnmacros.erase name).insert name m := rfl

end Registry

namespace PreprocessState

variable {s : PreprocessState} {text rest : List Char}

/-- A line that is no directive leaves the registry as it is. -/
theorem registry_line_of_none (h : Directive.ofLine? text = none) (file : String) (number : Nat) :
    (s.line file number text).1.registry = s.registry := by
  rw [line, h]
  dsimp only
  split <;> rfl

/-- Lines that are no directives leave the registry as it is. -/
theorem registry_lines_of_none {texts : List (List Char)}
    (h : ∀ text ∈ texts, Directive.ofLine? text = none) (file : String) (number : Nat) :
    (s.lines file number texts).1.registry = s.registry := by
  induction texts generalizing s number with
  | nil => rfl
  | cons text texts ih =>
    show ((s.line file number text).1.lines file (number + 1) texts).1.registry = s.registry
    rw [ih (fun text ht => h text (List.mem_cons_of_mem _ ht)),
      registry_line_of_none (h text List.mem_cons_self)]

section Defining

variable (hactive : s.conditions.isActive = true)
  (hline : Directive.ofLine? text = some ⟨.define, rest⟩)

include hactive hline

theorem line_defineObject {name body : String}
    (hread : MacroDefinition.ofText? rest = some (.object name body)) (file : String)
    (number : Nat) : s.line file number text =
      ({ s.report (s.registry.defineObject (some file) name body number).2 with
          registry := (s.registry.defineObject (some file) name body number).1 }, []) := by
  rw [line, hline]
  simp only [directive, hactive, if_true, define, hread]

theorem line_defineFunction {name body : String} {params : List String} {variadic : Bool}
    (hread : MacroDefinition.ofText? rest = some (.function name params variadic body))
    (file : String) (number : Nat) : s.line file number text =
      ({ s with registry :=
          s.registry.defineFunction (some file) name (.ofContent params body variadic) }, []) := by
  rw [line, hline]
  simp only [directive, hactive, if_true, define, hread]

end Defining

theorem line_undefine {name : String} (hactive : s.conditions.isActive = true)
    (hline : Directive.ofLine? text = some ⟨.undef, rest⟩) (hname : leadingName? rest = some name)
    (file : String) (number : Nat) :
    s.line file number text = ({ s with registry := s.registry.undefine name }, []) := by
  rw [line, hline]
  simp only [directive, hactive, if_true, undef, hname]

end PreprocessState

/-- A text whose normal text is a single line is preprocessed as that line. -/
theorem preprocess_of_line {text : String} {line : List Char}
    (h : splitAt '\n' (normalize text.toList) = [line]) (r : Registry) (file : String) :
    preprocess r file text =
      let (s, out) := PreprocessState.line { registry := r } file 0 line
      (s.finish.registry, ⟨String.ofList out, s.finish.packing, s.finish.diagnostics⟩) := by
  rw [preprocess, preprocessNormal, String.toList_ofList, h]
  simp only [PreprocessState.lines, joinWith, List.intercalate_singleton]

section Definitions

variable {text name body : String} {rest : List Char}
  (hsource : splitAt '\n' (normalize text.toList) = [text.toList])
  (hline : Directive.ofLine? text.toList = some ⟨.define, rest⟩)

include hsource hline

/-- The text of a header that defines an object macro and nothing else. -/
theorem preprocess_defineObject (hread : MacroDefinition.ofText? rest = some (.object name body))
    (r : Registry) (file : String) : preprocess r file text =
      ((r.defineObject (some file) name body 0).1,
        ⟨"", .initial, (r.defineObject (some file) name body 0).2⟩) := by
  rw [preprocess_of_line hsource, PreprocessState.line_defineObject rfl hline hread]
  rfl

/-- The text of a header that defines a function macro and nothing else. -/
theorem preprocess_defineFunction {params : List String} {variadic : Bool}
    (hread : MacroDefinition.ofText? rest = some (.function name params variadic body))
    (r : Registry) (file : String) : preprocess r file text =
      (r.defineFunction (some file) name (.ofContent params body variadic), ⟨"", .initial, []⟩) := by
  rw [preprocess_of_line hsource, PreprocessState.line_defineFunction rfl hline hread]
  rfl

end Definitions

/-- Nothing comes of a text that is empty. -/
theorem preprocess_empty (r : Registry) (file : String) :
    preprocess r file "" = (r, ⟨"", .initial, []⟩) := by
  have hsource : splitAt '\n' (normalize "".toList) = [[]] := by decide +kernel
  have hexpand : r.macroTable.expand [] [] = ⟨[], MacroTable.expansionLimit, []⟩ := by
    rw [MacroTable.expand, MacroTable.scan]
    rfl
  rw [preprocess_of_line hsource, PreprocessState.line, Registry.expandText, hexpand]
  rfl

end CInterface
