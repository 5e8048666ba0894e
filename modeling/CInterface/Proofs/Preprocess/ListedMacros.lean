import CInterface.Proofs.Preprocess.LineNumbers
import CInterface.Proofs.Preprocess.MacroDefinitions
import CInterface.Proofs.Registry.Listings
/-!
# Listed function macros

A listing shows a function macro as a `#define` line. The line can be read again: it defines the
name with the parameters and the content of the macro. The macro that it defines is never variadic,
though, since a listing writes no dots behind the last parameter.

* `FnMacro.DefinedBy`, `FnMacro.DefinedBy.listed` — a macro that a line defines has its line in
  every listing.
* `MacroDefinition.ofLine?_defineLine` — that line is read as the macro, without dots.
* `PreprocessState.line_listed` — so it says what the first line said exactly if that has no dots.
* `PreprocessState.functionsFrom_lines`, `preprocess_listed` — all macros of a preprocessed text.
-/

namespace CInterface

open Text

/-! ### The line of a macro -/

/-- The line that a listing has for a function macro. -/
def FnMacro.defineLine (name : String) (m : FnMacro) : String :=
  "#define " ++ name ++ "(" ++ ", ".intercalate m.params ++ ") " ++ m.content

theorem FnMacro.toList_defineLine (name : String) (m : FnMacro) :
    (m.defineLine name).toList =
      "#define".toList ++ ' ' :: (name.toList ++ '(' ::
        (MacroDefinition.listText m.params ++ ')' :: ' ' :: m.content.toList)) := by
  rw [defineLine]
  simp only [String.toList_append, String.toList_intercalate, List.append_assoc]
  rfl

theorem Directive.ofLine?_define (rest : List Char) :
    Directive.ofLine? ("#define".toList ++ ' ' :: rest) = some ⟨.define, ' ' :: rest⟩ := by
  rfl

/-- **A listed macro is read as it was defined**, but never as variadic. -/
theorem MacroDefinition.ofLine?_defineLine {name : String} {m : FnMacro}
    (h : Plain name m.params m.content) :
    ofLine? (m.defineLine name).toList = some (.function name m.params false m.content) := by
  rw [ofLine?, m.toList_defineLine, Directive.ofLine?_define, Option.bind_some, if_pos rfl,
    ofText?_listed h]

/-! ### Lines that define macros -/

/-- The line defines the macro for the name. -/
def FnMacro.DefinedBy (m : FnMacro) (name : String) (line : List Char) : Prop :=
  MacroDefinition.ofLine? line = some (.function name m.params m.variadic m.content)

namespace FnMacro

variable {m : FnMacro} {name : String} {line : List Char}

theorem DefinedBy.plain (h : m.DefinedBy name line) :
    MacroDefinition.Plain name m.params m.content := by
  obtain ⟨d, -, hd⟩ := Option.bind_eq_some_iff.1 h
  split at hd
  · exact MacroDefinition.plain_of_ofText? hd
  · cases hd

/-- The content of a macro stands on the line that defines it. -/
theorem DefinedBy.not_mem_content (h : m.DefinedBy name line) (hline : '\n' ∉ line) :
    '\n' ∉ m.content.toList := by
  obtain ⟨d, hdirective, hd⟩ := Option.bind_eq_some_iff.1 h
  split at hd
  · exact MacroDefinition.not_mem_body hd (Directive.not_mem_ofLine? hdirective hline)
  · cases hd

/-- The listed line is one line, too. -/
theorem DefinedBy.not_mem_defineLine (h : m.DefinedBy name line) (hline : '\n' ∉ line) :
    '\n' ∉ (m.defineLine name).toList := by
  have hname : '\n' ∉ name.toList := not_mem_of_isIdentifier h.plain.name (by decide)
  have hparams : '\n' ∉ MacroDefinition.listText m.params :=
    MacroDefinition.not_mem_listText (by decide) (by decide) (by decide) h.plain.params
  rw [toList_defineLine]
  simp [hname, hparams, h.not_mem_content hline]

/-- **A macro that a line defines has a line in each listing of it.** -/
theorem DefinedBy.listed (h : m.DefinedBy name line) (hline : '\n' ∉ line) {r : Registry}
    {v : Option String} (hm : (r.view v).fnmacros.get? name = some m) :
    (m.defineLine name).toList ∈ splitAt '\n' (r.listing v).toList := by
  rw [r.listing_eq]
  refine Definitions.mem_splitAt_listing (c := .fnmacros) (OrderedMap.mem_entries_of_get? hm) ?_
    (h.not_mem_defineLine hline)
  show (m.defineLine name ++ "\n").toList = _
  rw [String.toList_append]
  rfl

end FnMacro

namespace PreprocessState

/-- **What is listed of a function macro.** Where a line defines a function macro, the views of all
files and of the file hold it. Any registry, then or later, with a view that holds it lists a line
for it, and that line defines the name again, with the parameters and the content of the macro but
not as variadic: it says what the line said that defined the macro exactly if the macro is not
variadic. -/
theorem line_listed (s : PreprocessState) (file : String) (number : Nat) {line : List Char}
    {name body : String} {params : List String} {variadic : Bool}
    (hactive : s.conditions.isActive = true) (hline : '\n' ∉ line)
    (hread : MacroDefinition.ofLine? line = some (.function name params variadic body)) :
    let m := FnMacro.ofContent params body variadic
    let after := (s.line file number line).1.registry
    let listed := (m.defineLine name).toList
    (∀ v, v = none ∨ v = some file → (after.view v).fnmacros.get? name = some m) ∧
      (∀ (r : Registry) (v : Option String), (r.view v).fnmacros.get? name = some m →
        listed ∈ splitAt '\n' (r.listing v).toList) ∧
      MacroDefinition.ofLine? listed = some (.function name params false body) ∧
      (MacroDefinition.ofLine? listed = MacroDefinition.ofLine? line ↔ variadic = false) := by
  intro m after listed
  have hdefined : m.DefinedBy name line := hread
  have hagain : MacroDefinition.ofLine? listed = some (.function name params false body) :=
    MacroDefinition.ofLine?_defineLine hdefined.plain
  refine ⟨fun v hv => ?_, fun r v hm => hdefined.listed hline hm, hagain, ?_⟩
  · obtain ⟨d, hdirective, hd⟩ := Option.bind_eq_some_iff.1 hread
    split at hd
    · rename_i hdefine
      have hafter : after = s.registry.defineFunction (some file) name m := by
        simp only [after, PreprocessState.line, hdirective, directive, hdefine, hactive, if_true,
          define, hd]
        rfl
      rw [hafter, Registry.defineFunction, Registry.get?_view_insert_fnmacros, if_pos ⟨hv, rfl⟩]
    · cases hd
  · rw [hagain, hread]
    constructor
    · intro h
      cases h
      rfl
    · rintro rfl
      rfl

/-- A macro of three parameters, the last of which is not written, in a branch that counts. -/
def loggingState : PreprocessState where
  registry := Registry.empty.insert (some "b.h") "LOG" ⟨.macros, "0"⟩
  conditions := ConditionStack.empty.pushIf true

theorem line_listed_logging :
    let line := "  # define LOG( to ,fmt,...)  print(to, fmt, __VA_ARGS__) ".toList
    let m := FnMacro.ofContent ["to", "fmt", "__VA_ARGS__"] "print(to, fmt, __VA_ARGS__)" true
    let listed := "#define LOG(to, fmt, __VA_ARGS__) print(to, fmt, __VA_ARGS__)"
    loggingState.conditions.isActive = true ∧ '\n' ∉ line ∧ m.DefinedBy "LOG" line ∧
      m.defineLine "LOG" = listed ∧
      listed.toList ∈
        splitAt '\n' ((loggingState.line "a.h" 7 line).1.registry.listing (some "a.h")).toList ∧
      MacroDefinition.ofLine? listed.toList ≠ MacroDefinition.ofLine? line := by
  intro line m listed
  have hactive : loggingState.conditions.isActive = true := by decide +kernel
  have hline : '\n' ∉ line := by decide +kernel
  have hread : m.DefinedBy "LOG" line := by
    rw [FnMacro.DefinedBy]
    decide +kernel
  have hlisted : m.defineLine "LOG" = listed := by decide +kernel
  obtain ⟨hviews, hlistings, -, hsame⟩ := line_listed loggingState "a.h" 7 hactive hline hread
  rw [← hlisted]
  exact ⟨hactive, hline, hread, rfl, hlistings _ _ (hviews _ (.inr rfl)),
    fun h => Bool.noConfusion (hsame.1 h)⟩

/-- A listed macro is not always what it was defined as: no line of the listing has the dots of a
variadic macro. -/
theorem not_exists_listed :
    ¬ ∀ (line : List Char) (name body : String) (params : List String) (variadic : Bool),
      MacroDefinition.ofLine? line = some (.function name params variadic body) →
        let after := (PreprocessState.line { registry := .empty } "a.h" 0 line).1.registry
        ∃ listed ∈ splitAt '\n' (after.listing none).toList,
          MacroDefinition.ofLine? listed = some (.function name params variadic body) := by
  intro h
  have hread : MacroDefinition.ofLine? "#define LOG(fmt, ...) printf(fmt, __VA_ARGS__)".toList =
      some (.function "LOG" ["fmt", "__VA_ARGS__"] true "printf(fmt, __VA_ARGS__)") := by
    decide +kernel
  exact absurd (h _ _ _ _ _ hread) (by decide +kernel)

end PreprocessState

/-! ### Whole texts -/

namespace Registry

/-- The function macros of a registry are those of another one or are defined by some lines, view by
view. -/
def FunctionsFrom (lines : List (List Char)) (r s : Registry) : Prop :=
  ∀ (v : Option String) {name : String} {m : FnMacro}, (s.view v).fnmacros.get? name = some m →
    (r.view v).fnmacros.get? name = some m ∨ ∃ line ∈ lines, m.DefinedBy name line

namespace FunctionsFrom

variable {lines more : List (List Char)} {r s t : Registry}

theorem refl (lines : List (List Char)) (r : Registry) : FunctionsFrom lines r r :=
  fun _ _ _ h => .inl h

theorem trans (hrs : FunctionsFrom lines r s) (hst : FunctionsFrom more s t) :
    FunctionsFrom (lines ++ more) r t := by
  intro v name m h
  rcases hst v h with h | ⟨line, hline, hm⟩
  · rcases hrs v h with h | ⟨line, hline, hm⟩
    · exact .inl h
    · exact .inr ⟨line, List.mem_append_left _ hline, hm⟩
  · exact .inr ⟨line, List.mem_append_right _ hline, hm⟩

theorem erase (h : FunctionsFrom lines r s) (c : Category) (name : String) :
    FunctionsFrom lines r (s.erase c name) :=
  fun v _ _ hm => h v (get?_fnmacros_view_erase hm)

theorem undefine (h : FunctionsFrom lines r s) (name : String) :
    FunctionsFrom lines r (s.undefine name) :=
  ((h.erase .macros name).erase .fnmacros name).erase .values name

theorem insert (h : FunctionsFrom lines r s) (file : Option String) (name : String) {x : Definition}
    (hx : x.category ≠ .fnmacros) : FunctionsFrom lines r (s.insert file name x) := by
  intro v other m hm
  rw [fnmacros_view_insert s file name hx v] at hm
  exact h v hm

theorem insertFunction (h : FunctionsFrom lines r s) (file : Option String) {name : String}
    {m : FnMacro} {line : List Char} (hline : line ∈ lines) (hm : m.DefinedBy name line) :
    FunctionsFrom lines r (s.insert file name ⟨.fnmacros, m⟩) := by
  intro v other m' hm'
  rw [get?_view_insert_fnmacros] at hm'
  split at hm'
  · rename_i hv
    obtain ⟨-, rfl⟩ := hv
    cases hm'
    exact .inr ⟨line, hline, hm⟩
  · exact h v hm'

theorem defineObject (lines : List (List Char)) (r : Registry) (file : Option String)
    (name body : String) (number : Nat) :
    FunctionsFrom lines r (r.defineObject file name body number).1 := by
  have hcleared := (refl lines r).undefine name
  have hvalue : Category.values ≠ .fnmacros := by decide
  have hmacro : Category.macros ≠ .fnmacros := by decide
  rw [Registry.defineObject]
  dsimp only
  split
  · exact (hcleared.insert _ _ hvalue).insert _ _ hmacro
  · exact hcleared.insert _ _ hmacro

end FunctionsFrom

end Registry

namespace PreprocessState

variable {s : PreprocessState} {file : String} {number : Nat}

theorem functionsFrom_define {line : List Char} {d : Directive}
    (hdirective : Directive.ofLine? line = some d) (hdefine : d.keyword = .define) :
    s.registry.FunctionsFrom [line] (s.define file number d.rest).registry := by
  have hsame := Registry.FunctionsFrom.refl [line] s.registry
  rw [define]
  split
  · exact hsame
  · rename_i name body hread
    exact Registry.FunctionsFrom.defineObject [line] s.registry (some file) name body number
  · rename_i name params variadic body hread
    have hdefined : (FnMacro.ofContent params body variadic).DefinedBy name line := by
      show MacroDefinition.ofLine? line = _
      rw [MacroDefinition.ofLine?, hdirective, Option.bind_some, if_pos hdefine, hread]
      rfl
    exact (hsame.undefine name).insertFunction _ List.mem_cons_self hdefined

theorem functionsFrom_undef (lines : List (List Char)) (rest : List Char) :
    s.registry.FunctionsFrom lines (s.undef number rest).registry := by
  have hsame := Registry.FunctionsFrom.refl lines s.registry
  rw [undef]
  split
  · exact hsame.undefine _
  · exact hsame

/-- A line defines no function macro but the one that is written on it. -/
theorem functionsFrom_line (s : PreprocessState) (file : String) (number : Nat)
    (line : List Char) :
    s.registry.FunctionsFrom [line] (s.line file number line).1.registry := by
  have hsame := Registry.FunctionsFrom.refl [line] s.registry
  rw [PreprocessState.line]
  split
  · rename_i d hdirective
    rw [directive]
    split
    · exact hsame
    · exact hsame
    · exact hsame
    · rwa [registry_elif]
    · rwa [registry_regroup]
    · rwa [registry_regroup]
    · rename_i hdefine
      split
      · exact functionsFrom_define hdirective hdefine
      · exact hsame
    · split
      · exact functionsFrom_undef [line] d.rest
      · exact hsame
    · split
      · rwa [registry_pragma]
      · exact hsame
    · exact hsame
  · split <;> exact hsame

theorem functionsFrom_lines (s : PreprocessState) (file : String) (number : Nat)
    (lines : List (List Char)) :
    s.registry.FunctionsFrom lines (s.lines file number lines).1.registry := by
  induction lines generalizing s number with
  | nil => exact .refl [] s.registry
  | cons line rest ih =>
    rw [lines_cons]
    exact (functionsFrom_line s file number line).trans (ih _ (number + 1))

end PreprocessState

/-- **What is listed after a text was preprocessed.** Each function macro of a view was in the view
before or is defined by a line of the normal text; in the latter case the listing of the view has a
line that defines it again, as a macro that is not variadic. -/
theorem preprocess_listed (r : Registry) (file text : String) (v : Option String) {name : String}
    {m : FnMacro} (hm : ((preprocess r file text).1.view v).fnmacros.get? name = some m) :
    (r.view v).fnmacros.get? name = some m ∨
      (∃ line ∈ splitAt '\n' (normalize text.toList), m.DefinedBy name line) ∧
        (m.defineLine name).toList ∈
          splitAt '\n' ((preprocess r file text).1.listing v).toList ∧
        MacroDefinition.ofLine? (m.defineLine name).toList =
          some (.function name m.params false m.content) := by
  have hregistry : (preprocess r file text).1 = (PreprocessState.lines { registry := r } file 0
      (splitAt '\n' (normalize text.toList))).1.registry := by
    simp only [preprocess, preprocessNormal, String.toList_ofList, PreprocessState.registry_finish]
  have hfrom : r.FunctionsFrom (splitAt '\n' (normalize text.toList))
      (preprocess r file text).1 := by
    rw [hregistry]
    exact PreprocessState.functionsFrom_lines { registry := r } file 0 _
  refine (hfrom v hm).imp_right ?_
  rintro ⟨line, hline, hdefined⟩
  have hone : '\n' ∉ line := not_mem_of_mem_splitAt hline
  exact ⟨⟨line, hline, hdefined⟩, hdefined.listed hone hm,
    MacroDefinition.ofLine?_defineLine hdefined.plain⟩

end CInterface
