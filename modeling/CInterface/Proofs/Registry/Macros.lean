import CInterface.Proofs.Preprocess.DefiningLines
import CInterface.Proofs.Registry.Views
/-!
# Macro tables

The macros of a registry are in several tables: object macros and function macros, in the view of all
files and in the views of the files. The tables agree in every registry that headers and predefined
macros make, however the macros are defined anew, with another kind or in another file, or removed.

* `Registry.MacrosConsistent` — what the tables have to do with one another.
* `Registry.MacrosConsistent.insert`, `Registry.MacrosConsistent.erase` — one change.
* `Registry.Reachable` — the registries that come of predefined macros and headers.
* `macrosConsistent_of_reachable` — their tables are consistent.
-/

namespace CInterface

namespace Registry

/-- The macro tables of the registry are consistent. -/
structure MacrosConsistent (r : Registry) : Prop where
  /-- No name is an object macro and a function macro. -/
  exclusive : ∀ name : String, r.flat.get? .macros name = none ∨ r.flat.get? .fnmacros name = none
  /-- A macro of a file is a macro of all, with the same definition. -/
  agrees : ∀ (file name : String) (c : Category) (x : Definition), c.isMacro = true →
    (r.fileView file).get? c name = some x → r.flat.get? c name = some x
  /-- A name is a macro of one file, of one kind. -/
  unique : ∀ (file file' name : String) (c c' : Category) (x y : Definition), c.isMacro = true →
    c'.isMacro = true → (r.fileView file).get? c name = some x →
      (r.fileView file').get? c' name = some y → file = file' ∧ c = c'

variable {r s : Registry} {file : Option String}

theorem macrosConsistent_empty : Registry.empty.MacrosConsistent where
  exclusive _ := Or.inl rfl
  agrees file name c x _ hx := by
    rw [fileView_empty, Definitions.get?_empty] at hx
    cases hx
  unique file file' name c c' x y _ _ hx := by
    rw [fileView_empty, Definitions.get?_empty] at hx
    cases hx

namespace MacrosConsistent

theorem erase (h : r.MacrosConsistent) (c : Category) (name : String) :
    (r.erase c name).MacrosConsistent := by
  constructor
  · intro other
    rw [get?_flat_erase, get?_flat_erase]
    rcases h.exclusive other with hnone | hnone
    · exact Or.inl (by rw [hnone, ite_self])
    · exact Or.inr (by rw [hnone, ite_self])
  · intro f other e x he hx
    rw [get?_fileView_erase] at hx
    rw [get?_flat_erase]
    split at hx
    · cases hx
    · rename_i hother
      rw [if_neg hother]
      exact h.agrees f other e x he hx
  · intro f f' other e e' x y he he' hx hy
    rw [get?_fileView_erase] at hx hy
    split at hx
    · cases hx
    · split at hy
      · cases hy
      · exact h.unique f f' other e e' x y he he' hx hy

/-- A name that is no macro is one in no file either. -/
theorem fileView_of_macroFree (h : r.MacrosConsistent) {name : String} (hfree : r.MacroFree name)
    (f : String) {c : Category} (hc : c.isMacro = true) : (r.fileView f).get? c name = none := by
  cases hx : (r.fileView f).get? c name with
  | none => rfl
  | some x =>
    have hflat := h.agrees f name c x hc hx
    rw [hfree c hc] at hflat
    cases hflat

/-- A macro may be put in where there is none of its name. -/
theorem insert (h : r.MacrosConsistent) (file : Option String) (name : String) {x : Definition}
    (hfree : x.category.isMacro = true → r.MacroFree name) :
    (r.insert file name x).MacrosConsistent := by
  -- where the new definition is a macro, no file has had a macro of its name
  have hnone : ∀ f c, c.isMacro = true → x.category.isMacro = true →
      (r.fileView f).get? c name = none :=
    fun f c hc hx => h.fileView_of_macroFree (hfree hx) f hc
  constructor
  · intro other
    rw [get?_flat_insert, get?_flat_insert]
    by_cases hx : x.category.isMacro = true ∧ other = name
    · obtain ⟨hkind, rfl⟩ := hx
      by_cases hobject : Category.macros = x.category
      · have hfunction : Category.fnmacros ≠ x.category := by
          rw [← hobject]
          exact nofun
        apply Or.inr
        rw [if_neg fun h => hfunction h.1, hfree hkind .fnmacros rfl]
      · apply Or.inl
        rw [if_neg fun h => hobject h.1, hfree hkind .macros rfl]
    · have hne : ∀ c, c.isMacro = true → ¬ (c = x.category ∧ other = name) := by
        rintro c hc ⟨rfl, hother⟩
        exact hx ⟨hc, hother⟩
      rw [if_neg (hne _ rfl), if_neg (hne _ rfl)]
      exact h.exclusive other
  · intro f other c y hc hy
    rw [get?_fileView_insert] at hy
    rw [get?_flat_insert]
    split at hy
    · rename_i hnew
      rw [if_pos hnew.2]
      exact hy
    · rw [if_neg]
      · exact h.agrees f other c y hc hy
      · rintro ⟨rfl, rfl⟩
        rw [hnone f _ hc hc] at hy
        cases hy
  · intro f f' other c c' y z hc hc' hy hz
    rw [get?_fileView_insert] at hy hz
    split at hy
    · rename_i hnew
      obtain ⟨rfl, rfl, rfl⟩ := hnew
      split at hz
      · rename_i hnew'
        exact ⟨Option.some.inj hnew'.1, hnew'.2.1.symm⟩
      · rw [hnone f' c' hc' hc] at hz
        cases hz
    · split at hz
      · rename_i hnew'
        obtain ⟨rfl, rfl, rfl⟩ := hnew'
        rw [hnone f c hc hc'] at hy
        cases hy
      · exact h.unique f f' other c c' y z hc hc' hy hz

/-- Whatever a header does, the tables stay consistent. -/
theorem rewritten (h : r.MacrosConsistent) (hrewritten : r.Rewritten file s) :
    s.MacrosConsistent := by
  induction hrewritten with
  | refl => exact h
  | insert name hfree _ ih => exact ih.insert _ name hfree
  | erase c name _ ih => exact ih.erase c name

end MacrosConsistent

/-- The registries that predefined macros and headers make, in any order. -/
inductive Reachable : Registry → Prop where
  | empty : Reachable .empty
  | predefine {r : Registry} (h : Reachable r) (name body : String) :
      Reachable (predefine r name body).1
  | preprocess {r : Registry} (h : Reachable r) (file text : String) :
      Reachable (preprocess r file text).1
  | parseFile {r : Registry} (h : Reachable r) (g : Grammar) (file : String)
      (packing : PackingLog) (text : String) : Reachable (g.parseFile r file packing text).1

end Registry

/-- **Macro tables stay consistent.** In every registry that predefined macros and headers make, in
any order, no name is an object macro and a function macro, each macro of a file is a macro of all
with the same definition, and no name is a macro of two files, or of two kinds. -/
theorem macrosConsistent_of_reachable {r : Registry} (h : r.Reachable) : r.MacrosConsistent := by
  induction h with
  | empty => exact Registry.macrosConsistent_empty
  | predefine _ name body ih => exact ih.rewritten (rewritten_predefine _ name body)
  | preprocess _ file text ih => exact ih.rewritten (rewritten_preprocess _ file text)
  | parseFile _ g file packing text ih =>
    exact ih.rewritten (rewritten_parseFile g _ file packing text)

/-- A macro that a second header defines anew, as a function macro. -/
def redefined : Registry :=
  (preprocess (preprocess (predefine .empty "N" "1").1 "a.h" "#define A N").1 "b.h"
    "#define A(x) x").1

theorem redefined_eq : redefined =
    ((predefine .empty "N" "1").1.defineObject (some "a.h") "A" "N" 0).1.defineFunction
      (some "b.h") "A" (.ofContent ["x"] "x" false) := by
  have hobject : MacroDefinition.ofText? " A N".toList = some (.object "A" "N") := by
    decide
  have hfunction : MacroDefinition.ofText? " A(x) x".toList =
      some (.function "A" ["x"] false "x") := by decide
  rw [redefined, preprocess_defineFunction (by decide +kernel) (by decide) hfunction,
    preprocess_defineObject (by decide +kernel) (by decide) hobject]

theorem macrosConsistent_redefined :
    redefined.Reachable ∧ redefined.MacrosConsistent ∧
      redefined.flat.names .macros = ["N"] ∧ redefined.flat.names .fnmacros = ["A"] := by
  have hreachable : redefined.Reachable :=
    .preprocess (.preprocess (.predefine .empty "N" "1") "a.h" "#define A N") "b.h" "#define A(x) x"
  refine ⟨hreachable, macrosConsistent_of_reachable hreachable, ?_, ?_⟩
  · show redefined.flat.macros.keys = ["N"]
    rw [redefined_eq, Registry.macros_defineFunction, Registry.macros_defineObject, predefine,
      Registry.macros_defineObject]
    decide
  · show redefined.flat.fnmacros.keys = ["A"]
    rw [redefined_eq, Registry.fnmacros_defineFunction, Registry.fnmacros_defineObject, predefine,
      Registry.fnmacros_defineObject]
    decide

end CInterface
