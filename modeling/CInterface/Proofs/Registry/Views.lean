import CInterface.Proofs.Grammar.Findings
import CInterface.Proofs.Preprocess.LineNumbers
import CInterface.Proofs.Registry.Tags
/-!
# How headers change the views of a registry

Preprocessing and reading a header put definitions into the view of all files and into that of the
header, and take definitions out of all views. A macro is put in only where there is none of its
name, since its definition takes out what was there.

* `Registry.get?_fileView_insert`, `Registry.get?_fileView_erase` — the view of a file.
* `Registry.Rewritten` — a registry after some such changes.
* `rewritten_predefine`, `rewritten_preprocess`, `rewritten_parseFile` — nothing else happens.
-/

namespace CInterface

/-! ### Views -/

namespace Definitions

theorem get?_empty (c : Category) (name : String) : Definitions.empty.get? c name = none := by
  cases c <;> rfl

theorem get?_erase (d : Definitions) (c : Category) (name : String) (e : Category)
    (other : String) : (d.erase c name).get? e other =
      if e = c ∧ other = name then none else d.get? e other := by
  by_cases he : e = c
  · subst he
    rw [get?, erase, update, map_set_self, OrderedMap.get?_erase]
    by_cases ho : other = name
    · rw [if_pos ho, if_pos ⟨rfl, ho⟩]
      rfl
    · rw [if_neg ho, if_neg fun h => ho h.2]
      rfl
  · rw [get?, erase, update, map_set_of_ne d he, if_neg fun h => he h.1]
    rfl

end Definitions

namespace Registry

variable {r s t : Registry} {file : Option String}

theorem fileView_empty (f : String) : Registry.empty.fileView f = .empty := rfl

theorem get?_flat_insert (r : Registry) (file : Option String) (name : String) (x : Definition)
    (c : Category) (other : String) : (r.insert file name x).flat.get? c other =
      if c = x.category ∧ other = name then some x else r.flat.get? c other :=
  Definitions.get?_insert r.flat name x c other

theorem get?_flat_erase (r : Registry) (c : Category) (name : String) (e : Category)
    (other : String) : (r.erase c name).flat.get? e other =
      if e = c ∧ other = name then none else r.flat.get? e other :=
  Definitions.get?_erase r.flat c name e other

/-- A definition goes into the view of its file alone. -/
theorem get?_fileView_insert (r : Registry) (file : Option String) (name : String)
    (x : Definition) (f : String) (c : Category) (other : String) :
    ((r.insert file name x).fileView f).get? c other =
      if file = some f ∧ c = x.category ∧ other = name then some x
      else (r.fileView f).get? c other := by
  cases file with
  | none => rfl
  | some given =>
    show (((r.files.insert given ((r.fileView given).insert name x)).get? f).getD .empty).get? c
      other = _
    rw [OrderedMap.get?_insert]
    by_cases hf : f = given
    · subst hf
      rw [if_pos rfl, Option.getD_some, Definitions.get?_insert]
      simp
    · have hne : some given ≠ some f := fun h => hf (Option.some.inj h).symm
      rw [if_neg hf, if_neg fun h => hne h.1]
      rfl

/-- A definition is taken out of the views of all files. -/
theorem get?_fileView_erase (r : Registry) (c : Category) (name f : String) (e : Category)
    (other : String) : ((r.erase c name).fileView f).get? e other =
      if e = c ∧ other = name then none else (r.fileView f).get? e other := by
  show (((r.files.mapValues (·.erase c name)).get? f).getD .empty).get? e other = _
  rw [OrderedMap.get?_mapValues, fileView]
  cases r.files.get? f with
  | none => simp [Definitions.get?_empty]
  | some d => exact Definitions.get?_erase d c name e other

/-! ### Changes -/

/-- No macro has the name. -/
def MacroFree (r : Registry) (name : String) : Prop :=
  ∀ c : Category, c.isMacro = true → r.flat.get? c name = none

/-- `Rewritten file r s` — the registry `s` is `r` with some definitions put in for the file, and
some taken out. A macro is put in where no macro has its name. -/
inductive Rewritten (file : Option String) (r : Registry) : Registry → Prop where
  | refl : Rewritten file r r
  | insert {s : Registry} (name : String) {x : Definition}
      (hx : x.category.isMacro = true → s.MacroFree name) (h : Rewritten file r s) :
      Rewritten file r (s.insert file name x)
  | erase {s : Registry} (c : Category) (name : String) (h : Rewritten file r s) :
      Rewritten file r (s.erase c name)

theorem Rewritten.trans (hrs : r.Rewritten file s) (hst : s.Rewritten file t) :
    r.Rewritten file t := by
  induction hst with
  | refl => exact hrs
  | insert name hx _ ih => exact .insert name hx ih
  | erase c name _ ih => exact .erase c name ih

theorem rewritten_undefine (file : Option String) (r : Registry) (name : String) :
    r.Rewritten file (r.undefine name) := .erase _ _ (.erase _ _ (.erase _ _ .refl))

/-- Behind `undefine` neither a macro nor a constant has the name. -/
theorem get?_undefine (r : Registry) (name : String) (c : Category) (other : String) :
    (r.undefine name).flat.get? c other =
      if (c.isMacro = true ∨ c = .values) ∧ other = name then none else r.flat.get? c other := by
  rw [undefine, get?_flat_erase, get?_flat_erase, get?_flat_erase]
  cases c <;> simp [Category.isMacro]

theorem macroFree_undefine (r : Registry) (name : String) : (r.undefine name).MacroFree name := by
  intro c hc
  rw [get?_undefine, if_pos ⟨Or.inl hc, rfl⟩]

theorem MacroFree.insert {name other : String} (h : r.MacroFree name) {x : Definition}
    (hx : x.category.isMacro = false) (file : Option String) :
    (r.insert file other x).MacroFree name := by
  intro c hc
  rw [get?_flat_insert, if_neg, h c hc]
  rintro ⟨rfl, _⟩
  rw [hx] at hc
  cases hc

/-- The definition of an object macro takes out what there was of its name. -/
theorem rewritten_defineObject (r : Registry) (file : Option String) (name body : String)
    (line : Nat) : r.Rewritten file (r.defineObject file name body line).1 := by
  have hcleared := rewritten_undefine file r name
  have hfree := macroFree_undefine r name
  rw [defineObject]
  dsimp only
  split
  · rename_i v _
    have hvalue : r.Rewritten file ((r.undefine name).insert file name ⟨.values, v⟩) :=
      .insert name (fun h => absurd h Bool.false_ne_true) hcleared
    exact .insert _ (fun _ => hfree.insert rfl file) hvalue
  · exact .insert _ (fun _ => hfree) hcleared

theorem rewritten_defineFunction (r : Registry) (file : Option String) (name : String)
    (m : FnMacro) : r.Rewritten file (r.defineFunction file name m) :=
  .insert _ (fun _ => macroFree_undefine r name) (rewritten_undefine file r name)

theorem rewritten_insertAll (r : Registry) (file : String) {ds : List (String × Definition)}
    (hds : ∀ d ∈ ds, d.2.category.isMacro = false) :
    r.Rewritten (some file) (r.insertAll file ds) := by
  induction ds generalizing r with
  | nil => exact .refl
  | cons d ds ih =>
    obtain ⟨hd, hds⟩ := List.forall_mem_cons.1 hds
    refine Rewritten.trans (.insert d.1 (fun h => ?_) .refl) (ih (r.insert (some file) d.1 d.2) hds)
    rw [hd] at h
    cases h

end Registry

/-! ### Headers -/

namespace PreprocessState

variable {s : PreprocessState} {file : String} {number : Nat}

theorem rewritten_define (rest : List Char) :
    s.registry.Rewritten (some file) (s.define file number rest).registry := by
  rw [define]
  split
  · exact .refl
  · exact Registry.rewritten_defineObject _ _ _ _ number
  · exact Registry.rewritten_defineFunction _ _ _ _

theorem rewritten_undef (rest : List Char) :
    s.registry.Rewritten (some file) (s.undef number rest).registry := by
  rw [undef]
  split
  · exact Registry.rewritten_undefine _ _ _
  · exact .refl

theorem rewritten_directive (d : Directive) :
    s.registry.Rewritten (some file) (s.directive file number d).registry := by
  rw [directive]
  split
  · exact .refl
  · exact .refl
  · exact .refl
  · rw [registry_elif]
    exact .refl
  · rw [registry_regroup]
    exact .refl
  · rw [registry_regroup]
    exact .refl
  · split
    · exact rewritten_define d.rest
    · exact .refl
  · split
    · exact rewritten_undef d.rest
    · exact .refl
  · split
    · rw [registry_pragma]
      exact .refl
    · exact .refl
  · exact .refl

theorem rewritten_line (text : List Char) :
    s.registry.Rewritten (some file) (s.line file number text).1.registry := by
  rw [line]
  split
  · exact rewritten_directive _
  · split <;> exact .refl

/-- Lines change the registry by definitions of macros alone. -/
theorem rewritten_lines (s : PreprocessState) (file : String) (number : Nat)
    (texts : List (List Char)) :
    s.registry.Rewritten (some file) (s.lines file number texts).1.registry := by
  induction texts generalizing s number with
  | nil => exact .refl
  | cons text rest ih =>
    rw [lines_cons]
    exact (rewritten_line text).trans (ih (s.line file number text).1 (number + 1))

end PreprocessState

theorem rewritten_predefine (r : Registry) (name body : String) :
    r.Rewritten none (predefine r name body).1 := r.rewritten_defineObject none name body 0

theorem rewritten_preprocess (r : Registry) (file text : String) :
    r.Rewritten (some file) (preprocess r file text).1 := by
  have hlines := PreprocessState.rewritten_lines { registry := r } file 0
    (Text.splitAt '\n' (String.ofList (Text.normalize text.toList)).toList)
  rw [preprocess, preprocessNormal]
  dsimp only
  rw [PreprocessState.registry_finish]
  exact hlines

/-- Declarations give no macros. -/
theorem rewritten_parseFile (g : Grammar) (r : Registry) (file : String) (packing : PackingLog)
    (text : String) : r.Rewritten (some file) (g.parseFile r file packing text).1 := by
  obtain ⟨ds, hregistry, hds⟩ := (parseFile_regular g r file packing text).1
  rw [hregistry]
  exact r.rewritten_insertAll file fun d hd => (hds d hd).isMacro_eq_false

end CInterface
