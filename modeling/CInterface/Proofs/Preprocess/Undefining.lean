import CInterface.Proofs.Definition.Equality
import CInterface.Proofs.Registry.Views
/-!
# Undefining names

`#undef` takes the macros of a name out of a registry, and with them the value of the name. Of a
name that is no macro there is nothing to take out but a constant, such as a member of an
enumeration, and that is lost.

* `Registry.Lacks` — no view has a definition of a name in a category.
* `Registry.erase_eq_self_iff` — what is not there can be taken out, and nothing else.
* `PreprocessState.line_undef` — a line that undefines a name that is no macro.
* `PreprocessState.not_registry_line_undef` — such a line that does something.
-/

namespace CInterface

/-! ### What is not there -/

theorem OrderedMap.erase_eq_self_iff {α : Type} (m : OrderedMap α) (key : String) :
    m.erase key = m ↔ m.get? key = none := by
  constructor
  · intro h
    rw [← h, get?_erase, if_pos rfl]
  · intro h
    have hkept : ∀ e ∈ m.entries, decide (e.1 ≠ key) = true := by
      intro e he
      rw [decide_eq_true_eq]
      rintro rfl
      have hsome : m.get? e.1 = some e.2 := find?_of_mem m.nodup he
      rw [h] at hsome
      cases hsome
    obtain ⟨entries, nodup⟩ := m
    rw [erase, mk.injEq]
    exact List.filter_eq_self.2 hkept

theorem Definitions.erase_eq_self_iff (d : Definitions) (c : Category) (name : String) :
    d.erase c name = d ↔ d.get? c name = none := by
  constructor
  · intro h
    rw [← h, get?_erase, if_pos ⟨rfl, rfl⟩]
  · intro h
    rw [get?, Option.map_eq_none_iff] at h
    refine ext_map fun e => ?_
    by_cases he : e = c
    · subst he
      rw [erase, update, map_set_self]
      exact (OrderedMap.erase_eq_self_iff _ name).2 h
    · rw [erase, update, map_set_of_ne d he]

namespace Registry

/-- No view of the registry has a definition of a name in a category. -/
structure Lacks (r : Registry) (c : Category) (name : String) : Prop where
  flat : r.flat.get? c name = none
  files : ∀ f, (r.fileView f).get? c name = none

variable {r : Registry} {name : String}

theorem erase_eq_self_iff (r : Registry) (c : Category) (name : String) :
    r.erase c name = r ↔ r.Lacks c name := by
  constructor
  · intro h
    constructor
    · rw [← h, get?_flat_erase, if_pos ⟨rfl, rfl⟩]
    · intro f
      rw [← h, get?_fileView_erase, if_pos ⟨rfl, rfl⟩]
  · intro h
    have hviews : ∀ e ∈ r.files.entries, (e.1, e.2.erase c name) = e := by
      intro e he
      have hview : r.fileView e.1 = e.2 := by
        have hget : r.files.get? e.1 = some e.2 := OrderedMap.find?_of_mem r.files.nodup he
        rw [fileView, hget, Option.getD_some]
      have hnone := h.files e.1
      rw [hview] at hnone
      rw [(e.2.erase_eq_self_iff c name).2 hnone]
    have hflat : r.flat.erase c name = r.flat := (r.flat.erase_eq_self_iff c name).2 h.flat
    have hfiles : r.files.entries.map (fun e => (e.1, e.2.erase c name)) = r.files.entries :=
      (List.map_congr_left hviews).trans (List.map_id _)
    obtain ⟨flat, ⟨entries, nodup⟩⟩ := r
    rw [erase, hflat, mk.injEq, OrderedMap.mapValues, OrderedMap.mk.injEq]
    exact ⟨rfl, hfiles⟩

/-- Of a name that is no macro there is at most a constant to take out. -/
theorem undefine_of_lacks (hobject : r.Lacks .macros name) (hfunction : r.Lacks .fnmacros name) :
    r.undefine name = r.erase .values name := by
  rw [undefine, (r.erase_eq_self_iff .macros name).2 hobject,
    (r.erase_eq_self_iff .fnmacros name).2 hfunction]

end Registry

/-! ### Lines -/

namespace PreprocessState

/-- **What `#undef` does to a name that is no macro.** Where neither an object macro nor a function
macro has the name, in the view of all or in that of a file, a line that counts and undefines the
name takes constants of the name out of all views and does nothing else. So it does nothing at all
exactly if there is no such constant. -/
theorem line_undef (s : PreprocessState) (file : String) (number : Nat) {text rest : List Char}
    {name : String} (hactive : s.conditions.isActive = true)
    (hline : Directive.ofLine? text = some ⟨.undef, rest⟩) (hname : leadingName? rest = some name)
    (hobject : s.registry.Lacks .macros name) (hfunction : s.registry.Lacks .fnmacros name) :
    s.line file number text = ({ s with registry := s.registry.erase .values name }, []) ∧
      ((s.line file number text).1.registry = s.registry ↔ s.registry.Lacks .values name) := by
  have hstep : s.line file number text =
      ({ s with registry := s.registry.erase .values name }, []) := by
    rw [line, hline]
    simp only [directive, hactive, if_true, undef, hname]
    rw [Registry.undefine_of_lacks hobject hfunction]
  refine ⟨hstep, ?_⟩
  rw [hstep]
  exact s.registry.erase_eq_self_iff .values name

/-- A registry with an enumeration of one member and the constant of that. -/
def enumerated : Registry :=
  (Registry.empty.insert (some "a.h") "E" ⟨.enums, ⟨.ofList [("N", 1)]⟩⟩).insert (some "a.h") "N"
    ⟨.values, .int 1⟩

theorem lacks_enumerated {c : Category} {name : String} (henum : ¬(c = .enums ∧ name = "E"))
    (hvalue : ¬(c = .values ∧ name = "N")) : enumerated.Lacks c name := by
  constructor
  · rw [enumerated, Registry.get?_flat_insert, if_neg hvalue, Registry.get?_flat_insert,
      if_neg henum]
    exact Definitions.get?_empty c name
  · intro f
    rw [enumerated, Registry.get?_fileView_insert, if_neg fun h => hvalue h.2,
      Registry.get?_fileView_insert, if_neg fun h => henum h.2]
    exact Definitions.get?_empty c name

/-- The name of the enumeration is neither a macro nor a constant. -/
theorem line_undef_enumerated :
    Directive.ofLine? " #undef E".toList = some ⟨.undef, " E".toList⟩ ∧
      leadingName? " E".toList = some "E" ∧
      (line { registry := enumerated } "b.h" 0 " #undef E".toList).1.registry = enumerated := by
  have hline : Directive.ofLine? " #undef E".toList = some ⟨.undef, " E".toList⟩ := by decide
  have hname : leadingName? " E".toList = some "E" := by decide
  obtain ⟨-, hiff⟩ := line_undef { registry := enumerated } "b.h" 0 rfl hline hname
    (lacks_enumerated (by decide) (by decide)) (lacks_enumerated (by decide) (by decide))
  exact ⟨hline, hname, hiff.2 (lacks_enumerated (by decide) (by decide))⟩

/-- A member of an enumeration that a second header undefines: its constant is lost, although no
macro has the name. -/
theorem not_registry_line_undef :
    enumerated.Lacks .macros "N" ∧ enumerated.Lacks .fnmacros "N" ∧
      (line { registry := enumerated } "b.h" 0 "#undef N".toList).1.registry ≠ enumerated := by
  refine ⟨lacks_enumerated (by decide) (by decide), lacks_enumerated (by decide) (by decide), ?_⟩
  intro heq
  have hlost : (line { registry := enumerated } "b.h" 0 "#undef N".toList).1.registry.flat.get?
      .values "N" = none := by
    rfl
  rw [heq] at hlost
  have hthere : enumerated.flat.get? .values "N" = some ⟨.values, .int 1⟩ := rfl
  rw [hthere] at hlost
  cases hlost

end PreprocessState

end CInterface
