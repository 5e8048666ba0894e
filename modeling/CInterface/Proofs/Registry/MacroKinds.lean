import CInterface.Proofs.Registry.Union
/-!
# Macros of two kinds after an import

A definition of a macro takes out the macros of its name, whichever kind they are, so that a name is
a macro of one kind. An import overwrites each kind on its own: a function macro does not take out
the object macro of its name that was there before, and that goes on being replaced.

* `Registry.OneKind` — no name is a macro of both kinds.
* `Registry.Clash` — a name is a macro of one kind in a registry and of the other kind in another.
* `Registry.oneKind_union_iff` — clashes are all that goes wrong.
* `Registry.not_oneKind_union` — an import after which a name is both.
-/

namespace CInterface

namespace Registry

/-- No name is an object macro and a function macro. -/
def OneKind (r : Registry) : Prop :=
  ∀ name, (r.flat.contains .macros name && r.flat.contains .fnmacros name) = false

/-- The name is a macro of one kind in the one registry and of the other kind in the other. -/
def Clash (a b : Registry) (name : String) : Prop :=
  (a.flat.contains .macros name && b.flat.contains .fnmacros name ||
    a.flat.contains .fnmacros name && b.flat.contains .macros name) = true

variable {a b : Registry}

theorem contains_union (a b : Registry) (c : Category) (name : String) :
    (a.union b).flat.contains c name = (b.flat.contains c name || a.flat.contains c name) := by
  rw [Definitions.contains_eq, get?_flat_union, Option.isSome_or, Definitions.contains_eq,
    Definitions.contains_eq]

/-- A definition is that of the other registry, unless only the first has one. -/
theorem get?_flat_union_eq_iff (a b : Registry) (c : Category) (name : String) :
    (a.union b).flat.get? c name = b.flat.get? c name ↔
      (a.flat.contains c name && !b.flat.contains c name) = false := by
  rw [get?_flat_union, Definitions.contains_eq, Definitions.contains_eq]
  cases b.flat.get? c name <;> cases a.flat.get? c name <;> simp

/-- **What an import does to macros.** Where each of two registries has each name as a macro of one
kind at most, the registry after the import has, too, exactly if no name clashes. A macro of the
imported registry takes the place of those that had its name, of whichever kind, exactly if its
name does not clash; otherwise that of the other kind stays beside it. -/
theorem oneKind_union_iff (ha : a.OneKind) (hb : b.OneKind) :
    ((a.union b).OneKind ↔ ∀ name, ¬ a.Clash b name) ∧
      ∀ name, b.isMacro name = true →
        ((∀ c : Category, c.isMacro = true →
            (a.union b).flat.get? c name = b.flat.get? c name) ↔ ¬ a.Clash b name) := by
  constructor
  · refine forall_congr' fun name => ?_
    have hself := ha name
    have hother := hb name
    rw [contains_union, contains_union, Clash]
    revert hself hother
    generalize a.flat.contains .macros name = objectA
    generalize a.flat.contains .fnmacros name = functionA
    generalize b.flat.contains .macros name = objectB
    generalize b.flat.contains .fnmacros name = functionB
    revert objectA functionA objectB functionB
    decide
  · intro name hmacro
    have hkinds : (∀ c : Category, c.isMacro = true →
        (a.union b).flat.get? c name = b.flat.get? c name) ↔
          (a.union b).flat.get? .macros name = b.flat.get? .macros name ∧
            (a.union b).flat.get? .fnmacros name = b.flat.get? .fnmacros name := by
      constructor
      · exact fun h => ⟨h .macros rfl, h .fnmacros rfl⟩
      · rintro ⟨hobject, hfunction⟩ c hc
        cases c with
        | macros => exact hobject
        | fnmacros => exact hfunction
        | _ => cases hc
    have hself := ha name
    have hother := hb name
    have hmacro : (b.flat.contains .macros name || b.flat.contains .fnmacros name) = true := hmacro
    rw [hkinds, get?_flat_union_eq_iff, get?_flat_union_eq_iff, Clash]
    revert hself hother hmacro
    generalize a.flat.contains .macros name = objectA
    generalize a.flat.contains .fnmacros name = functionA
    generalize b.flat.contains .macros name = objectB
    generalize b.flat.contains .fnmacros name = functionB
    revert objectA functionA objectB functionB
    decide

/-- A registry with one definition. -/
theorem oneKind_insert_empty (file : Option String) (name : String) (x : Definition) :
    (Registry.empty.insert file name x).OneKind := by
  intro other
  have hnone : ∀ c, c ≠ x.category →
      (Registry.empty.insert file name x).flat.contains c other = false := by
    intro c hc
    rw [Definitions.contains_eq, get?_flat_insert, if_neg fun h => hc h.1]
    cases c <;> rfl
  by_cases hobject : Category.macros = x.category
  · have hfunction : Category.fnmacros ≠ x.category := by
      rw [← hobject]
      exact nofun
    rw [hnone _ hfunction, Bool.and_false]
  · rw [hnone _ hobject, Bool.false_and]

/-- A registry with the object macro `M`. -/
def objectOnly (body : String) : Registry := .insert .empty none "M" ⟨.macros, body⟩

/-- A registry with the function macro `M`. -/
def functionOnly : Registry :=
  .insert .empty (some "b.h") "M" ⟨.fnmacros, .ofContent ["x"] "x" false⟩

/-- An object macro takes the place of one of its kind. -/
theorem oneKind_union_objectOnly :
    (objectOnly "1").OneKind ∧ (objectOnly "2").OneKind ∧ (objectOnly "2").isMacro "M" = true ∧
      ((objectOnly "1").union (objectOnly "2")).OneKind ∧
      ((objectOnly "1").union (objectOnly "2")).flat.get? .macros "M" = some ⟨.macros, "2"⟩ := by
  have hfirst : (objectOnly "1").OneKind := oneKind_insert_empty _ _ _
  have hsecond : (objectOnly "2").OneKind := oneKind_insert_empty _ _ _
  have hmacro : (objectOnly "2").isMacro "M" = true := by decide
  obtain ⟨hkinds, hplace⟩ := oneKind_union_iff hfirst hsecond
  have hclash : ∀ name, ¬ (objectOnly "1").Clash (objectOnly "2") name := by
    intro name
    have hfunction : ∀ body, (objectOnly body).flat.contains .fnmacros name = false := fun _ => rfl
    rw [Clash, hfunction, hfunction, Bool.and_false, Bool.false_and, Bool.or_self]
    exact Bool.false_ne_true
  exact ⟨hfirst, hsecond, hmacro, hkinds.2 hclash, (hplace "M" hmacro).2 (hclash "M") .macros rfl⟩

/-- A function macro that is imported leaves the object macro of its name where it is. -/
theorem not_oneKind_union :
    (objectOnly "1").OneKind ∧ functionOnly.OneKind ∧
      ¬ ((objectOnly "1").union functionOnly).OneKind := by
  refine ⟨oneKind_insert_empty _ _ _, oneKind_insert_empty _ _ _, fun h => ?_⟩
  have hboth : (((objectOnly "1").union functionOnly).flat.contains .macros "M" &&
      ((objectOnly "1").union functionOnly).flat.contains .fnmacros "M") = true := by decide
  rw [h "M"] at hboth
  cases hboth

end Registry

end CInterface
