import CInterface.Proofs.Text.JoinedLines
import CInterface.Registry.Listing
/-!
# The lines of a listing

A listing consists of whole lines, and what is shown on one line is one of them, whatever else is
listed before it.

* `Registry.view`, `Registry.listing_eq` — the view that a registry lists.
* `WholeLines` — texts that end with a newline, so that they leave the lines of what follows alone.
* `Definitions.mem_splitAt_listing` — the line of a definition is a line of the listing.
* `Registry.view_insert`, `Registry.view_erase` — how the views change.
-/

namespace CInterface

open Text

/-! ### Lines -/

/-- A text of whole lines. -/
def WholeLines (cs : List Char) : Prop := cs = [] ∨ ∃ before, cs = before ++ ['\n']

namespace WholeLines

variable {a b : List Char}

theorem append (ha : WholeLines a) (hb : WholeLines b) : WholeLines (a ++ b) := by
  rcases hb with rfl | ⟨before, rfl⟩
  · rwa [List.append_nil]
  · exact .inr ⟨a ++ before, (List.append_assoc ..).symm⟩

theorem flatMap {α : Type} {f : α → List Char} (hf : ∀ x, WholeLines (f x)) (xs : List α) :
    WholeLines (xs.flatMap f) := by
  induction xs with
  | nil => exact .inl rfl
  | cons x xs ih =>
    rw [List.flatMap_cons]
    exact (hf x).append ih

theorem of_newline (a before : List Char) : WholeLines (a ++ (before ++ ['\n'])) :=
  .inr ⟨a ++ before, (List.append_assoc ..).symm⟩

/-- Whole lines before a text leave its lines as they are. -/
theorem mem_splitAt (ha : WholeLines a) {line : List Char} (h : line ∈ splitAt '\n' b) :
    line ∈ splitAt '\n' (a ++ b) := by
  rcases ha with rfl | ⟨before, rfl⟩
  · exact h
  · obtain ⟨ps, p, hp⟩ := exists_splitAt_eq '\n' before
    rw [List.append_assoc, List.singleton_append,
      splitAt_append_text hp (splitAt_cons_self '\n' b)]
    exact List.mem_append_right _ (List.mem_cons_of_mem _ h)

end WholeLines

theorem Category.wholeLines_entryText (c : Category) (name : String) (x : c.Content) :
    WholeLines (c.entryText name x).toList := by
  cases c with
  | macros | fnmacros | types | values =>
    rw [entryText, String.toList_append]
    exact .of_newline _ []
  | vars | functions | structs | unions | enums =>
    rw [entryText, String.toList_append]
    exact .of_newline _ [';']

namespace Definitions

variable {d : Definitions} {c : Category} {name : String} {x : c.Content} {line : List Char}

theorem wholeLines_categoryListing (d : Definitions) (c : Category) :
    WholeLines (d.categoryListing c).toList := by
  rw [categoryListing]
  split
  · exact .inl rfl
  · rw [String.toList_append]
    exact .of_newline _ []

/-- A definition of one line has that line in the part of the listing for its category. -/
theorem mem_splitAt_categoryListing (hx : (name, x) ∈ (d.map c).entries)
    (htext : (c.entryText name x).toList = line ++ ['\n']) (hline : '\n' ∉ line)
    (rest : List Char) : line ∈ splitAt '\n' ((d.categoryListing c).toList ++ rest) := by
  obtain ⟨before, behind, hentries⟩ := List.append_of_mem hx
  have hsome : ¬ (d.map c).isEmpty = true := by
    intro hempty
    rw [List.isEmpty_iff.1 hempty] at hx
    exact absurd hx List.not_mem_nil
  have hbefore : WholeLines (before.flatMap fun e => (c.entryText e.1 e.2).toList) :=
    .flatMap (fun e => c.wholeLines_entryText e.1 e.2) before
  have htitle : WholeLines ("// " ++ c.name ++ "\n").toList := by
    rw [String.toList_append]
    exact .of_newline _ []
  have hmem : ∀ r, line ∈ splitAt '\n' (line ++ '\n' :: r) := fun r => by
    rw [splitAt_append hline]
    exact List.mem_cons_self
  rw [categoryListing, if_neg hsome, hentries, String.toList_append, String.toList_append,
    String.toList_join, List.map_append, List.map_cons, List.flatMap_append, List.flatMap_cons,
    List.flatMap_map, htext]
  simp only [List.append_assoc, List.singleton_append]
  exact htitle.mem_splitAt (hbefore.mem_splitAt (hmem _))

/-- **A definition of one line has that line in the listing.** -/
theorem mem_splitAt_listing (hx : (name, x) ∈ (d.map c).entries)
    (htext : (c.entryText name x).toList = line ++ ['\n']) (hline : '\n' ∉ line) :
    line ∈ splitAt '\n' d.listing.toList := by
  obtain ⟨before, behind, hall⟩ := List.append_of_mem c.mem_all
  rw [listing, String.toList_join, hall, List.map_append, List.map_cons, List.flatMap_append,
    List.flatMap_cons, List.flatMap_map]
  exact (WholeLines.flatMap d.wholeLines_categoryListing before).mem_splitAt
    (mem_splitAt_categoryListing hx htext hline _)

end Definitions

/-! ### Views of a registry -/

namespace Registry

/-- The definitions of all files, or those of a file. -/
def view (r : Registry) : Option String → Definitions
  | none => r.flat
  | some file => r.fileView file

/-- A registry lists a view. -/
theorem listing_eq (r : Registry) (v : Option String) : r.listing v = (r.view v).listing := by
  cases v with
  | none => rfl
  | some file =>
    rw [listing, view, fileView]
    cases r.files.get? file with
    | none => rfl
    | some d => rfl

theorem view_insert (r : Registry) (file : Option String) (name : String) (x : Definition)
    (v : Option String) : (r.insert file name x).view v =
      if v = none ∨ v = file then (r.view v).insert name x else r.view v := by
  cases v with
  | none =>
    rw [if_pos (.inl rfl)]
    rfl
  | some f =>
    cases file with
    | none =>
      rw [if_neg (by simp)]
      rfl
    | some given =>
      show ((r.files.insert given ((r.fileView given).insert name x)).get? f).getD .empty = _
      rw [OrderedMap.get?_insert]
      by_cases hf : f = given
      · subst hf
        rw [if_pos rfl, if_pos (.inr rfl)]
        rfl
      · rw [if_neg hf, if_neg (by simpa using hf)]
        rfl

theorem view_erase (r : Registry) (c : Category) (name : String) (v : Option String) :
    (r.erase c name).view v = (r.view v).erase c name := by
  cases v with
  | none => rfl
  | some file =>
    show ((r.files.mapValues (·.erase c name)).get? file).getD .empty = _
    rw [OrderedMap.get?_mapValues, view, fileView]
    cases r.files.get? file with
    | none => cases c <;> rfl
    | some d => rfl

theorem get?_view_insert_fnmacros (r : Registry) (file : Option String) (name : String)
    (m : FnMacro) (v : Option String) (other : String) :
    ((r.insert file name ⟨.fnmacros, m⟩).view v).fnmacros.get? other =
      if (v = none ∨ v = file) ∧ other = name then some m else (r.view v).fnmacros.get? other := by
  rw [view_insert]
  by_cases hv : v = none ∨ v = file
  · rw [if_pos hv]
    show ((r.view v).fnmacros.insert name m).get? other = _
    rw [OrderedMap.get?_insert]
    simp [hv]
  · rw [if_neg hv, if_neg fun h => hv h.1]

theorem fnmacros_view_insert (r : Registry) (file : Option String) (name : String) {x : Definition}
    (hx : x.category ≠ .fnmacros) (v : Option String) :
    ((r.insert file name x).view v).fnmacros = (r.view v).fnmacros := by
  obtain ⟨c, content⟩ := x
  rw [view_insert]
  split
  · cases c with
    | fnmacros => exact absurd rfl hx
    | _ => rfl
  · rfl

theorem get?_fnmacros_view_erase {r : Registry} {c : Category} {name other : String}
    {v : Option String} {m : FnMacro}
    (h : ((r.erase c name).view v).fnmacros.get? other = some m) :
    (r.view v).fnmacros.get? other = some m := by
  rw [view_erase] at h
  cases c with
  | fnmacros =>
    have h : ((r.view v).fnmacros.erase name).get? other = some m := h
    rw [OrderedMap.get?_erase] at h
    split at h
    · cases h
    · exact h
  | _ => exact h

end Registry

end CInterface
