import CInterface.Proofs.Registry.MacroKinds
import Mathlib.Data.List.Induction
/-!
# The file of a name

Which files define a name is a matter of the changes that a registry has seen. `Registry.fileOf?`
asks for one of these files, and finds the one that was first used last, which need not be the one
that gave the name last: a file that comes back keeps its place.

* `RegistryChange`, `Registry.after` — changes of a registry, and the registry after some.
* `Stands` — a definition that some change has put in and none has taken out.
* `LatestDefiner` — the file that was the last to define a name.
* `Registry.fileOf?_eq_some_iff` — `fileOf?` goes by the order of the files.
* `Registry.fileOf?_after` — so it finds the latest definer exactly if the others were used before.
* `Registry.not_fileOf?_after` — changes after which it does not.
-/

namespace CInterface

/-! ### Changes -/

/-- A change of a registry. -/
inductive RegistryChange where
  | insert (file : Option String) (name : String) (x : Definition)
  | erase (c : Category) (name : String)

namespace Registry

/-- The registry with a change. -/
def apply (r : Registry) : RegistryChange → Registry
  | .insert file name x => r.insert file name x
  | .erase c name => r.erase c name

/-- The registry that some changes make of the empty one. -/
def after (changes : List RegistryChange) : Registry := changes.foldl apply .empty

theorem after_append_singleton (changes : List RegistryChange) (change : RegistryChange) :
    after (changes ++ [change]) = (after changes).apply change := by
  rw [after, List.foldl_append]
  rfl

end Registry

/-- A definition stands: a change gives it, and no later change takes it out. -/
def Stands (changes : List RegistryChange) (file : String) (c : Category) (name : String) : Prop :=
  ∃ before x later, changes = before ++ .insert (some file) name x :: later ∧ x.category = c ∧
    .erase c name ∉ later

/-- The file is used: some change gives it a definition. -/
def Uses (changes : List RegistryChange) (file : String) : Prop :=
  ∃ name x, .insert (some file) name x ∈ changes

/-- The one file is used before the other one is used for the first time. -/
def UsedBefore (changes : List RegistryChange) (file other : String) : Prop :=
  ∃ before, before <+: changes ∧ Uses before file ∧ ¬ Uses before other

/-- The file was the last to define the name: the change that did so stands, and of the later
changes none that defines the name for a file does. -/
def LatestDefiner (changes : List RegistryChange) (name file : String) : Prop :=
  ∃ before x later, changes = before ++ .insert (some file) name x :: later ∧
    .erase x.category name ∉ later ∧ ∀ other c, ¬ Stands later other c name

/-- All other files that still define the name were used before the file. -/
def UsedLast (changes : List RegistryChange) (name file : String) : Prop :=
  ∀ other c, other ≠ file → Stands changes other c name → UsedBefore changes other file

/-- No file comes back when another one has been used for the first time since. -/
def InTurn (changes : List RegistryChange) : Prop :=
  ∀ before later file other, changes = before ++ later → UsedBefore before file other →
    Uses before other → ¬ Uses later file

section Changes

variable {changes before later : List RegistryChange} {change : RegistryChange}
  {file other name : String} {c : Category} {x : Definition}

theorem not_stands_nil : ¬ Stands [] file c name := by
  rintro ⟨before, x, later, heq, -⟩
  cases before <;> cases heq

/-- What stands after one more change. -/
theorem stands_append_singleton : Stands (changes ++ [change]) file c name ↔
    (∃ x : Definition, change = .insert (some file) name x ∧ x.category = c) ∨
      (change ≠ .erase c name ∧ Stands changes file c name) := by
  constructor
  · rintro ⟨before, x, later, heq, hc, hkept⟩
    rcases List.eq_nil_or_concat later with rfl | ⟨later, last, rfl⟩
    · obtain ⟨-, hlast⟩ := List.append_inj' heq rfl
      exact Or.inl ⟨x, List.singleton_inj.1 hlast, hc⟩
    · rw [List.concat_eq_append] at heq hkept
      rw [← List.cons_append, ← List.append_assoc] at heq
      obtain ⟨hchanges, hlast⟩ := List.append_inj' heq rfl
      obtain rfl := List.singleton_inj.1 hlast
      rw [List.mem_append, not_or, List.mem_singleton] at hkept
      exact Or.inr ⟨fun h => hkept.2 h.symm, before, x, later, hchanges, hc, hkept.1⟩
  · rintro (⟨x, rfl, hc⟩ | ⟨hne, before, x, later, rfl, hc, hkept⟩)
    · exact ⟨changes, x, [], rfl, hc, List.not_mem_nil⟩
    · refine ⟨before, x, later ++ [change], ?_, hc, ?_⟩
      · rw [List.append_assoc, List.cons_append]
      · rw [List.mem_append, List.mem_singleton, not_or]
        exact ⟨hkept, fun h => hne h.symm⟩

theorem Stands.uses (h : Stands changes file c name) : Uses changes file := by
  obtain ⟨before, x, later, rfl, -, -⟩ := h
  exact ⟨name, x, List.mem_append_right _ List.mem_cons_self⟩

theorem LatestDefiner.stands (h : LatestDefiner changes name file) :
    ∃ c, Stands changes file c name := by
  obtain ⟨before, x, later, heq, hkept, -⟩ := h
  exact ⟨x.category, before, x, later, heq, rfl, hkept⟩

end Changes

/-- Of the changes that stand one is the last. -/
theorem exists_latestDefiner_of_append {changes before later : List RegistryChange}
    {file name : String} {x : Definition}
    (heq : changes = before ++ .insert (some file) name x :: later)
    (hkept : .erase x.category name ∉ later) : ∃ f, LatestDefiner changes name f := by
  by_cases hlast : ∀ other c, ¬ Stands later other c name
  · exact ⟨file, before, x, later, heq, hkept, hlast⟩
  · simp only [not_forall, not_not] at hlast
    obtain ⟨other, c, middle, y, rest, hlater, rfl, hrest⟩ := hlast
    have hfront : changes = (before ++ .insert (some file) name x :: middle) ++
        .insert (some other) name y :: rest := by
      rw [heq, hlater, List.append_assoc, List.cons_append]
    have hshorter : rest.length < later.length := by
      rw [hlater, List.length_append, List.length_cons]
      omega
    exact exists_latestDefiner_of_append hfront hrest
  termination_by later.length
  decreasing_by exact hshorter

theorem exists_latestDefiner {changes : List RegistryChange} {file name : String} {c : Category}
    (h : Stands changes file c name) : ∃ f, LatestDefiner changes name f := by
  obtain ⟨before, x, later, heq, rfl, hkept⟩ := h
  exact exists_latestDefiner_of_append heq hkept

/-! ### The views of the files -/

namespace Registry

variable {changes : List RegistryChange} {file other name : String}

/-- A file has the definitions that stand. -/
theorem isSome_fileView_after (changes : List RegistryChange) (file : String) (c : Category)
    (name : String) :
    (((after changes).fileView file).get? c name).isSome = true ↔ Stands changes file c name := by
  induction changes using List.reverseRecOn with
  | nil =>
    have hnone : ((after []).fileView file).get? c name = none := Definitions.get?_empty c name
    rw [hnone]
    exact iff_of_false Bool.false_ne_true not_stands_nil
  | append_singleton changes change ih =>
    rw [after_append_singleton, stands_append_singleton]
    cases change with
    | insert given n x =>
      rw [apply, get?_fileView_insert]
      split
      · rename_i h
        obtain ⟨rfl, rfl, rfl⟩ := h
        exact iff_of_true rfl (Or.inl ⟨x, rfl, rfl⟩)
      · rename_i h
        rw [ih]
        constructor
        · exact fun hstands => Or.inr ⟨nofun, hstands⟩
        · rintro (⟨y, heq, rfl⟩ | ⟨-, hstands⟩)
          · cases heq
            exact absurd ⟨rfl, rfl, rfl⟩ h
          · exact hstands
    | erase e n =>
      rw [apply, get?_fileView_erase]
      split
      · rename_i h
        obtain ⟨rfl, rfl⟩ := h
        refine iff_of_false Bool.false_ne_true ?_
        rintro (⟨y, heq, -⟩ | ⟨hne, -⟩)
        · cases heq
        · exact hne rfl
      · rename_i h
        rw [ih]
        constructor
        · refine fun hstands => Or.inr ⟨fun heq => h ?_, hstands⟩
          cases heq
          exact ⟨rfl, rfl⟩
        · rintro (⟨y, heq, -⟩ | ⟨-, hstands⟩)
          · cases heq
          · exact hstands

theorem defines_fileView_after (changes : List RegistryChange) (file name : String) :
    ((after changes).fileView file).defines name = true ↔ ∃ c, Stands changes file c name := by
  rw [Definitions.defines, List.any_eq_true]
  constructor
  · rintro ⟨c, -, hc⟩
    rw [Definitions.contains_eq, isSome_fileView_after] at hc
    exact ⟨c, hc⟩
  · rintro ⟨c, hc⟩
    refine ⟨c, Category.mem_all c, ?_⟩
    rw [Definitions.contains_eq, isSome_fileView_after]
    exact hc

/-! ### The order of the files -/

/-- A new file goes to the end, and no file goes away. -/
theorem keys_files_apply (r : Registry) (change : RegistryChange) :
    (r.apply change).files.keys =
      match change with
      | .insert (some file) _ _ =>
        if file ∈ r.files.keys then r.files.keys else r.files.keys ++ [file]
      | _ => r.files.keys := by
  cases change with
  | erase c name =>
    show (r.files.entries.map fun e => (e.1, e.2.erase c name)).map Prod.fst = _
    rw [List.map_map]
    rfl
  | insert given name x =>
    cases given with
    | none => rfl
    | some file => exact OrderedMap.keys_insert r.files file _

theorem mem_keys_files_apply (r : Registry) (change : RegistryChange) (file : String) :
    file ∈ (r.apply change).files.keys ↔
      file ∈ r.files.keys ∨ ∃ name x, change = .insert (some file) name x := by
  rw [keys_files_apply]
  split
  · rename_i given name x
    have hgiven : (∃ n y, RegistryChange.insert (some given) name x = .insert (some file) n y) ↔
        file = given := by
      constructor
      · rintro ⟨n, y, heq⟩
        cases heq
        rfl
      · rintro rfl
        exact ⟨name, x, rfl⟩
    rw [hgiven]
    split
    · rename_i hmem
      exact ⟨Or.inl, fun h => h.elim id fun heq => heq ▸ hmem⟩
    · rw [List.mem_append, List.mem_singleton]
  · rename_i hnone
    refine ⟨Or.inl, fun h => h.elim id ?_⟩
    rintro ⟨name, x, rfl⟩
    exact absurd rfl (hnone file name x)

theorem uses_append_singleton (changes : List RegistryChange) (change : RegistryChange)
    (file : String) : Uses (changes ++ [change]) file ↔
      Uses changes file ∨ ∃ name x, change = .insert (some file) name x := by
  constructor
  · rintro ⟨name, x, hmem⟩
    rcases List.mem_append.1 hmem with hmem | hmem
    · exact Or.inl ⟨name, x, hmem⟩
    · exact Or.inr ⟨name, x, (List.mem_singleton.1 hmem).symm⟩
  · rintro (⟨name, x, hmem⟩ | ⟨name, x, rfl⟩)
    · exact ⟨name, x, List.mem_append_left _ hmem⟩
    · exact ⟨name, x, List.mem_append_right _ List.mem_cons_self⟩

/-- The files are those that were used. -/
theorem uses_iff_mem_keys (changes : List RegistryChange) (file : String) :
    Uses changes file ↔ file ∈ (after changes).files.keys := by
  induction changes using List.reverseRecOn with
  | nil =>
    refine iff_of_false ?_ List.not_mem_nil
    rintro ⟨name, x, hmem⟩
    cases hmem
  | append_singleton changes change ih =>
    rw [uses_append_singleton, after_append_singleton, mem_keys_files_apply, ih]

theorem usedBefore_append_singleton (changes : List RegistryChange) (change : RegistryChange)
    (file other : String) : UsedBefore (changes ++ [change]) file other ↔
      (Uses (changes ++ [change]) file ∧ ¬ Uses (changes ++ [change]) other) ∨
        UsedBefore changes file other := by
  simp only [UsedBefore, List.prefix_concat_iff, or_and_right, exists_or, exists_eq_left]

/-- What the files begin with after one more change. -/
theorem prefix_keys_after_append_singleton (changes : List RegistryChange)
    (change : RegistryChange) (l : List String) :
    l <+: (after (changes ++ [change])).files.keys ↔
      l = (after (changes ++ [change])).files.keys ∨ l <+: (after changes).files.keys := by
  have hsame : ∀ keys : List String, l <+: keys ↔ l = keys ∨ l <+: keys := fun keys =>
    ⟨Or.inr, fun h => h.elim (fun heq => heq ▸ List.prefix_rfl) id⟩
  rw [after_append_singleton, keys_files_apply]
  split
  · split
    · exact hsame _
    · exact List.prefix_concat_iff
  · exact hsame _

/-- Files stand in the order in which they were first used. -/
theorem usedBefore_iff (changes : List RegistryChange) (file other : String) :
    UsedBefore changes file other ↔
      ∃ l, l <+: (after changes).files.keys ∧ file ∈ l ∧ other ∉ l := by
  induction changes using List.reverseRecOn with
  | nil =>
    constructor
    · rintro ⟨before, hprefix, hfile, -⟩
      obtain rfl := List.prefix_nil.1 hprefix
      obtain ⟨name, x, hmem⟩ := hfile
      cases hmem
    · rintro ⟨l, hprefix, hfile, -⟩
      obtain rfl := List.prefix_nil.1 hprefix
      cases hfile
  | append_singleton changes change ih =>
    rw [usedBefore_append_singleton, ih, uses_iff_mem_keys, uses_iff_mem_keys]
    simp only [prefix_keys_after_append_singleton, or_and_right, exists_or, exists_eq_left]

/-- In a list without repetitions, what some beginning without `x` has is what stands before `x`. -/
theorem exists_prefix_iff_mem {l l' : List String} {x y : String} (hnodup : (l ++ x :: l').Nodup) :
    (∃ front, front <+: l ++ x :: l' ∧ y ∈ front ∧ x ∉ front) ↔ y ∈ l := by
  constructor
  · rintro ⟨front, hfront, hy, hx⟩
    rcases List.prefix_or_prefix_of_prefix hfront (List.prefix_append l (x :: l')) with h | h
    · exact h.subset hy
    · obtain ⟨behind, rfl⟩ := h
      rcases List.prefix_cons_iff.1 ((List.prefix_append_right_inj l).1 hfront) with
        rfl | ⟨behind, rfl, -⟩
      · rwa [List.append_nil] at hy
      · exact absurd (List.mem_append_right l List.mem_cons_self) hx
  · intro hy
    refine ⟨l, List.prefix_append _ _, hy, fun hx => ?_⟩
    exact (List.nodup_append.1 hnodup).2.2 x hx x List.mem_cons_self rfl

theorem usedBefore_iff_mem {l l' : List String}
    (hkeys : (after changes).files.keys = l ++ file :: l') :
    UsedBefore changes other file ↔ other ∈ l := by
  have hnodup : (after changes).files.keys.Nodup := (after changes).files.nodup
  rw [hkeys] at hnodup
  rw [usedBefore_iff, hkeys, exists_prefix_iff_mem hnodup]

/-- Of two files one was used before the other. -/
theorem usedBefore_total (hfile : Uses changes file) (hne : other ≠ file) :
    UsedBefore changes file other ∨ UsedBefore changes other file := by
  obtain ⟨l, l', hkeys⟩ := List.append_of_mem ((uses_iff_mem_keys changes file).1 hfile)
  by_cases hmem : other ∈ l
  · exact Or.inr ((usedBefore_iff_mem hkeys).2 hmem)
  · refine Or.inl ((usedBefore_iff _ _ _).2 ⟨l ++ [file], ⟨l', ?_⟩, by simp, fun h => ?_⟩)
    · rw [hkeys, List.append_assoc, List.singleton_append]
    · rcases List.mem_append.1 h with h | h
      · exact hmem h
      · exact hne (List.mem_singleton.1 h)

end Registry

/-- Where the files come in turn, those that still define a name were used before its latest
definer. -/
theorem LatestDefiner.usedBefore {changes : List RegistryChange} {name file other : String}
    {c : Category} (h : LatestDefiner changes name file) (hturn : InTurn changes)
    (hne : other ≠ file) (hother : Stands changes other c name) :
    UsedBefore changes other file := by
  obtain ⟨before, x, later, rfl, -, hlast⟩ := h
  have hlater : Uses (.insert (some file) name x :: later) file := ⟨name, x, List.mem_cons_self⟩
  have hbefore : Uses before other := by
    obtain ⟨front, y, rest, heq, rfl, hkept⟩ := hother
    -- the definition stands before that of the latest definer, since behind it none does
    rcases List.append_eq_append_iff.1 heq with ⟨between, rfl, hbehind⟩ | ⟨between, rfl, hbehind⟩
    · cases between with
      | nil =>
        cases (List.cons.inj hbehind).1
        exact absurd rfl hne
      | cons first between =>
        obtain ⟨-, rfl⟩ := List.cons.inj hbehind
        exact absurd ⟨between, y, rest, rfl, rfl, hkept⟩ (hlast other y.category)
    · cases between with
      | nil =>
        cases (List.cons.inj hbehind).1
        exact absurd rfl hne
      | cons first between =>
        obtain ⟨rfl, -⟩ := List.cons.inj hbehind
        exact ⟨name, y, List.mem_append_right _ List.mem_cons_self⟩
  have hprefix := List.prefix_append before (.insert (some file) name x :: later)
  by_cases hfile : Uses before file
  · rcases Registry.usedBefore_total hfile hne with hfirst | ⟨front, hfront, huses⟩
    · exact absurd hlater (hturn before _ file other rfl hfirst hbefore)
    · exact ⟨front, hfront.trans hprefix, huses⟩
  · exact ⟨before, hprefix, hbefore, hfile⟩

/-! ### The file of a name -/

namespace Registry

theorem fileView_of_mem_entries {r : Registry} {e : String × Definitions}
    (he : e ∈ r.files.entries) : r.fileView e.1 = e.2 := by
  have hget : r.files.get? e.1 = some e.2 := OrderedMap.find?_of_mem r.files.nodup he
  rw [fileView, hget, Option.getD_some]

/-- The file of a name is the last one that defines it. -/
theorem fileOf?_eq_some_iff (r : Registry) (name file : String) :
    r.fileOf? name = some file ↔
      ∃ l l', r.files.keys = l ++ file :: l' ∧ (r.fileView file).defines name = true ∧
        ∀ other ∈ l', (r.fileView other).defines name = false := by
  rw [fileOf?, Option.map_eq_some_iff]
  constructor
  · rintro ⟨e, hfind, rfl⟩
    obtain ⟨hdefines, behind, front, heq, hbehind⟩ := List.find?_eq_some_iff_append.1 hfind
    have hentries : r.files.entries = front.reverse ++ e :: behind.reverse := by
      rw [← List.reverse_inj, heq]
      simp
    refine ⟨front.reverse.map Prod.fst, behind.reverse.map Prod.fst, ?_, ?_, ?_⟩
    · rw [OrderedMap.keys, hentries, List.map_append, List.map_cons]
    · rw [fileView_of_mem_entries (e := e) (by simp [hentries])]
      exact hdefines
    · intro other hother
      obtain ⟨d, hd, rfl⟩ := List.mem_map.1 hother
      have hmem : d ∈ r.files.entries := by
        rw [hentries]
        exact List.mem_append_right _ (List.mem_cons_of_mem _ hd)
      have hnot := hbehind d (List.mem_reverse.1 hd)
      rw [fileView_of_mem_entries hmem]
      simpa using hnot
  · rintro ⟨l, l', hkeys, hdefines, hbehind⟩
    rw [OrderedMap.keys] at hkeys
    obtain ⟨front, rest, hentries, rfl, hrest⟩ := List.map_eq_append_iff.1 hkeys
    obtain ⟨e, behind, rfl, rfl, rfl⟩ := List.map_eq_cons_iff.1 hrest
    refine ⟨e, List.find?_eq_some_iff_append.2 ⟨?_, behind.reverse, front.reverse, ?_, ?_⟩, rfl⟩
    · rw [fileView_of_mem_entries (e := e) (by simp [hentries])] at hdefines
      exact hdefines
    · rw [hentries]
      simp
    · intro d hd
      have hd := List.mem_reverse.1 hd
      have hmem : d ∈ r.files.entries := by
        rw [hentries]
        exact List.mem_append_right _ (List.mem_cons_of_mem _ hd)
      have hnot := hbehind d.1 (List.mem_map_of_mem hd)
      rw [fileView_of_mem_entries hmem] at hnot
      simpa using hnot

/-- The file of a name is, of the files that still define it, the one that was first used last. -/
theorem fileOf?_after_eq_some_iff (changes : List RegistryChange) (name file : String) :
    (after changes).fileOf? name = some file ↔
      (∃ c, Stands changes file c name) ∧ UsedLast changes name file := by
  rw [fileOf?_eq_some_iff]
  constructor
  · rintro ⟨l, l', hkeys, hdefines, hbehind⟩
    refine ⟨(defines_fileView_after changes file name).1 hdefines, fun other c hne hother => ?_⟩
    have hmem := (uses_iff_mem_keys changes other).1 hother.uses
    rw [hkeys, List.mem_append, List.mem_cons] at hmem
    rcases hmem with hmem | heq | hmem
    · exact (usedBefore_iff_mem hkeys).2 hmem
    · exact absurd heq hne
    · have hnot := hbehind other hmem
      rw [(defines_fileView_after changes other name).2 ⟨c, hother⟩] at hnot
      cases hnot
  · rintro ⟨⟨c, hstands⟩, hlast⟩
    obtain ⟨l, l', hkeys⟩ := List.append_of_mem ((uses_iff_mem_keys changes file).1 hstands.uses)
    refine ⟨l, l', hkeys, (defines_fileView_after changes file name).2 ⟨c, hstands⟩, ?_⟩
    intro other hmem
    have hnodup : (after changes).files.keys.Nodup := (after changes).files.nodup
    rw [hkeys] at hnodup
    obtain ⟨-, hbehind, hapart⟩ := List.nodup_append.1 hnodup
    have hne : other ≠ file := by
      rintro rfl
      exact (List.nodup_cons.1 hbehind).1 hmem
    by_contra hdefines
    rw [Bool.not_eq_false, defines_fileView_after] at hdefines
    obtain ⟨e, hother⟩ := hdefines
    -- `other` would stand before `file`, too
    have hbefore := (usedBefore_iff_mem hkeys).1 (hlast other e hne hother)
    exact hapart other hbefore other (List.mem_cons_of_mem _ hmem) rfl

/-- **Which file `fileOf?` finds.** Of a name that some file still defines it finds one: of the
files that still define the name the one that was first used last. The latest definer it finds
exactly if all others of these files were used before that one, and so wherever the files come in
turn. -/
theorem fileOf?_after {changes : List RegistryChange} {g name : String}
    (h : ((after changes).fileView g).defines name = true) :
    (∃ found c, (after changes).fileOf? name = some found ∧ Stands changes found c name ∧
        UsedLast changes name found) ∧
      (∃ latest, LatestDefiner changes name latest) ∧
      ∀ latest, LatestDefiner changes name latest →
        ((after changes).fileOf? name = some latest ↔ UsedLast changes name latest) ∧
          (InTurn changes → (after changes).fileOf? name = some latest) := by
  obtain ⟨c, hstands⟩ := (defines_fileView_after changes g name).1 h
  refine ⟨?_, exists_latestDefiner hstands, fun latest hlatest => ?_⟩
  · have hsome : ((after changes).fileOf? name).isSome = true := by
      have hmem := (uses_iff_mem_keys changes g).1 hstands.uses
      obtain ⟨e, he, rfl⟩ := List.mem_map.1 hmem
      rw [fileView_of_mem_entries he] at h
      rw [fileOf?, Option.isSome_map, List.find?_isSome]
      exact ⟨e, List.mem_reverse.2 he, h⟩
    obtain ⟨found, hfound⟩ := Option.isSome_iff_exists.1 hsome
    obtain ⟨⟨e, hfile⟩, hlast⟩ := (fileOf?_after_eq_some_iff changes name found).1 hfound
    exact ⟨found, e, hfound, hfile, hlast⟩
  · have hiff : (after changes).fileOf? name = some latest ↔ UsedLast changes name latest := by
      rw [fileOf?_after_eq_some_iff]
      exact and_iff_right hlatest.stands
    exact ⟨hiff, fun hturn => hiff.2 fun other c hne hother => hlatest.usedBefore hturn hne hother⟩

/-- A second file defines a name anew, and as a macro, which is taken out again. -/
def redefinedInTurn : List RegistryChange :=
  [.insert (some "a.h") "N" ⟨.values, .int 1⟩, .insert (some "b.h") "N" ⟨.values, .int 2⟩,
    .insert (some "b.h") "N" ⟨.macros, "2"⟩, .erase .macros "N"]

/-- The macro is the last definition of the name, but the constant is the last that stands. -/
theorem latestDefiner_redefinedInTurn : LatestDefiner redefinedInTurn "N" "b.h" := by
  refine ⟨[.insert (some "a.h") "N" ⟨.values, .int 1⟩], ⟨.values, .int 2⟩,
    [.insert (some "b.h") "N" ⟨.macros, "2"⟩, .erase .macros "N"], rfl, ?_, fun other c h => ?_⟩
  · simp
  · have hstands : Stands ([.insert (some "b.h") "N" ⟨.macros, "2"⟩] ++ [.erase .macros "N"])
        other c "N" := h
    rcases stands_append_singleton.1 hstands with ⟨x, heq, -⟩ | ⟨hkept, h⟩
    · cases heq
    · have hinserted : Stands ([] ++ [.insert (some "b.h") "N" ⟨.macros, "2"⟩]) other c "N" := h
      rcases stands_append_singleton.1 hinserted with ⟨x, heq, rfl⟩ | ⟨-, h⟩
      · cases heq
        exact hkept rfl
      · exact not_stands_nil h

theorem inTurn_redefinedInTurn : InTurn redefinedInTurn := by
  rintro before later file other heq ⟨front, hfront, hfile, hfirst⟩ hother ⟨name, x, hlater⟩
  have hkeys : (after redefinedInTurn).files.keys = ["a.h", "b.h"] := by decide
  have hbefore : before <+: redefinedInTurn := ⟨later, heq.symm⟩
  obtain ⟨l, hl, hmem, hnot⟩ := (usedBefore_iff redefinedInTurn file other).1
    ⟨front, hfront.trans hbefore, hfile, hfirst⟩
  rw [hkeys] at hl
  -- of the two files the first is used before the second, and not again
  have hsame : file = "a.h" := by
    obtain ⟨n, y, hchange⟩ := hother
    have hused : other = "a.h" ∨ other = "b.h" := by
      have hkey := (uses_iff_mem_keys redefinedInTurn other).1 ⟨n, y, hbefore.subset hchange⟩
      rw [hkeys] at hkey
      simpa using hkey
    rcases List.prefix_cons_iff.1 hl with rfl | ⟨rest, rfl, hrest⟩
    · cases hmem
    · rcases List.mem_cons.1 hmem with rfl | hin
      · rfl
      · rcases hused with rfl | rfl
        · exact absurd List.mem_cons_self hnot
        · have hb : file = "b.h" := by simpa using hrest.subset hin
          rw [hb] at hmem
          exact absurd hmem hnot
  cases before with
  | nil =>
    obtain ⟨n, y, hin⟩ := hother
    cases hin
  | cons first before =>
    have hin : RegistryChange.insert (some file) name x ∈ redefinedInTurn.tail := by
      rw [heq]
      exact List.mem_append_right _ hlater
    rw [hsame] at hin
    simp [redefinedInTurn] at hin

/-- The file that defined the name anew is found. -/
theorem fileOf?_after_redefinedInTurn :
    ((after redefinedInTurn).fileView "a.h").defines "N" = true ∧ InTurn redefinedInTurn ∧
      LatestDefiner redefinedInTurn "N" "b.h" ∧
      (after redefinedInTurn).fileOf? "N" = some "b.h" := by
  have hdefines : ((after redefinedInTurn).fileView "a.h").defines "N" = true := by decide
  obtain ⟨-, -, hlatest⟩ := fileOf?_after hdefines
  exact ⟨hdefines, inTurn_redefinedInTurn, latestDefiner_redefinedInTurn,
    (hlatest "b.h" latestDefiner_redefinedInTurn).2 inTurn_redefinedInTurn⟩

/-- A file comes back and defines a name anew. -/
def redefinedByReturn : List RegistryChange :=
  [.insert (some "a.h") "N" ⟨.values, .int 1⟩, .insert (some "b.h") "N" ⟨.values, .int 2⟩,
    .insert (some "a.h") "N" ⟨.values, .int 3⟩]

/-- The file that came back was the last to define the name, and the other one is found. -/
theorem not_fileOf?_after :
    ((after redefinedByReturn).fileView "a.h").defines "N" = true ∧
      LatestDefiner redefinedByReturn "N" "a.h" ∧
      (after redefinedByReturn).fileOf? "N" = some "b.h" := by
  refine ⟨by decide, ?_, by decide⟩
  exact ⟨redefinedByReturn.take 2, ⟨.values, .int 3⟩, [], rfl, List.not_mem_nil,
    fun other c => not_stands_nil⟩

end Registry

end CInterface
