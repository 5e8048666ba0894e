import CInterface.Proofs.Definition.Equality
import CInterface.Proofs.Registry.Views
/-!
# Importing registries

A registry imports another by overwriting: what both define is as in the other, in its old place,
and what only the other defines goes to the end, in the order of the other. The maps of a view are
overwritten by values, and the map of the files by views, so that both are one operation on ordered
maps.

* `OrderedMap.mergeWith` — a map overwritten by another, with a function for what both have.
* `OrderedMap.Overwriting` — the functions for which that is associative and idempotent.
* `OrderedMap.keys_mergeWith`, `OrderedMap.get?_mergeWith` — the names and the values.
* `Definitions.map_merge` — the views.
* `Registry.union_overwrite_laws` — the registries.
-/

namespace CInterface

/-! ### Maps -/

namespace OrderedMap

variable {α : Type}

/-- Maps with the same names in the same order and with the same values are equal. -/
theorem ext_keys {a b : OrderedMap α} (hkeys : a.keys = b.keys)
    (hget : ∀ key, a.get? key = b.get? key) : a = b := by
  have hentries : a.entries = b.entries := by
    refine List.ext_getElem ?_ fun i hi hi' => ?_
    · have hlength := congrArg List.length hkeys
      rwa [keys, keys, List.length_map, List.length_map] at hlength
    · have hkey : a.entries[i].1 = b.entries[i].1 := by
        have hith := congrArg (·[i]?) hkeys
        simpa [keys, hi, hi'] using hith
      have ha : a.get? a.entries[i].1 = some a.entries[i].2 :=
        find?_of_mem a.nodup (List.getElem_mem hi)
      have hb : b.get? b.entries[i].1 = some b.entries[i].2 :=
        find?_of_mem b.nodup (List.getElem_mem hi')
      rw [hget, hkey, hb, Option.some.injEq] at ha
      exact Prod.ext hkey ha.symm
  obtain ⟨entries, nodup⟩ := a
  obtain ⟨entries', nodup'⟩ := b
  rw [mk.injEq]
  exact hentries

/-- The map with each entry of another put in: `f` gives the value, from the one that the name has
had and from that of the other map. -/
def mergeWith (f : Option α → α → α) (m other : OrderedMap α) : OrderedMap α :=
  other.entries.foldl (fun m e => m.insert e.1 (f (m.get? e.1) e.2)) m

variable {f : Option α → α → α}

theorem keys_foldl_insert (m : OrderedMap α) {es : List (String × α)}
    (hnodup : (es.map Prod.fst).Nodup) :
    (es.foldl (fun m e => m.insert e.1 (f (m.get? e.1) e.2)) m).keys =
      m.keys ++ (es.map Prod.fst).filter (· ∉ m.keys) := by
  induction es generalizing m with
  | nil => exact (List.append_nil _).symm
  | cons e es ih =>
    obtain ⟨hnew, hrest⟩ := List.nodup_cons.1 hnodup
    rw [List.foldl_cons, ih _ hrest, keys_insert, List.map_cons]
    by_cases hmem : e.1 ∈ m.keys
    · rw [if_pos hmem, List.filter_cons, if_neg (by simpa using hmem)]
    · have hothers : (es.map Prod.fst).filter (· ∉ m.keys ++ [e.1]) =
          (es.map Prod.fst).filter (· ∉ m.keys) := by
        refine List.filter_congr fun key hkey => ?_
        have hne : key ≠ e.1 := fun heq => hnew (heq ▸ hkey)
        rw [decide_eq_decide, List.mem_append, List.mem_singleton, not_or]
        exact and_iff_left hne
      rw [if_neg hmem, hothers, List.append_assoc, List.filter_cons, if_pos (by simpa using hmem)]
      rfl

theorem get?_foldl_insert (m : OrderedMap α) {es : List (String × α)}
    (hnodup : (es.map Prod.fst).Nodup) (key : String) :
    (es.foldl (fun m e => m.insert e.1 (f (m.get? e.1) e.2)) m).get? key =
      match find? key es with
      | some v => some (f (m.get? key) v)
      | none => m.get? key := by
  induction es generalizing m with
  | nil => rfl
  | cons e es ih =>
    obtain ⟨hnew, hrest⟩ := List.nodup_cons.1 hnodup
    rw [List.foldl_cons, ih _ hrest, find?]
    by_cases hkey : e.1 = key
    · subst hkey
      have hnone : find? e.1 es = none := by
        rw [Option.eq_none_iff_forall_ne_some]
        intro v hv
        have hmem := List.mem_map_of_mem (f := Prod.fst) (mem_of_find? hv)
        exact hnew hmem
      rw [if_pos rfl, hnone]
      exact get?_insert_self m e.1 _
    · rw [if_neg hkey, get?_insert_of_ne (Ne.symm hkey)]

/-- The names that are new go to the end. -/
theorem keys_mergeWith (a b : OrderedMap α) :
    (a.mergeWith f b).keys = a.keys ++ b.keys.filter (· ∉ a.keys) := keys_foldl_insert a b.nodup

theorem get?_mergeWith (a b : OrderedMap α) (key : String) :
    (a.mergeWith f b).get? key =
      match b.get? key with
      | some v => some (f (a.get? key) v)
      | none => a.get? key := get?_foldl_insert a b.nodup key

theorem mem_keys_mergeWith (a b : OrderedMap α) (key : String) :
    key ∈ (a.mergeWith f b).keys ↔ key ∈ a.keys ∨ key ∈ b.keys := by
  rw [keys_mergeWith, List.mem_append, List.mem_filter, decide_eq_true_eq]
  by_cases h : key ∈ a.keys <;> simp [h]

/-- What `mergeWith` needs of the function for it to be associative and idempotent. -/
structure Overwriting (f : Option α → α → α) : Prop where
  new : ∀ v, f none v = v
  assoc : ∀ o v w, f (some (f o v)) w = f o (f (some v) w)
  self : ∀ v, f (some v) v = v

theorem Overwriting.mergeWith_assoc (hf : Overwriting f) (a b c : OrderedMap α) :
    (a.mergeWith f b).mergeWith f c = a.mergeWith f (b.mergeWith f c) := by
  refine ext_keys ?_ fun key => ?_
  · have hboth : c.keys.filter (· ∉ (a.mergeWith f b).keys) =
        (c.keys.filter (· ∉ b.keys)).filter (· ∉ a.keys) := by
      rw [List.filter_filter]
      refine List.filter_congr fun key _ => ?_
      rw [← Bool.decide_and, decide_eq_decide, mem_keys_mergeWith, not_or]
    rw [keys_mergeWith, hboth, keys_mergeWith, keys_mergeWith, keys_mergeWith, List.filter_append,
      List.append_assoc]
  · rw [get?_mergeWith, get?_mergeWith, get?_mergeWith, get?_mergeWith]
    cases c.get? key with
    | none => rfl
    | some w =>
      cases b.get? key with
      | none => simp only [hf.new]
      | some v => simp only [hf.assoc]

theorem Overwriting.mergeWith_self (hf : Overwriting f) (a : OrderedMap α) :
    a.mergeWith f a = a := by
  refine ext_keys ?_ fun key => ?_
  · have hnone : a.keys.filter (· ∉ a.keys) = [] := by
      rw [List.filter_eq_nil_iff]
      intro key hkey
      rw [decide_eq_true_eq, not_not]
      exact hkey
    rw [keys_mergeWith, hnone, List.append_nil]
  · rw [get?_mergeWith]
    cases a.get? key with
    | none => rfl
    | some v => simp only [hf.self]

/-- Values are overwritten by the later ones. -/
theorem overwriting_later : Overwriting (fun (_ : Option α) v => v) :=
  ⟨fun _ => rfl, fun _ _ _ => rfl, fun _ => rfl⟩

theorem insertAll_eq_mergeWith (a b : OrderedMap α) :
    a.insertAll b = a.mergeWith (fun _ v => v) b := rfl

theorem insertAll_assoc (a b c : OrderedMap α) :
    (a.insertAll b).insertAll c = a.insertAll (b.insertAll c) :=
  overwriting_later.mergeWith_assoc a b c

theorem insertAll_self (a : OrderedMap α) : a.insertAll a = a :=
  overwriting_later.mergeWith_self a

theorem empty_insertAll (a : OrderedMap α) : empty.insertAll a = a := ofList_entries a

theorem get?_insertAll (a b : OrderedMap α) (key : String) :
    (a.insertAll b).get? key = (b.get? key).or (a.get? key) := by
  rw [insertAll_eq_mergeWith, get?_mergeWith]
  cases b.get? key <;> rfl

end OrderedMap

/-! ### Views -/

namespace Definitions

/-- Every category is overwritten on its own. -/
theorem map_merge (d other : Definitions) (c : Category) :
    (d.merge other).map c = (d.map c).insertAll (other.map c) := by
  cases c <;> rfl

theorem merge_assoc (a b c : Definitions) : (a.merge b).merge c = a.merge (b.merge c) := by
  refine ext_map fun e => ?_
  rw [map_merge, map_merge, map_merge, map_merge, OrderedMap.insertAll_assoc]

theorem merge_self (a : Definitions) : a.merge a = a := by
  refine ext_map fun e => ?_
  rw [map_merge, OrderedMap.insertAll_self]

theorem map_empty (c : Category) : Definitions.empty.map c = .empty := by
  cases c <;> rfl

theorem empty_merge (a : Definitions) : empty.merge a = a := by
  refine ext_map fun e => ?_
  rw [map_merge, map_empty, OrderedMap.empty_insertAll]

theorem get?_merge (a b : Definitions) (c : Category) (name : String) :
    (a.merge b).get? c name = (b.get? c name).or (a.get? c name) := by
  rw [get?, map_merge, OrderedMap.get?_insertAll, get?, get?, Option.map_or]

/-- Views are overwritten by merging. -/
theorem overwriting_merge :
    OrderedMap.Overwriting fun (d : Option Definitions) v => (d.getD .empty).merge v :=
  ⟨empty_merge, fun _ _ _ => merge_assoc _ _ _, merge_self⟩

end Definitions

/-! ### Registries -/

namespace Registry

theorem files_union (a b : Registry) :
    (a.union b).files = a.files.mergeWith (fun d v => (d.getD .empty).merge v) b.files := rfl

theorem union_assoc (a b c : Registry) : (a.union b).union c = a.union (b.union c) := by
  have hflat : ((a.union b).union c).flat = (a.union (b.union c)).flat :=
    Definitions.merge_assoc a.flat b.flat c.flat
  have hfiles : ((a.union b).union c).files = (a.union (b.union c)).files :=
    Definitions.overwriting_merge.mergeWith_assoc a.files b.files c.files
  exact congrArg₂ Registry.mk hflat hfiles

theorem union_self (a : Registry) : a.union a = a := by
  have hflat : (a.union a).flat = a.flat := Definitions.merge_self a.flat
  have hfiles : (a.union a).files = a.files :=
    Definitions.overwriting_merge.mergeWith_self a.files
  exact congrArg₂ Registry.mk hflat hfiles

theorem get?_flat_union (a b : Registry) (c : Category) (name : String) :
    (a.union b).flat.get? c name = (b.flat.get? c name).or (a.flat.get? c name) :=
  Definitions.get?_merge a.flat b.flat c name

theorem get?_fileView_union (a b : Registry) (f : String) (c : Category) (name : String) :
    ((a.union b).fileView f).get? c name =
      ((b.fileView f).get? c name).or ((a.fileView f).get? c name) := by
  rw [fileView, files_union, OrderedMap.get?_mergeWith, fileView, fileView]
  cases b.files.get? f with
  | none => rw [Option.getD_none, Definitions.get?_empty, Option.none_or]
  | some d =>
    rw [Option.getD_some, Option.getD_some]
    exact Definitions.get?_merge _ d c name

/-- **Importing is an associative and idempotent overwrite.** Registries are equal here only with
the same order of names in every category and of files. -/
theorem union_overwrite_laws (a b c : Registry) :
    (a.union b).union c = a.union (b.union c) ∧
      a.union a = a ∧
      (a.union b).union b = a.union b ∧
      (∀ e name, (a.union b).flat.get? e name = (b.flat.get? e name).or (a.flat.get? e name)) ∧
      ∀ f e name, ((a.union b).fileView f).get? e name =
        ((b.fileView f).get? e name).or ((a.fileView f).get? e name) := by
  have htwice : (a.union b).union b = a.union b := by rw [union_assoc, union_self]
  exact ⟨union_assoc a b c, union_self a, htwice, get?_flat_union a b, get?_fileView_union a b⟩

end Registry

end CInterface
