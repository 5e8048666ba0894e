/-!
# Ordered maps

Finite maps from names that remember the order in which the names were first inserted.

* `OrderedMap.get?` — the value of a name.
* `OrderedMap.insert` — a new name goes to the end; the value of a known one is replaced in place.
* `OrderedMap.erase` — the other names keep their order.
* `OrderedMap.same` — equality of maps, for which the order does not matter.

No name occurs twice, which `OrderedMap.nodup` records.
-/

namespace CInterface

universe u

/-- A finite map from names that remembers the order of insertion. -/
structure OrderedMap (α : Type u) where
  /-- The names with their values, in order. -/
  entries : List (String × α)
  /-- No name occurs twice. -/
  nodup : (entries.map Prod.fst).Nodup

namespace OrderedMap

variable {α : Type u}

/-! ### Entries -/

/-- The value of a name in some entries. -/
def find? (key : String) : List (String × α) → Option α
  | [] => none
  | (k, v) :: rest => if k = key then some v else find? key rest

/-- The entries with a value for a name: in its old place, or at the end. -/
def put (key : String) (value : α) : List (String × α) → List (String × α)
  | [] => [(key, value)]
  | (k, v) :: rest => if k = key then (key, value) :: rest else (k, v) :: put key value rest

theorem keys_put (key : String) (value : α) (es : List (String × α)) :
    (put key value es).map Prod.fst =
      if key ∈ es.map Prod.fst then es.map Prod.fst else es.map Prod.fst ++ [key] := by
  induction es with
  | nil => simp [put]
  | cons e rest ih =>
    obtain ⟨k, v⟩ := e
    by_cases h : k = key
    · simp [put, h]
    · have h' : key ≠ k := fun e => h e.symm
      simp only [put, h, if_false, List.map_cons, ih, List.mem_cons, h', false_or]
      split <;> simp

theorem nodup_put {key : String} {value : α} {es : List (String × α)}
    (h : (es.map Prod.fst).Nodup) : ((put key value es).map Prod.fst).Nodup := by
  rw [keys_put]
  split
  · exact h
  · rename_i hk
    simp only [List.nodup_append, h, true_and, List.nodup_cons, List.not_mem_nil,
      not_false_eq_true, List.nodup_nil, List.mem_singleton]
    grind

theorem find?_put_self (key : String) (value : α) (es : List (String × α)) :
    find? key (put key value es) = some value := by
  induction es with
  | nil => simp [put, find?]
  | cons e rest ih =>
    obtain ⟨k, v⟩ := e
    by_cases h : k = key
    · simp [put, find?, h]
    · simp [put, find?, h, ih]

theorem find?_put_of_ne {key other : String} (h : other ≠ key) (value : α)
    (es : List (String × α)) : find? other (put key value es) = find? other es := by
  induction es with
  | nil => simp [put, find?, h.symm]
  | cons e rest ih =>
    obtain ⟨k, v⟩ := e
    by_cases hk : k = key
    · subst hk; simp [put, find?, h.symm]
    · simp [put, find?, hk, ih]

theorem find?_filter_ne (key other : String) (es : List (String × α)) :
    find? other (es.filter (·.1 ≠ key)) = if other = key then none else find? other es := by
  induction es with
  | nil => simp [find?]
  | cons e rest ih =>
    obtain ⟨k, v⟩ := e
    by_cases hk : k = key
    · subst hk
      by_cases ho : other = k
      · simpa [ho] using ih
      · simpa [find?, ho, Ne.symm ho] using ih
    · by_cases ho : k = other
      · subst ho
        simp [find?, hk]
      · simpa [find?, hk, ho] using ih

theorem find?_map_values (f : α → α) (key : String) (es : List (String × α)) :
    find? key (es.map fun e => (e.1, f e.2)) = (find? key es).map f := by
  induction es with
  | nil => rfl
  | cons e rest ih =>
    obtain ⟨k, v⟩ := e
    by_cases hk : k = key <;> simp [find?, hk, ih]

theorem mem_of_find? {key : String} {value : α} {es : List (String × α)}
    (h : find? key es = some value) : (key, value) ∈ es := by
  induction es with
  | nil => simp [find?] at h
  | cons e rest ih =>
    obtain ⟨k, v⟩ := e
    by_cases hk : k = key
    · simp only [find?, hk, if_true, Option.some.injEq] at h
      simp [hk, h]
    · simp only [find?, hk, if_false] at h
      exact List.mem_cons_of_mem _ (ih h)

theorem put_of_not_mem {key : String} {es : List (String × α)} (h : key ∉ es.map Prod.fst)
    (value : α) : put key value es = es ++ [(key, value)] := by
  induction es with
  | nil => rfl
  | cons e rest ih =>
    obtain ⟨k, v⟩ := e
    have hk : k ≠ key := fun heq => h (by rw [heq]; exact List.mem_cons_self)
    have hrest : key ∉ rest.map Prod.fst := fun hmem => h (List.mem_cons_of_mem _ hmem)
    rw [put, if_neg hk, ih hrest]
    rfl

/-! ### Maps -/

/-- The map without names. -/
def empty : OrderedMap α := ⟨[], by simp⟩

instance : Inhabited (OrderedMap α) := ⟨empty⟩

/-- The names, in order. -/
def keys (m : OrderedMap α) : List String := m.entries.map Prod.fst

/-- The values, in the order of their names. -/
def values (m : OrderedMap α) : List α := m.entries.map Prod.snd

/-- The number of names. -/
def size (m : OrderedMap α) : Nat := m.entries.length

/-- The map has no names. -/
def isEmpty (m : OrderedMap α) : Bool := m.entries.isEmpty

/-- The value of a name. -/
def get? (m : OrderedMap α) (key : String) : Option α := find? key m.entries

/-- The name has a value. -/
def contains (m : OrderedMap α) (key : String) : Bool := (m.get? key).isSome

/-- The map with a value for a name: in its old place, or at the end. -/
def insert (m : OrderedMap α) (key : String) (value : α) : OrderedMap α :=
  ⟨put key value m.entries, nodup_put m.nodup⟩

/-- The map without a name. -/
def erase (m : OrderedMap α) (key : String) : OrderedMap α :=
  ⟨m.entries.filter (·.1 ≠ key), List.Nodup.sublist (List.filter_sublist.map Prod.fst) m.nodup⟩

/-- The map with the entries of another inserted in their order. -/
def insertAll (m other : OrderedMap α) : OrderedMap α :=
  other.entries.foldl (fun m e => m.insert e.1 e.2) m

/-- The map of some entries: of two with one name the later has the value and the earlier the
place. -/
def ofList (es : List (String × α)) : OrderedMap α :=
  es.foldl (fun m e => m.insert e.1 e.2) empty

/-- The map with each value changed. -/
def mapValues (m : OrderedMap α) (f : α → α) : OrderedMap α :=
  ⟨m.entries.map fun e => (e.1, f e.2), by
    have h : (m.entries.map fun e => (e.1, f e.2)).map Prod.fst = m.entries.map Prod.fst := by
      simp [Function.comp_def]
    rw [h]
    exact m.nodup⟩

/-- The last entry. -/
def last? (m : OrderedMap α) : Option (String × α) := m.entries.getLast?

/-- Both maps have the same names, and the same values for them as `eqv` sees it. -/
def same (eqv : α → α → Bool) (a b : OrderedMap α) : Bool :=
  a.size = b.size && a.entries.all fun e => (b.get? e.1).any (eqv e.2)

instance [BEq α] : BEq (OrderedMap α) := ⟨same (· == ·)⟩

@[simp] theorem get?_empty (key : String) : (empty : OrderedMap α).get? key = none := rfl

@[simp] theorem get?_insert_self (m : OrderedMap α) (key : String) (value : α) :
    (m.insert key value).get? key = some value := find?_put_self key value m.entries

theorem get?_insert_of_ne {key other : String} (h : other ≠ key) (m : OrderedMap α) (value : α) :
    (m.insert key value).get? other = m.get? other := find?_put_of_ne h value m.entries

theorem get?_insert (m : OrderedMap α) (key other : String) (value : α) :
    (m.insert key value).get? other = if other = key then some value else m.get? other := by
  split
  · rename_i h
    rw [h, get?_insert_self]
  · rename_i h
    exact get?_insert_of_ne h m value

theorem get?_erase (m : OrderedMap α) (key other : String) :
    (m.erase key).get? other = if other = key then none else m.get? other :=
  find?_filter_ne key other m.entries

theorem get?_mapValues (m : OrderedMap α) (f : α → α) (key : String) :
    (m.mapValues f).get? key = (m.get? key).map f := find?_map_values f key m.entries

theorem keys_insert (m : OrderedMap α) (key : String) (value : α) :
    (m.insert key value).keys = if key ∈ m.keys then m.keys else m.keys ++ [key] :=
  keys_put key value m.entries

theorem mem_entries_of_get? {m : OrderedMap α} {key : String} {value : α}
    (h : m.get? key = some value) : (key, value) ∈ m.entries := mem_of_find? h

theorem mem_keys_of_get? {m : OrderedMap α} {key : String} {value : α}
    (h : m.get? key = some value) : key ∈ m.keys := List.mem_map_of_mem (mem_of_find? h)

theorem mem_values_of_get? {m : OrderedMap α} {key : String} {value : α}
    (h : m.get? key = some value) : value ∈ m.values := List.mem_map_of_mem (mem_of_find? h)

theorem entries_insertAll {es : List (String × α)} {m : OrderedMap α}
    (h : ((m.entries ++ es).map Prod.fst).Nodup) :
    (es.foldl (fun m e => m.insert e.1 e.2) m).entries = m.entries ++ es := by
  induction es generalizing m with
  | nil => exact (List.append_nil _).symm
  | cons e rest ih =>
    have hnew : e.1 ∉ m.entries.map Prod.fst := by
      intro hmem
      rw [List.map_append, List.nodup_append] at h
      exact h.2.2 e.1 hmem e.1 List.mem_cons_self rfl
    have hinsert : (m.insert e.1 e.2).entries = m.entries ++ [e] := put_of_not_mem hnew e.2
    have happend : (m.insert e.1 e.2).entries ++ rest = m.entries ++ e :: rest := by
      rw [hinsert, List.append_assoc]
      rfl
    rw [List.foldl_cons, ih (by rw [happend]; exact h), happend]

/-- A map is made of its entries, in their order. -/
theorem ofList_entries (m : OrderedMap α) : ofList m.entries = m := by
  have hentries : (ofList m.entries).entries = m.entries :=
    entries_insertAll (m := empty) (by rw [empty, List.nil_append]; exact m.nodup)
  cases m
  cases hm : ofList _ with
  | mk entries nodup =>
    rw [hm] at hentries
    cases hentries
    rfl

end OrderedMap

end CInterface
