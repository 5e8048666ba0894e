import CInterface.Proofs.Json.Contents
/-!
# What is equal to itself

Definitions are compared as data, but for the floats in them, which are compared as numbers: one
that is no number differs from itself, and so does everything that holds it.

* `Value.same_self`, `CType.same_self` — values and types are equal to themselves, if the floats in
  them are.
* `Definition.same_self` — so are definitions.
-/

namespace CInterface

/-! ### Maps and values that may be missing -/

namespace OrderedMap

variable {α : Type}

theorem find?_of_mem {key : String} {value : α} {es : List (String × α)}
    (hnodup : (es.map Prod.fst).Nodup) (h : (key, value) ∈ es) : find? key es = some value := by
  induction es with
  | nil => cases h
  | cons e rest ih =>
    obtain ⟨k, v⟩ := e
    obtain ⟨hnew, hrest⟩ := List.nodup_cons.1 hnodup
    rw [find?]
    cases List.mem_cons.1 h with
    | inl heq =>
      cases heq
      rw [if_pos rfl]
    | inr hmem =>
      have hne : k ≠ key := by
        intro heq
        apply hnew
        show k ∈ rest.map Prod.fst
        rw [heq]
        exact List.mem_map_of_mem hmem
      rw [if_neg hne]
      exact ih hrest hmem

/-- A map is equal to itself, if its values are. -/
theorem same_self {eqv : α → α → Bool} {m : OrderedMap α} (h : ∀ x ∈ m.values, eqv x x = true) :
    same eqv m m = true := by
  rw [same, decide_eq_true rfl, Bool.true_and, List.all_eq_true]
  intro e he
  have hget : m.get? e.1 = some e.2 := find?_of_mem m.nodup he
  rw [hget]
  exact h e.2 (List.mem_map_of_mem he)

end OrderedMap

theorem beq_self_option {α : Type} [BEq α] {o : Option α} (h : ∀ x ∈ o, (x == x) = true) :
    (o == o) = true := by
  cases o with
  | none => rfl
  | some x => exact h x rfl

theorem beq_self_list {α : Type} [BEq α] {xs : List α} (h : ∀ x ∈ xs, (x == x) = true) :
    (xs == xs) = true := by
  induction xs with
  | nil => rfl
  | cons x xs ih =>
    show (x == x && xs == xs) = true
    rw [h x List.mem_cons_self, ih fun y hy => h y (List.mem_cons_of_mem _ hy)]
    rfl

/-! ### Values and types -/

namespace Value

mutual

theorem same_self : ∀ v : Value, (∀ x ∈ v.floats, (x == x) = true) → same v v = true
  | int n, _ => by
    show (n == n) = true
    exact BEq.rfl
  | float x, h => h x List.mem_cons_self
  | str s, _ => by
    show (s == s) = true
    exact BEq.rfl
  | list items, h => by
    rw [same]
    exact sameAll_self items h

theorem sameAll_self : ∀ vs : List Value, (∀ x ∈ floatsAll vs, (x == x) = true) →
    sameAll vs vs = true
  | [], _ => rfl
  | v :: vs, h => by
    have hv := same_self v fun x hx => h x (List.mem_append_left _ hx)
    have hvs := sameAll_self vs fun x hx => h x (List.mem_append_right _ hx)
    rw [sameAll, hv, hvs]
    rfl

end

theorem option_beq_self {v : Option Value} (h : ∀ x ∈ optionFloats v, (x == x) = true) :
    (v == v) = true := by
  apply beq_self_option
  intro w hw
  apply same_self w
  intro x hx
  apply h x
  rw [optionFloats, Option.mem_def.1 hw]
  exact List.mem_flatMap.2 ⟨w, List.mem_singleton_self w, hx⟩

end Value

namespace CType

mutual

theorem same_self : ∀ t : CType, (∀ x ∈ t.floats, (x == x) = true) → same t t = true
  | .base n q, _ => by
    rw [same, BEq.rfl, BEq.rfl]
    rfl
  | .pointer t q, h => by
    rw [same, same_self t h, BEq.rfl]
    rfl
  | .reference t q, h => by
    rw [same, same_self t h, BEq.rfl]
    rfl
  | .array t n q, h => by
    rw [same, same_self t h, BEq.rfl, BEq.rfl]
    rfl
  | .function ret params v q, h => by
    have hret := same_self ret fun x hx => h x (List.mem_append_left _ hx)
    have hparams := sameParams_self params fun x hx => h x (List.mem_append_right _ hx)
    rw [same, hret, hparams, BEq.rfl, BEq.rfl]
    rfl

theorem sameParams_self : ∀ params : List Param, (∀ x ∈ paramFloats params, (x == x) = true) →
    sameParams params params = true
  | [], _ => rfl
  | ⟨name, type, default⟩ :: params, h => by
    have htype := same_self type fun x hx =>
      h x (List.mem_append_left _ (List.mem_append_left _ hx))
    have hdefault := Value.option_beq_self fun x hx =>
      h x (List.mem_append_left _ (List.mem_append_right _ hx))
    have hparams := sameParams_self params fun x hx => h x (List.mem_append_right _ hx)
    rw [sameParams, BEq.rfl, htype, hdefault, hparams]
    rfl

end

/-- Parameter lists are compared one parameter after the other. -/
theorem beq_params_self {params : List Param} (h : ∀ x ∈ paramFloats params, (x == x) = true) :
    (params == params) = true := by
  induction params with
  | nil => rfl
  | cons p params ih =>
    obtain ⟨name, type, default⟩ := p
    have hparam : (∀ x ∈ paramFloats [⟨name, type, default⟩], (x == x) = true) := by
      intro x hx
      apply h x
      rw [paramFloats, paramFloats, List.append_nil] at hx
      exact List.mem_append_left _ hx
    have hp := sameParams_self [⟨name, type, default⟩] hparam
    show (sameParams [⟨name, type, default⟩] [⟨name, type, default⟩] && params == params) = true
    rw [hp, ih fun x hx => h x (List.mem_append_right _ hx)]
    rfl

end CType

/-! ### Definitions -/

theorem Compound.beq_self {c : Compound} (h : ∀ x ∈ c.floats, (x == x) = true) :
    (c == c) = true := by
  have hfields : (c.fields == c.fields) = true := by
    apply beq_self_list
    intro f hf
    have hfloats : ∀ x ∈ f.floats, (x == x) = true := fun x hx =>
      h x (List.mem_flatMap.2 ⟨f, hf, hx⟩)
    have htype : (f.type == f.type) = true :=
      CType.same_self f.type fun x hx => hfloats x (List.mem_append_left _ hx)
    have hdefault := Value.option_beq_self fun x hx => hfloats x (List.mem_append_right _ hx)
    show (f.name == f.name && f.type == f.type && f.default == f.default && f.bits == f.bits) = true
    rw [BEq.rfl, htype, hdefault, BEq.rfl]
    rfl
  show (c.fields == c.fields && c.pack == c.pack) = true
  rw [hfields, BEq.rfl]
  rfl

/-- **A definition is equal to itself**, if the floats in it are. -/
theorem Definition.same_self {x : Definition} (h : ∀ y ∈ x.floats, (y == y) = true) :
    (x == x) = true := by
  obtain ⟨c, content⟩ := x
  show Definition.same ⟨c, content⟩ ⟨c, content⟩ = true
  rw [same, dif_pos rfl]
  show c.same content content = true
  cases c with
  | macros | fnmacros => exact beq_self_eq_true content
  | types => exact CType.same_self content h
  | vars =>
    have hvalue := Value.option_beq_self fun x hx => h x (List.mem_append_left _ hx)
    have htype : (content.type == content.type) = true :=
      CType.same_self content.type fun x hx => h x (List.mem_append_right _ hx)
    show (content.value == content.value && content.type == content.type &&
      content.storage == content.storage) = true
    rw [hvalue, htype, BEq.rfl]
    rfl
  | functions =>
    have hret : (content.ret == content.ret) = true :=
      CType.same_self content.ret fun x hx => h x (List.mem_append_left _ hx)
    have hparams := CType.beq_params_self fun x hx => h x (List.mem_append_right _ hx)
    show (content.ret == content.ret && content.params == content.params &&
      content.variadic == content.variadic && content.quals == content.quals &&
      content.storage == content.storage) = true
    rw [hret, hparams, BEq.rfl, BEq.rfl, BEq.rfl]
    rfl
  | structs | unions => exact Compound.beq_self h
  | enums => exact OrderedMap.same_self fun n _ => beq_self_eq_true n
  | values => exact Value.same_self content h

end CInterface
