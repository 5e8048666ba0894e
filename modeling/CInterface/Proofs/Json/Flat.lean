import CInterface.Proofs.CType.Flattening
/-!
# Reading types into two lists

The lists of a type are read of a document separately, and before they make a type it is checked that
they fit. This is done for the types of parameters as well, at any depth.

* `FlatType.ofJson?` — the type in two lists that a document is.
* `FlatType.leveled_ofJson?` — the lists of what is read fit, at any depth.
* `FlatType.ofJson?_eq` — it is the type that the document is.
-/

namespace CInterface

open Json (record? text? texts? variant? optional? option?)

/-! ### Reading -/

mutual

/-- The type that a document is, in two lists that have to fit. -/
def FlatType.ofJson? : Nat → Json → Option FlatType
  | depth + 2, j => do
    let [some base, some (.array layers), some quals] ←
      record? ["base", "declarators", "qualifiers"] j | none
    let base ← text? base
    let layers ← layers.mapM (FlatLayer.ofJson? depth)
    let quals ← Json.list? texts? (depth + 1) quals
    FlatType.ofParts? base layers quals
  | _, _ => none

/-- The layer that a document is. One without content may be its name alone. -/
def FlatLayer.ofJson? : Nat → Json → Option FlatLayer
  | _, .string inside => do
    match ← (Json.string inside).text? with
    | "Pointer" => some .pointer
    | "Reference" => some .reference
    | _ => none
  | depth + 1, j => do
    match ← variant? j with
    | ("Pointer", .null) => some .pointer
    | ("Reference", .null) => some .reference
    | ("Array", size) => .array <$> option? Json.uint64? size
    | ("Function", content) => do
      let (params, variadic) ← FlatParam.signatureOfJson? depth content
      return .function params variadic
    | _ => none
  | _, _ => none

/-- The parameter list that a document is. -/
def FlatParam.signatureOfJson? : Nat → Json → Option (List FlatParam × Bool)
  | depth + 2, j => do
    let [some (.array params), some variadic] ← record? ["params", "variadic"] j | none
    return (← params.mapM (FlatParam.ofJson? depth), ← variadic.bool?)
  | _, _ => none

/-- The parameter that a document is. -/
def FlatParam.ofJson? : Nat → Json → Option FlatParam
  | depth + 1, j => do
    let [name, some type, default] ← record? ["name", "ty", "default"] j | none
    return ⟨← optional? text? name, ← FlatType.ofJson? depth type,
      ← optional? (Value.ofJson? depth) default⟩
  | _, _ => none

end

/-- A parameter with its type in two lists. -/
def Param.flat (p : Param) : FlatParam := ⟨p.name, p.type.flat, p.default⟩

theorem mapM_map_eq {α β γ : Type} {f : α → Option γ} {g : α → Option β} {h : β → γ}
    (hfg : ∀ x, f x = (g x).map h) (xs : List α) : xs.mapM f = (xs.mapM g).map (List.map h) := by
  induction xs with
  | nil => rfl
  | cons x xs ih =>
    simp only [List.mapM_cons, hfg, ih]
    cases g x with
    | none => rfl
    | some y => cases xs.mapM g <;> rfl

/-- The types that are read with fewer than `depth` levels left are the same in two lists. -/
def FlatType.ReadBelow (depth : Nat) : Prop :=
  ∀ n < depth, ∀ j : Json, ofJson? n j = (CType.ofJson? n j).map CType.flat

variable {depth : Nat}

theorem FlatParam.ofJson?_eq (ih : FlatType.ReadBelow depth) (j : Json) :
    ofJson? depth j = (Param.ofJson? depth j).map Param.flat := by
  cases depth with
  | zero => rfl
  | succ depth =>
    rw [ofJson?, Param.ofJson?]
    cases record? ["name", "ty", "default"] j with
    | none => rfl
    | some fields =>
      simp only [Option.bind_eq_bind, Option.bind_some]
      split
      · simp only [ih depth (Nat.lt_succ_self depth), Option.map_bind, Option.bind_map,
          Function.comp_def]
        rfl
      · grind

theorem FlatParam.signatureOfJson?_eq (ih : FlatType.ReadBelow depth) (j : Json) :
    signatureOfJson? depth j =
      (Param.signatureOfJson? depth j).map fun s => (Param.flatAll s.1, s.2) := by
  match depth with
  | 0 | 1 => rfl
  | depth + 2 =>
    have hparam : ∀ j : Json, ofJson? depth j = (Param.ofJson? depth j).map Param.flat :=
      ofJson?_eq fun n hn => ih n (by omega)
    rw [signatureOfJson?, Param.signatureOfJson?]
    cases record? ["params", "variadic"] j with
    | none => rfl
    | some fields =>
      simp only [Option.bind_eq_bind, Option.bind_some]
      split
      · simp only [mapM_map_eq hparam, Option.map_bind, Option.bind_map, Param.flatAll_eq,
          Function.comp_def]
        rfl
      · grind

theorem FlatLayer.ofJson?_string (depth : Nat) (inside : List Char) :
    ofJson? depth (.string inside) = (Layer.ofJson? depth (.string inside)).map Layer.flat := by
  unfold ofJson? Layer.ofJson?
  cases (Json.string inside).text? with
  | none => rfl
  | some name =>
    simp only [Option.bind_eq_bind, Option.bind_some]
    split
    · rfl
    · rfl
    · grind

theorem FlatLayer.ofJson?_eq (ih : FlatType.ReadBelow depth) (j : Json) :
    ofJson? depth j = (Layer.ofJson? depth j).map Layer.flat := by
  by_cases hstring : ∃ inside, j = .string inside
  · obtain ⟨inside, rfl⟩ := hstring
    exact ofJson?_string depth inside
  have hstring : ∀ inside, j ≠ .string inside := fun inside heq => hstring ⟨inside, heq⟩
  cases depth with
  | zero =>
    unfold ofJson? Layer.ofJson?
    cases j with
    | string inside => exact absurd rfl (hstring inside)
    | _ => rfl
  | succ depth =>
    have hsignature : ∀ j : Json, FlatParam.signatureOfJson? depth j =
        (Param.signatureOfJson? depth j).map fun s => (Param.flatAll s.1, s.2) :=
      FlatParam.signatureOfJson?_eq fun n hn => ih n (by omega)
    rw [ofJson?.eq_2 _ _ hstring, Layer.ofJson?.eq_2 _ _ hstring]
    cases j.variant? with
    | none => rfl
    | some variant =>
      simp only [Option.bind_eq_bind, Option.bind_some]
      split
      · rfl
      · rfl
      · rename_i size
        show array <$> option? Json.uint64? size =
          (Layer.array <$> option? Json.uint64? size).map Layer.flat
        cases option? Json.uint64? size <;> rfl
      · rename_i content
        simp only [hsignature, Option.bind_map]
        cases Param.signatureOfJson? depth content <;> rfl
      · grind

/-- Lists of layers and of qualifiers that fit are put together to a type with them. -/
theorem FlatType.ofParts?_map_flat (base : String) (layers : List Layer)
    (quals : List Qualifiers) :
    ofParts? base (layers.map Layer.flat) quals =
      Option.map CType.flat (match quals with
        | q :: quals =>
          if layers.length = quals.length then some ((CType.base base q).withLayers layers quals)
          else none
        | _ => none) := by
  rw [ofParts?, List.length_map]
  cases quals with
  | nil => rfl
  | cons q quals =>
    dsimp only
    by_cases h : layers.length = quals.length
    · have hlength : (q :: quals).length = layers.length + 1 := congrArg Nat.succ h.symm
      rw [if_pos hlength, if_pos h, Option.map_some, CType.flat_withLayers h]
    · have hlength : (q :: quals).length ≠ layers.length + 1 := fun heq => h (Nat.succ.inj heq).symm
      rw [if_neg hlength, if_neg h]
      rfl

/-- **A type that is read in two lists is the type that is read.** -/
theorem FlatType.ofJson?_eq (depth : Nat) (j : Json) :
    ofJson? depth j = (CType.ofJson? depth j).map CType.flat := by
  induction depth using Nat.strongRecOn generalizing j with
  | ind depth ih =>
    match depth with
    | 0 | 1 => rfl
    | depth + 2 =>
      have hlayer : ∀ j : Json,
          FlatLayer.ofJson? depth j = (Layer.ofJson? depth j).map Layer.flat :=
        FlatLayer.ofJson?_eq fun n hn => ih n (by omega)
      rw [ofJson?, CType.ofJson?]
      cases record? ["base", "declarators", "qualifiers"] j with
      | none => rfl
      | some fields =>
        simp only [Option.bind_eq_bind, Option.bind_some]
        split
        · simp only [mapM_map_eq hlayer, Option.map_bind, Option.bind_map, Function.comp_def,
            ofParts?_map_flat]
          rfl
        · grind

/-- The lists of a type that is read fit, at any depth. -/
theorem FlatType.leveled_ofJson? {depth : Nat} {j : Json} {f : FlatType}
    (h : ofJson? depth j = some f) : f.Leveled := by
  rw [ofJson?_eq] at h
  obtain ⟨t, _, rfl⟩ := Option.map_eq_some_iff.1 h
  exact t.leveled_flat

end CInterface
