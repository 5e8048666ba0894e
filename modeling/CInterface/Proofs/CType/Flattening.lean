import CInterface.Definition
import CInterface.Proofs.CType.Flat
import CInterface.Proofs.CType.Levels
import CInterface.Proofs.CType.Resolution
import CInterface.Proofs.Grammar.DeclaratorTrees
/-!
# Types and their lists

Every type has its lists of layers and of levels, and lists of which the second is longer by one, at
any depth, are those of a type. What the operations do to the lists of types is what they do to the
types, and none of them ever reads or writes outside a list.

* `CType.flat`, `FlatType.tree` — the lists of a type, and the type of some lists.
* `CType.tree_flat`, `FlatType.flat_tree_iff` — how they are inverse to one another.
* `Declarator.reduceFlat?` — what a declarator makes of a type in two lists.
* `CType.simulated` — the operations on lists against those on types.
-/

namespace CInterface

/-! ### From types to lists -/

mutual

/-- The layers of a type, from the base outward, with the types of parameters in two lists. -/
def CType.flatLayers : CType → List FlatLayer
  | .base _ _ => []
  | .pointer t _ => CType.flatLayers t ++ [.pointer]
  | .reference t _ => CType.flatLayers t ++ [.reference]
  | .array t n _ => CType.flatLayers t ++ [.array n]
  | .function t params variadic _ =>
    CType.flatLayers t ++ [.function (Param.flatAll params) variadic]

/-- Parameters with their types in two lists. -/
def Param.flatAll : List Param → List FlatParam
  | [] => []
  | ⟨name, type, default⟩ :: params =>
    ⟨name, ⟨type.baseName, CType.flatLayers type, type.levels⟩, default⟩ :: Param.flatAll params

end

/-- A type in two lists. -/
def CType.flat (t : CType) : FlatType := ⟨t.baseName, t.flatLayers, t.levels⟩

/-- A layer with the types of its parameters in two lists. -/
def Layer.flat : Layer → FlatLayer
  | pointer => .pointer
  | reference => .reference
  | array size => .array size
  | function params variadic => .function (Param.flatAll params) variadic

/-- A function with its types in two lists. -/
def FunctionDecl.flat (f : FunctionDecl) : FlatFunction :=
  ⟨f.ret.flat, Param.flatAll f.params, f.variadic, f.quals⟩

theorem Param.flatAll_eq (params : List Param) :
    flatAll params = params.map fun p => ⟨p.name, p.type.flat, p.default⟩ := by
  induction params with
  | nil => rfl
  | cons p params ih =>
    obtain ⟨name, type, default⟩ := p
    rw [flatAll, ih]
    rfl

namespace CType

theorem flatLayers_eq (t : CType) : t.flatLayers = t.layers.map Layer.flat := by
  induction t using layers.induct with
  | case1 => rfl
  | case2 t q ih | case3 t q ih | case4 t n q ih | case5 t params variadic q ih =>
    rw [flatLayers, layers, List.map_append, ih]
    rfl

theorem length_flatLayers (t : CType) : t.flatLayers.length = t.layers.length := by
  rw [flatLayers_eq, List.length_map]

/-- A layer around a type is the last of its lists. -/
theorem flat_withLayer (t : CType) (l : Layer) (q : Qualifiers) :
    (t.withLayer l q).flat = ⟨t.baseName, t.flatLayers ++ [l.flat], t.levels ++ [q]⟩ := by
  cases l <;> rfl

mutual

/-- The types of the parameters in a type fit their lists. -/
theorem leveled_flatLayers : ∀ t : CType, ∀ l ∈ t.flatLayers, ∀ p ∈ l.params, p.type.Leveled
  | .base _ _ => fun l hl => absurd hl List.not_mem_nil
  | .pointer t _ | .reference t _ | .array t _ _ => by
    intro l hl p hp
    rcases List.mem_append.1 hl with hl | hl
    · exact leveled_flatLayers t l hl p hp
    · rw [List.mem_singleton.1 hl] at hp
      exact absurd hp List.not_mem_nil
  | .function t params _ _ => by
    intro l hl p hp
    rcases List.mem_append.1 hl with hl | hl
    · exact leveled_flatLayers t l hl p hp
    · rw [List.mem_singleton.1 hl] at hp
      exact leveled_flatAll params p hp

/-- The types of some parameters fit their lists. -/
theorem leveled_flatAll : ∀ params : List Param, ∀ p ∈ Param.flatAll params, p.type.Leveled
  | [] => fun p hp => absurd hp List.not_mem_nil
  | ⟨name, type, default⟩ :: params => by
    refine List.forall_mem_cons.2 ⟨.mk ?_ (leveled_flatLayers type), leveled_flatAll params⟩
    show type.levels.length = type.flatLayers.length + 1
    rw [length_levels, length_flatLayers]

end

/-- **The lists of a type fit**, at any depth. -/
theorem leveled_flat (t : CType) : t.flat.Leveled := by
  refine .mk ?_ (leveled_flatLayers t)
  show t.levels.length = t.flatLayers.length + 1
  rw [length_levels, length_flatLayers]

end CType

/-! ### From lists to types -/

mutual

/-- The type of some lists. -/
def FlatType.tree : FlatType → CType
  | ⟨base, layers, quals⟩ =>
    (CType.base base (quals.headD [])).withLayers (FlatLayer.treeAll layers) quals.tail

/-- Layers with their parameters as types. -/
def FlatLayer.treeAll : List FlatLayer → List Layer
  | [] => []
  | .pointer :: layers => .pointer :: FlatLayer.treeAll layers
  | .reference :: layers => .reference :: FlatLayer.treeAll layers
  | .array size :: layers => .array size :: FlatLayer.treeAll layers
  | .function params variadic :: layers =>
    .function (FlatParam.treeAll params) variadic :: FlatLayer.treeAll layers

/-- Parameters with their types. -/
def FlatParam.treeAll : List FlatParam → List Param
  | [] => []
  | ⟨name, type, default⟩ :: params =>
    ⟨name, FlatType.tree type, default⟩ :: FlatParam.treeAll params

end

theorem FlatLayer.treeAll_append (a b : List FlatLayer) :
    treeAll (a ++ b) = treeAll a ++ treeAll b := by
  induction a with
  | nil => rfl
  | cons l a ih => cases l <;> simp only [List.cons_append, treeAll, ih]

namespace CType

mutual

theorem treeAll_flatLayers : ∀ t : CType, FlatLayer.treeAll t.flatLayers = t.layers
  | .base _ _ => rfl
  | .pointer t _ | .reference t _ | .array t _ _ => by
    rw [flatLayers, FlatLayer.treeAll_append, treeAll_flatLayers t]
    rfl
  | .function t params _ _ => by
    rw [flatLayers, FlatLayer.treeAll_append, treeAll_flatLayers t, FlatLayer.treeAll,
      treeAll_flatAll params]
    rfl

theorem treeAll_flatAll : ∀ params : List Param, FlatParam.treeAll (Param.flatAll params) = params
  | [] => rfl
  | ⟨name, type, default⟩ :: params => by
    rw [Param.flatAll, FlatParam.treeAll, treeAll_flatAll params, FlatType.tree,
      treeAll_flatLayers type]
    exact congrArg (⟨name, ·, default⟩ :: params) type.withLayers_layers

end

/-- **A type is that of its lists.** -/
theorem tree_flat (t : CType) : t.flat.tree = t := by
  rw [flat, FlatType.tree, treeAll_flatLayers]
  exact t.withLayers_layers

end CType

theorem FlatLayer.length_treeAll (layers : List FlatLayer) :
    (treeAll layers).length = layers.length := by
  induction layers with
  | nil => rfl
  | cons l layers ih => cases l <;> simp only [treeAll, List.length_cons, ih]

theorem FlatParam.flatAll_treeAll {params : List FlatParam}
    (h : ∀ p ∈ params, p.type.tree.flat = p.type) : Param.flatAll (treeAll params) = params := by
  induction params with
  | nil => rfl
  | cons p params ih =>
    obtain ⟨name, type, default⟩ := p
    obtain ⟨htype, hrest⟩ := List.forall_mem_cons.1 h
    rw [treeAll, Param.flatAll, ih hrest]
    exact congrArg (⟨name, ·, default⟩ :: params) htype

theorem FlatLayer.map_flat_treeAll {layers : List FlatLayer}
    (h : ∀ l ∈ layers, ∀ p ∈ l.params, p.type.tree.flat = p.type) :
    (treeAll layers).map Layer.flat = layers := by
  induction layers with
  | nil => rfl
  | cons l layers ih =>
    obtain ⟨hl, hrest⟩ := List.forall_mem_cons.1 h
    cases l with
    | pointer | reference | array size =>
      rw [treeAll, List.map_cons, ih hrest]
      rfl
    | function params variadic =>
      have hparams : Param.flatAll (FlatParam.treeAll params) = params :=
        FlatParam.flatAll_treeAll hl
      rw [treeAll, List.map_cons, ih hrest, Layer.flat, hparams]

/-- A type that is put together of lists has them. -/
theorem CType.flat_withLayers {layers : List Layer} {quals : List Qualifiers}
    (h : layers.length = quals.length) (base : String) (q : Qualifiers) :
    ((CType.base base q).withLayers layers quals).flat =
      ⟨base, layers.map Layer.flat, q :: quals⟩ := by
  obtain ⟨hlayers, hlevels, _⟩ := withLayers_parts h (CType.base base q)
  rw [flat, baseName_withLayers, flatLayers_eq, hlayers, hlevels]
  rfl

/-- **Lists are those of a type just where they fit**, at any depth. -/
theorem FlatType.flat_tree_iff {f : FlatType} : f.tree.flat = f ↔ f.Leveled := by
  constructor
  · intro h
    rw [← h]
    exact f.tree.leveled_flat
  · intro h
    induction h with
    | @mk f own _ ih =>
      obtain ⟨base, layers, quals⟩ := f
      cases quals with
      | nil => cases own
      | cons q quals =>
        have hlength : (FlatLayer.treeAll layers).length = quals.length :=
          (FlatLayer.length_treeAll layers).trans (Nat.succ.inj own).symm
        refine (CType.flat_withLayers hlength base q).trans ?_
        rw [FlatLayer.map_flat_treeAll ih]

/-! ### Operations -/

/-- A parameter list at the end of lists that fit without it is taken off. -/
theorem FlatType.signature?_concat {base : String} {layers : List FlatLayer}
    {quals : List Qualifiers} (h : quals.length = layers.length + 1) (params : List FlatParam)
    (variadic : Bool) (q : Qualifiers) :
    signature? ⟨base, layers ++ [.function params variadic], quals ++ [q]⟩ =
      some (.ok (⟨base, layers, quals⟩, params, variadic)) := by
  have hlength : (layers ++ [FlatLayer.function params variadic]).length - 1 = layers.length := by
    rw [List.length_append, List.length_singleton, Nat.add_sub_cancel]
  have htake : (quals ++ [q]).take (layers.length + 1) = quals := by rw [← h, List.take_left]
  have hlt : layers.length < (quals ++ [q]).length := by rw [List.length_append]; omega
  have hparts : ofParts? base layers quals = some ⟨base, layers, quals⟩ := if_pos h
  simp only [signature?, List.getLast?_concat, hlength, List.take_left, htake, if_pos hlt, hparts]
  rfl

namespace CType

theorem flatLayers_addOuter (t : CType) (more : Qualifiers) :
    (t.addOuter more).flatLayers = t.flatLayers := by
  cases t <;> rfl

theorem baseName_addOuter (t : CType) (more : Qualifiers) :
    (t.addOuter more).baseName = t.baseName := by
  cases t <;> rfl

theorem flatLayers_withBase (name : String) (t : CType) :
    (t.withBase name).flatLayers = t.flatLayers := by
  induction t using withBase.induct with
  | case1 => rfl
  | case2 t q ih | case3 t q ih | case4 t n q ih | case5 t ps v q ih =>
    rw [withBase, flatLayers, flatLayers, ih]

theorem flatLayers_splice (onto t : CType) :
    (splice onto t).flatLayers = onto.flatLayers ++ t.flatLayers := by
  induction t using splice.induct with
  | case1 n q => rw [splice, flatLayers_addOuter, flatLayers, List.append_nil]
  | case2 t q ih | case3 t q ih | case4 t n q ih | case5 t ps v q ih =>
    rw [splice, flatLayers, flatLayers, ih, List.append_assoc]

theorem push_flat (t : CType) (l : Layer) : t.flat.push l.flat = (t.withLayer l []).flat :=
  (t.flat_withLayer l []).symm

theorem addOuter?_flat (t : CType) (more : Qualifiers) :
    t.flat.addOuter? more = some (t.addOuter more).flat := by
  rw [flat, flat, baseName_addOuter, flatLayers_addOuter, levels_addOuter]
  exact if_neg (Nat.succ_ne_zero _)

theorem withBase_flat (t : CType) (name : String) :
    t.flat.withBase name = (t.withBase name).flat := by
  show FlatType.mk name t.flatLayers t.levels = _
  rw [flat, flatLayers_withBase, levels_withBase, baseName_withBase]

theorem stripSigned_flat (t : CType) : t.flat.stripSigned = t.stripSigned.flat := by
  have hbase : t.flat.base = t.baseName := rfl
  rw [stripSigned, FlatType.stripSigned, hbase]
  dsimp only
  split
  · exact t.withBase_flat _
  · rfl

theorem ofParts?_flat (t : CType) :
    FlatType.ofParts? t.baseName t.flatLayers t.levels = some t.flat :=
  if_pos t.leveled_flat.own

theorem splice?_flat (onto t : CType) :
    onto.flat.splice? t.flat = some (splice onto t).flat := by
  rw [← ofParts?_flat, baseName_splice, flatLayers_splice, levels_splice]
  rfl

/-- A signature in two lists. -/
def flatSignature (s : CType × List Param × Bool) : FlatType × List FlatParam × Bool :=
  (s.1.flat, Param.flatAll s.2.1, s.2.2)

/-- What is before a parameter list are the lists of the return type. -/
theorem signature?_flat (t : CType) :
    t.flat.signature? = some ((t.signature?.map flatSignature).mapError fun _ => t.flat) := by
  cases t with
  | base n q => rfl
  | pointer t q | reference t q | array t n q =>
    have hlast : ∀ (l : FlatLayer) (layers : List FlatLayer), (layers ++ [l]).getLast? = some l :=
      fun _ _ => List.getLast?_concat
    unfold FlatType.signature?
    dsimp only [flat, flatLayers]
    rw [hlast]
    rfl
  | function t params variadic q =>
    exact FlatType.signature?_concat t.leveled_flat.own (Param.flatAll params) variadic q

/-- The tables have the same names, and what the one has in two lists is what the other has. -/
def FlatTable (table : OrderedMap FlatType) (typedefs : OrderedMap CType) : Prop :=
  ∀ name, table.get? name = (typedefs.get? name).map flat

/-- **Resolving in two lists is resolving.** -/
theorem resolveFrom?_flat {table : OrderedMap FlatType} {typedefs : OrderedMap CType}
    (htable : FlatTable table typedefs) (vocab : Vocabulary) (chain : List String) (t : CType) :
    FlatType.resolveFrom? table vocab chain t.flat =
      some ((resolveFrom typedefs vocab chain t).map flat) := by
  induction chain, t using resolveFrom.induct typedefs vocab with
  | case1 chain t hf =>
    have hf' : t.flat.isFundamental vocab := hf
    rw [FlatType.resolveFrom?_of_fundamental hf', resolveFrom_of_fundamental hf, stripSigned_flat]
    rfl
  | case2 chain t hf hc =>
    have hf' : ¬t.flat.isFundamental vocab := hf
    have hc' : t.flat.base ∈ chain := hc
    rw [FlatType.resolveFrom?_of_mem hf' hc', resolveFrom_of_mem (Bool.eq_false_iff.2 hf) hc]
    rfl
  | case3 chain t hf hc hget =>
    have hf' : ¬t.flat.isFundamental vocab := hf
    have hc' : t.flat.base ∉ chain := hc
    have hget' : table.get? t.flat.base = none := (htable _).trans (congrArg (Option.map flat) hget)
    rw [FlatType.resolveFrom?_of_get?_none hf' hc' hget',
      resolveFrom_of_get?_none (Bool.eq_false_iff.2 hf) hc hget]
    rfl
  | case4 chain t hf hc definition hget hless ih =>
    have hf' : ¬t.flat.isFundamental vocab := hf
    have hc' : t.flat.base ∉ chain := hc
    have hget' : table.get? t.flat.base = some definition.flat :=
      (htable _).trans (congrArg (Option.map flat) hget)
    rw [FlatType.resolveFrom?_of_get? hf' hc' hget',
      resolveFrom_of_get? (Bool.eq_false_iff.2 hf) hc hget, splice?_flat]
    exact ih

end CType

theorem FunctionDecl.type?_flat (f : FunctionDecl) : f.flat.type? = some f.type.flat := by
  have hpush : f.ret.flat.push (.function (Param.flatAll f.params) f.variadic) =
      (CType.function f.ret f.params f.variadic []).flat :=
    f.ret.push_flat (.function f.params f.variadic)
  rw [FlatFunction.type?]
  show (f.ret.flat.push (.function (Param.flatAll f.params) f.variadic)).addOuter? f.quals = _
  rw [hpush, CType.addOuter?_flat]
  rfl

theorem FunctionDecl.ofType?_flat (t : CType) (storage : List String) :
    FlatFunction.ofType? t.flat =
      some (((ofType? t storage).map FunctionDecl.flat).mapError fun _ => t.flat) := by
  have hlast : t.flat.quals.getLast?.getD [] = t.outer := by
    show t.levels.getLast?.getD [] = t.outer
    rw [t.getLast?_levels, Option.getD_some]
  rw [FlatFunction.ofType?, CType.signature?_flat, hlast]
  cases t <;> rfl

/-! ### Declarators -/

/-- The type in two lists behind a pointer or reference. -/
def Indirection.applyFlat? (f : FlatType) (i : Indirection) : Option FlatType := do
  let f ← f.addOuter? i.before
  return f.push (if i.isReference then .reference else .pointer)

mutual

/-- Applies a declarator to a type in two lists: the name that it declares, if there is one, and its
type. -/
def Declarator.reduceFlat? : Declarator → FlatType → Option (Option String × FlatType)
  | .mk indirections quals core params bounds, base => do
    let f ← indirections.foldlM Indirection.applyFlat? base
    let f ← match params with
      | none => f.addOuter? quals
      | some (params, variadic) =>
        (f.push (.function (Param.flatAll params) variadic)).addOuter? quals
    core.reduceFlat? (bounds.reverse.foldl (fun f size => f.push (.array size)) f)

/-- Applies the core last. -/
def DeclaratorCore.reduceFlat? : DeclaratorCore → FlatType → Option (Option String × FlatType)
  | .name name, f => some (some name, f)
  | .center inner, f => inner.reduceFlat? f
  | .abstract, f => some (none, f)

end

theorem Indirection.applyFlat?_flat (t : CType) (i : Indirection) :
    applyFlat? t.flat i = some (i.apply t).flat := by
  rw [applyFlat?, CType.addOuter?_flat, apply]
  cases i.isReference <;> rfl

theorem Indirection.foldlM_applyFlat?_flat (is : List Indirection) (t : CType) :
    is.foldlM applyFlat? t.flat = some (is.foldl apply t).flat := by
  induction is generalizing t with
  | nil => rfl
  | cons i is ih =>
    rw [List.foldlM_cons, applyFlat?_flat]
    exact ih (i.apply t)

theorem CType.foldl_array_flat (bounds : List (Option UInt64)) (t : CType) :
    bounds.foldl (fun f size => f.push (.array size)) t.flat =
      (bounds.foldl (fun t size => .array t size []) t).flat := by
  induction bounds generalizing t with
  | nil => rfl
  | cons size bounds ih => exact ih (.array t size [])

mutual

/-- **A declarator makes the same of a type in two lists.** -/
theorem Declarator.reduceFlat?_flat (d : Declarator) (t : CType) :
    d.reduceFlat? t.flat = some ((d.reduce t).1, (d.reduce t).2.flat) := by
  match d with
  | .mk indirections quals core params bounds =>
    have hcore := core.reduceFlat?_flat
    cases params with
    | none =>
      simp only [Declarator.reduceFlat?, Declarator.reduce, Indirection.foldlM_applyFlat?_flat, Option.bind_eq_bind,
        Option.bind_some, CType.addOuter?_flat, CType.foldl_array_flat, hcore]
    | some p =>
      obtain ⟨params, variadic⟩ := p
      have hpush : ∀ t : CType, t.flat.push (.function (Param.flatAll params) variadic) =
          (CType.function t params variadic []).flat :=
        fun t => t.push_flat (.function params variadic)
      simp only [Declarator.reduceFlat?, Declarator.reduce, Indirection.foldlM_applyFlat?_flat, Option.bind_eq_bind,
        Option.bind_some, hpush, CType.addOuter?_flat, CType.foldl_array_flat, hcore]

theorem DeclaratorCore.reduceFlat?_flat (c : DeclaratorCore) (t : CType) :
    c.reduceFlat? t.flat = some ((c.reduce t).1, (c.reduce t).2.flat) := by
  match c with
  | .name n => rfl
  | .center inner => exact inner.reduceFlat?_flat t
  | .abstract => rfl

end

/-! ### Simulation -/

/-- The operations on the lists of a type never leave them, and give the lists of what the operations on
the type give. -/
structure CType.Simulated (t : CType) : Prop where
  push : ∀ l : Layer, t.flat.push l.flat = (t.withLayer l []).flat
  addOuter : ∀ more, t.flat.addOuter? more = some (t.addOuter more).flat
  reduce : ∀ d : Declarator, d.reduceFlat? t.flat = some ((d.reduce t).1, (d.reduce t).2.flat)
  splice : ∀ onto : CType, onto.flat.splice? t.flat = some (splice onto t).flat
  resolve : ∀ (table : OrderedMap FlatType) (typedefs : OrderedMap CType) (vocab : Vocabulary),
    FlatTable table typedefs →
      t.flat.resolve? table vocab = some ((t.resolve typedefs vocab).map flat)
  signature :
    t.flat.signature? = some ((t.signature?.map flatSignature).mapError fun _ => t.flat)
  withBase : ∀ name, t.flat.withBase name = (t.withBase name).flat
  stripSigned : t.flat.stripSigned = t.stripSigned.flat
  ofType : ∀ storage, FlatFunction.ofType? t.flat =
    some (((FunctionDecl.ofType? t storage).map FunctionDecl.flat).mapError fun _ => t.flat)
  type : ∀ f : FunctionDecl, f.ret = t → f.flat.type? = some f.type.flat

/-- **The operations on lists simulate those on types.** -/
theorem CType.simulated (t : CType) : t.Simulated where
  push := t.push_flat
  addOuter := t.addOuter?_flat
  reduce d := d.reduceFlat?_flat t
  splice onto := onto.splice?_flat t
  resolve _ _ vocab htable := resolveFrom?_flat htable vocab [] t
  signature := t.signature?_flat
  withBase := t.withBase_flat
  stripSigned := t.stripSigned_flat
  ofType := FunctionDecl.ofType?_flat t
  type f _ := f.type?_flat

end CInterface
