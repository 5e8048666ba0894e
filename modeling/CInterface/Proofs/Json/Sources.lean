import CInterface.Proofs.Grammar.Findings
import CInterface.Proofs.Json.Flat
import CInterface.Proofs.Json.Registries
/-!
# Where the types of a document come from

A type is written as a list of layers and a list of qualifiers, and a document with lists that do not
fit is no type. This is checked for every type that is read, at any depth: for each type in what is
read there is a part of the document of which its lists were read, and found to fit.

* `Json.Part` — a document stands in another.
* `CType.Sourced` — the lists of each type within a type are read of a part of the document.
* `CType.sourced_ofJson?`, `Definition.sourced_ofJson?`, `Registry.sourced_ofJson?` — what is read.
-/

namespace CInterface

open Json (record? variant? list? map? optional? texts? text?)

/-! ### Parts of documents -/

namespace Json

/-- The document stands in the other: it is the other, or stands in an item or a member of it. -/
inductive Part (d : Json) : Json → Prop where
  | refl : Part d d
  | item {items : List Json} {e : Json} (he : e ∈ items) (h : Part d e) : Part d (.array items)
  | member {members : List (List Char × Json)} {m : List Char × Json} (hm : m ∈ members)
      (h : Part d m.2) : Part d (.object members)

theorem Part.trans {c d j : Json} (h : c.Part d) (h' : d.Part j) : c.Part j := by
  induction h' with
  | refl => exact h
  | item he _ ih => exact .item he ih
  | member hm _ ih => exact .member hm ih

/-- Whatever is read of a list is read of one of its items. -/
theorem exists_of_mem_mapM {α β : Type} {f : α → Option β} {xs : List α} {ys : List β}
    (h : xs.mapM f = some ys) {y : β} (hy : y ∈ ys) : ∃ x ∈ xs, f x = some y := by
  induction xs generalizing ys with
  | nil =>
    cases h
    cases hy
  | cons x xs ih =>
    simp only [List.mapM_cons, Option.bind_eq_bind, Option.bind_eq_some_iff] at h
    obtain ⟨z, hz, zs, hzs, heq⟩ := h
    cases heq
    cases List.mem_cons.1 hy with
    | inl hy =>
      rw [hy]
      exact ⟨x, List.mem_cons_self, hz⟩
    | inr hy =>
      obtain ⟨w, hw, hwy⟩ := ih hzs hy
      exact ⟨w, List.mem_cons_of_mem x hw, hwy⟩

variable {j : Json}

theorem part_of_named? {members : List (List Char × Json)} {ms : List (String × Json)}
    (h : named? members = some ms) {m : String × Json} (hm : m ∈ ms) :
    m.2.Part (.object members) := by
  obtain ⟨member, hmember, hname⟩ := exists_of_mem_mapM h hm
  obtain ⟨name, _, rfl⟩ := Option.map_eq_some_iff.1 hname
  exact .member hmember .refl

/-- The fields of a record are parts of it. -/
theorem part_of_record? {names : List String} {fields : List (Option Json)}
    (h : record? names j = some fields) {d : Json} (hd : some d ∈ fields) : d.Part j := by
  unfold record? at h
  split at h
  · obtain ⟨ms, hnamed, hfields⟩ := Option.bind_eq_some_iff.1 h
    obtain ⟨name, _, hmember⟩ := exists_of_mem_mapM hfields hd
    unfold member? at hmember
    split at hmember
    · cases hmember
    · rename_i m hfilter
      cases hmember
      apply part_of_named? hnamed
      exact List.mem_of_mem_filter (hfilter ▸ List.mem_singleton_self m)
    · cases hmember
  · split at h
    · cases h
      obtain ⟨e, he, heq⟩ := List.mem_map.1 hd
      cases heq
      exact .item he .refl
    · cases h
  · cases h

theorem part_of_variant? {name : String} {content : Json} (h : variant? j = some (name, content)) :
    content.Part j := by
  unfold variant? at h
  split at h
  · obtain ⟨text, _, heq⟩ := Option.map_eq_some_iff.1 h
    cases heq
    exact .member List.mem_cons_self .refl
  · cases h

/-- The items of a list are read of parts of the document. -/
theorem part_of_list? {α : Type} {read? : Nat → Json → Option α} {depth : Nat} {xs : List α}
    (h : list? read? depth j = some xs) {x : α} (hx : x ∈ xs) :
    ∃ d : Json, d.Part j ∧ ∃ n < depth, read? n d = some x := by
  unfold list? at h
  split at h
  · obtain ⟨d, hd, hread⟩ := exists_of_mem_mapM h hx
    exact ⟨d, .item hd .refl, _, Nat.lt_succ_self _, hread⟩
  · cases h

end Json

theorem OrderedMap.mem_values_ofList {α : Type} {es : List (String × α)} {x : α}
    (h : x ∈ (ofList es).values) : ∃ e ∈ es, e.2 = x := by
  have hfold : ∀ (es : List (String × α)) (m : OrderedMap α),
      x ∈ (es.foldl (fun m e => m.insert e.1 e.2) m).values →
        x ∈ m.values ∨ ∃ e ∈ es, e.2 = x := by
    intro es
    induction es with
    | nil => exact fun m hm => Or.inl hm
    | cons e es ih =>
      intro m hm
      rcases ih (m.insert e.1 e.2) hm with hm | ⟨f, hf, heq⟩
      · cases mem_values_insert hm with
        | inl heq => exact Or.inr ⟨e, List.mem_cons_self, heq.symm⟩
        | inr hm => exact Or.inl hm
      · exact Or.inr ⟨f, List.mem_cons_of_mem e hf, heq⟩
  exact (hfold es .empty h).resolve_left List.not_mem_nil

/-- The values of a map are read of parts of the document. -/
theorem Json.part_of_map? {α : Type} {read? : Nat → Json → Option α} {depth : Nat} {j : Json}
    {m : OrderedMap α} (h : map? read? depth j = some m) {x : α} (hx : x ∈ m.values) :
    ∃ d : Json, d.Part j ∧ ∃ n < depth, read? n d = some x := by
  unfold map? at h
  split at h
  · obtain ⟨ms, hnamed, hmap⟩ := Option.bind_eq_some_iff.1 h
    obtain ⟨es, hes, rfl⟩ := Option.map_eq_some_iff.1 hmap
    obtain ⟨e, he, rfl⟩ := OrderedMap.mem_values_ofList hx
    obtain ⟨m, hm, hread⟩ := exists_of_mem_mapM hes he
    obtain ⟨y, hy, rfl⟩ := Option.map_eq_some_iff.1 hread
    exact ⟨m.2, part_of_named? hnamed hm, _, Nat.lt_succ_self _, hy⟩
  · cases h

/-! ### Types -/

/-- The lists of each type within the type are read of a part of the document. -/
def CType.Sourced (j : Json) (t : CType) : Prop :=
  ∀ s : CType, s.Within t → ∃ d : Json, d.Part j ∧ ∃ n, FlatType.ofJson? n d = some s.flat

theorem CType.Sourced.mono {d j : Json} {t : CType} (h : t.Sourced d) (hd : d.Part j) :
    t.Sourced j := by
  intro s hs
  obtain ⟨e, he, hread⟩ := h s hs
  exact ⟨e, he.trans hd, hread⟩

/-- The types that are read with fewer than `depth` levels left are sourced. -/
def CType.SourcedBelow (depth : Nat) : Prop :=
  ∀ n < depth, ∀ (j : Json) (t : CType), ofJson? n j = some t → t.Sourced j

section Reading

variable {depth : Nat} {j : Json}

theorem Param.sourced_ofJson? (ih : CType.SourcedBelow depth) {p : Param}
    (h : ofJson? depth j = some p) : p.type.Sourced j := by
  unfold ofJson? at h
  split at h
  · simp only [Option.bind_eq_bind, Option.bind_eq_some_iff] at h
    obtain ⟨fields, hrecord, h⟩ := h
    split at h
    · simp only [Option.bind_eq_some_iff] at h
      obtain ⟨name, _, type, htype, default, _, heq⟩ := h
      cases heq
      exact (ih _ (Nat.lt_succ_self _) _ _ htype).mono (Json.part_of_record? hrecord (by simp))
    · cases h
  · cases h

theorem Param.sourced_signatureOfJson? (ih : CType.SourcedBelow depth) {params : List Param}
    {variadic : Bool} (h : signatureOfJson? depth j = some (params, variadic)) :
    ∀ p ∈ params, p.type.Sourced j := by
  unfold signatureOfJson? at h
  split at h
  · simp only [Option.bind_eq_bind, Option.bind_eq_some_iff] at h
    obtain ⟨fields, hrecord, h⟩ := h
    split at h
    · rename_i docs _
      simp only [Option.bind_eq_some_iff] at h
      obtain ⟨read, hread, _, _, heq⟩ := h
      cases heq
      intro p hp
      obtain ⟨d, hd, hparam⟩ := Json.exists_of_mem_mapM hread hp
      have hpart : (Json.array docs).Part j := Json.part_of_record? hrecord (by simp)
      exact (sourced_ofJson? (fun n hn => ih n (by omega)) hparam).mono
        ((Json.Part.item hd .refl).trans hpart)
    · cases h
  · cases h

theorem Layer.sourced_ofJson? (ih : CType.SourcedBelow depth) {l : Layer}
    (h : ofJson? depth j = some l) : ∀ p ∈ l.params, p.type.Sourced j := by
  cases l with
  | pointer | reference | array size => exact fun p hp => absurd hp List.not_mem_nil
  | function params variadic =>
    unfold ofJson? at h
    split at h
    · simp only [Option.bind_eq_bind, Option.bind_eq_some_iff] at h
      obtain ⟨_, _, h⟩ := h
      split at h <;> cases h
    · simp only [Option.bind_eq_bind, Option.bind_eq_some_iff] at h
      obtain ⟨_, hvariant, h⟩ := h
      split at h
      · cases h
      · cases h
      · obtain ⟨size, _, heq⟩ := Option.map_eq_some_iff.1 h
        cases heq
      · obtain ⟨signature, hsignature, heq⟩ := Option.bind_eq_some_iff.1 h
        cases heq
        intro p hp
        exact (Param.sourced_signatureOfJson? (fun n hn => ih n (by omega)) hsignature p hp).mono
          (Json.part_of_variant? hvariant)
      · cases h
    · cases h

/-- The parameters of a type that is read are those of layers that are read of its record. -/
theorem CType.exists_of_ofJson? {t : CType} (h : ofJson? depth j = some t) :
    ∃ (n : Nat) (base quals : Json) (docs : List Json) (layers : List Layer), depth = n + 2 ∧
      record? ["base", "declarators", "qualifiers"] j =
        some [some base, some (.array docs), some quals] ∧
      docs.mapM (Layer.ofJson? n) = some layers ∧ t.params = layers.flatMap Layer.params := by
  unfold ofJson? at h
  split at h
  · simp only [Option.bind_eq_bind, Option.bind_eq_some_iff] at h
    obtain ⟨fields, hrecord, h⟩ := h
    split at h
    · simp only [Option.bind_eq_some_iff] at h
      obtain ⟨name, _, layers, hlayers, sets, _, h⟩ := h
      split at h
      · split at h
        · rename_i hlength
          cases h
          exact ⟨_, _, _, _, layers, rfl, hrecord, hlayers, (withLayers_parts hlength _).2.2⟩
        · cases h
      · cases h
    · cases h
  · cases h

end Reading

/-- **The lists of every type that is read are read of its document**, and so are those of every type
within it. -/
theorem CType.sourced_ofJson? {depth : Nat} {j : Json} {t : CType}
    (h : ofJson? depth j = some t) : t.Sourced j := by
  induction depth using Nat.strongRecOn generalizing j t with
  | _ depth ih =>
    intro s hs
    cases hs with
    | refl => exact ⟨j, .refl, depth, (FlatType.ofJson?_eq depth j).trans (congrArg _ h)⟩
    | param hp hs =>
      -- the parameter belongs to a layer, which was read of one of the documents
      obtain ⟨n, base, quals, docs, layers, rfl, hrecord, hlayers, hparams⟩ := exists_of_ofJson? h
      rw [hparams] at hp
      obtain ⟨l, hl, hp⟩ := List.mem_flatMap.1 hp
      obtain ⟨d, hd, hlayer⟩ := Json.exists_of_mem_mapM hlayers hl
      have hbelow : SourcedBelow n := fun m hm j t ht => ih m (by omega) ht
      have hpart : (Json.array docs).Part j := Json.part_of_record? hrecord (by simp)
      exact ((Layer.sourced_ofJson? hbelow hlayer _ hp).mono
        ((Json.Part.item hd .refl).trans hpart)) s hs

/-! ### Definitions -/

/-- The lists of the types of the definition are read of parts of the document. -/
def Definition.Sourced (j : Json) (x : Definition) : Prop := ∀ t ∈ x.types, t.Sourced j

theorem Definition.Sourced.mono {d j : Json} {x : Definition} (h : x.Sourced d) (hd : d.Part j) :
    x.Sourced j := fun t ht => (h t ht).mono hd

section Definitions

variable {depth : Nat} {j : Json}

theorem Param.sourced_ofSignature? {params : List Param} {variadic : Bool}
    (h : signatureOfJson? depth j = some (params, variadic)) : ∀ p ∈ params, p.type.Sourced j :=
  sourced_signatureOfJson? (fun _ _ _ _ ht => CType.sourced_ofJson? ht) h

theorem Field.sourced_ofJson? {f : Field} (h : ofJson? depth j = some f) : f.type.Sourced j := by
  unfold ofJson? at h
  split at h
  · simp only [Option.bind_eq_bind, Option.bind_eq_some_iff] at h
    obtain ⟨fields, hrecord, h⟩ := h
    split at h
    · simp only [Option.bind_eq_some_iff] at h
      obtain ⟨name, _, type, htype, default, _, bits, _, heq⟩ := h
      cases heq
      exact (CType.sourced_ofJson? htype).mono (Json.part_of_record? hrecord (by simp))
    · cases h
  · cases h

theorem Compound.sourced_ofJson? {c : Compound} (h : ofJson? depth j = some c) :
    ∀ f ∈ c.fields, f.type.Sourced j := by
  unfold ofJson? at h
  split at h
  · simp only [Option.bind_eq_bind, Option.bind_eq_some_iff] at h
    obtain ⟨fields, hrecord, h⟩ := h
    split at h
    · simp only [Option.bind_eq_some_iff] at h
      obtain ⟨read, hread, pack, _, hmake⟩ := h
      cases hresult : make? read pack with
      | error cause =>
        rw [hresult] at hmake
        cases hmake
      | ok d =>
        rw [hresult] at hmake
        cases hmake
        rw [fields_of_make? hresult]
        intro f hf
        obtain ⟨d, hd, n, _, hfield⟩ := Json.part_of_list? hread hf
        exact (Field.sourced_ofJson? hfield).mono
          (hd.trans (Json.part_of_record? hrecord (by simp)))
    · cases h
  · cases h

theorem Variable.sourced_ofJson? {v : Variable} (h : ofJson? depth j = some v) :
    v.type.Sourced j := by
  unfold ofJson? at h
  split at h
  · simp only [Option.bind_eq_bind, Option.bind_eq_some_iff] at h
    obtain ⟨fields, hrecord, h⟩ := h
    split at h
    · simp only [Option.bind_eq_some_iff] at h
      obtain ⟨value, _, type, htype, storage, _, heq⟩ := h
      cases heq
      exact (CType.sourced_ofJson? htype).mono (Json.part_of_record? hrecord (by simp))
    · cases h
  · cases h

theorem FunctionDecl.sourced_ofJson? {f : FunctionDecl} (h : ofJson? depth j = some f) :
    f.ret.Sourced j ∧ ∀ p ∈ f.params, p.type.Sourced j := by
  unfold ofJson? at h
  split at h
  · simp only [Option.bind_eq_bind, Option.bind_eq_some_iff] at h
    obtain ⟨fields, hrecord, h⟩ := h
    split at h
    · simp only [Option.bind_eq_some_iff] at h
      obtain ⟨⟨params, variadic⟩, hsignature, ret, hret, quals, _, storage, _, heq⟩ := h
      cases heq
      refine ⟨(CType.sourced_ofJson? hret).mono (Json.part_of_record? hrecord (by simp)), ?_⟩
      intro p hp
      exact (Param.sourced_ofSignature? hsignature p hp).mono
        (Json.part_of_record? hrecord (by simp))
    · cases h
  · cases h

theorem Category.sourced_ofJson? {c : Category} {x : c.Content} (h : c.ofJson? depth j = some x) :
    Definition.Sourced j ⟨c, x⟩ := by
  intro t ht
  cases c with
  | macros | fnmacros | enums | values => cases ht
  | types => exact List.mem_singleton.1 ht ▸ CType.sourced_ofJson? h
  | vars => exact List.mem_singleton.1 ht ▸ Variable.sourced_ofJson? h
  | functions =>
    obtain ⟨hret, hparams⟩ := FunctionDecl.sourced_ofJson? h
    cases List.mem_cons.1 ht with
    | inl ht => exact ht ▸ hret
    | inr ht =>
      obtain ⟨p, hp, rfl⟩ := List.mem_map.1 ht
      exact hparams p hp
  | structs | unions =>
    obtain ⟨f, hf, rfl⟩ := List.mem_map.1 ht
    exact Compound.sourced_ofJson? h f hf

theorem Definition.sourced_ofJson? {x : Definition} (h : ofJson? depth j = some x) :
    x.Sourced j := by
  unfold ofJson? at h
  split at h
  · simp only [Option.bind_eq_bind, Option.bind_eq_some_iff] at h
    obtain ⟨⟨name, content⟩, hvariant, c, _, y, hy, heq⟩ := h
    cases heq
    exact (Category.sourced_ofJson? hy).mono (Json.part_of_variant? hvariant)
  · cases h

theorem Definitions.All.set {P : Definition → Prop} {d : Definitions} (h : d.All P) {c : Category}
    {m : OrderedMap c.Content} (hm : ∀ x ∈ m.values, P ⟨c, x⟩) : (d.set c m).All P := by
  intro e x hx
  by_cases he : e = c
  · subst he
    rw [map_set_self] at hx
    exact hm x hx
  · rw [map_set_of_ne d he] at hx
    exact h e x hx

theorem Definitions.sourced_ofJson? {d : Definitions} (h : ofJson? depth j = some d) :
    d.All (Definition.Sourced j) := by
  unfold ofJson? at h
  split at h
  · rename_i depth
    simp only [Option.bind_eq_bind, Option.bind_eq_some_iff] at h
    obtain ⟨fields, hrecord, h⟩ := h
    have hfold : ∀ (es : List (Category × Option Json)) (e : Definitions),
        (∀ f ∈ es, ∀ i, f.2 = some i → i.Part j) → e.All (Definition.Sourced j) →
          es.foldlM (fun d e => return d.set e.1 (← map? e.1.ofJson? depth (← e.2))) e = some d →
            d.All (Definition.Sourced j) := by
      intro es
      induction es with
      | nil =>
        intro e _ he hd
        cases hd
        exact he
      | cons f es ih =>
        intro e hparts he hd
        simp only [List.foldlM_cons, Option.bind_eq_bind, Option.bind_eq_some_iff] at hd
        obtain ⟨e', ⟨i, hi, m, hm, heq⟩, hd⟩ := hd
        cases heq
        refine ih _ (fun f hf => hparts f (List.mem_cons_of_mem _ hf)) (he.set ?_) hd
        intro x hx
        obtain ⟨k, hk, n, _, hread⟩ := Json.part_of_map? hm hx
        exact (Category.sourced_ofJson? hread).mono (hk.trans (hparts f List.mem_cons_self i hi))
    refine hfold _ .empty ?_ all_empty h
    intro f hf i hi
    apply Json.part_of_record? hrecord
    rw [← hi]
    exact (List.of_mem_zip hf).2
  · cases h

theorem Registry.sourced_ofJson? {r : Registry} (h : ofJson? depth j = some r) :
    r.All (Definition.Sourced j) := by
  unfold ofJson? at h
  split at h
  · simp only [Option.bind_eq_bind, Option.bind_eq_some_iff] at h
    obtain ⟨fields, hrecord, h⟩ := h
    split at h
    · simp only [Option.bind_eq_some_iff] at h
      obtain ⟨flat, hflat, files, hfiles, heq⟩ := h
      cases heq
      constructor
      · intro c x hx
        exact (Definitions.sourced_ofJson? hflat c x hx).mono
          (Json.part_of_record? hrecord (by simp))
      · intro d hd c x hx
        obtain ⟨k, hk, n, _, hread⟩ := Json.part_of_map? hfiles hd
        exact (Definitions.sourced_ofJson? hread c x hx).mono
          (hk.trans (Json.part_of_record? hrecord (by simp)))
    · cases h
  · cases h

end Definitions

end CInterface
