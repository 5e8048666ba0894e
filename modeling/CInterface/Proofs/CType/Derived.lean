import CInterface.Proofs.Json.Sources
/-!
# The types of a run

The types of a run are those that declarations give, those that are derived from them, and those that
are read of documents. In two lists each has one set of qualifiers more than it has layers, at any
depth. Those that come from declarations are made of names, by operations that keep this and never
repeat a qualifier; of those that come from documents the lists are read and found to fit.

* `Registry.Has` — the registry has a definition; `has_parseFile` says what reading a header adds.
* `FlatType.Derived` — the types in two lists that come from declarations.
* `FlatType.Derived.sound` — their lists fit, and no set repeats a qualifier.
* `Grammar.derived_of_parseType` — the types that are read are among them.
* `types_are_leveled` — all types of a run.
-/

namespace CInterface

open Json (decode?)

/-! ### Definitions in registries -/

/-- The registry has the definition, in the view of all files or in that of one. -/
def Registry.Has (r : Registry) (x : Definition) : Prop :=
  x.content ∈ (r.flat.map x.category).values ∨
    ∃ d ∈ r.files.values, x.content ∈ (d.map x.category).values

theorem Registry.all_has (r : Registry) : r.All r.Has :=
  ⟨fun _ _ hx => Or.inl hx, fun d hd _ _ hx => Or.inr ⟨d, hd, hx⟩⟩

theorem Registry.All.of_has {P : Definition → Prop} {r : Registry} (h : r.All P) {x : Definition}
    (hx : r.Has x) : P x := by
  rcases hx with hx | ⟨d, hd, hx⟩
  · exact h.1 x.category x.content hx
  · exact h.2 d hd x.category x.content hx

theorem Registry.All.insertAll {P : Definition → Prop} {r : Registry} (h : r.All P) (file : String)
    {ds : List (String × Definition)} (hds : ∀ d ∈ ds, P d.2) : (r.insertAll file ds).All P := by
  induction ds generalizing r with
  | nil => exact h
  | cons d ds ih =>
    obtain ⟨hd, hds⟩ := List.forall_mem_cons.1 hds
    exact ih (h.insert hd (some file) d.1) hds

/-- What a registry has behind a header was there before, or is regular. -/
theorem has_parseFile {g : Grammar} {registry : Registry} {file : String} {packing : PackingLog}
    {text : String} {x : Definition} (hx : (g.parseFile registry file packing text).1.Has x) :
    registry.Has x ∨ x.Regular := by
  obtain ⟨ds, hregistry, hds⟩ := (parseFile_regular g registry file packing text).1
  rw [hregistry] at hx
  have hbefore : registry.All fun x => registry.Has x ∨ x.Regular :=
    ⟨fun c y hy => Or.inl (registry.all_has.1 c y hy),
      fun d hd c y hy => Or.inl (registry.all_has.2 d hd c y hy)⟩
  exact (hbefore.insertAll file fun d hd => Or.inr (hds d hd)).of_has hx

/-! ### Types from declarations -/

/-- The types in two lists that come from declarations: those that are made of a name by adding
qualifiers and layers, the types of their parameters, and what the operations on types make of
them. -/
inductive FlatType.Derived : FlatType → Prop where
  | new (name : String) : Derived (new name)
  | addOuter {f g : FlatType} {more : Qualifiers} (hf : Derived f) (h : f.addOuter? more = some g) :
    Derived g
  | push {f : FlatType} {l : FlatLayer} (hf : Derived f) (hl : ∀ p ∈ l.params, Derived p.type) :
    Derived (f.push l)
  | param {f : FlatType} {l : FlatLayer} {p : FlatParam} (hf : Derived f) (hl : l ∈ f.layers)
      (hp : p ∈ l.params) : Derived p.type
  | splice {onto f g : FlatType} (honto : Derived onto) (hf : Derived f)
      (h : onto.splice? f = some g) : Derived g
  | resolve {table : OrderedMap FlatType} {vocab : Vocabulary} {f g : FlatType}
      (htable : ∀ name d, table.get? name = some d → Derived d) (hf : Derived f)
      (h : f.resolve? table vocab = some (.ok g)) : Derived g
  | signature {f ret : FlatType} {params : List FlatParam} {variadic : Bool} (hf : Derived f)
      (h : f.signature? = some (.ok (ret, params, variadic))) : Derived ret
  | withBase {f : FlatType} (name : String) (hf : Derived f) : Derived (f.withBase name)
  | stripSigned {f : FlatType} (hf : Derived f) : Derived f.stripSigned
  | function {f : FlatFunction} {g : FlatType} (hret : Derived f.ret)
      (hparams : ∀ p ∈ f.params, Derived p.type) (h : f.type? = some g) : Derived g

/-- **The lists of types that come from declarations fit, and no qualifier is repeated**, at any
depth. -/
theorem FlatType.Derived.sound {f : FlatType} (h : f.Derived) : f.Sound := by
  induction h with
  | new name => exact sound_new name
  | addOuter _ h ih => exact ih.addOuter h
  | push _ _ hf hl => exact hf.push hl
  | param _ hl hp ih => exact ih.params hl hp
  | splice _ _ h honto hf => exact honto.splice hf h
  | resolve _ _ h htable hf => exact hf.resolveFrom htable h
  | signature _ h ih => exact (ih.signature h).1
  | withBase name _ ih => exact ih.withBase name
  | stripSigned _ ih => exact ih.stripSigned
  | @function f g _ _ h hret hparams =>
    have hpush : (f.ret.push (.function f.params f.variadic)).Sound := hret.push hparams
    exact hpush.addOuter h

namespace CType

/-- A name gets its qualifiers. -/
theorem addOuter?_new (name : String) {quals : Qualifiers} (h : quals.Nodup) :
    (FlatType.new name).addOuter? quals = some (base name quals).flat := by
  have hadd := (named name).addOuter?_flat quals
  rw [named, addOuter, Qualifiers.nil_union h] at hadd
  exact hadd

/-- A formed type is made of its name by adding qualifiers and layers. -/
theorem Formed.derived {t : CType} (h : t.Formed) : t.flat.Derived := by
  induction h with
  | base name hquals => exact .addOuter (.new name) (addOuter?_new name hquals)
  | @step t s _ _ ht hs =>
    cases s with
    | qualify more => exact .addOuter ht (t.addOuter?_flat more)
    | pointer => exact .push ht fun _ hp => absurd hp List.not_mem_nil
    | reference => exact .push ht fun _ hp => absurd hp List.not_mem_nil
    | array size => exact .push ht fun _ hp => absurd hp List.not_mem_nil
    | function params variadic =>
      have hparams : ∀ p ∈ Param.flatAll params, p.type.Derived := by
        rw [Param.flatAll_eq]
        exact List.forall_mem_map.2 hs
      exact .push ht hparams

end CType

namespace Source

variable {src : Source}

/-- The type of specifiers is a name with qualifiers, none of them repeated. -/
theorem gives_specifiers (fuel : Nat) : Gives (src.specifiers fuel) fun specs =>
    ∃ name quals, quals.Nodup ∧ specs.base = .base name quals := by
  cases fuel with
  | zero => exact .fail _
  | succ fuel =>
    rw [specifiers]
    refine (yields_leadingWords _ _ List.nodup_nil).bind fun words hwords => ?_
    exact (gives_any _).pass fun name => .pure ⟨name, words.2, hwords, rfl⟩

/-- The steps of a declarator are those of a tree with its name. -/
theorem gives_anyDeclarator : Gives src.anyDeclarator fun declared =>
    ∃ d : Declarator, d.name? = declared.1 ∧ d.steps = declared.2 := by
  have hnamed : Gives (src.declarator src.fuel) fun declared =>
      ∃ d : Declarator, d.name? = some declared.1 ∧ d.steps = declared.2 := by
    rw [(declarator_eq_shape src.fuel).1, map_eq_pure_bind]
    refine (gives_shape_named src.fuel).1.bind fun d hd => .pure ⟨d, ?_, rfl⟩
    obtain ⟨name, hname⟩ := Option.isSome_iff_exists.1 hd
    rw [hname]
    rfl
  have habstract : Gives (src.abstractDeclarator src.fuel) fun steps =>
      ∃ d : Declarator, d.name? = none ∧ d.steps = steps := by
    rw [(abstractDeclarator_eq_shape src src.fuel).1, map_eq_pure_bind]
    exact (gives_shape_abstract src.fuel).1.bind fun d hd => .pure ⟨d, hd.1, rfl⟩
  exact .either (hnamed.bind fun _ hd => .pure hd) (habstract.bind fun _ hd => .pure hd)

/-- **A type alone is read in two lists**: a name gets its qualifiers, and a declarator is applied. -/
theorem gives_typeExpression : Gives src.typeExpression fun found =>
    ∃ (base : String) (quals : Qualifiers) (d : Declarator) (f : FlatType),
      (FlatType.new base).addOuter? quals = some f ∧
        d.reduceFlat? f = some (found.1, found.2.flat) := by
  refine (gives_specifiers src.fuel).bind fun specs hspecs => ?_
  obtain ⟨base, quals, hquals, hbase⟩ := hspecs
  refine gives_anyDeclarator.bind fun declared hdeclared => ?_
  obtain ⟨d, hname, hsteps⟩ := hdeclared
  refine (yields_accept .semi).pass fun _ => .get_bind fun s => ?_
  split
  · exact .throw _
  · refine .pure ⟨base, quals, d, _, CType.addOuter?_new base hquals, ?_⟩
    rw [d.reduceFlat?_flat, d.reduce_eq, hname, hsteps, hbase]

end Source

/-- A type that is read alone is what its expression gives. -/
theorem Grammar.run_of_parseType {g : Grammar} {text : String} {name : Option String} {t : CType}
    (h : g.parseType text = .ok (name, t)) :
    ∃ s : Stage, (Source.ofTokens g .empty .initial text.toList (tokenize text)).typeExpression
      ⟨tokenize text, [], []⟩ = .ok ((name, t), s) := by
  unfold Grammar.parseType at h
  dsimp only at h
  cases hrun : (Source.ofTokens g .empty .initial text.toList (tokenize text)).typeExpression
      ⟨tokenize text, [], []⟩ with
  | error e =>
    rw [hrun] at h
    cases h
  | ok r =>
    obtain ⟨found, s⟩ := r
    rw [hrun] at h
    cases h
    exact ⟨s, rfl⟩

/-- A stage without findings has only such as are wanted. -/
theorem Stage.all_nil (Φ : Finding → Prop) (tokens : List Token) : Stage.All Φ ⟨tokens, [], []⟩ :=
  ⟨fun _ hd => absurd hd List.not_mem_nil, fun _ he => absurd he List.not_mem_nil⟩

/-- **A type that is read alone comes from a declaration**, and its lists are made by a declarator of
those of a name with qualifiers. -/
theorem Grammar.derived_of_parseType {g : Grammar} {text : String} {name : Option String}
    {t : CType} (h : g.parseType text = .ok (name, t)) :
    t.flat.Derived ∧ ∃ (base : String) (quals : Qualifiers) (d : Declarator) (f : FlatType),
      (FlatType.new base).addOuter? quals = some f ∧ d.reduceFlat? f = some (name, t.flat) := by
  obtain ⟨s, hrun⟩ := g.run_of_parseType h
  constructor
  · have hformed : t.Formed :=
      (yields_typeExpression _ (Stage.all_nil (Finding.Regular .initial) _) _ _ hrun).2
    exact hformed.derived
  · exact (Source.gives_typeExpression _ (Stage.all_nil _ _) _ _ hrun).2

/-! ### All types -/

theorem Json.exists_of_decode? {α : Type} {read? : Nat → Json → Option α} {text : String} {x : α}
    (h : decode? read? text = some x) :
    ∃ j : Json, parse? text = some j ∧ read? nestingLimit j = some x := Option.bind_eq_some_iff.1 h

/-- **Every type has one set of qualifiers more than it has layers**, at any depth of its parameters.

* So it is for the lists of all types that come from declarations, and no set repeats a qualifier.
* The types that are read alone come from declarations, as do those of all definitions that the
  reading of a header adds to a registry. Declarators make their lists of those of a name.
* No operation on the lists of a type leaves them, and what it gives are the lists of a type. Lists
  are those of a type just if they fit.
* What is read of a document in two lists has been found to fit, and is the type that is read of it.
* The lists of all types of a definition that is read, and of those of a registry, at any depth, are
  read so of a part of the document. -/
theorem types_are_leveled :
    (∀ f : FlatType, f.Derived → f.Sound) ∧
    (∀ (g : Grammar) (text : String) (name : Option String) (t : CType),
      g.parseType text = .ok (name, t) →
        t.flat.Derived ∧ ∃ (base : String) (quals : Qualifiers) (d : Declarator) (f : FlatType),
          (FlatType.new base).addOuter? quals = some f ∧
            d.reduceFlat? f = some (name, t.flat)) ∧
    (∀ (g : Grammar) (registry : Registry) (file : String) (packing : PackingLog) (text : String)
        (x : Definition), (g.parseFile registry file packing text).1.Has x →
      registry.Has x ∨ ∀ t ∈ x.types, t.flat.Derived) ∧
    (∀ t : CType, t.Simulated) ∧
    (∀ f : FlatType, f.tree.flat = f ↔ f.Leveled) ∧
    (∀ (depth : Nat) (j : Json), FlatType.ofJson? depth j = (CType.ofJson? depth j).map CType.flat ∧
      ∀ f, FlatType.ofJson? depth j = some f → f.Leveled) ∧
    (∀ (text : String) (x : Definition), decode? Definition.ofJson? text = some x →
      ∃ j : Json, Json.parse? text = some j ∧ ∀ t ∈ x.types, t.Sourced j) ∧
    (∀ (text : String) (r : Registry), decode? Registry.ofJson? text = some r →
      ∃ j : Json, Json.parse? text = some j ∧ ∀ x, r.Has x → ∀ t ∈ x.types, t.Sourced j) := by
  refine ⟨fun f hf => hf.sound, ?_, ?_, CType.simulated, fun f => FlatType.flat_tree_iff, ?_, ?_,
    ?_⟩
  · intro g text name t h
    exact g.derived_of_parseType h
  · intro g registry file packing text x hx
    exact (has_parseFile hx).imp id fun hregular t ht => (hregular.types t ht).derived
  · intro depth j
    exact ⟨FlatType.ofJson?_eq depth j, fun f hf => FlatType.leveled_ofJson? hf⟩
  · intro text x h
    obtain ⟨j, hparse, hread⟩ := Json.exists_of_decode? h
    exact ⟨j, hparse, Definition.sourced_ofJson? hread⟩
  · intro text r h
    obtain ⟨j, hparse, hread⟩ := Json.exists_of_decode? h
    exact ⟨j, hparse, fun x hx => (Registry.sourced_ofJson? hread).of_has hx⟩

/-- A constant pointer to a function that gives a pointer, and types in documents. -/
theorem types_are_leveled_handler :
    (∃ t : CType, Grammar.standard.parseType "const char *(*const f)(int)" = .ok (some "f", t) ∧
      t.flat.quals = [["const"], [], [], ["const"]] ∧ t.flat.Sound) ∧
    (∃ f : FlatType, FlatType.ofJson? Json.nestingLimit sampleVisit.toJson = some f ∧
      f.tree = sampleVisit ∧ f.Leveled) ∧
    (∃ j : Json, Json.parse? (Definition.toJson ⟨.structs, sampleNode⟩).text = some j ∧
      ∀ t ∈ Definition.types ⟨.structs, sampleNode⟩, t.Sourced j) ∧
    (∃ j : Json, Json.parse? sampleRegistry.toJson.text = some j ∧
      ∀ x, sampleRegistry.Has x → ∀ t ∈ x.types, t.Sourced j) := by
  obtain ⟨hsound, hparsed, -, -, -, hdocument, hdefinition, hregistry⟩ := types_are_leveled
  refine ⟨?_, ?_, ?_, ?_⟩
  · have hread : (Grammar.standard.parseType "const char *(*const f)(int)").toOption.map
        (fun r => (r.1, r.2.levels)) = some (some "f", [["const"], [], [], ["const"]]) := by
      decide +kernel
    obtain ⟨⟨name, t⟩, hresult, heq⟩ := Option.map_eq_some_iff.1 hread
    cases hparse : Grammar.standard.parseType "const char *(*const f)(int)" with
    | error e =>
      rw [hparse] at hresult
      cases hresult
    | ok r =>
      rw [hparse] at hresult
      cases hresult
      obtain ⟨rfl, hlevels⟩ := Prod.mk.inj heq
      exact ⟨t, rfl, hlevels, hsound _ (hparsed _ _ _ _ hparse).1⟩
  · have hread := (CType.roundTrips (t := sampleVisit) (Json.floats_roundTrip rfl)).reads
      Json.nestingLimit (by decide)
    obtain ⟨heq, hleveled⟩ := hdocument Json.nestingLimit sampleVisit.toJson
    rw [hread] at heq
    exact ⟨sampleVisit.flat, heq, sampleVisit.tree_flat, hleveled _ heq⟩
  · have hread := Definition.roundTrips (x := ⟨.structs, sampleNode⟩)
      (Definition.Lossless.storable ⟨rfl, nofun⟩)
    exact hdefinition _ _ (hread.decode (by decide))
  · have hread := Registry.roundTrips (sampleRegistry_lossless.imp fun _ hx => hx.storable)
    exact hregistry _ _ (hread.decode (by decide +kernel))

end CInterface
