import CInterface.Grammar.Declaration
import CInterface.Proofs.Grammar.Keeping
/-!
# Every production keeps the tags

Aggregates are registered wherever a type name is read, also deep inside a declaration, and a
reading may be given up together with what it has registered. Here each production is shown to keep
the tags by the rules for its parts, so that nothing depends on where a declaration stops.

* `silent_accept`, `silent_expect`, … — the productions that only pass tokens.
* `keeps_enumeration`, `keepsAt_defineFields` — the productions that register aggregates.
* `keeps_atFuel` — the productions that need one another, by induction on their fuel.
* `keeps_declaration` — declarations.
-/

namespace CInterface

variable {α β : Type} {src : Source} {s : Stage} {given : List Fact}

/-! ### Base names of built types -/

/-- The base names that a step adds: those of its parameters. -/
def LayerStep.baseNames : LayerStep → List String
  | .function params _ => paramBaseNames params
  | .qualify _ | .pointer | .reference | .array _ => []

/-- The base names that some steps add. -/
def stepBaseNames (steps : List LayerStep) : List String := steps.flatMap LayerStep.baseNames

theorem baseNames_addOuter (t : CType) (quals : Qualifiers) :
    (t.addOuter quals).baseNames = t.baseNames := by
  cases t <;> rfl

theorem LayerStep.mem_baseNames_apply {b : String} {t : CType} {step : LayerStep} :
    b ∈ (step.apply t).baseNames ↔ b ∈ t.baseNames ∨ b ∈ step.baseNames := by
  cases step with
  | qualify quals =>
    rw [apply, baseNames_addOuter]
    exact ⟨Or.inl, fun h => h.resolve_right List.not_mem_nil⟩
  | pointer | reference | array => exact ⟨Or.inl, fun h => h.resolve_right List.not_mem_nil⟩
  | function params variadic => exact List.mem_append

/-- A built type has the base names of what it is built on and of the steps. -/
theorem mem_baseNames_buildType {b : String} {t : CType} {steps : List LayerStep} :
    b ∈ (buildType t steps).baseNames ↔ b ∈ t.baseNames ∨ b ∈ stepBaseNames steps := by
  induction steps generalizing t with
  | nil => exact ⟨Or.inl, fun h => h.resolve_right List.not_mem_nil⟩
  | cons step steps ih =>
    have hcons : stepBaseNames (step :: steps) = step.baseNames ++ stepBaseNames steps :=
      List.flatMap_cons
    rw [buildType_cons, ih, LayerStep.mem_baseNames_apply, hcons, List.mem_append, or_assoc]

theorem stepBaseNames_append (a b : List LayerStep) :
    stepBaseNames (a ++ b) = stepBaseNames a ++ stepBaseNames b := List.flatMap_append

theorem stepBaseNames_qualifySteps (quals : Qualifiers) :
    stepBaseNames (qualifySteps quals) = [] := by
  rw [qualifySteps]
  split <;> rfl

theorem stepBaseNames_boundSteps (bounds : List (Option UInt64)) :
    stepBaseNames (boundSteps bounds) = [] := by
  simp [stepBaseNames, boundSteps, LayerStep.baseNames]

/-- A built type is known by its base and its steps. -/
theorem ofBases_buildType {t : CType} {steps : List LayerStep}
    (ht : Fact.ofBases t.baseNames ⊆ given) (hsteps : Fact.ofBases (stepBaseNames steps) ⊆ given) :
    Fact.ofBases (buildType t steps).baseNames ⊆ given := by
  intro f hf
  obtain ⟨b, hb, rfl⟩ := Fact.mem_ofBases.1 hf
  cases mem_baseNames_buildType.1 hb with
  | inl hb => exact ht (List.mem_map_of_mem hb)
  | inr hb => exact hsteps (List.mem_map_of_mem hb)

/-! ### Passing tokens -/

theorem silent_pure (a : α) : Silent src (pure a : Production α) := .pure (List.nil_subset _)

theorem silent_comes (p : Punct) : Silent src (comes p) :=
  .bind (.get_bind fun s => silent_pure _ s) fun _ => silent_pure _

theorem silent_accept (p : Punct) : Silent src (accept p) :=
  .pass (silent_comes p) fun _ => .ite (.drop (silent_pure true)) (silent_pure false)

theorem silent_acceptWord (word : String) : Silent src (acceptWord word) := by
  refine .get_bind fun s => ?_
  split
  · exact Keeps.drop (silent_pure true) s
  · exact silent_pure false s

theorem silent_line : Silent src src.line := .get_bind fun _ => .pure (List.nil_subset _)

theorem silent_expect (p : Punct) : Silent src (src.expect p) :=
  .pass (silent_accept p) fun _ => .ite (.fail _ _) (silent_pure ())

theorem silent_tokensUntil (stops : List Punct) : Silent src (src.tokensUntil stops) := by
  refine .get_bind fun s => ?_
  split
  · rename_i inside rest h
    exact .moveTo_bind (balancedUntil_suffix h).subset (silent_pure _)
  · exact .moveTo_bind (List.nil_subset _) (.fail _ _)

theorem silent_skipBlock : Silent src src.skipBlock := by
  refine .pass (silent_expect .lbrace) fun _ => .get_bind fun s => ?_
  split
  · rename_i rest h
    exact .moveTo (afterBlock_suffix h).subset
  · exact .moveTo_bind (List.nil_subset _) (.fail _ _)

theorem keeps_name? : Keeps src given src.name? fun name => name.toList.map Fact.word := by
  refine .get_bind fun s => ?_
  split
  · rename_i word hword
    split
    · exact .pure (List.nil_subset _)
    · exact .passWord hword (.pure (List.cons_subset_cons _ (List.nil_subset _)))
  · exact .pure (List.nil_subset _)

theorem silent_qualifiers (beforeType : Bool) (quals : Qualifiers) :
    Silent src (src.qualifiers beforeType quals) :=
  .get_bind fun _ => .moveTo_bind (qualifiersAt_suffix _ _ _ _).subset (silent_pure _)

theorem silent_evaluate (members : EnumDef) (ts : List TokenKind) :
    Silent src (src.evaluate members ts) := .get_bind fun _ => .pure (List.nil_subset _)

/-! ### Registering aggregates -/

/-- An aggregate is registered with the type name for it, where it does not take members away. -/
theorem keepsAt_defineAggregate (k : TagKind) {name : String} {x : Definition}
    (hx : x.category = k.category)
    (hmembers : (src.sight s).hasMembers k name = true → x.hasMembers = true)
    (hbases : Fact.ofBases x.baseNames ⊆ given) :
    KeepsAt src s given (define name x >>= fun _ => defineSynonym k.keyword name)
      fun _ => [.known (k.tag name)] := by
  intro _ a s' hrun
  cases hrun
  have hinsert : (src.sight s).Extends ((src.sight s).insert name x) := by
    refine .insert fun l hl => ?_
    obtain rfl : l = k := TagKind.category_injective (hl.trans hx)
    exact hmembers
  have hsynonym : ((src.sight s).insert name x).Extends
      (((src.sight s).insert name x).insert (k.tag name) ⟨.types, .named (k.tag name)⟩) :=
    .insert fun l hl => absurd hl l.category_ne_types
  refine ⟨⟨fun _ h => h, id, hinsert.trans hsynonym⟩, fun _ hclosed hgiven => ?_⟩
  constructor
  · exact hclosed.insertAggregate hx fun b hb => hgiven (.known b) (hbases (List.mem_map_of_mem hb))
  · intro f hf
    obtain rfl := List.mem_singleton.1 hf
    have hself : ((src.sight s).insert name x).contains k.category name = true := by
      rw [← hx]
      exact Definitions.contains_of_get? (Definitions.get?_insert_self _ name x)
    exact Definitions.known_tag (hsynonym.contains k name hself)

/-- Where an aggregate is in sight, nothing has to be done for its tag to be known. -/
theorem keepsAt_known {k : TagKind} {name : String} {a : α} {gives : α → List Fact}
    (h : (src.sight s).contains k.category name = true)
    (hgives : gives a = [.known (k.tag name)]) : KeepsAt src s given (pure a) gives := by
  intro _ b s' hrun
  cases hrun
  refine ⟨.refl src s, fun _ hclosed _ => ⟨hclosed, fun f hf => ?_⟩⟩
  rw [hgives] at hf
  obtain rfl := List.mem_singleton.1 hf
  exact Definitions.known_tag h

theorem visible?_isSome (k : TagKind) (name : String) :
    (src.visible? s k.category name).isSome = (src.sight s).contains k.category name := by
  rw [Source.visible?_eq]
  rfl

/-! ### Enumerations -/

theorem visible?_enums_any (name : String) :
    ((src.visible? s .enums name).any fun e => !e.isEmpty) = (src.sight s).hasMembers .enum name := by
  rw [Source.visible?_eq, Definitions.hasMembers, Definitions.get?, Option.any_map]
  rfl

theorem keepsAt_defineEnum {name : String} {d : EnumDef}
    (h : (src.sight s).hasMembers .enum name = true → d.isEmpty = false) :
    KeepsAt src s given (defineEnum name d) fun _ => [.known ("enum " ++ name)] := by
  refine keepsAt_defineAggregate .enum rfl (fun hm => ?_) (List.nil_subset _)
  show (!d.isEmpty) = true
  rw [h hm]
  rfl

theorem silent_memberValue (d : EnumDef) (member : String) :
    Silent src (src.memberValue d member) := by
  refine .pass silent_line fun line => .pass (silent_tokensUntil _) fun tokens => ?_
  refine .pass (silent_evaluate d tokens) fun value => ?_
  split
  · exact silent_pure _
  · exact .pass (.report _ fun _ => []) fun _ => silent_pure _
  · exact .pass (.report _ fun _ => []) fun _ => silent_pure _

theorem silent_enumMembers (fuel : Nat) (d : EnumDef) : Silent src (src.enumMembers fuel d) := by
  induction fuel generalizing d with
  | zero => exact .fail _ _
  | succ fuel ih =>
    rw [Source.enumMembers]
    refine .pass (silent_comes .rbrace) fun _ => .ite (silent_pure d) ?_
    refine .bind keeps_name? fun name => ?_
    cases name with
    | none => exact .fail _ _
    | some member =>
      refine .pass (silent_accept .assign) fun _ => ?_
      refine .join (silent_memberValue d member) (silent_pure d.nextValue) fun value => ?_
      exact .pass (silent_accept .comma) fun _ => .ite (ih _) (silent_pure _)

/-- The members of an enumeration are constants and name no type. An enumeration without members
takes the place of one with members nowhere. -/
theorem keeps_defineMembers (name : String) (d : EnumDef) :
    Keeps src given (src.defineMembers name d) fun _ => [.known ("enum " ++ name)] := by
  refine .get_bind fun s => .ite (fun hguard => ?_) fun hguard => ?_
  · rw [visible?_enums_any] at hguard
    by_cases hempty : d.isEmpty = true
    · have hentries : d.members.entries = [] := List.isEmpty_iff.1 hempty
      rw [hempty, Bool.not_true, Bool.false_or, Bool.not_eq_true'] at hguard
      simp only [hentries, List.forIn_nil, pure_bind]
      exact keepsAt_defineEnum fun h => absurd (hguard.symm.trans h) Bool.false_ne_true
    · refine KeepsAt.bind (Keeps.forIn (fun (x : String × Int64) _ => ?_) _ s) fun _ s => ?_
      · exact .bind (.define (fun k h => by cases k <;> cases h) nofun (List.nil_subset _))
          fun _ => silent_pure _
      · exact keepsAt_defineEnum fun _ => Bool.eq_false_iff.2 hempty
  · simp only [Bool.not_eq_true, Bool.or_eq_false_iff, Bool.not_eq_false'] at hguard
    rw [visible?_enums_any] at hguard
    exact keepsAt_known (k := .enum) (Definitions.contains_of_hasMembers hguard.2) rfl

theorem silent_anonymousName (keyword : String) : Silent src (src.anonymousName keyword) :=
  .get_bind fun _ => .pure (List.nil_subset _)

theorem keeps_enumeration : Keeps src given src.enumeration fun base => [.known base] := by
  refine .bind keeps_name? fun name => .pass (silent_accept .lbrace) fun _ => .ite ?_ ?_
  · refine .pass (silent_enumMembers src.fuel .empty) fun d => ?_
    refine .pass (silent_expect .rbrace) fun _ => ?_
    have hnext : ∀ (name : String) {given : List Fact}, Keeps src given (do
        src.defineMembers name d
        return "enum " ++ name) fun base => [.known base] := fun name _ =>
      .bind (keeps_defineMembers name d) fun _ => .pure (List.cons_subset_cons _ (List.nil_subset _))
    cases name with
    | some name => exact .pass (silent_pure name) fun _ => hnext _
    | none => exact .pass (silent_anonymousName "enum") fun _ => hnext _
  · cases name with
    | none => exact .fail _ _
    | some name =>
      refine .get_bind fun s => .ite (fun hnone => ?_) fun hsome => ?_
      · refine KeepsAt.bind (keepsAt_defineEnum fun h => ?_) fun _ =>
          .pure (List.cons_subset_cons _ (List.nil_subset _))
        rw [← visible?_enums_any, Option.isNone_iff_eq_none.1 hnone] at h
        cases h
      · refine keepsAt_known (k := .enum) ?_ rfl
        rw [← visible?_isSome]
        exact Option.ne_none_iff_isSome.1 fun h => hsome (Option.isNone_iff_eq_none.2 h)

/-! ### Structures and unions -/

namespace CompoundKind

def tagKind : CompoundKind → TagKind
  | struct => .struct
  | union => .union

theorem keyword_tagKind (kind : CompoundKind) : kind.tagKind.keyword = kind.keyword := by
  cases kind <;> rfl

theorem category_definition (kind : CompoundKind) (c : Compound) :
    (kind.definition c).category = kind.tagKind.category := by cases kind <;> rfl

theorem hasMembers_definition (kind : CompoundKind) (c : Compound) :
    (kind.definition c).hasMembers = !c.isEmpty := by cases kind <;> rfl

theorem baseNames_definition (kind : CompoundKind) (c : Compound) :
    (kind.definition c).baseNames = c.fields.flatMap (·.type.baseNames) := by cases kind <;> rfl

/-- The base name that a tag makes. -/
theorem tag_eq (kind : CompoundKind) (name : String) :
    kind.tagKind.tag name = kind.keyword ++ " " ++ name := by
  rw [TagKind.tag, keyword_tagKind]

end CompoundKind

theorem visibleCompound?_isSome (kind : CompoundKind) (name : String) :
    (src.visibleCompound? s kind name).isSome =
      (src.sight s).contains kind.tagKind.category name := by
  cases kind with
  | struct => exact visible?_isSome .struct name
  | union => exact visible?_isSome .union name

theorem visibleCompound?_any (kind : CompoundKind) (name : String) :
    ((src.visibleCompound? s kind name).any fun c => !c.isEmpty) =
      (src.sight s).hasMembers kind.tagKind name := by
  cases kind <;> rw [Source.visibleCompound?, Source.visible?_eq, Definitions.hasMembers,
    Definitions.get?, Option.any_map] <;> rfl

theorem keepsAt_defineCompound {kind : CompoundKind} {name : String} {c : Compound}
    (h : (src.sight s).hasMembers kind.tagKind name = true → c.isEmpty = false)
    (hfields : Fact.ofBases (c.fields.flatMap (·.type.baseNames)) ⊆ given) :
    KeepsAt src s given (defineCompound kind name c)
      fun _ => [.known (kind.keyword ++ " " ++ name)] := by
  have hkeeps : KeepsAt src s given
      (define name (kind.definition c) >>= fun _ => defineSynonym kind.tagKind.keyword name)
      fun _ => [.known (kind.tagKind.tag name)] := by
    refine keepsAt_defineAggregate kind.tagKind (kind.category_definition c) (fun hm => ?_) ?_
    · rw [kind.hasMembers_definition, h hm]
      rfl
    · rw [kind.baseNames_definition]
      exact hfields
  rw [kind.keyword_tagKind, kind.tag_eq] at hkeeps
  exact hkeeps

/-- Fields are taken over unless they would hide others. A packing that is no power of two is an
error, and nothing is asked of a declaration in error. -/
theorem keeps_defineFields (kind : CompoundKind) (name : String) (line : Nat) {fields : List Field}
    (hfields : Fact.ofBases (fields.flatMap (·.type.baseNames)) ⊆ given) :
    Keeps src given (src.defineFields kind name line fields)
      fun _ => [.known (kind.keyword ++ " " ++ name)] := by
  refine .get_bind fun s => .ite (fun hguard => ?_) fun hguard => ?_
  · rw [visibleCompound?_any] at hguard
    cases hmake : Compound.make? fields (src.packing.packAt line) with
    | error cause => exact Keeps.report _ _ s
    | ok c =>
      have hc := Compound.fields_of_make? hmake
      refine keepsAt_defineCompound (fun hmembers => ?_) (by rw [hc]; exact hfields)
      rw [hmembers, Bool.not_true, Bool.or_false, Bool.not_eq_true'] at hguard
      rw [Compound.isEmpty, hc]
      exact hguard
  · simp only [visibleCompound?_any, Bool.not_eq_true, Bool.or_eq_false_iff,
      Bool.not_eq_false'] at hguard
    refine keepsAt_known (Definitions.contains_of_hasMembers hguard.2) ?_
    rw [kind.tag_eq]

/-! ### Productions without recursion through declarations -/

theorem silent_leadingWords (fuel : Nat) (storage : List String) (quals : Qualifiers) :
    Silent src (src.leadingWords fuel storage quals) := by
  induction fuel generalizing storage quals with
  | zero => exact silent_pure _
  | succ fuel ih =>
    intro given
    rw [Source.leadingWords]
    refine .get_bind fun s => ?_
    split
    · exact Keeps.drop (ih _ _) s
    · refine .get_bind ?_
      split
      · rename_i q rest h
        exact .moveTo_bind (qualifier?_suffix h).subset (ih _ _)
      · exact silent_pure _ s

/-- The words of a built-in type are no tag: the first of them is none of the words that tags have
in front. -/
theorem keepsAt_fundamentalWords {word : String} (hword : word? s.rest = some word)
    (hfundamental : src.grammar.isFundamental word = true)
    (hkeyword : ∀ k : TagKind, word ≠ k.keyword) :
    KeepsAt src s given (do return " ".intercalate (← src.fundamentalWords))
      fun base => [.known base] := by
  intro hplain a s' hrun
  obtain ⟨t, rest, hrest, hkind⟩ := word?_eq_some hword
  have hident : t.kind.ident? = some word := by
    rw [hkind]
    rfl
  have hwords : ∃ words, (s.rest.takeWhile fun t =>
      t.kind.ident?.any src.grammar.isFundamental).filterMap (·.kind.ident?) = word :: words := by
    rw [hrest, List.takeWhile_cons, hident, Option.any_some, hfundamental]
    exact ⟨_, List.filterMap_cons_some hident⟩
  obtain ⟨words, hwords⟩ := hwords
  have hblank : ' ' ∉ word.toList :=
    hplain t (by rw [hrest]; exact List.mem_cons_self) word hkind
  cases hrun
  refine ⟨⟨fun u hu => List.mem_of_mem_drop hu, id, .refl _⟩, fun _ hclosed _ => ⟨hclosed, ?_⟩⟩
  intro f hf
  obtain rfl := List.mem_singleton.1 hf
  intro k n heq
  rw [hwords] at heq
  exact absurd heq (TagKind.ne_tag_of_words hblank hkeyword words k n)

theorem keeps_indirections (fuel : Nat) : Keeps src given (src.indirections fuel)
    fun found => Fact.ofBases (stepBaseNames found.1) := by
  induction fuel with
  | zero => exact .pure (List.nil_subset _)
  | succ fuel ih =>
    rw [Source.indirections]
    refine .pass (silent_qualifiers false []) fun quals => ?_
    have hnext : ∀ step : LayerStep, step.baseNames = [] → Keeps src given (do
        let found ← src.indirections fuel
        return (qualifySteps quals ++ step :: found.1, found.2))
          fun found => Fact.ofBases (stepBaseNames found.1) := by
      intro step hstep
      refine .bind ih fun found => .pure ?_
      rw [stepBaseNames_append, stepBaseNames_qualifySteps, List.nil_append, stepBaseNames,
        List.flatMap_cons, hstep, List.nil_append]
      exact List.subset_append_left _ _
    refine .pass (silent_accept .star) fun _ => .ite (hnext .pointer rfl) ?_
    exact .pass (silent_accept .amp) fun _ => .ite (hnext .reference rfl)
      (.pure (List.nil_subset _))

theorem silent_arrayBounds (fuel : Nat) : Silent src (src.arrayBounds fuel) := by
  induction fuel with
  | zero => exact silent_pure _
  | succ fuel ih =>
    intro given
    rw [Source.arrayBounds]
    refine .pass (silent_accept .lbracket) fun _ => .ite ?_ (silent_pure [])
    refine .pass (silent_tokensUntil _) fun tokens => .pass (silent_expect _) fun _ => ?_
    exact .pass (silent_evaluate _ tokens) fun _ => .bind ih fun _ => silent_pure _

theorem silent_initializers (fuel : Nat) :
    Silent src (src.initializer fuel) ∧ Silent src (src.initializerItems fuel) := by
  induction fuel with
  | zero => exact ⟨.fail _ _, .fail _ _⟩
  | succ fuel ih =>
    obtain ⟨hvalue, hitems⟩ := ih
    constructor
    · intro given
      rw [Source.initializer]
      refine .pass (silent_accept .lbrace) fun _ => .ite ?_ ?_
      · exact .bind hitems fun _ => .pass (silent_expect _) fun _ => silent_pure _
      · refine .pass (silent_tokensUntil _) fun tokens => .ite (.fail _ _) ?_
        exact .pass (silent_evaluate _ tokens) fun _ => silent_pure _
    · intro given
      rw [Source.initializerItems]
      refine .pass (silent_comes .rbrace) fun _ => .ite (silent_pure []) ?_
      refine .bind hvalue fun item => .pass (silent_accept .comma) fun _ =>
        .ite ?_ (silent_pure _)
      exact .bind hitems fun _ => silent_pure _

theorem silent_initializer (fuel : Nat) : Silent src (src.initializer fuel) :=
  (silent_initializers fuel).1

theorem silent_bitWidth (field : String) (line : Nat) : Silent src (src.bitWidth field line) := by
  refine .pass (silent_tokensUntil _) fun tokens => .pass (silent_evaluate _ tokens) fun v => ?_
  exact .ite (.pass (.report _ fun _ => []) fun _ => silent_pure _) (silent_pure _)

/-! ### Productions that need one another -/

/-- What is known of the types of some fields. -/
def fieldFacts (fields : List Field) : List Fact :=
  Fact.ofBases (fields.flatMap (·.type.baseNames))

/-- What is known of a name and the steps that build its type. -/
def declaratorFacts (declared : String × List LayerStep) : List Fact :=
  .word declared.1 :: Fact.ofBases (stepBaseNames declared.2)

/-- What is known of a parameter list. -/
def paramFacts (found : List Param × Bool) : List Fact := Fact.ofBases (paramBaseNames found.1)

/-- The productions that need one another keep the tags with the fuel. -/
structure KeepsAtFuel (src : Source) (fuel : Nat) : Prop where
  specifiers : ∀ {given}, Keeps src given (src.specifiers fuel)
    fun specs => Fact.ofBases specs.base.baseNames
  typeName : ∀ {given}, Keeps src given (src.typeName fuel) fun base => [.known base]
  compound : ∀ kind {given}, Keeps src given (src.compound fuel kind) fun base => [.known base]
  members : ∀ {given}, Keeps src given (src.members fuel) fieldFacts
  member : ∀ {given}, Keeps src given (src.member fuel) fieldFacts
  fields : ∀ {given} {base : CType} (line : Nat) {declared : String × List LayerStep},
    Fact.ofBases base.baseNames ⊆ given → declaratorFacts declared ⊆ given →
      Keeps src given (src.fields fuel base line declared) fieldFacts
  declarator : ∀ {given}, Keeps src given (src.declarator fuel) declaratorFacts
  center : ∀ {given}, Keeps src given (src.center fuel) declaratorFacts
  abstractDeclarator : ∀ {given}, Keeps src given (src.abstractDeclarator fuel)
    fun steps => Fact.ofBases (stepBaseNames steps)
  abstractCenter : ∀ {given}, Keeps src given (src.abstractCenter fuel)
    fun steps => Fact.ofBases (stepBaseNames steps)
  suffix : ∀ quals {given}, Keeps src given (src.suffix fuel quals)
    fun steps => Fact.ofBases (stepBaseNames steps)
  parameterList : ∀ {given}, Keeps src given (src.parameterList fuel) paramFacts
  parameters : ∀ {given}, Keeps src given (src.parameters fuel) paramFacts

namespace KeepsAtFuel

theorem zero : KeepsAtFuel src 0 where
  specifiers := .fail _ _
  typeName := .fail _ _
  compound _ := .fail _ _
  members := .fail _ _
  member := .fail _ _
  fields _ _ _ _ := .fail _ _
  declarator := .fail _ _
  center := .fail _ _
  abstractDeclarator := .fail _ _
  abstractCenter := .fail _ _
  suffix _ := .fail _ _
  parameterList := .fail _ _
  parameters := .fail _ _

variable {fuel : Nat}

theorem specifiers_succ (h : KeepsAtFuel src fuel) : Keeps src given (src.specifiers (fuel + 1))
    fun specs => Fact.ofBases specs.base.baseNames := by
  rw [Source.specifiers]
  refine .pass (silent_leadingWords _ _ _) fun _ => .bind h.typeName fun _ => .pure ?_
  exact List.subset_append_left _ _

theorem typeName_succ (h : KeepsAtFuel src fuel) :
    Keeps src given (src.typeName (fuel + 1)) fun base => [.known base] := by
  rw [Source.typeName]
  refine .get_bind fun s => ?_
  cases hword : word? s.rest with
  | none => exact .fail _ _
  | some word =>
    refine .ite (fun _ => h.compound .struct s) fun hstruct => ?_
    refine .ite (fun _ => h.compound .union s) fun hunion => ?_
    refine .ite (fun _ => Keeps.drop keeps_enumeration s) fun henum => ?_
    refine .ite (fun hfundamental => ?_) fun _ => .ite (fun _ => ?_) fun _ => .fail _ _
    · refine keepsAt_fundamentalWords hword hfundamental fun k => ?_
      cases k with
      | struct => exact hstruct
      | union => exact hunion
      | enum => exact henum
    · refine .passWord hword (.pure ?_)
      exact List.cons_subset.2 ⟨List.mem_cons_of_mem _ List.mem_cons_self, List.nil_subset _⟩

theorem compound_succ (h : KeepsAtFuel src fuel) (kind : CompoundKind) :
    Keeps src given (src.compound (fuel + 1) kind) fun base => [.known base] := by
  rw [Source.compound]
  refine .pass silent_line fun line => .drop (.bind keeps_name? fun name => ?_)
  refine .pass (silent_accept .lbrace) fun _ => .ite (.bind h.members fun fields => ?_) ?_
  · have hnext : ∀ (name : String) {given : List Fact}, fieldFacts fields ⊆ given →
        Keeps src given (do
          src.defineFields kind name line fields
          return kind.keyword ++ " " ++ name) fun base => [.known base] :=
      fun name _ hfields => .bind (keeps_defineFields kind name line hfields) fun _ =>
        .pure (List.cons_subset_cons _ (List.nil_subset _))
    cases name with
    | some name =>
      exact .pass (silent_pure name) fun name => hnext name (List.subset_append_left _ _)
    | none =>
      exact .pass (silent_anonymousName _) fun name => hnext name (List.subset_append_left _ _)
  · cases name with
    | none => exact .fail _ _
    | some name =>
      refine .get_bind fun s => .ite (fun hnone => ?_) fun hsome => ?_
      · refine KeepsAt.bind (keepsAt_defineCompound (fun hmembers => ?_) (List.nil_subset _))
          fun _ => .pure (List.cons_subset_cons _ (List.nil_subset _))
        rw [← visibleCompound?_any, Option.isNone_iff_eq_none.1 hnone] at hmembers
        cases hmembers
      · refine keepsAt_known (k := kind.tagKind) ?_ (by rw [kind.tag_eq])
        rw [← visibleCompound?_isSome]
        exact Option.ne_none_iff_isSome.1 fun h => hsome (Option.isNone_iff_eq_none.2 h)

theorem members_succ (h : KeepsAtFuel src fuel) :
    Keeps src given (src.members (fuel + 1)) fieldFacts := by
  rw [Source.members]
  refine .pass (silent_accept .rbrace) fun _ => .ite (.pure (List.nil_subset _)) ?_
  refine .pass (silent_accept .semi) fun _ => .ite h.members ?_
  refine .get_bind fun s => .ite (fun _ => .fail _ _) fun _ => ?_
  refine KeepsAt.bind (h.member s) fun first => .bind h.members fun more => .pure ?_
  rw [fieldFacts, List.flatMap_append, Fact.ofBases, List.map_append]
  exact List.append_subset.2 ⟨fun f hf => List.mem_append_right _ (List.mem_append_left _ hf),
    List.subset_append_left _ _⟩

/-- A body without a return type is looked for first. What is found in it stays registered, and
where there is none, nothing is left of it. -/
theorem member_succ (h : KeepsAtFuel src fuel) :
    Keeps src given (src.member (fuel + 1)) fieldFacts := by
  have hbody : ∀ {given : List Fact}, Keeps src given (do
      src.skipBlock
      let _ ← accept .semi
      return ([] : List Field)) fieldFacts :=
    .pass silent_skipBlock fun _ => .pass (silent_accept .semi) fun _ => .pure (List.nil_subset _)
  have hembedded : ∀ {specs : Specifiers} {bits : Option UInt32} {given : List Fact},
      Fact.ofBases specs.base.baseNames ⊆ given →
        fieldFacts [⟨none, specs.base, none, bits⟩] ⊆ given := by
    intro specs bits given hspecs
    rw [fieldFacts, List.flatMap_singleton]
    exact hspecs
  rw [Source.member]
  refine .bind (.attempt (.bind h.declarator fun _ => .pass (silent_comes .lbrace) fun _ =>
    .ite (.fail _ fun _ => []) (silent_pure ()))) fun _ => .ite hbody ?_
  refine .pass silent_line fun line => .bind h.specifiers fun specs => ?_
  refine .pass (silent_accept .semi) fun _ => .ite
    (.pure (hembedded (List.subset_append_left _ _))) ?_
  refine .pass (silent_accept .colon) fun _ => .ite ?_ ?_
  · exact .pass (silent_bitWidth _ line) fun _ => .pass (silent_expect .semi) fun _ =>
      .pure (hembedded (List.subset_append_left _ _))
  · refine .bind h.declarator fun declared => .pass (silent_comes .lbrace) fun _ => .ite hbody ?_
    refine .bind (h.fields line ?_ (List.subset_append_left _ _)) fun _ => ?_
    · intro f hf
      exact List.mem_append_right _ (List.mem_append_left _ hf)
    · exact .pass (silent_expect .semi) fun _ => .pure (List.subset_append_left _ _)

theorem fields_succ (h : KeepsAtFuel src fuel) {base : CType} (line : Nat)
    {declared : String × List LayerStep} (hbase : Fact.ofBases base.baseNames ⊆ given)
    (hdeclared : declaratorFacts declared ⊆ given) :
    Keeps src given (src.fields (fuel + 1) base line declared) fieldFacts := by
  have hsteps : Fact.ofBases (stepBaseNames declared.2) ⊆ given :=
    fun f hf => hdeclared (List.mem_cons_of_mem _ hf)
  rw [Source.fields]
  refine .pass (silent_accept .colon) fun _ => ?_
  refine .join (silent_bitWidth declared.1 line) (silent_pure none) fun bits => ?_
  refine .pass (silent_accept .assign) fun _ => ?_
  refine .join (silent_initializer src.fuel) (silent_pure none) fun default => ?_
  have hfield : fieldFacts [⟨some declared.1, buildType base declared.2, default, bits⟩] ⊆ given := by
    rw [fieldFacts, List.flatMap_singleton]
    exact ofBases_buildType hbase hsteps
  refine .pass (silent_accept .comma) fun _ => .ite ?_ (.pure hfield)
  refine .bind h.declarator fun next => .bind (h.fields line ?_ ?_) fun more => .pure ?_
  · exact List.subset_append_of_subset_right _ hbase
  · exact List.subset_append_left _ _
  · rw [fieldFacts, List.flatMap_cons, Fact.ofBases, List.map_append]
    rw [fieldFacts, List.flatMap_singleton] at hfield
    exact List.append_subset.2 ⟨List.subset_append_of_subset_right _
      (List.subset_append_of_subset_right _ hfield), List.subset_append_left _ _⟩

theorem declarator_succ (h : KeepsAtFuel src fuel) :
    Keeps src given (src.declarator (fuel + 1)) declaratorFacts := by
  rw [Source.declarator]
  refine .bind (keeps_indirections src.fuel) fun before => .bind h.center fun center => ?_
  refine .bind (h.suffix before.2) fun behind => .pure ?_
  intro f hf
  simp only [declaratorFacts, stepBaseNames_append, Fact.ofBases, List.map_append, List.mem_cons,
    List.mem_append] at hf ⊢
  grind

theorem center_succ (h : KeepsAtFuel src fuel) :
    Keeps src given (src.center (fuel + 1)) declaratorFacts := by
  rw [Source.center]
  refine .bind keeps_name? fun name => ?_
  cases name with
  | some name => exact .pure (List.subset_append_left _ _)
  | none =>
    refine .pass (silent_accept .lparen) fun _ => .ite ?_ (.fail _ _)
    exact .bind h.declarator fun _ => .pass (silent_expect .rparen) fun _ =>
      .pure (List.subset_append_left _ _)

/-- What is known of a declarator in parentheses is known if there is one. -/
theorem abstractDeclarator_succ (h : KeepsAtFuel src fuel) :
    Keeps src given (src.abstractDeclarator (fuel + 1))
      fun steps => Fact.ofBases (stepBaseNames steps) := by
  rw [Source.abstractDeclarator]
  refine .bind (keeps_indirections src.fuel) fun before => ?_
  refine .bind (.attempt h.abstractCenter) fun center => ?_
  refine .bind (h.suffix before.2) fun behind => .pure ?_
  have hcenter : Fact.ofBases (stepBaseNames (center.getD [])) =
      (center.map fun steps => Fact.ofBases (stepBaseNames steps)).getD [] := by
    cases center <;> rfl
  intro f hf
  simp only [stepBaseNames_append, Fact.ofBases, List.map_append, List.mem_append] at hf hcenter ⊢
  rw [hcenter] at hf
  grind

theorem abstractCenter_succ (h : KeepsAtFuel src fuel) :
    Keeps src given (src.abstractCenter (fuel + 1))
      fun steps => Fact.ofBases (stepBaseNames steps) := by
  rw [Source.abstractCenter]
  refine .pass (silent_expect .lparen) fun _ => .bind h.abstractDeclarator fun inner => ?_
  have hnext : ∀ {given : List Fact}, Fact.ofBases (stepBaseNames inner) ⊆ given →
      Keeps src given (do
        src.expect .rparen
        return inner) fun steps => Fact.ofBases (stepBaseNames steps) := fun hinner =>
    .pass (silent_expect .rparen) fun _ => .pure hinner
  exact .ite (.pass (.fail _ fun _ => []) fun _ => hnext (List.subset_append_left _ _))
    (hnext (List.subset_append_left _ _))

theorem suffix_succ (h : KeepsAtFuel src fuel) (quals : Qualifiers) :
    Keeps src given (src.suffix (fuel + 1) quals)
      fun steps => Fact.ofBases (stepBaseNames steps) := by
  rw [Source.suffix]
  have hpure : ∀ (params : List LayerStep) {given : List Fact},
      Fact.ofBases (stepBaseNames params) ⊆ given → Keeps src given (pure params)
        fun steps => Fact.ofBases (stepBaseNames steps) := fun _ _ hparams => .pure hparams
  have hnext : ∀ (params : List LayerStep) {given : List Fact},
      Keeps src (Fact.ofBases (stepBaseNames params) ++ given) (do
        let bounds ← src.arrayBounds src.fuel
        return params ++ qualifySteps quals ++ boundSteps bounds)
          fun steps => Fact.ofBases (stepBaseNames steps) := by
    intro params given
    refine .pass (silent_arrayBounds src.fuel) fun bounds => .pure ?_
    rw [stepBaseNames_append, stepBaseNames_append, stepBaseNames_qualifySteps,
      stepBaseNames_boundSteps, List.append_nil, List.append_nil]
    exact List.subset_append_left _ _
  refine .pass (silent_comes .lparen) fun _ => .ite ?_
    (.bind (hpure [] (List.nil_subset _)) fun params => hnext params)
  refine .bind h.parameterList fun found => .bind (hpure _ ?_) fun params => hnext params
  rw [stepBaseNames, List.flatMap_singleton]
  exact List.subset_append_left _ _

theorem parameterList_succ (h : KeepsAtFuel src fuel) :
    Keeps src given (src.parameterList (fuel + 1)) paramFacts := by
  rw [Source.parameterList]
  refine .pass (silent_expect .lparen) fun _ => ?_
  refine .pass (silent_accept .rparen) fun _ => .ite (.pure (List.nil_subset _)) ?_
  have hnext : ∀ {given : List Fact}, Keeps src given (do
      let found ← src.parameters fuel
      src.expect .rparen
      return found) paramFacts :=
    .bind h.parameters fun _ => .pass (silent_expect .rparen) fun _ =>
      .pure (List.subset_append_left _ _)
  refine .get_bind fun s => ?_
  split
  · rename_i t u rest hrest
    have hsubset : rest ⊆ s.rest := by
      rw [hrest]
      exact fun v hv => List.mem_cons_of_mem _ (List.mem_cons_of_mem _ hv)
    exact .ite (fun _ => .moveTo_bind hsubset (.pure (List.nil_subset _))) fun _ => hnext s
  · exact hnext s

/-- A parameter is first read with a name; where that fails, it is read anew without one, and what
its type has registered stays. -/
theorem parameters_succ (h : KeepsAtFuel src fuel) :
    Keeps src given (src.parameters (fuel + 1)) paramFacts := by
  rw [Source.parameters]
  refine .pass (silent_accept .ellipsis) fun _ => .ite (.pure (List.nil_subset _)) ?_
  refine .bind h.specifiers fun specs => ?_
  have hdeclared : ∀ {given : List Fact}, Keeps src given
      (either
        (do
          let found ← src.declarator fuel
          return (some found.1, found.2))
        (do return ((none : Option String), ← src.abstractDeclarator fuel)))
      fun declared => Fact.ofBases (stepBaseNames declared.2) := by
    refine .either (.bind h.declarator fun declared => .pure ?_)
      (.bind h.abstractDeclarator fun _ => .pure (List.subset_append_left _ _))
    exact fun f hf => List.mem_append_left _ (List.mem_cons_of_mem _ hf)
  refine .bind hdeclared fun declared => .pass (silent_accept .assign) fun _ => ?_
  have hnext : ∀ (default : Option Value) {given : List Fact},
      Fact.ofBases specs.base.baseNames ⊆ given →
        Fact.ofBases (stepBaseNames declared.2) ⊆ given → Keeps src given (do
          let param : Param := ⟨declared.1, buildType specs.base declared.2, default⟩
          if ← accept .comma then
            let found ← src.parameters fuel
            return (param :: found.1, found.2)
          else return ([param], false)) paramFacts := by
    intro default given hbase hsteps
    have htype := ofBases_buildType hbase hsteps
    refine .pass (silent_accept .comma) fun _ => .ite ?_ (.pure ?_)
    · refine .bind h.parameters fun more => .pure ?_
      rw [paramFacts, paramBaseNames, Fact.ofBases, List.map_append]
      exact List.append_subset.2
        ⟨List.subset_append_of_subset_right _ htype, List.subset_append_left _ _⟩
    · rw [paramFacts, paramBaseNames, paramBaseNames, List.append_nil]
      exact htype
  refine .ite ?_ (.pass (silent_pure none) fun default => hnext default ?_ ?_)
  · refine .pass (silent_tokensUntil _) fun tokens => .pass (silent_evaluate _ tokens) fun _ => ?_
    refine .pass (silent_pure _) fun default => hnext default ?_ ?_
    · exact List.subset_append_of_subset_right _ (List.subset_append_left _ _)
    · exact List.subset_append_left _ _
  · exact List.subset_append_of_subset_right _ (List.subset_append_left _ _)
  · exact List.subset_append_left _ _

end KeepsAtFuel

/-- With any fuel, each of the productions keeps the tags. -/
theorem keeps_atFuel (fuel : Nat) : KeepsAtFuel src fuel := by
  induction fuel with
  | zero => exact .zero
  | succ fuel ih =>
    exact
      { specifiers := ih.specifiers_succ
        typeName := ih.typeName_succ
        compound := fun kind _ => ih.compound_succ kind
        members := ih.members_succ
        member := ih.member_succ
        fields := ih.fields_succ
        declarator := ih.declarator_succ
        center := ih.center_succ
        abstractDeclarator := ih.abstractDeclarator_succ
        abstractCenter := ih.abstractCenter_succ
        suffix := fun quals _ => ih.suffix_succ quals
        parameterList := ih.parameterList_succ
        parameters := ih.parameters_succ }

/-! ### Declarations -/

/-- A declared name is a function, a variable or a constant, so it takes no type name's place. -/
theorem silent_declare (storage : List String) (name : String) {t : CType} (value : Option Value)
    (ht : Fact.ofBases t.baseNames ⊆ given) :
    Keeps src given (declare storage name t value) fun _ => [] := by
  have hkind : ∀ {c : Category}, c = .functions ∨ c = .vars ∨ c = .values →
      ∀ k : TagKind, k.category ≠ c := by
    rintro c (rfl | rfl | rfl) k <;> cases k <;> exact nofun
  unfold declare
  split
  · exact .define (hkind (.inl rfl)) nofun ht
  · have hvar : ∀ {given : List Fact}, Fact.ofBases t.baseNames ⊆ given →
        Keeps src given (define name ⟨.vars, value, t, storage⟩) fun _ => [] :=
      fun ht => .define (hkind (.inr (.inl rfl))) nofun ht
    split
    · refine .bind (.define (hkind (.inr (.inr rfl))) nofun (List.nil_subset _)) fun _ => ?_
      exact hvar ht
    · exact .pass (silent_pure ()) fun _ => hvar ht

theorem silent_objects (specs : Specifiers) (fuel : Nat) {declared : String × List LayerStep}
    (hspecs : Fact.ofBases specs.base.baseNames ⊆ given)
    (hdeclared : declaratorFacts declared ⊆ given) :
    Keeps src given (src.objects specs fuel declared) fun _ => [] := by
  induction fuel generalizing declared given with
  | zero => exact .fail _ _
  | succ fuel ih =>
    have htype : Fact.ofBases (buildType specs.base declared.2).baseNames ⊆ given :=
      ofBases_buildType hspecs fun f hf => hdeclared (List.mem_cons_of_mem _ hf)
    rw [Source.objects]
    refine .pass (silent_accept .assign) fun _ => ?_
    refine .join (silent_initializer src.fuel) (silent_pure none) fun value => ?_
    refine .pass (silent_declare _ _ value htype) fun _ => .pass (silent_accept .comma) fun _ => ?_
    refine .ite (.bind (keeps_atFuel src.fuel).declarator fun next => ih ?_ ?_) (silent_pure ())
    · exact List.subset_append_of_subset_right _ hspecs
    · exact List.subset_append_left _ _

/-- A typedef name is a word, so it takes the place of no type name for an aggregate. -/
theorem silent_typedefNames {base : CType} (fuel : Nat)
    (hbase : Fact.ofBases base.baseNames ⊆ given) :
    Keeps src given (src.typedefNames base fuel) fun _ => [] := by
  induction fuel generalizing given with
  | zero => exact .fail _ _
  | succ fuel ih =>
    rw [Source.typedefNames]
    refine .bind (keeps_atFuel src.fuel).declarator fun declared => ?_
    have hbase' := List.subset_append_of_subset_right (declaratorFacts declared) hbase
    have hsteps : Fact.ofBases (stepBaseNames declared.2) ⊆ declaratorFacts declared ++ given :=
      fun f hf => List.mem_append_left _ (List.mem_cons_of_mem _ hf)
    refine .bind (.define (fun k => k.category_ne_types) (fun _ => ?_)
      (ofBases_buildType hbase' hsteps)) fun _ => .pass (silent_accept .comma) fun _ => ?_
    · exact List.mem_append_left _ List.mem_cons_self
    · exact .ite (ih hbase') (silent_pure ())

theorem silent_typedefBody : Silent src src.typedefBody := by
  have hend : Silent src (src.expect .semi) := silent_expect .semi
  intro given
  rw [Source.typedefBody]
  refine .bind (keeps_atFuel src.fuel).specifiers fun specs => ?_
  refine .pass (silent_comes .semi) fun _ => .ite ?_ hend
  exact .pass (silent_typedefNames src.fuel (List.subset_append_left _ _)) fun _ => hend

/-- **A declaration keeps the tags.** -/
theorem silent_declaration : Silent src src.declaration := by
  refine .pass (silent_acceptWord "typedef") fun _ => .ite silent_typedefBody ?_
  refine .bind (keeps_atFuel src.fuel).specifiers fun specs => ?_
  refine .pass (silent_accept .semi) fun _ => .ite (silent_pure ()) ?_
  refine .bind (keeps_atFuel src.fuel).declarator fun declared => ?_
  refine .pass (silent_comes .lbrace) fun _ => .ite ?_ ?_
  · have hbody : ∀ {given : List Fact},
        Fact.ofBases (buildType specs.base declared.2).baseNames ⊆ given → Keeps src given (do
          src.skipBlock
          declare specs.storage declared.1 (buildType specs.base declared.2) none) fun _ => [] :=
      fun htype => .pass silent_skipBlock fun _ => silent_declare _ _ none htype
    have htype : ∀ {given : List Fact}, Fact.ofBases (buildType specs.base declared.2).baseNames ⊆
        declaratorFacts declared ++ (Fact.ofBases specs.base.baseNames ++ given) := fun {given} =>
      ofBases_buildType
        (fun f hf => List.mem_append_right _ (List.mem_append_left _ hf))
        (fun f hf => List.mem_append_left _ (List.mem_cons_of_mem _ hf))
    exact .ite (.pass (.fail _ fun _ => []) fun _ => hbody htype) (hbody htype)
  · refine .pass (silent_objects specs src.fuel ?_ (List.subset_append_left _ _)) fun _ =>
      silent_expect .semi
    exact fun f hf => List.mem_append_right _ (List.mem_append_left _ hf)

end CInterface
