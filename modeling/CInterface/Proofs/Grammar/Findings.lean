import CInterface.Proofs.CType.Qualifiers
import CInterface.Proofs.Grammar.Postcondition
import CInterface.Proofs.Grammar.Transaction
/-!
# What a declaration can find

No declaration defines a macro, and the types of all are built by the steps of declarators. The only
packing that is an error is one of the log that is no power of two.

* `CType.Formed` — the types that are built so.
* `Definition.types` — the types that a definition is made of.
* `Finding.Regular` — what can be said of every finding.
* `Finder` — a production that finds nothing else; `finderAtFuel` is the induction over the fuel.
* `yields_declaration`, `yields_typeExpression` — declarations, and types alone.
* `parseFile_regular` — what a header leaves in the registry and in the report.
-/

namespace CInterface

/-! ### Built types -/

/-- The parameters that a step adds. -/
def LayerStep.params : LayerStep → List Param
  | function params _ => params
  | qualify _ | pointer | reference | array _ => []

/-- The types that declarations build, step by step on a name with its qualifiers. Those of the name
have been inserted one by one, so that none is repeated. -/
inductive CType.Formed : CType → Prop where
  | base (name : String) {quals : Qualifiers} (h : quals.Nodup) : Formed (.base name quals)
  | step {t : CType} {s : LayerStep} (ht : Formed t) (hs : ∀ p ∈ s.params, Formed p.type) :
    Formed (s.apply t)

/-- The steps of a declarator, with formed parameters. -/
def FormedSteps (steps : List LayerStep) : Prop := ∀ s ∈ steps, ∀ p ∈ s.params, p.type.Formed

theorem formedSteps_nil : FormedSteps [] := fun _ hs => absurd hs List.not_mem_nil

theorem FormedSteps.cons {step : LayerStep} {steps : List LayerStep}
    (h : ∀ p ∈ step.params, p.type.Formed) (hsteps : FormedSteps steps) :
    FormedSteps (step :: steps) :=
  List.forall_mem_cons.2 ⟨h, hsteps⟩

theorem FormedSteps.append {a b : List LayerStep} (ha : FormedSteps a) (hb : FormedSteps b) :
    FormedSteps (a ++ b) := List.forall_mem_append.2 ⟨ha, hb⟩

theorem formedSteps_qualifySteps (quals : Qualifiers) : FormedSteps (qualifySteps quals) := by
  rw [qualifySteps]
  split
  · exact formedSteps_nil
  · exact .cons (fun _ hp => absurd hp List.not_mem_nil) formedSteps_nil

theorem formedSteps_boundSteps (bounds : List (Option UInt64)) :
    FormedSteps (boundSteps bounds) := by
  intro s hs
  obtain ⟨size, _, rfl⟩ := List.mem_map.1 hs
  exact fun _ hp => absurd hp List.not_mem_nil

/-- Steps build a formed type on a formed type. -/
theorem CType.Formed.buildType {t : CType} (h : t.Formed) {steps : List LayerStep}
    (hsteps : FormedSteps steps) : (buildType t steps).Formed := by
  induction steps generalizing t with
  | nil => exact h
  | cons step steps ih =>
    obtain ⟨hstep, hrest⟩ := List.forall_mem_cons.1 hsteps
    exact ih (h.step hstep) hrest

/-- What is under a parameter list, and its parameters. -/
theorem CType.Formed.of_function {t : CType} {params : List Param} {variadic : Bool}
    {quals : Qualifiers} (h : (CType.function t params variadic quals).Formed) :
    t.Formed ∧ ∀ p ∈ params, p.type.Formed := by
  generalize hu : CType.function t params variadic quals = u at h
  induction h generalizing quals with
  | base name h => cases hu
  | @step u s hu' hs ih =>
    cases s with
    | qualify more =>
      -- the qualifiers came last, so the parameter list was there before
      cases u with
      | function ret ps v q =>
        cases hu
        exact ih rfl
      | base | pointer | reference | array => cases hu
    | function ps v =>
      cases hu
      exact ⟨hu', hs⟩
    | pointer | reference | array => cases hu

/-! ### Regular findings -/

/-- The types that a definition is made of. -/
def Definition.types : Definition → List CType
  | ⟨.types, t⟩ => [t]
  | ⟨.vars, v⟩ => [v.type]
  | ⟨.functions, f⟩ => f.ret :: f.params.map (·.type)
  | ⟨.structs, c⟩ | ⟨.unions, c⟩ => c.fields.map (·.type)
  | ⟨.macros, _⟩ | ⟨.fnmacros, _⟩ | ⟨.enums, _⟩ | ⟨.values, _⟩ => []

/-- The category is one of the two kinds of macros. -/
def Category.isMacro : Category → Bool
  | macros | fnmacros => true
  | types | vars | functions | structs | unions | enums | values => false

/-- A definition as declarations give it: no macro, and of types that are formed. -/
structure Definition.Regular (x : Definition) : Prop where
  isMacro_eq_false : x.category.isMacro = false
  types : ∀ t ∈ x.types, t.Formed

/-- An error as declarations give it: a packing that is in error is one of the log, for the line of
the aggregate, and is no power of two. -/
def DefinitionError.Regular (packing : PackingLog) : DefinitionError → Prop
  | aggregate line _ _ cause =>
    ∃ p, cause = .invalidPack p ∧ packing.packAt line = some p ∧ isPowerOfTwo p = false
  | enumValue _ _ _ | bitWidth _ _ => True

/-- A finding as declarations give it. -/
def Finding.Regular (packing : PackingLog) : Finding → Prop
  | definition _ x => x.Regular
  | error e => e.Regular packing

/-! ### Enumerations and aggregates -/

variable {α : Type} {src : Source}

/-- All findings of the production are regular, and what it gives has the property. -/
abbrev Finder (src : Source) (p : Production α) (post : α → Prop) : Prop :=
  Yields (Finding.Regular src.packing) p post

namespace Definition

theorem regular_types {t : CType} (h : t.Formed) : Definition.Regular ⟨.types, t⟩ where
  isMacro_eq_false := rfl
  types _ hs := List.mem_singleton.1 hs ▸ h

theorem regular_enums (d : EnumDef) : Definition.Regular ⟨.enums, d⟩ where
  isMacro_eq_false := rfl
  types _ ht := absurd ht List.not_mem_nil

theorem regular_values (v : Value) : Definition.Regular ⟨.values, v⟩ where
  isMacro_eq_false := rfl
  types _ ht := absurd ht List.not_mem_nil

theorem regular_vars {t : CType} (h : t.Formed) (value : Option Value) (storage : List String) :
    Definition.Regular ⟨.vars, value, t, storage⟩ where
  isMacro_eq_false := rfl
  types _ hs := List.mem_singleton.1 hs ▸ h

theorem regular_functions {f : FunctionDecl} (hret : f.ret.Formed)
    (hparams : ∀ p ∈ f.params, p.type.Formed) : Definition.Regular ⟨.functions, f⟩ where
  isMacro_eq_false := rfl
  types := List.forall_mem_cons.2 ⟨hret, List.forall_mem_map.2 hparams⟩

theorem regular_compound (kind : CompoundKind) {c : Compound}
    (h : ∀ f ∈ c.fields, f.type.Formed) : (kind.definition c).Regular := by
  cases kind with
  | struct => exact ⟨rfl, List.forall_mem_map.2 h⟩
  | union => exact ⟨rfl, List.forall_mem_map.2 h⟩

end Definition

theorem yields_defineSynonym (keyword name : String) :
    Finder src (defineSynonym keyword name) fun _ => True :=
  .define (Definition.regular_types (.base _ List.nodup_nil))

theorem yields_defineEnum (name : String) (d : EnumDef) :
    Finder src (defineEnum name d) fun _ => True :=
  (Yields.define (Definition.regular_enums d)).pass fun _ => yields_defineSynonym "enum" name

theorem yields_defineCompound (kind : CompoundKind) (name : String) {c : Compound}
    (h : ∀ f ∈ c.fields, f.type.Formed) :
    Finder src (defineCompound kind name c) fun _ => True :=
  (Yields.define (Definition.regular_compound kind h)).pass fun _ =>
    yields_defineSynonym kind.keyword name

/-- A packing is in error only if it is no power of two, and it is the one that the log has for the
line of the aggregate. -/
theorem yields_defineFields (kind : CompoundKind) (name : String) (line : Nat) {fields : List Field}
    (h : ∀ f ∈ fields, f.type.Formed) :
    Finder src (src.defineFields kind name line fields) fun _ => True := by
  refine .get_bind fun s => .ite ?_ (.pure trivial)
  cases hmake : Compound.make? fields (src.packing.packAt line) with
  | ok c =>
    apply yields_defineCompound
    rw [Compound.fields_of_make? hmake]
    exact h
  | error cause => exact .report (Compound.pack_of_make? hmake)

theorem yields_memberValue (d : EnumDef) (member : String) :
    Finder src (src.memberValue d member) fun _ => True := by
  refine yields_line.pass fun line => (yields_tokensUntil _).pass fun tokens => ?_
  refine (yields_evaluate d tokens).pass fun value => ?_
  split
  · exact .pure trivial
  · exact (Yields.report trivial).pass fun _ => .pure trivial
  · exact (Yields.report trivial).pass fun _ => .pure trivial

theorem yields_enumMembers (fuel : Nat) (d : EnumDef) :
    Finder src (src.enumMembers fuel d) fun _ => True := by
  induction fuel generalizing d with
  | zero => exact .fail _
  | succ fuel ih =>
    rw [Source.enumMembers]
    refine (yields_comes .rbrace).pass fun _ => .ite (.pure trivial) ?_
    refine yields_name?.pass fun name => ?_
    cases name with
    | none => exact .fail _
    | some member =>
      refine (yields_accept .assign).pass fun _ => ?_
      refine .join (yields_memberValue d member) (.pure trivial) fun value => ?_
      exact (yields_accept .comma).pass fun _ => .ite (ih _) (.pure trivial)

theorem yields_defineMembers (name : String) (d : EnumDef) :
    Finder src (src.defineMembers name d) fun _ => True := by
  refine .get_bind fun s => .ite ?_ (.pure trivial)
  refine .pass (.forIn (fun e _ => ?_) _) fun _ => yields_defineEnum name d
  exact (Yields.define (Definition.regular_values (.int e.2))).pass fun _ => .pure trivial

theorem yields_enumeration : Finder src src.enumeration fun _ => True := by
  refine yields_name?.pass fun name => (yields_accept .lbrace).pass fun _ => .ite ?_ ?_
  · refine (yields_enumMembers src.fuel .empty).pass fun d => ?_
    refine (yields_expect .rbrace).pass fun _ => ?_
    have hnext : ∀ name : String, Finder src (do
        src.defineMembers name d
        return "enum " ++ name) fun _ => True :=
      fun name => (yields_defineMembers name d).pass fun _ => .pure trivial
    cases name with
    | some name => exact .pass (.pure trivial) hnext
    | none => exact (yields_anonymousName "enum").pass hnext
  · cases name with
    | none => exact .fail _
    | some name =>
      refine .get_bind fun s => .ite ?_ (.pure trivial)
      exact (yields_defineEnum name .empty).pass fun _ => .pure trivial

/-! ### Productions without recursion through declarations -/

/-- Qualifiers are inserted one by one, so none is repeated. -/
theorem yields_leadingWords {Φ : Finding → Prop} (fuel : Nat) (storage : List String)
    {quals : Qualifiers} (h : quals.Nodup) :
    Yields Φ (src.leadingWords fuel storage quals) fun words => words.2.Nodup := by
  induction fuel generalizing storage quals with
  | zero => exact .pure h
  | succ fuel ih =>
    rw [Source.leadingWords]
    refine .get_bind fun s => ?_
    split
    · exact .drop (ih _ h)
    · refine .get_bind fun s => ?_
      split
      · exact .moveTo_bind (ih _ (Qualifiers.nodup_insert h _))
      · exact .pure h

theorem yields_qualifiers (beforeType : Bool) (quals : Qualifiers) :
    Finder src (src.qualifiers beforeType quals) fun _ => True :=
  .get_bind fun _ => .moveTo_bind (.pure trivial)

theorem yields_indirections (fuel : Nat) :
    Finder src (src.indirections fuel) fun found => FormedSteps found.1 := by
  induction fuel with
  | zero => exact .pure formedSteps_nil
  | succ fuel ih =>
    rw [Source.indirections]
    refine (yields_qualifiers false []).pass fun quals => ?_
    have hnext : ∀ step : LayerStep, step.params = [] → Finder src (do
        let found ← src.indirections fuel
        return (qualifySteps quals ++ step :: found.1, found.2))
          fun found => FormedSteps found.1 := by
      intro step hstep
      refine ih.bind fun found hfound => .pure ((formedSteps_qualifySteps quals).append ?_)
      exact .cons (fun p hp => absurd (hstep ▸ hp) List.not_mem_nil) hfound
    refine (yields_accept .star).pass fun _ => .ite (hnext .pointer rfl) ?_
    exact (yields_accept .amp).pass fun _ => .ite (hnext .reference rfl)
      (.pure formedSteps_nil)

theorem yields_bitWidth (field : String) (line : Nat) :
    Finder src (src.bitWidth field line) fun _ => True := by
  refine (yields_tokensUntil _).pass fun tokens => (yields_evaluate _ tokens).pass fun v => ?_
  exact .ite ((Yields.report trivial).pass fun _ => .pure trivial) (.pure trivial)

/-! ### Productions that need one another -/

/-- The types of some fields are formed. -/
def FormedFields (fields : List Field) : Prop := ∀ f ∈ fields, f.type.Formed

/-- The types of some parameters are formed. -/
def FormedParams (params : List Param) : Prop := ∀ p ∈ params, p.type.Formed

/-- The productions that need one another, with the fuel. -/
structure FinderAtFuel (src : Source) (fuel : Nat) : Prop where
  specifiers : Finder src (src.specifiers fuel) fun specs => specs.base.Formed
  typeName : Finder src (src.typeName fuel) fun _ => True
  compound : ∀ kind, Finder src (src.compound fuel kind) fun _ => True
  members : Finder src (src.members fuel) FormedFields
  member : Finder src (src.member fuel) FormedFields
  fields : ∀ {base : CType} (line : Nat) {declared : String × List LayerStep}, base.Formed →
    FormedSteps declared.2 → Finder src (src.fields fuel base line declared) FormedFields
  declarator : Finder src (src.declarator fuel) fun declared => FormedSteps declared.2
  center : Finder src (src.center fuel) fun declared => FormedSteps declared.2
  abstractDeclarator : Finder src (src.abstractDeclarator fuel) FormedSteps
  abstractCenter : Finder src (src.abstractCenter fuel) FormedSteps
  suffix : ∀ quals, Finder src (src.suffix fuel quals) FormedSteps
  parameterList : Finder src (src.parameterList fuel) fun found => FormedParams found.1
  parameters : Finder src (src.parameters fuel) fun found => FormedParams found.1

namespace FinderAtFuel

theorem zero : FinderAtFuel src 0 where
  specifiers := .fail _
  typeName := .fail _
  compound _ := .fail _
  members := .fail _
  member := .fail _
  fields _ _ _ _ := .fail _
  declarator := .fail _
  center := .fail _
  abstractDeclarator := .fail _
  abstractCenter := .fail _
  suffix _ := .fail _
  parameterList := .fail _
  parameters := .fail _

variable {fuel : Nat}

theorem specifiers_succ (h : FinderAtFuel src fuel) :
    Finder src (src.specifiers (fuel + 1)) fun specs => specs.base.Formed := by
  rw [Source.specifiers]
  refine (yields_leadingWords _ _ List.nodup_nil).bind fun words hwords => ?_
  exact h.typeName.pass fun name => .pure (.base _ hwords)

theorem typeName_succ (h : FinderAtFuel src fuel) :
    Finder src (src.typeName (fuel + 1)) fun _ => True := by
  rw [Source.typeName]
  refine .get_bind fun s => ?_
  split
  · exact .fail _
  · refine .ite (h.compound .struct) (.ite (h.compound .union) (.ite ?_ (.ite ?_ (.ite ?_ ?_))))
    · exact .drop yields_enumeration
    · exact yields_fundamentalWords.pass fun _ => .pure trivial
    · exact .drop (.pure trivial)
    · exact .fail _

theorem compound_succ (h : FinderAtFuel src fuel) (kind : CompoundKind) :
    Finder src (src.compound (fuel + 1) kind) fun _ => True := by
  rw [Source.compound]
  refine yields_line.pass fun line => .drop (yields_name?.pass fun name => ?_)
  refine (yields_accept .lbrace).pass fun _ => .ite (h.members.bind fun fields hfields => ?_) ?_
  · have hnext : ∀ name : String, Finder src (do
        src.defineFields kind name line fields
        return kind.keyword ++ " " ++ name) fun _ => True := fun name =>
      (yields_defineFields kind name line hfields).pass fun _ => .pure trivial
    cases name with
    | some name => exact .pass (.pure trivial) hnext
    | none => exact (yields_anonymousName _).pass hnext
  · cases name with
    | none => exact .fail _
    | some name =>
      refine .get_bind fun s => .ite ?_ (.pure trivial)
      exact (yields_defineCompound kind name fun f hf => absurd hf List.not_mem_nil).pass fun _ =>
        .pure trivial

theorem members_succ (h : FinderAtFuel src fuel) :
    Finder src (src.members (fuel + 1)) FormedFields := by
  rw [Source.members]
  have hnone : FormedFields [] := fun f hf => absurd hf List.not_mem_nil
  refine (yields_accept .rbrace).pass fun _ => .ite (.pure hnone) ?_
  refine (yields_accept .semi).pass fun _ => .ite h.members ?_
  refine .get_bind fun s => .ite (.fail _) ?_
  exact h.member.bind fun fields hfields => h.members.bind fun more hmore =>
    .pure (List.forall_mem_append.2 ⟨hfields, hmore⟩)

theorem member_succ (h : FinderAtFuel src fuel) :
    Finder src (src.member (fuel + 1)) FormedFields := by
  have hbody : Finder src (do
      src.skipBlock
      let _ ← accept .semi
      return ([] : List Field)) FormedFields :=
    yields_skipBlock.pass fun _ => (yields_accept .semi).pass fun _ =>
      .pure fun f hf => absurd hf List.not_mem_nil
  have hembedded : ∀ {t : CType} (bits : Option UInt32), t.Formed →
      FormedFields [⟨none, t, none, bits⟩] := by
    intro t bits ht f hf
    rw [List.mem_singleton.1 hf]
    exact ht
  rw [Source.member]
  have hlookahead : Finds (Finding.Regular src.packing) (do
      let _ ← src.declarator fuel
      if !(← comes .lbrace) then src.fail (.punct .lbrace)) :=
    h.declarator.bind fun _ _ => (yields_comes .lbrace).pass fun _ =>
      .ite (.fail _) (.pure trivial)
  refine (Yields.attempt hlookahead).bind fun _ _ => .ite hbody ?_
  refine yields_line.pass fun line => h.specifiers.bind fun specs hspecs => ?_
  refine (yields_accept .semi).pass fun _ => .ite (.pure (hembedded none hspecs)) ?_
  refine (yields_accept .colon).pass fun _ => .ite ?_ ?_
  · exact (yields_bitWidth _ line).pass fun bits => (yields_expect .semi).pass fun _ =>
      .pure (hembedded bits hspecs)
  · refine h.declarator.bind fun declared hdeclared => ?_
    refine (yields_comes .lbrace).pass fun _ => .ite hbody ?_
    exact (h.fields line hspecs hdeclared).bind fun fields hfields =>
      (yields_expect .semi).pass fun _ => .pure hfields

theorem fields_succ (h : FinderAtFuel src fuel) {base : CType} (line : Nat)
    {declared : String × List LayerStep} (hbase : base.Formed)
    (hdeclared : FormedSteps declared.2) :
    Finder src (src.fields (fuel + 1) base line declared) FormedFields := by
  rw [Source.fields]
  refine (yields_accept .colon).pass fun _ => ?_
  refine .join (yields_bitWidth declared.1 line) (.pure trivial) fun bits => ?_
  refine (yields_accept .assign).pass fun _ => ?_
  refine .join (yields_initializer src.fuel) (.pure trivial) fun default => ?_
  have hfield : ∀ {more : List Field}, FormedFields more →
      FormedFields (⟨some declared.1, buildType base declared.2, default, bits⟩ :: more) :=
    fun hmore => List.forall_mem_cons.2 ⟨hbase.buildType hdeclared, hmore⟩
  refine (yields_accept .comma).pass fun _ => .ite ?_
    (.pure (hfield fun f hf => absurd hf List.not_mem_nil))
  exact h.declarator.bind fun next hnext => (h.fields line hbase hnext).bind fun more hmore =>
    .pure (hfield hmore)

theorem declarator_succ (h : FinderAtFuel src fuel) :
    Finder src (src.declarator (fuel + 1)) fun declared => FormedSteps declared.2 := by
  rw [Source.declarator]
  refine (yields_indirections src.fuel).bind fun before hbefore => ?_
  refine h.center.bind fun center hcenter => (h.suffix before.2).bind fun behind hbehind => ?_
  exact .pure ((hbefore.append hbehind).append hcenter)

theorem center_succ (h : FinderAtFuel src fuel) :
    Finder src (src.center (fuel + 1)) fun declared => FormedSteps declared.2 := by
  rw [Source.center]
  refine yields_name?.pass fun name => ?_
  cases name with
  | some name => exact .pure formedSteps_nil
  | none =>
    refine (yields_accept .lparen).pass fun _ => .ite ?_ (.fail _)
    exact h.declarator.bind fun inner hinner => (yields_expect .rparen).pass fun _ => .pure hinner

/-- Where there is no declarator in parentheses, it adds no steps. -/
theorem abstractDeclarator_succ (h : FinderAtFuel src fuel) :
    Finder src (src.abstractDeclarator (fuel + 1)) FormedSteps := by
  rw [Source.abstractDeclarator]
  refine (yields_indirections src.fuel).bind fun before hbefore => ?_
  refine (Yields.attempt h.abstractCenter).bind fun center hcenter => ?_
  refine (h.suffix before.2).bind fun behind hbehind => .pure ((hbefore.append hbehind).append ?_)
  cases center with
  | none => exact formedSteps_nil
  | some steps => exact hcenter steps rfl

theorem abstractCenter_succ (h : FinderAtFuel src fuel) :
    Finder src (src.abstractCenter (fuel + 1)) FormedSteps := by
  rw [Source.abstractCenter]
  refine (yields_expect .lparen).pass fun _ => h.abstractDeclarator.bind fun inner hinner => ?_
  have hnext : Finder src (do
      src.expect .rparen
      return inner) FormedSteps := (yields_expect .rparen).pass fun _ => .pure hinner
  exact .ite (.pass (.fail _) fun _ => hnext) hnext

theorem suffix_succ (h : FinderAtFuel src fuel) (quals : Qualifiers) :
    Finder src (src.suffix (fuel + 1) quals) FormedSteps := by
  rw [Source.suffix]
  have hnext : ∀ params : List LayerStep, FormedSteps params → Finder src (do
      let bounds ← src.arrayBounds src.fuel
      return params ++ qualifySteps quals ++ boundSteps bounds) FormedSteps :=
    fun params hparams => (yields_arrayBounds src.fuel).pass fun bounds =>
      .pure ((hparams.append (formedSteps_qualifySteps quals)).append
        (formedSteps_boundSteps bounds))
  have hpure : ∀ params : List LayerStep, FormedSteps params →
      Finder src (pure params) FormedSteps := fun _ hparams => .pure hparams
  refine (yields_comes .lparen).pass fun _ => .ite ?_ ((hpure [] formedSteps_nil).bind hnext)
  exact h.parameterList.bind fun found hfound =>
    (hpure [.function found.1 found.2] (.cons hfound formedSteps_nil)).bind hnext

theorem parameterList_succ (h : FinderAtFuel src fuel) :
    Finder src (src.parameterList (fuel + 1)) fun found => FormedParams found.1 := by
  have hnone : FormedParams [] := fun p hp => absurd hp List.not_mem_nil
  rw [Source.parameterList]
  refine (yields_expect .lparen).pass fun _ => ?_
  refine (yields_accept .rparen).pass fun _ => .ite (.pure hnone) ?_
  have hnext : Finder src (do
      let found ← src.parameters fuel
      src.expect .rparen
      return found) fun found => FormedParams found.1 :=
    h.parameters.bind fun _ hfound => (yields_expect .rparen).pass fun _ => .pure hfound
  refine .get_bind fun s => ?_
  split
  · exact .ite (.moveTo_bind (.pure hnone)) hnext
  · exact hnext

theorem parameters_succ (h : FinderAtFuel src fuel) :
    Finder src (src.parameters (fuel + 1)) fun found => FormedParams found.1 := by
  have hnone : FormedParams [] := fun p hp => absurd hp List.not_mem_nil
  rw [Source.parameters]
  refine (yields_accept .ellipsis).pass fun _ => .ite (.pure hnone) ?_
  refine h.specifiers.bind fun specs hspecs => ?_
  have hdeclared : Finder src
      (either
        (do
          let found ← src.declarator fuel
          return (some found.1, found.2))
        (do return ((none : Option String), ← src.abstractDeclarator fuel)))
      fun declared => FormedSteps declared.2 :=
    .either (h.declarator.bind fun _ hfound => .pure hfound)
      (h.abstractDeclarator.bind fun _ hsteps => .pure hsteps)
  refine hdeclared.bind fun declared hsteps => (yields_accept .assign).pass fun _ => ?_
  have hparam : ∀ (default : Option Value) {more : List Param}, FormedParams more →
      FormedParams (⟨declared.1, buildType specs.base declared.2, default⟩ :: more) :=
    fun _ _ hmore => List.forall_mem_cons.2 ⟨hspecs.buildType hsteps, hmore⟩
  have hnext : ∀ default : Option Value, Finder src (do
      let param : Param := ⟨declared.1, buildType specs.base declared.2, default⟩
      if ← accept .comma then
        let found ← src.parameters fuel
        return (param :: found.1, found.2)
      else return ([param], false)) fun found => FormedParams found.1 := fun default =>
    (yields_accept .comma).pass fun _ =>
      .ite (h.parameters.bind fun _ hmore => .pure (hparam default hmore))
        (.pure (hparam default hnone))
  refine .ite ?_ (.pass (.pure trivial) hnext)
  refine (yields_tokensUntil _).pass fun tokens => (yields_evaluate _ tokens).pass fun _ => ?_
  exact .pass (.pure trivial) hnext

end FinderAtFuel

/-- With any fuel, each of the productions has regular findings only. -/
theorem finderAtFuel (fuel : Nat) : FinderAtFuel src fuel := by
  induction fuel with
  | zero => exact .zero
  | succ fuel ih =>
    exact
      { specifiers := ih.specifiers_succ
        typeName := ih.typeName_succ
        compound := ih.compound_succ
        members := ih.members_succ
        member := ih.member_succ
        fields := ih.fields_succ
        declarator := ih.declarator_succ
        center := ih.center_succ
        abstractDeclarator := ih.abstractDeclarator_succ
        abstractCenter := ih.abstractCenter_succ
        suffix := ih.suffix_succ
        parameterList := ih.parameterList_succ
        parameters := ih.parameters_succ }

/-! ### Declarations -/

theorem yields_declare (storage : List String) (name : String) {t : CType} (h : t.Formed)
    (value : Option Value) : Finder src (declare storage name t value) fun _ => True := by
  unfold declare
  split
  · obtain ⟨hret, hparams⟩ := h.of_function
    exact .define (Definition.regular_functions hret hparams)
  · have hvar : Finder src (define name ⟨.vars, value, _, storage⟩) fun _ => True :=
      .define (Definition.regular_vars h value storage)
    split
    · exact (Yields.define (Definition.regular_values _)).pass fun _ => hvar
    · exact hvar

theorem yields_objects {specs : Specifiers} (hspecs : specs.base.Formed) (fuel : Nat)
    {declared : String × List LayerStep} (h : FormedSteps declared.2) :
    Finder src (src.objects specs fuel declared) fun _ => True := by
  induction fuel generalizing declared with
  | zero => exact .fail _
  | succ fuel ih =>
    rw [Source.objects]
    refine (yields_accept .assign).pass fun _ => ?_
    refine .join (yields_initializer src.fuel) (.pure trivial) fun value => ?_
    refine (yields_declare _ _ (hspecs.buildType h) value).pass fun _ => ?_
    refine (yields_accept .comma).pass fun _ => .ite ?_ (.pure trivial)
    exact (finderAtFuel src.fuel).declarator.bind fun next hnext => ih hnext

theorem yields_typedefNames {base : CType} (h : base.Formed) (fuel : Nat) :
    Finder src (src.typedefNames base fuel) fun _ => True := by
  induction fuel with
  | zero => exact .fail _
  | succ fuel ih =>
    rw [Source.typedefNames]
    refine (finderAtFuel src.fuel).declarator.bind fun declared hdeclared => ?_
    refine (Yields.define (Definition.regular_types (h.buildType hdeclared))).pass fun _ => ?_
    exact (yields_accept .comma).pass fun _ => .ite ih (.pure trivial)

theorem yields_typedefBody : Finder src src.typedefBody fun _ => True := by
  refine (finderAtFuel src.fuel).specifiers.bind fun specs hspecs => ?_
  refine (yields_comes .semi).pass fun _ => .ite ?_ (yields_expect .semi)
  exact (yields_typedefNames hspecs src.fuel).pass fun _ => yields_expect .semi

/-- **All findings of a declaration are regular.** -/
theorem yields_declaration : Finder src src.declaration fun _ => True := by
  refine (yields_acceptWord "typedef").pass fun _ => .ite yields_typedefBody ?_
  refine (finderAtFuel src.fuel).specifiers.bind fun specs hspecs => ?_
  refine (yields_accept .semi).pass fun _ => .ite (.pure trivial) ?_
  refine (finderAtFuel src.fuel).declarator.bind fun declared hdeclared => ?_
  refine (yields_comes .lbrace).pass fun _ => .ite ?_ ?_
  · have hbody : Finder src (do
        src.skipBlock
        declare specs.storage declared.1 (buildType specs.base declared.2) none) fun _ => True :=
      yields_skipBlock.pass fun _ => yields_declare _ _ (hspecs.buildType hdeclared) none
    exact .ite (.pass (.fail _) fun _ => hbody) hbody
  · exact (yields_objects hspecs src.fuel hdeclared).pass fun _ => yields_expect .semi

/-- A type alone is formed too. -/
theorem yields_typeExpression : Finder src src.typeExpression fun found => found.2.Formed := by
  refine (finderAtFuel src.fuel).specifiers.bind fun specs hspecs => ?_
  have hdeclared : Finder src src.anyDeclarator fun declared => FormedSteps declared.2 :=
    .either ((finderAtFuel src.fuel).declarator.bind fun _ hfound => .pure hfound)
      ((finderAtFuel src.fuel).abstractDeclarator.bind fun _ hsteps => .pure hsteps)
  refine hdeclared.bind fun declared hsteps => (yields_accept .semi).pass fun _ => ?_
  refine .get_bind fun s => ?_
  split
  · exact .throw _
  · exact .pure (hspecs.buildType hsteps)

/-! ### Headers -/

theorem Registry.insertAll_append (r : Registry) (file : String)
    (a b : List (String × Definition)) :
    r.insertAll file (a ++ b) = (r.insertAll file a).insertAll file b := List.foldl_append

/-- The registry is that of before with regular definitions, and the errors are regular. -/
structure HeaderState.Regular (s : HeaderState) (registry : Registry) (file : String)
    (packing : PackingLog) : Prop where
  definitions : ∃ ds : List (String × Definition),
    s.registry = registry.insertAll file ds ∧ ∀ d ∈ ds, d.2.Regular
  errors : ∀ e ∈ s.report.errors, e.Regular packing

/-- What a turn finds is regular. -/
theorem Iteration.regular {h : HeaderText} {s s' : HeaderState} (hturn : Iteration h s s')
    {registry : Registry} (hs : s.Regular registry h.file h.start.packing) :
    s'.Regular registry h.file h.start.packing := by
  cases hturn with
  | semicolon _ _ hnext | opened _ hnext | closed _ _ _ _ hnext =>
    rw [hnext]
    exact ⟨hs.definitions, hs.errors⟩
  | declared _ hreads hsettled =>
    obtain ⟨⟨ds, hregistry, hds⟩, herrors⟩ := hs
    cases hsettled with
    | committed hmatches _ hnext =>
      have hfound := (Yields.found yields_declaration (hreads.run hmatches)).1
      rw [hnext]
      refine ⟨⟨ds ++ definitionsOf _, ?_, List.forall_mem_append.2 ⟨hds, hfound⟩⟩, herrors⟩
      rw [hregistry, Registry.insertAll_append]
    | rejected hmatches _ hnext =>
      have hfound := (Yields.found yields_declaration (hreads.run hmatches)).2
      rw [hnext]
      exact ⟨⟨ds, hregistry, hds⟩, List.forall_mem_append.2 ⟨herrors, hfound⟩⟩
    | skipped _ hnext =>
      rw [hnext]
      exact ⟨⟨ds, hregistry, hds⟩, herrors⟩

/-- **What the reading of a header leaves.** The registry has got regular definitions, and the errors
that are reported are regular. -/
theorem parseFile_regular (g : Grammar) (registry : Registry) (file : String)
    (packing : PackingLog) (text : String) :
    (∃ ds : List (String × Definition),
      (g.parseFile registry file packing text).1 = registry.insertAll file ds ∧
        ∀ d ∈ ds, d.2.Regular) ∧
      ∀ e ∈ (g.parseFile registry file packing text).2.errors, e.Regular packing := by
  have hturns : ∀ n : Nat, ((g.header registry file packing text).run n
      (.start registry text)).Regular registry file packing := by
    intro n
    induction n with
    | zero =>
      exact ⟨⟨[], rfl, fun d hd => absurd hd List.not_mem_nil⟩,
        fun e he => absurd he List.not_mem_nil⟩
    | succ n ih =>
      rcases HeaderText.turn_run _ n _ with ⟨-, hstay⟩ | ⟨-, hturn⟩
      · rw [hstay]
        exact ih
      · exact (hturn.iteration (HeaderText.idle_run (idle_start registry text) n)).regular ih
  obtain ⟨hdefinitions, herrors⟩ := hturns (tokenize text).length
  exact ⟨hdefinitions, herrors⟩

end CInterface
