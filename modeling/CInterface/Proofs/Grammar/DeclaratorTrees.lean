import CInterface.Grammar.Declaration
import CInterface.Proofs.Grammar.Postcondition
/-!
# Declarators as trees

A declarator can be read as it is written, into a tree that may have a name or none, and be applied
to a type afterwards. The grammar reads it straight into the steps of the building; here the two are
shown to be the same.

* `Declarator`, `DeclaratorCore` — a declarator as it is written.
* `Declarator.reduce` — its name, if it has one, and the type that it makes of another.
* `Source.shape` — reading trees, with a name or without one.
* `gives_shape_named`, `gives_shape_abstract` — which of them have names.
* `declarator_eq_shape`, `abstractDeclarator_eq_shape` — the grammar reads the same.
-/

namespace CInterface

/-! ### Trees -/

/-- A pointer or reference with the qualifiers that are written before it. -/
structure Indirection where
  before : Qualifiers
  isReference : Bool

mutual

/-- A declarator as it is written. -/
inductive Declarator where
  /-- The pointers and references, the qualifiers behind them, the core, a parameter list if there
  is one, and array bounds. -/
  | mk (indirections : List Indirection) (quals : Qualifiers) (core : DeclaratorCore)
      (params : Option (List Param × Bool)) (bounds : List (Option UInt64))

/-- What stands where the declared name is, or would be. -/
inductive DeclaratorCore where
  | name (name : String)
  | center (inner : Declarator)
  | abstract

end

/-- The type behind a pointer or reference. -/
def Indirection.apply (t : CType) (i : Indirection) : CType :=
  if i.isReference then .reference (t.addOuter i.before) [] else .pointer (t.addOuter i.before) []

/-- The steps of a pointer or reference. -/
def Indirection.steps (i : Indirection) : List LayerStep :=
  qualifySteps i.before ++ [if i.isReference then .reference else .pointer]

/-- The step of a parameter list. -/
def paramSteps (params : Option (List Param × Bool)) : List LayerStep :=
  params.toList.map fun p => .function p.1 p.2

mutual

/-- Applies a declarator to a type: the name that it declares, if there is one, and its type. -/
def Declarator.reduce : Declarator → CType → Option String × CType
  | .mk indirections quals core params bounds, base =>
    let t := indirections.foldl Indirection.apply base
    let t := match params with
      | none => t.addOuter quals
      | some (params, variadic) => (CType.function t params variadic []).addOuter quals
    core.reduce (bounds.reverse.foldl (fun t size => .array t size []) t)

/-- Applies the core last. -/
def DeclaratorCore.reduce : DeclaratorCore → CType → Option String × CType
  | .name name, t => (some name, t)
  | .center inner, t => inner.reduce t
  | .abstract, t => (none, t)

end

mutual

/-- The declared name. -/
def Declarator.name? : Declarator → Option String
  | .mk _ _ core _ _ => core.name?

def DeclaratorCore.name? : DeclaratorCore → Option String
  | .name name => some name
  | .center inner => inner.name?
  | .abstract => none

end

mutual

/-- The steps that build the type. -/
def Declarator.steps : Declarator → List LayerStep
  | .mk indirections quals core params bounds =>
    indirections.flatMap Indirection.steps ++
      (paramSteps params ++ qualifySteps quals ++ boundSteps bounds) ++ core.steps

def DeclaratorCore.steps : DeclaratorCore → List LayerStep
  | .name _ | .abstract => []
  | .center inner => inner.steps

end

/-- There is neither a name nor a declarator in parentheses. -/
def DeclaratorCore.isAbstract : DeclaratorCore → Bool
  | .abstract => true
  | .name _ | .center _ => false

/-- Nothing at all is written. -/
def Declarator.isEmpty : Declarator → Bool
  | .mk indirections quals core params bounds =>
    indirections.isEmpty && quals.isEmpty && core.isAbstract && params.isNone && bounds.isEmpty

/-! ### Reducing by steps -/

theorem buildType_indirections (is : List Indirection) (t : CType) :
    buildType t (is.flatMap Indirection.steps) = is.foldl Indirection.apply t := by
  induction is generalizing t with
  | nil => rfl
  | cons i is ih =>
    have hone : buildType t i.steps = i.apply t := by
      rw [Indirection.steps, buildType_append, buildType_qualifySteps, Indirection.apply]
      cases i.isReference <;> rfl
    rw [List.flatMap_cons, buildType_append, hone, ih]
    rfl

theorem buildType_boundSteps (bounds : List (Option UInt64)) (t : CType) :
    buildType t (boundSteps bounds) = bounds.reverse.foldl (fun t size => .array t size []) t := by
  rw [boundSteps, buildType, List.foldl_map]
  rfl

mutual

/-- **A declarator is reduced by its steps.** -/
theorem Declarator.reduce_eq (d : Declarator) (t : CType) :
    d.reduce t = (d.name?, buildType t d.steps) := by
  match d with
  | .mk indirections quals core params bounds =>
    have hcore := core.reduce_eq
    cases params <;>
      simp only [Declarator.reduce, Declarator.name?, Declarator.steps, hcore, buildType_append,
        buildType_indirections, buildType_qualifySteps, buildType_boundSteps] <;> rfl

theorem DeclaratorCore.reduce_eq (c : DeclaratorCore) (t : CType) :
    c.reduce t = (c.name?, buildType t c.steps) := by
  match c with
  | .name n => rfl
  | .center inner => exact inner.reduce_eq t
  | .abstract => rfl

end

/-! ### Reading trees -/

namespace Source

/-- Reads pointers and references with the qualifiers before them, and the qualifiers behind
them. -/
def writtenIndirections (src : Source) : Nat → Production (List Indirection × Qualifiers)
  | 0 => return ([], [])
  | fuel + 1 => do
    let quals ← src.qualifiers false []
    if ← accept .star then
      let (is, last) ← src.writtenIndirections fuel
      return (⟨quals, false⟩ :: is, last)
    else if ← accept .amp then
      let (is, last) ← src.writtenIndirections fuel
      return (⟨quals, true⟩ :: is, last)
    else return ([], quals)

/-- Reads the parameter list and the array bounds behind a core. -/
def writtenSuffix (src : Source) :
    Nat → Production (Option (List Param × Bool) × List (Option UInt64))
  | 0 => src.fail .declarator
  | fuel + 1 => do
    let params ← if ← comes .lparen then some <$> src.parameterList fuel else pure none
    return (params, ← src.arrayBounds src.fuel)

mutual

/-- Reads a declarator, with a name or without. -/
def shape (src : Source) (named : Bool) : Nat → Production Declarator
  | 0 => src.fail .declarator
  | fuel + 1 => do
    let (is, quals) ← src.writtenIndirections src.fuel
    let core ← if named then src.namedCore fuel else src.abstractCore fuel
    let (params, bounds) ← src.writtenSuffix fuel
    return .mk is quals core params bounds

/-- Reads a name, or the declarator in parentheses that holds it. -/
def namedCore (src : Source) : Nat → Production DeclaratorCore
  | 0 => src.fail .declarator
  | fuel + 1 => do
    match ← src.name? with
    | some name => return .name name
    | none =>
      if ← accept .lparen then
        let inner ← src.shape true fuel
        src.expect .rparen
        return .center inner
      else src.fail .declarator

/-- Reads a declarator without a name in parentheses, unless it is empty. -/
def abstractCore (src : Source) : Nat → Production DeclaratorCore
  | 0 => return .abstract
  | fuel + 1 => do
    let inner ← attempt do
      src.expect .lparen
      let inner ← src.shape false fuel
      if inner.isEmpty then src.fail .declarator
      src.expect .rparen
      return inner
    return (inner.map .center).getD .abstract

end

/-! ### What the trees are -/

variable {src : Source}

theorem indirections_eq (fuel : Nat) : src.indirections fuel =
    (fun r => (r.1.flatMap Indirection.steps, r.2)) <$> src.writtenIndirections fuel := by
  induction fuel with
  | zero => rfl
  | succ fuel ih =>
    rw [indirections, writtenIndirections, ih]
    simp only [map_eq_pure_bind, bind_assoc, pure_bind]
    refine bind_congr fun quals => bind_congr fun star => ?_
    cases star with
    | true => simp [Indirection.steps]
    | false =>
      simp only [Bool.false_eq_true, if_false, bind_assoc]
      refine bind_congr fun amp => ?_
      cases amp <;> simp [Indirection.steps]

theorem suffix_eq (fuel : Nat) (quals : Qualifiers) : src.suffix fuel quals =
    (fun r => paramSteps r.1 ++ qualifySteps quals ++ boundSteps r.2) <$>
      src.writtenSuffix fuel := by
  cases fuel with
  | zero => rfl
  | succ fuel =>
    rw [suffix, writtenSuffix]
    simp only [map_eq_pure_bind, bind_assoc, pure_bind]
    refine bind_congr fun opening => ?_
    cases opening <;> simp [paramSteps]

/-- The grammar reads a declarator with a name, and its center, as the trees say. -/
theorem declarator_eq_shape (fuel : Nat) :
    src.declarator fuel = (fun d => (d.name?.getD "", d.steps)) <$> src.shape true fuel ∧
      src.center fuel = (fun c => (c.name?.getD "", c.steps)) <$> src.namedCore fuel := by
  induction fuel with
  | zero => exact ⟨rfl, rfl⟩
  | succ fuel ih =>
    constructor
    · rw [declarator, shape, indirections_eq, ih.2]
      simp only [map_eq_pure_bind, bind_assoc, pure_bind, if_true, suffix_eq]
      rfl
    · rw [center, namedCore, ih.1]
      simp only [map_eq_pure_bind, bind_assoc]
      refine bind_congr fun name => ?_
      cases name with
      | some name => rfl
      | none =>
        simp only [bind_assoc]
        refine bind_congr fun opening => ?_
        cases opening with
        | true => simp [DeclaratorCore.name?, DeclaratorCore.steps]
        | false =>
          funext s
          rfl

end Source

/-! ### Names of trees -/

/-- Whatever the production gives has the property. -/
abbrev Gives {α : Type} (p : Production α) (post : α → Prop) : Prop := Yields (fun _ => True) p post

theorem gives_any {α : Type} (p : Production α) : Gives p fun _ => True :=
  fun _ _ _ _ _ => ⟨⟨fun _ _ => trivial, fun _ _ => trivial⟩, trivial⟩

/-- What follows a production has to agree on what it gives only. -/
theorem Yields.bind_congr {α β : Type} {p : Production α} {q q' : α → Production β}
    {post : α → Prop} (hp : Gives p post) (hq : ∀ a, post a → q a = q' a) :
    p >>= q = p >>= q' := by
  funext s
  change (p s >>= fun r => q r.1 r.2) = (p s >>= fun r => q' r.1 r.2)
  cases hrun : p s with
  | error e => rfl
  | ok r =>
    have hpost := (hp s ⟨fun _ _ => trivial, fun _ _ => trivial⟩ r.1 r.2 hrun).2
    exact congrFun (hq r.1 hpost) r.2

theorem attempt_map {α β : Type} (f : α → β) (p : Production α) :
    attempt (f <$> p) = Option.map f <$> attempt p := by
  funext s
  have hinside : (f <$> p) s = p s >>= fun r => .ok (f r.1, r.2) := rfl
  have houtside : (Option.map f <$> attempt p) s = attempt p s >>= fun r => .ok (r.1.map f, r.2) :=
    rfl
  rw [houtside, attempt, attempt, hinside]
  cases p s <;> rfl

theorem Indirection.steps_ne_nil (i : Indirection) : i.steps ≠ [] :=
  List.append_ne_nil_of_right_ne_nil _ (List.cons_ne_nil _ _)

/-- A declarator is empty if it has no steps, provided that this is so of its core. -/
theorem Declarator.isEmpty_eq {indirections : List Indirection} {quals : Qualifiers}
    {core : DeclaratorCore} {params : Option (List Param × Bool)} {bounds : List (Option UInt64)}
    (h : core.isAbstract = core.steps.isEmpty) :
    (Declarator.mk indirections quals core params bounds).isEmpty =
      (Declarator.mk indirections quals core params bounds).steps.isEmpty := by
  have hindirections : indirections.flatMap Indirection.steps = [] ↔ indirections = [] := by
    cases indirections with
    | nil => exact ⟨fun _ => rfl, fun _ => rfl⟩
    | cons i is =>
      rw [List.flatMap_cons, List.append_eq_nil_iff]
      exact ⟨fun h => absurd h.1 i.steps_ne_nil, nofun⟩
  have hparams : paramSteps params = [] ↔ params = none := by cases params <;> simp [paramSteps]
  have hquals : qualifySteps quals = [] ↔ quals = [] := by
    rw [qualifySteps]
    cases quals <;> simp
  have hbounds : boundSteps bounds = [] ↔ bounds = [] := by
    rw [boundSteps, List.map_eq_nil_iff, List.reverse_eq_nil_iff]
  rw [Declarator.isEmpty, Declarator.steps, h, Bool.eq_iff_iff]
  simp only [Bool.and_eq_true, List.isEmpty_iff, Option.isNone_iff_eq_none, List.append_eq_nil_iff,
    hindirections, hparams, hquals, hbounds]
  constructor
  · rintro ⟨⟨⟨⟨hi, hq⟩, hc⟩, hp⟩, hb⟩
    exact ⟨⟨hi, ⟨hp, hq⟩, hb⟩, hc⟩
  · rintro ⟨⟨hi, ⟨hp, hq⟩, hb⟩, hc⟩
    exact ⟨⟨⟨⟨hi, hq⟩, hc⟩, hp⟩, hb⟩

namespace Source

/-- **A declarator that is read with a name has one**, however many parentheses it stands in. -/
theorem gives_shape_named {src : Source} (fuel : Nat) :
    Gives (src.shape true fuel) (fun d => d.name?.isSome) ∧
      Gives (src.namedCore fuel) fun c => c.name?.isSome := by
  induction fuel with
  | zero => exact ⟨.fail _, .fail _⟩
  | succ fuel ih =>
    constructor
    · rw [shape]
      refine (gives_any _).pass fun before => ih.2.bind fun core hcore => ?_
      exact (gives_any _).pass fun behind => .pure hcore
    · rw [namedCore]
      refine (gives_any _).pass fun name => ?_
      cases name with
      | some name => exact .pure rfl
      | none =>
        refine (gives_any _).pass fun _ => .ite ?_ (.fail _)
        exact ih.1.bind fun inner hinner => (gives_any _).pass fun _ => .pure hinner

/-- **A declarator that is read without a name has none**, and is empty if it has no steps. -/
theorem gives_shape_abstract {src : Source} (fuel : Nat) :
    Gives (src.shape false fuel) (fun d => d.name? = none ∧ d.isEmpty = d.steps.isEmpty) ∧
      Gives (src.abstractCore fuel)
        fun c => c.name? = none ∧ c.isAbstract = c.steps.isEmpty := by
  induction fuel with
  | zero => exact ⟨.fail _, .pure ⟨rfl, rfl⟩⟩
  | succ fuel ih =>
    constructor
    · rw [shape]
      refine (gives_any _).pass fun before => ih.2.bind fun core hcore => ?_
      refine (gives_any _).pass fun behind => .pure ⟨hcore.1, ?_⟩
      exact Declarator.isEmpty_eq hcore.2
    · rw [abstractCore]
      have hinner : Gives (attempt do
          src.expect .lparen
          let inner ← src.shape false fuel
          if inner.isEmpty then src.fail .declarator
          src.expect .rparen
          return inner) fun inner => ∀ d, inner = some d →
            d.name? = none ∧ d.steps.isEmpty = false := by
        refine .attempt ((gives_any _).pass fun _ => ih.1.bind fun inner hinner => ?_)
        cases hempty : inner.isEmpty with
        | true =>
          have hfails : Gives (src.fail .declarator : Production PUnit) fun _ => False := .fail _
          exact hfails.bind fun _ h => h.elim
        | false =>
          exact (gives_any _).pass fun _ => .pure ⟨hinner.1, hinner.2.symm.trans hempty⟩
      refine hinner.bind fun inner hinner => .pure ?_
      cases inner with
      | none => exact ⟨rfl, rfl⟩
      | some d => exact ⟨(hinner d rfl).1, (hinner d rfl).2.symm⟩

/-- The grammar reads a declarator without a name, and its center, as the trees say. -/
theorem abstractDeclarator_eq_shape (src : Source) (fuel : Nat) :
    src.abstractDeclarator fuel = Declarator.steps <$> src.shape false fuel ∧
      (fun center => center.getD []) <$> attempt (src.abstractCenter fuel) =
        DeclaratorCore.steps <$> src.abstractCore fuel := by
  induction fuel with
  | zero => exact ⟨rfl, rfl⟩
  | succ fuel ih =>
    constructor
    · have hcenter : ∀ {β : Type} (k : List LayerStep → Production β),
          (attempt (src.abstractCenter fuel) >>= fun center => k (center.getD [])) =
            src.abstractCore fuel >>= fun core => k core.steps := by
        intro β k
        rw [← bind_map_left (fun center : Option (List LayerStep) => center.getD []), ih.2,
          bind_map_left]
      rw [abstractDeclarator, shape, indirections_eq]
      simp only [map_eq_pure_bind, bind_assoc, pure_bind, Bool.false_eq_true, if_false, suffix_eq]
      refine bind_congr fun before => ?_
      exact hcenter fun steps => do
        let behind ← src.writtenSuffix fuel
        return before.1.flatMap Indirection.steps ++
          (paramSteps behind.1 ++ qualifySteps before.2 ++ boundSteps behind.2) ++ steps
    · have hinside : src.abstractCenter (fuel + 1) = Declarator.steps <$> (do
          src.expect .lparen
          let inner ← src.shape false fuel
          if inner.isEmpty then src.fail .declarator
          src.expect .rparen
          return inner) := by
        rw [abstractCenter, ih.1]
        simp only [map_eq_pure_bind, bind_assoc, pure_bind]
        refine bind_congr fun _ => (gives_shape_abstract fuel).1.bind_congr fun inner hinner => ?_
        rw [← hinner.2]
        cases inner.isEmpty with
        | true => funext s; rfl
        | false => simp
      rw [hinside, attempt_map, abstractCore]
      simp only [map_eq_pure_bind, bind_assoc, pure_bind]
      refine bind_congr fun inner => ?_
      cases inner <;> rfl

end Source

end CInterface
