import CInterface.Proofs.Grammar.TagsKept
/-!
# Invented names, one by one

An aggregate without a name gets one that is invented when its body has been read. Here a
declaration is read with a log of these inventions. Ways that are given up are logged as well: what
they have staged is gone, but their names were chosen by what was in sight.

* `Invention` — a name with the moment when it is invented.
* `Logged` — a step of reading with its log; `Logged.erase` forgets the log.
* `Source.loggedDeclaration` — the reading of a declaration with the log.
* `erase_loggedDeclaration` — without the log it is the reading of a declaration.
-/

namespace CInterface

/-! ### Logs -/

/-- A name that is invented, with what is in sight at that moment. -/
structure Invention where
  /-- The definitions of earlier declarations. -/
  registry : Registry
  /-- The definitions of the present declaration so far, the latest first. -/
  staged : List (String × Definition)
  kind : TagKind
  name : String

/-- A step of reading with the inventions on its way, in order. -/
structure Logged (α : Type) where
  run : Stage → List Invention × Except ParseError (α × Stage)

namespace Logged

variable {α β : Type}

instance : Monad Logged where
  pure a := ⟨fun s => ([], .ok (a, s))⟩
  bind p f := ⟨fun s =>
    match p.run s with
    | (log, .error e) => (log, .error e)
    | (log, .ok (a, t)) => (log ++ ((f a).run t).1, ((f a).run t).2)⟩

/-- A production that invents nothing. -/
instance : MonadLift Production Logged where
  monadLift p := ⟨fun s => ([], p s)⟩

/-- Tries a step. What it has invented before it fails stays in the log. -/
def attempt (p : Logged α) : Logged (Option α) := ⟨fun s =>
  match p.run s with
  | (log, .ok (a, t)) => (log, .ok (some a, t))
  | (log, .error _) => (log, .ok (none, s))⟩

/-- The first of two steps that matches, with the inventions of both if the first does not. -/
def either (p q : Logged α) : Logged α := ⟨fun s =>
  match p.run s with
  | (log, .ok r) => (log, .ok r)
  | (log, .error _) => (log ++ (q.run s).1, (q.run s).2)⟩

/-- The step without its log. -/
def erase (p : Logged α) : Production α := fun s => (p.run s).2

end Logged

namespace Source

/-- Invents a name for an aggregate, and logs it. -/
def invent (src : Source) (k : TagKind) : Logged String := ⟨fun s =>
  match src.anonymousName k.keyword s with
  | .ok (name, t) => ([⟨src.registry, s.staged, k, name⟩], .ok (name, t))
  | .error e => ([], .error e)⟩

/-! ### Reading with a log -/

/-- Reads an enumeration behind its keyword. -/
def loggedEnumeration (src : Source) : Logged String := do
  let name ← src.name?
  if ← accept .lbrace then
    let d ← src.enumMembers src.fuel .empty
    src.expect .rbrace
    let name ← match name with
      | some name => pure name
      | none => src.invent .enum
    src.defineMembers name d
    return "enum " ++ name
  else
    match name with
    | none => src.fail .enumName
    | some name =>
      if (src.visible? (← get) .enums name).isNone then defineEnum name .empty
      return "enum " ++ name

mutual

/-- Reads what a declaration starts with. -/
def loggedSpecifiers (src : Source) : Nat → Logged Specifiers
  | 0 => src.fail .typeName
  | fuel + 1 => do
    let (storage, quals) ← src.leadingWords src.fuel [] []
    return ⟨storage, .base (← src.loggedTypeName fuel) quals⟩

/-- Reads the name of a type. -/
def loggedTypeName (src : Source) : Nat → Logged String
  | 0 => src.fail .typeName
  | fuel + 1 => do
    match word? (← get).rest with
    | none => src.fail .typeName
    | some word =>
      if word = "struct" then src.loggedCompound fuel .struct
      else if word = "union" then src.loggedCompound fuel .union
      else if word = "enum" then
        moveTo ((← get).rest.drop 1)
        src.loggedEnumeration
      else if src.grammar.isFundamental word then
        return " ".intercalate (← src.fundamentalWords)
      else if !src.grammar.isKeyword word then
        moveTo ((← get).rest.drop 1)
        return word
      else src.fail .typeName

/-- Reads a structure or union from its keyword on. -/
def loggedCompound (src : Source) : Nat → CompoundKind → Logged String
  | 0, _ => src.fail .typeName
  | fuel + 1, kind => do
    let line ← src.line
    moveTo ((← get).rest.drop 1)
    let name ← src.name?
    if ← accept .lbrace then
      let fields ← src.loggedMembers fuel
      let name ← match name with
        | some name => pure name
        | none => src.invent kind.tagKind
      src.defineFields kind name line fields
      return kind.keyword ++ " " ++ name
    else
      match name with
      | none => src.fail .aggregateName
      | some name =>
        if (src.visibleCompound? (← get) kind name).isNone then defineCompound kind name .empty
        return kind.keyword ++ " " ++ name

/-- Reads members up to the closing brace and passes it. -/
def loggedMembers (src : Source) : Nat → Logged (List Field)
  | 0 => src.fail (.punct .rbrace)
  | fuel + 1 => do
    if ← accept .rbrace then return []
    else if ← accept .semi then src.loggedMembers fuel
    else if (← get).rest.isEmpty then src.fail (.punct .rbrace)
    else
      let fields ← src.loggedMember fuel
      return fields ++ (← src.loggedMembers fuel)

/-- Reads the declaration of members. -/
def loggedMember (src : Source) : Nat → Logged (List Field)
  | 0 => src.fail .typeName
  | fuel + 1 => do
    let body ← Logged.attempt do
      let _ ← src.loggedDeclarator fuel
      if !(← comes .lbrace) then src.fail (.punct .lbrace)
    if body.isSome then
      src.skipBlock
      let _ ← accept .semi
      return []
    let line ← src.line
    let specs ← src.loggedSpecifiers fuel
    if ← accept .semi then return [⟨none, specs.base, none, none⟩]
    else if ← accept .colon then
      let bits ← src.bitWidth "<padding>" line
      src.expect .semi
      return [⟨none, specs.base, none, bits⟩]
    else
      let declared ← src.loggedDeclarator fuel
      if ← comes .lbrace then
        src.skipBlock
        let _ ← accept .semi
        return []
      else
        let fields ← src.loggedFields fuel specs.base line declared
        src.expect .semi
        return fields

/-- Reads the width and value of a field, and the fields that follow it behind commas. -/
def loggedFields (src : Source) :
    Nat → CType → Nat → String × List LayerStep → Logged (List Field)
  | 0, _, _, _ => src.fail .declarator
  | fuel + 1, base, line, (name, steps) => do
    let bits ← if ← accept .colon then src.bitWidth name line else pure none
    let default ← if ← accept .assign then src.initializer src.fuel else pure none
    let field : Field := ⟨some name, buildType base steps, default, bits⟩
    if ← accept .comma then
      let next ← src.loggedDeclarator fuel
      return field :: (← src.loggedFields fuel base line next)
    else return [field]

/-- Reads a declarator with a name. -/
def loggedDeclarator (src : Source) : Nat → Logged (String × List LayerStep)
  | 0 => src.fail .declarator
  | fuel + 1 => do
    let (steps, quals) ← src.indirections src.fuel
    let (name, center) ← src.loggedCenter fuel
    return (name, steps ++ (← src.loggedSuffix fuel quals) ++ center)

/-- Reads the name of a declarator, or the declarator in parentheses that holds it. -/
def loggedCenter (src : Source) : Nat → Logged (String × List LayerStep)
  | 0 => src.fail .declarator
  | fuel + 1 => do
    match ← src.name? with
    | some name => return (name, [])
    | none =>
      if ← accept .lparen then
        let inner ← src.loggedDeclarator fuel
        src.expect .rparen
        return inner
      else src.fail .declarator

/-- Reads a declarator without a name. -/
def loggedAbstractDeclarator (src : Source) : Nat → Logged (List LayerStep)
  | 0 => src.fail .declarator
  | fuel + 1 => do
    let (steps, quals) ← src.indirections src.fuel
    let center := (← Logged.attempt (src.loggedAbstractCenter fuel)).getD []
    return steps ++ (← src.loggedSuffix fuel quals) ++ center

/-- Reads a declarator without a name in parentheses. -/
def loggedAbstractCenter (src : Source) : Nat → Logged (List LayerStep)
  | 0 => src.fail .declarator
  | fuel + 1 => do
    src.expect .lparen
    let inner ← src.loggedAbstractDeclarator fuel
    if inner.isEmpty then src.fail .declarator
    src.expect .rparen
    return inner

/-- Reads what stands behind a declared name. -/
def loggedSuffix (src : Source) : Nat → Qualifiers → Logged (List LayerStep)
  | 0, _ => src.fail .declarator
  | fuel + 1, quals => do
    let params ← if ← comes .lparen then do
        let (params, variadic) ← src.loggedParameterList fuel
        pure [LayerStep.function params variadic]
      else pure []
    let bounds ← src.arrayBounds src.fuel
    return params ++ qualifySteps quals ++ boundSteps bounds

/-- Reads a parameter list. -/
def loggedParameterList (src : Source) : Nat → Logged (List Param × Bool)
  | 0 => src.fail (.punct .lparen)
  | fuel + 1 => do
    src.expect .lparen
    if ← accept .rparen then return ([], false)
    match (← get).rest with
    | t :: u :: rest =>
      if t.kind = .ident "void" && u.kind = .punct .rparen then
        moveTo rest
        return ([], false)
    | _ => pure ()
    let found ← src.loggedParameters fuel
    src.expect .rparen
    return found

/-- Reads parameters up to the end of their list. -/
def loggedParameters (src : Source) : Nat → Logged (List Param × Bool)
  | 0 => src.fail .typeName
  | fuel + 1 => do
    if ← accept .ellipsis then return ([], true)
    let specs ← src.loggedSpecifiers fuel
    let (name, steps) ← Logged.either
      (do
        let (name, steps) ← src.loggedDeclarator fuel
        return (some name, steps))
      (do return (none, ← src.loggedAbstractDeclarator fuel))
    let default ← if ← accept .assign then do
        let tokens ← src.tokensUntil [.comma]
        pure (← src.evaluate .empty tokens).toOption
      else pure none
    let param : Param := ⟨name, buildType specs.base steps, default⟩
    if ← accept .comma then
      let (more, variadic) ← src.loggedParameters fuel
      return (param :: more, variadic)
    else return ([param], false)

end

/-- Reads the value of a declared name, and the names that follow it behind commas. -/
def loggedObjects (src : Source) (specs : Specifiers) :
    Nat → String × List LayerStep → Logged Unit
  | 0, _ => src.fail .declarator
  | fuel + 1, (name, steps) => do
    let value ← if ← accept .assign then src.initializer src.fuel else pure none
    declare specs.storage name (buildType specs.base steps) value
    if ← accept .comma then
      let next ← src.loggedDeclarator src.fuel
      src.loggedObjects specs fuel next

/-- Reads the names of a typedef. -/
def loggedTypedefNames (src : Source) (base : CType) : Nat → Logged Unit
  | 0 => src.fail .declarator
  | fuel + 1 => do
    let (name, steps) ← src.loggedDeclarator src.fuel
    define name ⟨.types, buildType base steps⟩
    if ← accept .comma then src.loggedTypedefNames base fuel

/-- Reads a typedef behind its keyword. -/
def loggedTypedefBody (src : Source) : Logged Unit := do
  let specs ← src.loggedSpecifiers src.fuel
  if !(← comes .semi) then src.loggedTypedefNames specs.base src.fuel
  src.expect .semi

/-- Reads a declaration. -/
def loggedDeclaration (src : Source) : Logged Unit := do
  if ← acceptWord "typedef" then src.loggedTypedefBody
  else
    let specs ← src.loggedSpecifiers src.fuel
    if ← accept .semi then return
    let (name, steps) ← src.loggedDeclarator src.fuel
    if ← comes .lbrace then
      let t := buildType specs.base steps
      if !t.isFunction then src.fail (.punct .semi)
      src.skipBlock
      declare specs.storage name t none
    else
      src.loggedObjects specs src.fuel (name, steps)
      src.expect .semi

end Source

/-! ### Reading without the log -/

namespace Logged

variable {α β : Type} {src : Source} {s : Stage}

theorem run_bind (p : Logged α) (f : α → Logged β) : (p >>= f).run s =
    match p.run s with
    | (log, .error e) => (log, .error e)
    | (log, .ok (a, t)) => (log ++ ((f a).run t).1, ((f a).run t).2) := rfl

theorem erase_pure (a : α) : (pure a : Logged α).erase = pure a := rfl

theorem erase_lift (p : Production α) : (liftM p : Logged α).erase = p := rfl

theorem erase_get : (get : Logged Stage).erase = get := rfl

theorem erase_bind (p : Logged α) (f : α → Logged β) :
    (p >>= f).erase = p.erase >>= fun a => (f a).erase := by
  funext s
  change ((p >>= f).run s).2 = (p.run s).2 >>= fun r => ((f r.1).run r.2).2
  rw [run_bind]
  rcases p.run s with ⟨log, e | ⟨a, t⟩⟩ <;> rfl

theorem erase_ite {c : Prop} [Decidable c] (p q : Logged α) :
    (if c then p else q).erase = if c then p.erase else q.erase := apply_ite erase c p q

theorem erase_attempt (p : Logged α) : p.attempt.erase = CInterface.attempt p.erase := by
  funext s
  simp only [erase, attempt, CInterface.attempt]
  rcases p.run s with ⟨log, e | ⟨a, t⟩⟩ <;> rfl

theorem erase_either (p q : Logged α) :
    (p.either q).erase = CInterface.either p.erase q.erase := by
  funext s
  simp only [erase, either, CInterface.either]
  rcases p.run s with ⟨log, e | ⟨a, t⟩⟩ <;> rfl

theorem erase_invent (k : TagKind) : (src.invent k).erase = src.anonymousName k.keyword := by
  funext s
  simp only [erase, Source.invent]
  rcases src.anonymousName k.keyword s with e | ⟨a, t⟩ <;> rfl

end Logged

namespace Source

open Logged

variable {src : Source} {fuel : Nat}

theorem erase_loggedEnumeration : src.loggedEnumeration.erase = src.enumeration := by
  simp only [loggedEnumeration, enumeration, erase_bind, erase_ite, erase_lift]
  refine bind_congr fun name => bind_congr fun opening => ?_
  cases name with
  | none => simp only [erase_bind, erase_lift, erase_pure, erase_invent]; rfl
  | some name => simp only [erase_bind, erase_ite, erase_lift, erase_pure, erase_get]

/-- With this fuel the productions that need one another read as without the log. -/
structure ErasedAtFuel (src : Source) (fuel : Nat) : Prop where
  specifiers : (src.loggedSpecifiers fuel).erase = src.specifiers fuel
  typeName : (src.loggedTypeName fuel).erase = src.typeName fuel
  compound : ∀ kind, (src.loggedCompound fuel kind).erase = src.compound fuel kind
  members : (src.loggedMembers fuel).erase = src.members fuel
  member : (src.loggedMember fuel).erase = src.member fuel
  fields : ∀ base line declared,
    (src.loggedFields fuel base line declared).erase = src.fields fuel base line declared
  declarator : (src.loggedDeclarator fuel).erase = src.declarator fuel
  center : (src.loggedCenter fuel).erase = src.center fuel
  abstractDeclarator : (src.loggedAbstractDeclarator fuel).erase = src.abstractDeclarator fuel
  abstractCenter : (src.loggedAbstractCenter fuel).erase = src.abstractCenter fuel
  suffix : ∀ quals, (src.loggedSuffix fuel quals).erase = src.suffix fuel quals
  parameterList : (src.loggedParameterList fuel).erase = src.parameterList fuel
  parameters : (src.loggedParameters fuel).erase = src.parameters fuel

namespace ErasedAtFuel

theorem zero : ErasedAtFuel src 0 :=
  ⟨rfl, rfl, fun _ => rfl, rfl, rfl, fun _ _ _ => rfl, rfl, rfl, rfl, rfl, fun _ => rfl, rfl, rfl⟩

theorem specifiers_succ (h : ErasedAtFuel src fuel) :
    (src.loggedSpecifiers (fuel + 1)).erase = src.specifiers (fuel + 1) := by
  simp only [loggedSpecifiers, Source.specifiers, erase_bind, erase_lift, erase_pure,
    h.typeName]

theorem typeName_succ (h : ErasedAtFuel src fuel) :
    (src.loggedTypeName (fuel + 1)).erase = src.typeName (fuel + 1) := by
  simp only [loggedTypeName, Source.typeName, erase_bind, erase_get]
  refine bind_congr fun s => ?_
  cases word? s.rest with
  | none => rfl
  | some word =>
    simp only [erase_ite, erase_bind, erase_lift, erase_get, erase_pure, h.compound,
      erase_loggedEnumeration]

theorem compound_succ (h : ErasedAtFuel src fuel) (kind : CompoundKind) :
    (src.loggedCompound (fuel + 1) kind).erase = src.compound (fuel + 1) kind := by
  simp only [loggedCompound, Source.compound, erase_bind, erase_ite, erase_lift, erase_get,
    h.members]
  refine bind_congr fun line => bind_congr fun s => bind_congr fun _ => bind_congr fun name => ?_
  refine bind_congr fun opening => ?_
  cases name with
  | none => simp only [erase_bind, erase_lift, erase_pure, erase_invent, kind.keyword_tagKind]
  | some name => simp only [erase_bind, erase_ite, erase_lift, erase_pure, erase_get]

theorem members_succ (h : ErasedAtFuel src fuel) :
    (src.loggedMembers (fuel + 1)).erase = src.members (fuel + 1) := by
  simp only [loggedMembers, Source.members, erase_bind, erase_ite, erase_lift, erase_get,
    erase_pure, h.members, h.member]

theorem member_succ (h : ErasedAtFuel src fuel) :
    (src.loggedMember (fuel + 1)).erase = src.member (fuel + 1) := by
  simp only [loggedMember, Source.member, erase_attempt, erase_bind, erase_ite, erase_lift,
    erase_pure, h.declarator, h.specifiers, h.fields]

theorem fields_succ (h : ErasedAtFuel src fuel) (base : CType) (line : Nat)
    (declared : String × List LayerStep) :
    (src.loggedFields (fuel + 1) base line declared).erase =
      src.fields (fuel + 1) base line declared := by
  simp only [loggedFields, Source.fields, erase_bind, erase_ite, erase_lift, erase_pure,
    h.declarator, h.fields]

theorem declarator_succ (h : ErasedAtFuel src fuel) :
    (src.loggedDeclarator (fuel + 1)).erase = src.declarator (fuel + 1) := by
  simp only [loggedDeclarator, Source.declarator, erase_bind, erase_lift, erase_pure, h.center,
    h.suffix]

theorem center_succ (h : ErasedAtFuel src fuel) :
    (src.loggedCenter (fuel + 1)).erase = src.center (fuel + 1) := by
  simp only [loggedCenter, Source.center, erase_bind, erase_lift]
  refine bind_congr fun name => ?_
  cases name with
  | none => simp only [erase_bind, erase_ite, erase_lift, erase_pure, h.declarator]
  | some name => rfl

theorem abstractDeclarator_succ (h : ErasedAtFuel src fuel) :
    (src.loggedAbstractDeclarator (fuel + 1)).erase = src.abstractDeclarator (fuel + 1) := by
  simp only [loggedAbstractDeclarator, Source.abstractDeclarator, erase_attempt, erase_bind,
    erase_lift, erase_pure, h.abstractCenter, h.suffix]

theorem abstractCenter_succ (h : ErasedAtFuel src fuel) :
    (src.loggedAbstractCenter (fuel + 1)).erase = src.abstractCenter (fuel + 1) := by
  simp only [loggedAbstractCenter, Source.abstractCenter, erase_bind, erase_ite, erase_lift,
    erase_pure, h.abstractDeclarator]

theorem suffix_succ (h : ErasedAtFuel src fuel) (quals : Qualifiers) :
    (src.loggedSuffix (fuel + 1) quals).erase = src.suffix (fuel + 1) quals := by
  simp only [loggedSuffix, Source.suffix, erase_bind, erase_ite, erase_lift, erase_pure,
    h.parameterList]

theorem parameterList_succ (h : ErasedAtFuel src fuel) :
    (src.loggedParameterList (fuel + 1)).erase = src.parameterList (fuel + 1) := by
  simp only [loggedParameterList, Source.parameterList, erase_bind, erase_ite, erase_lift,
    erase_get, erase_pure]
  refine bind_congr fun _ => bind_congr fun empty => ite_congr rfl (fun _ => rfl) fun _ => ?_
  refine bind_congr fun s => ?_
  -- a single void is looked for in the two tokens to come
  rcases s.rest with _ | ⟨t, _ | ⟨u, rest⟩⟩ <;>
    simp only [erase_bind, erase_ite, erase_lift, erase_pure, h.parameters]

theorem parameters_succ (h : ErasedAtFuel src fuel) :
    (src.loggedParameters (fuel + 1)).erase = src.parameters (fuel + 1) := by
  simp only [loggedParameters, Source.parameters, erase_either, erase_bind, erase_ite,
    erase_lift, erase_pure, h.specifiers, h.declarator, h.abstractDeclarator, h.parameters]

end ErasedAtFuel

theorem erasedAtFuel (fuel : Nat) : ErasedAtFuel src fuel := by
  induction fuel with
  | zero => exact .zero
  | succ fuel ih =>
    exact
      { specifiers := ih.specifiers_succ
        typeName := ih.typeName_succ
        compound := ih.compound_succ
        members := ih.members_succ
        member := ih.member_succ
        fields := ih.fields_succ
        declarator := ih.declarator_succ
        center := ih.center_succ
        abstractDeclarator := ih.abstractDeclarator_succ
        abstractCenter := ih.abstractCenter_succ
        suffix := ih.suffix_succ
        parameterList := ih.parameterList_succ
        parameters := ih.parameters_succ }

theorem erase_loggedObjects (specs : Specifiers) (fuel : Nat)
    (declared : String × List LayerStep) :
    (src.loggedObjects specs fuel declared).erase = src.objects specs fuel declared := by
  induction fuel generalizing declared with
  | zero => rfl
  | succ fuel ih =>
    simp only [loggedObjects, objects, erase_bind, erase_ite, erase_lift, erase_pure,
      (erasedAtFuel src.fuel).declarator, ih]

theorem erase_loggedTypedefNames (base : CType) (fuel : Nat) :
    (src.loggedTypedefNames base fuel).erase = src.typedefNames base fuel := by
  induction fuel with
  | zero => rfl
  | succ fuel ih =>
    simp only [loggedTypedefNames, typedefNames, erase_bind, erase_ite, erase_lift, erase_pure,
      (erasedAtFuel src.fuel).declarator, ih]

theorem erase_loggedTypedefBody : src.loggedTypedefBody.erase = src.typedefBody := by
  simp only [loggedTypedefBody, typedefBody, erase_bind, erase_ite, erase_lift,
    (erasedAtFuel src.fuel).specifiers, erase_loggedTypedefNames]

/-- **Without the log, the reading is that of a declaration.** -/
theorem erase_loggedDeclaration : src.loggedDeclaration.erase = src.declaration := by
  simp only [loggedDeclaration, declaration, erase_bind, erase_ite, erase_lift, erase_pure,
    (erasedAtFuel src.fuel).specifiers, (erasedAtFuel src.fuel).declarator,
    erase_loggedTypedefBody, erase_loggedObjects]

end Source

end CInterface
