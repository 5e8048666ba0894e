import CInterface.Proofs.Grammar.Script
/-!
# The script of a declaration

The productions of the grammar as scripts. What only passes tokens is a single step, which sees
nothing of what is staged; every lookup, every definition, every error and every alternative is a step
of its own.

* `Blind` — a production that does the same whatever is staged.
* `Source.declarationScript` — a declaration, from the scripts of its parts.
* `Source.run_declarationScript` — it stands for the production that reads declarations.
-/

namespace CInterface

variable {α β : Type} {src : Source}

namespace Script

/-- The tokens to come. -/
def rest : Script (List Token) := .tokens fun ts => .ok (ts, ts)

end Script

/-! ### The scripts -/

/-- Stages the type name that consists of a keyword and a tag. -/
def defineSynonymScript (keyword name : String) : Script Unit :=
  let tagged := keyword ++ " " ++ name
  .define tagged ⟨.types, .named tagged⟩

/-- Stages an enumeration and the type name for it. -/
def defineEnumScript (name : String) (d : EnumDef) : Script Unit := do
  .define name ⟨.enums, d⟩
  defineSynonymScript "enum" name

/-- Stages an aggregate and the type name for it. -/
def defineCompoundScript (kind : CompoundKind) (name : String) (c : Compound) : Script Unit := do
  .define name (kind.definition c)
  defineSynonymScript kind.keyword name

/-- Stages what a declared name is, by its type. -/
def declareScript (storage : List String) (name : String) (t : CType) (value : Option Value) :
    Script Unit :=
  match t with
  | .function ret params variadic quals =>
    .define name ⟨.functions, ret, params, variadic, quals, storage⟩
  | t => do
    match value.filter Value.isScalar with
    | some v => .define name ⟨.values, v⟩
    | none => pure ()
    .define name ⟨.vars, value, t, storage⟩

namespace Source

/-- The value of an expression. -/
def evaluateScript (src : Source) (members : EnumDef) (ts : List TokenKind) :
    Script (Except EvalError Value) := do
  return evalTokens (src.env (← .look) members) ts

/-- The first name for an aggregate without one that is not yet a type. -/
def anonymousNameScript (src : Source) (keyword : String) : Script String := do
  let s ← .look
  let bound := s.staged.length + src.registry.flat.types.size
  let free (n : Nat) : Bool :=
    (src.visible? s .types (keyword ++ " " ++ anonymousText keyword n)).isNone
  return anonymousText keyword (((List.range (bound + 1)).find? free).getD bound)

/-- The value that an expression gives to a member of an enumeration. -/
def memberValueScript (src : Source) (d : EnumDef) (member : String) : Script Int64 := do
  let line ← src.line
  let tokens ← src.tokensUntil [.comma]
  match ← src.evaluateScript d tokens with
  | .ok (.int n) => return n
  | .ok v =>
    .report (.enumValue line member (.notInteger v))
    return d.nextValue
  | .error e =>
    .report (.enumValue line member (.noValue e))
    return d.nextValue

/-- Reads members of an enumeration up to the closing brace. -/
def enumMembersScript (src : Source) : Nat → EnumDef → Script EnumDef
  | 0, _ => src.fail .enumMember
  | fuel + 1, d => do
    if ← comes .rbrace then return d
    match ← src.name? with
    | none => src.fail .enumMember
    | some member =>
      let value ← if ← accept .assign then src.memberValueScript d member else pure d.nextValue
      let d := d.insert member value
      if ← accept .comma then src.enumMembersScript fuel d else return d

/-- Stages an enumeration with its members. -/
def defineMembersScript (src : Source) (name : String) (d : EnumDef) : Script Unit := do
  let known := src.visible? (← .look) .enums name
  if !d.isEmpty || !(known.any fun e => !e.isEmpty) then
    for (member, value) in d.members.entries do
      .define member ⟨.values, .int value⟩
    defineEnumScript name d

/-- Reads an enumeration behind its keyword. -/
def enumerationScript (src : Source) : Script String := do
  let name ← src.name?
  if ← accept .lbrace then
    let d ← src.enumMembersScript src.fuel .empty
    src.expect .rbrace
    let name ← match name with
      | some name => pure name
      | none => src.anonymousNameScript "enum"
    src.defineMembersScript name d
    return "enum " ++ name
  else
    match name with
    | none => src.fail .enumName
    | some name =>
      if (src.visible? (← .look) .enums name).isNone then defineEnumScript name .empty
      return "enum " ++ name

/-- Stages an aggregate with its fields, packed as its line says. -/
def defineFieldsScript (src : Source) (kind : CompoundKind) (name : String) (line : Nat)
    (fields : List Field) : Script Unit := do
  let known := src.visibleCompound? (← .look) kind name
  if !fields.isEmpty || !(known.any fun c => !c.isEmpty) then
    match Compound.make? fields (src.packing.packAt line) with
    | .ok c => defineCompoundScript kind name c
    | .error cause => .report (.aggregate line kind name cause)

/-- Reads array bounds. -/
def arrayBoundsScript (src : Source) : Nat → Script (List (Option UInt64))
  | 0 => return []
  | fuel + 1 => do
    if ← accept .lbracket then
      let tokens ← src.tokensUntil [.rbracket]
      src.expect .rbracket
      let size := match ← src.evaluateScript .empty tokens with
        | .ok v => v.asSize?
        | .error _ => none
      return size :: (← src.arrayBoundsScript fuel)
    else return []

mutual

/-- Reads the value of a variable or field. -/
def initializerScript (src : Source) : Nat → Script (Option Value)
  | 0 => src.fail .initializer
  | fuel + 1 => do
    if ← accept .lbrace then
      let items ← src.initializerItemsScript fuel
      src.expect .rbrace
      return (items.mapM id).map Value.list
    else
      let tokens ← src.tokensUntil [.comma, .semi]
      if tokens.isEmpty then src.fail .initializer
      else return (← src.evaluateScript .empty tokens).toOption

/-- Reads the items of a list up to the closing brace. -/
def initializerItemsScript (src : Source) : Nat → Script (List (Option Value))
  | 0 => src.fail .initializer
  | fuel + 1 => do
    if ← comes .rbrace then return []
    let item ← src.initializerScript fuel
    if ← accept .comma then return item :: (← src.initializerItemsScript fuel) else return [item]

end

/-- Reads the width of a bit field. -/
def bitWidthScript (src : Source) (field : String) (line : Nat) : Script (Option UInt32) := do
  let tokens ← src.tokensUntil [.comma, .semi, .assign]
  let width := match ← src.evaluateScript .empty tokens with
    | .ok (.int n) => if n.toUInt64.toNat < UInt32.size then some n.toUInt64.toUInt32 else none
    | _ => none
  if width.isNone then .report (.bitWidth line field)
  return width

mutual

/-- Reads what a declaration starts with. -/
def specifiersScript (src : Source) : Nat → Script Specifiers
  | 0 => src.fail .typeName
  | fuel + 1 => do
    let (storage, quals) ← src.leadingWords src.fuel [] []
    return ⟨storage, .base (← src.typeNameScript fuel) quals⟩

/-- Reads the name of a type. -/
def typeNameScript (src : Source) : Nat → Script String
  | 0 => src.fail .typeName
  | fuel + 1 => do
    match word? (← .rest) with
    | none => src.fail .typeName
    | some word =>
      if word = "struct" then src.compoundScript fuel .struct
      else if word = "union" then src.compoundScript fuel .union
      else if word = "enum" then
        moveTo ((← .rest).drop 1)
        src.enumerationScript
      else if src.grammar.isFundamental word then
        return " ".intercalate (← src.fundamentalWords)
      else if !src.grammar.isKeyword word then
        moveTo ((← .rest).drop 1)
        return word
      else src.fail .typeName

/-- Reads a structure or union from its keyword on. -/
def compoundScript (src : Source) : Nat → CompoundKind → Script String
  | 0, _ => src.fail .typeName
  | fuel + 1, kind => do
    let line ← src.line
    moveTo ((← .rest).drop 1)
    let name ← src.name?
    if ← accept .lbrace then
      let fields ← src.membersScript fuel
      let name ← match name with
        | some name => pure name
        | none => src.anonymousNameScript kind.keyword
      src.defineFieldsScript kind name line fields
      return kind.keyword ++ " " ++ name
    else
      match name with
      | none => src.fail .aggregateName
      | some name =>
        if (src.visibleCompound? (← .look) kind name).isNone then
          defineCompoundScript kind name .empty
        return kind.keyword ++ " " ++ name

/-- Reads members up to the closing brace and passes it. -/
def membersScript (src : Source) : Nat → Script (List Field)
  | 0 => src.fail (.punct .rbrace)
  | fuel + 1 => do
    if ← accept .rbrace then return []
    else if ← accept .semi then src.membersScript fuel
    else if (← .rest).isEmpty then src.fail (.punct .rbrace)
    else
      let fields ← src.memberScript fuel
      return fields ++ (← src.membersScript fuel)

/-- Reads the declaration of members. -/
def memberScript (src : Source) : Nat → Script (List Field)
  | 0 => src.fail .typeName
  | fuel + 1 => do
    let body ← Script.attempt do
      let _ ← src.declaratorScript fuel
      if !(← comes .lbrace) then src.fail (.punct .lbrace)
    if body.isSome then
      src.skipBlock
      let _ ← accept .semi
      return []
    let line ← src.line
    let specs ← src.specifiersScript fuel
    if ← accept .semi then return [⟨none, specs.base, none, none⟩]
    else if ← accept .colon then
      let bits ← src.bitWidthScript "<padding>" line
      src.expect .semi
      return [⟨none, specs.base, none, bits⟩]
    else
      let declared ← src.declaratorScript fuel
      if ← comes .lbrace then
        src.skipBlock
        let _ ← accept .semi
        return []
      else
        let fields ← src.fieldsScript fuel specs.base line declared
        src.expect .semi
        return fields

/-- Reads the width and value of a field, and the fields that follow it behind commas. -/
def fieldsScript (src : Source) :
    Nat → CType → Nat → String × List LayerStep → Script (List Field)
  | 0, _, _, _ => src.fail .declarator
  | fuel + 1, base, line, (name, steps) => do
    let bits ← if ← accept .colon then src.bitWidthScript name line else pure none
    let default ← if ← accept .assign then src.initializerScript src.fuel else pure none
    let field : Field := ⟨some name, buildType base steps, default, bits⟩
    if ← accept .comma then
      let next ← src.declaratorScript fuel
      return field :: (← src.fieldsScript fuel base line next)
    else return [field]

/-- Reads a declarator with a name. -/
def declaratorScript (src : Source) : Nat → Script (String × List LayerStep)
  | 0 => src.fail .declarator
  | fuel + 1 => do
    let (steps, quals) ← src.indirections src.fuel
    let (name, center) ← src.centerScript fuel
    return (name, steps ++ (← src.suffixScript fuel quals) ++ center)

/-- Reads the name of a declarator, or the declarator in parentheses that holds it. -/
def centerScript (src : Source) : Nat → Script (String × List LayerStep)
  | 0 => src.fail .declarator
  | fuel + 1 => do
    match ← src.name? with
    | some name => return (name, [])
    | none =>
      if ← accept .lparen then
        let inner ← src.declaratorScript fuel
        src.expect .rparen
        return inner
      else src.fail .declarator

/-- Reads a declarator without a name. -/
def abstractDeclaratorScript (src : Source) : Nat → Script (List LayerStep)
  | 0 => src.fail .declarator
  | fuel + 1 => do
    let (steps, quals) ← src.indirections src.fuel
    let center := (← Script.attempt (src.abstractCenterScript fuel)).getD []
    return steps ++ (← src.suffixScript fuel quals) ++ center

/-- Reads a declarator without a name in parentheses. -/
def abstractCenterScript (src : Source) : Nat → Script (List LayerStep)
  | 0 => src.fail .declarator
  | fuel + 1 => do
    src.expect .lparen
    let inner ← src.abstractDeclaratorScript fuel
    if inner.isEmpty then src.fail .declarator
    src.expect .rparen
    return inner

/-- Reads what stands behind a declared name. -/
def suffixScript (src : Source) : Nat → Qualifiers → Script (List LayerStep)
  | 0, _ => src.fail .declarator
  | fuel + 1, quals => do
    let params ← if ← comes .lparen then do
        let (params, variadic) ← src.parameterListScript fuel
        pure [LayerStep.function params variadic]
      else pure []
    let bounds ← src.arrayBoundsScript src.fuel
    return params ++ qualifySteps quals ++ boundSteps bounds

/-- Reads a parameter list. -/
def parameterListScript (src : Source) : Nat → Script (List Param × Bool)
  | 0 => src.fail (.punct .lparen)
  | fuel + 1 => do
    src.expect .lparen
    if ← accept .rparen then return ([], false)
    match ← Script.rest with
    | t :: u :: rest =>
      if t.kind = .ident "void" && u.kind = .punct .rparen then
        moveTo rest
        return ([], false)
    | _ => pure ()
    let found ← src.parametersScript fuel
    src.expect .rparen
    return found

/-- Reads parameters up to the end of their list. -/
def parametersScript (src : Source) : Nat → Script (List Param × Bool)
  | 0 => src.fail .typeName
  | fuel + 1 => do
    if ← accept .ellipsis then return ([], true)
    let specs ← src.specifiersScript fuel
    let (name, steps) ← Script.either
      (do
        let (name, steps) ← src.declaratorScript fuel
        return (some name, steps))
      (do return (none, ← src.abstractDeclaratorScript fuel))
    let default ← if ← accept .assign then do
        let tokens ← src.tokensUntil [.comma]
        pure (← src.evaluateScript .empty tokens).toOption
      else pure none
    let param : Param := ⟨name, buildType specs.base steps, default⟩
    if ← accept .comma then
      let (more, variadic) ← src.parametersScript fuel
      return (param :: more, variadic)
    else return ([param], false)

end

/-- Reads the value of a declared name, and the names that follow it behind commas. -/
def objectsScript (src : Source) (specs : Specifiers) :
    Nat → String × List LayerStep → Script Unit
  | 0, _ => src.fail .declarator
  | fuel + 1, (name, steps) => do
    let value ← if ← accept .assign then src.initializerScript src.fuel else pure none
    declareScript specs.storage name (buildType specs.base steps) value
    if ← accept .comma then
      let next ← src.declaratorScript src.fuel
      src.objectsScript specs fuel next

/-- Reads the names of a typedef. -/
def typedefNamesScript (src : Source) (base : CType) : Nat → Script Unit
  | 0 => src.fail .declarator
  | fuel + 1 => do
    let (name, steps) ← src.declaratorScript src.fuel
    .define name ⟨.types, buildType base steps⟩
    if ← accept .comma then src.typedefNamesScript base fuel

/-- Reads a typedef behind its keyword. -/
def typedefBodyScript (src : Source) : Script Unit := do
  let specs ← src.specifiersScript src.fuel
  if !(← comes .semi) then src.typedefNamesScript specs.base src.fuel
  src.expect .semi

/-- Reads a declaration. -/
def declarationScript (src : Source) : Script Unit := do
  if ← acceptWord "typedef" then src.typedefBodyScript
  else
    let specs ← src.specifiersScript src.fuel
    if ← accept .semi then return
    let (name, steps) ← src.declaratorScript src.fuel
    if ← comes .lbrace then
      let t := buildType specs.base steps
      if !t.isFunction then src.fail (.punct .semi)
      src.skipBlock
      declareScript specs.storage name t none
    else
      src.objectsScript specs src.fuel (name, steps)
      src.expect .semi

end Source

/-! ### Passing tokens -/

/-- At these tokens the production does the same whatever is staged. -/
def BlindAt (ts : List Token) (p : Production α) : Prop :=
  ∀ staged errors, p ⟨ts, staged, errors⟩ =
    (p ⟨ts, [], []⟩).map fun r => (r.1, ⟨r.2.rest, staged, errors⟩)

/-- The production does the same whatever is staged, and leaves that alone. -/
def Blind (p : Production α) : Prop := ∀ ts : List Token, BlindAt ts p

namespace BlindAt

variable {ts : List Token}

theorem pure (a : α) : BlindAt ts (pure a : Production α) := fun _ _ => rfl

theorem bind {p : Production α} {q : α → Production β} (hp : BlindAt ts p)
    (hq : ∀ a, Blind (q a)) : BlindAt ts (p >>= q) := by
  intro staged errors
  have hrun : ∀ s : Stage, (p >>= q) s = p s >>= fun r => q r.1 r.2 := fun _ => rfl
  rw [hrun, hrun, hp staged errors]
  cases p ⟨ts, [], []⟩ with
  | error e => rfl
  | ok r =>
    obtain ⟨a, ⟨us, staged', errors'⟩⟩ := r
    show q a ⟨us, staged, errors⟩ =
      (q a ⟨us, staged', errors'⟩).map fun r => (r.1, ⟨r.2.rest, staged, errors⟩)
    rw [hq a us staged errors, hq a us staged' errors']
    cases q a ⟨us, [], []⟩ <;> rfl

end BlindAt

namespace Blind

theorem pure (a : α) : Blind (pure a : Production α) := fun _ => .pure a

theorem bind {p : Production α} {q : α → Production β} (hp : Blind p) (hq : ∀ a, Blind (q a)) :
    Blind (p >>= q) := fun ts => (hp ts).bind hq

/-- The stage may be looked at for its tokens. -/
theorem get_bind {q : Stage → Production β}
    (hsame : ∀ ts staged errors, q ⟨ts, staged, errors⟩ = q ⟨ts, [], []⟩)
    (hq : ∀ ts, BlindAt ts (q ⟨ts, [], []⟩)) : Blind (get >>= q) := by
  intro ts staged errors
  have hrun : ∀ s : Stage, (get >>= q) s = q s s := fun _ => rfl
  rw [hrun, hrun, hsame]
  exact hq ts staged errors

theorem ite {c : Prop} [Decidable c] {p q : Production α} (hp : Blind p) (hq : Blind q) :
    Blind (if c then p else q) := by
  split
  · exact hp
  · exact hq

theorem moveTo (rest : List Token) : Blind (moveTo rest) := fun _ _ _ => rfl

theorem fail (src : Source) (expected : Expected) : Blind (src.fail expected : Production α) :=
  fun _ _ _ => rfl

/-- Passing some of the tokens to come. -/
theorem drop {n : Nat} {q : Production β} (hq : Blind q) :
    Blind (get >>= fun s => CInterface.moveTo (s.rest.drop n) >>= fun _ => q) :=
  .get_bind (fun _ _ _ => rfl) fun ts => Blind.bind (.moveTo (ts.drop n)) (fun _ => hq) ts

end Blind

theorem blind_comes (p : Punct) : Blind (comes p) := fun _ _ _ => rfl

theorem blind_accept (p : Punct) : Blind (accept p) :=
  (blind_comes p).bind fun _ => .ite (.drop (.pure true)) (.pure false)

theorem blind_acceptWord (word : String) : Blind (acceptWord word) := by
  refine .get_bind (fun _ _ _ => rfl) fun ts => ?_
  exact Blind.ite (.drop (.pure true)) (.pure false) ts

theorem blind_line : Blind src.line := fun _ _ _ => rfl

theorem blind_expect (p : Punct) : Blind (src.expect p) :=
  (blind_accept p).bind fun _ => .ite (.fail src _) (.pure ())

theorem blind_tokensUntil (stops : List Punct) : Blind (src.tokensUntil stops) := by
  refine .get_bind (fun _ _ _ => rfl) fun ts => ?_
  split
  · exact Blind.bind (.moveTo _) (fun _ => .pure _) ts
  · exact Blind.bind (.moveTo _) (fun _ => .fail src _) ts

theorem blind_skipBlock : Blind src.skipBlock := by
  refine (blind_expect .lbrace).bind fun _ => .get_bind (fun _ _ _ => rfl) fun ts => ?_
  split
  · exact Blind.moveTo _ ts
  · exact Blind.bind (.moveTo _) (fun _ => .fail src _) ts

theorem blind_name? : Blind src.name? := by
  refine .get_bind (fun _ _ _ => rfl) fun ts => ?_
  split
  · exact Blind.ite (.pure none) (.drop (.pure _)) ts
  · exact .pure none

theorem blind_qualifiers (beforeType : Bool) (quals : Qualifiers) :
    Blind (src.qualifiers beforeType quals) :=
  .get_bind (fun _ _ _ => rfl) fun ts => Blind.bind (.moveTo _) (fun _ => .pure _) ts

theorem blind_leadingWords (fuel : Nat) (storage : List String) (quals : Qualifiers) :
    Blind (src.leadingWords fuel storage quals) := by
  induction fuel generalizing storage quals with
  | zero => exact .pure _
  | succ fuel ih =>
    rw [Source.leadingWords]
    refine .get_bind (fun _ _ _ => rfl) fun ts => ?_
    split
    · exact Blind.drop (ih _ _) ts
    · refine Blind.get_bind (fun _ _ _ => rfl) (fun us => ?_) ts
      split
      · exact Blind.bind (.moveTo _) (fun _ => ih _ _) us
      · exact .pure _

theorem blind_fundamentalWords : Blind src.fundamentalWords :=
  .get_bind (fun _ _ _ => rfl) fun ts => Blind.drop (.pure _) ts

theorem blind_indirections (fuel : Nat) : Blind (src.indirections fuel) := by
  induction fuel with
  | zero => exact .pure _
  | succ fuel ih =>
    rw [Source.indirections]
    refine (blind_qualifiers false []).bind fun quals => ?_
    refine (blind_accept .star).bind fun _ => .ite (ih.bind fun _ => .pure _) ?_
    exact (blind_accept .amp).bind fun _ => .ite (ih.bind fun _ => .pure _) (.pure _)

/-! ### What the scripts stand for -/

namespace Script

/-- A production of which only the tokens are used is what it is by itself, if it uses no more. -/
theorem run_lift {p : Production α} (hp : Blind p) : (liftM p : Script α).run = p := by
  funext ⟨ts, staged, errors⟩
  show ((p ⟨ts, [], []⟩).map fun r => (r.1, r.2.rest)).map
    (fun r => (r.1, (⟨r.2, staged, errors⟩ : Stage))) = _
  rw [hp ts staged errors]
  cases p ⟨ts, [], []⟩ <;> rfl

theorem run_pure (a : α) : (Pure.pure a : Script α).run = Pure.pure a := rfl

theorem run_bind (p : Script α) (f : α → Script β) :
    (p >>= f).run = p.run >>= fun a => (f a).run := rfl

theorem run_look : look.run = get := rfl

theorem run_define (name : String) (x : Definition) :
    (define name x).run = CInterface.define name x := rfl

theorem run_report (e : DefinitionError) : (report e).run = CInterface.report e := rfl

theorem run_attempt (p : Script α) : p.attempt.run = CInterface.attempt p.run := rfl

theorem run_either (p q : Script α) : (p.either q).run = CInterface.either p.run q.run := rfl

theorem run_ite {c : Prop} [Decidable c] (p q : Script α) :
    (if c then p else q).run = if c then p.run else q.run := apply_ite run c p q

/-- Looking at the tokens is looking at the stage. -/
theorem run_rest_bind (f : List Token → Production β) :
    rest.run >>= f = get >>= fun s => f s.rest := rfl

end Script

open Script

theorem run_defineEnumScript (name : String) (d : EnumDef) :
    (defineEnumScript name d).run = defineEnum name d := rfl

theorem run_defineCompoundScript (kind : CompoundKind) (name : String) (c : Compound) :
    (defineCompoundScript kind name c).run = defineCompound kind name c := rfl

theorem run_declareScript (storage : List String) (name : String) (t : CType)
    (value : Option Value) :
    (declareScript storage name t value).run = declare storage name t value := by
  cases t with
  | function => rfl
  | base | pointer | reference | array =>
    unfold declareScript declare
    cases value.filter Value.isScalar <;> rfl

namespace Source

theorem run_evaluateScript (members : EnumDef) (ts : List TokenKind) :
    (src.evaluateScript members ts).run = src.evaluate members ts := rfl

theorem run_anonymousNameScript (keyword : String) :
    (src.anonymousNameScript keyword).run = src.anonymousName keyword := rfl

theorem run_memberValueScript (d : EnumDef) (member : String) :
    (src.memberValueScript d member).run = src.memberValue d member := by
  simp only [memberValueScript, memberValue, run_bind, run_lift, blind_line, blind_tokensUntil,
    run_evaluateScript]
  refine bind_congr fun line => bind_congr fun tokens => bind_congr fun value => ?_
  rcases value with e | (n | x | t | items) <;> rfl

theorem run_enumMembersScript (fuel : Nat) (d : EnumDef) :
    (src.enumMembersScript fuel d).run = src.enumMembers fuel d := by
  induction fuel generalizing d with
  | zero => rfl
  | succ fuel ih =>
    simp only [enumMembersScript, enumMembers, run_bind, run_ite, run_lift, run_pure, blind_comes,
      blind_name?]
    refine bind_congr fun _ => ite_congr rfl (fun _ => rfl) fun _ => bind_congr fun member => ?_
    cases member with
    | none => rfl
    | some member =>
      simp only [run_bind, run_ite, run_lift, run_pure, blind_accept, run_memberValueScript, ih]

theorem run_forIn {σ : Type} (l : List α) (f : α → σ → Script (ForInStep σ)) (b : σ) :
    (forIn l b f).run = forIn l b fun x c => (f x c).run := by
  induction l generalizing b with
  | nil => rfl
  | cons x l ih =>
    rw [List.forIn_cons, List.forIn_cons, run_bind]
    refine bind_congr fun step => ?_
    cases step with
    | done c => rfl
    | yield c => exact ih c

theorem run_defineMembersScript (name : String) (d : EnumDef) :
    (src.defineMembersScript name d).run = src.defineMembers name d := by
  simp only [defineMembersScript, defineMembers, run_bind, run_ite, run_look, run_pure, run_forIn,
    run_define, run_defineEnumScript]

theorem run_enumerationScript : src.enumerationScript.run = src.enumeration := by
  simp only [enumerationScript, enumeration, run_bind, run_ite, run_lift, blind_name?, blind_accept,
    blind_expect, run_enumMembersScript]
  refine bind_congr fun name => bind_congr fun opening => ?_
  cases name with
  | none => simp only [run_bind, run_pure, run_anonymousNameScript, run_defineMembersScript]; rfl
  | some name =>
    simp only [run_bind, run_ite, run_look, run_pure, run_defineEnumScript,
      run_defineMembersScript]

theorem run_defineFieldsScript (kind : CompoundKind) (name : String) (line : Nat)
    (fields : List Field) :
    (src.defineFieldsScript kind name line fields).run = src.defineFields kind name line fields := by
  simp only [defineFieldsScript, defineFields, run_bind, run_ite, run_look, run_pure]
  refine bind_congr fun s => ite_congr rfl (fun _ => ?_) fun _ => rfl
  cases Compound.make? fields (src.packing.packAt line) <;> rfl

theorem run_arrayBoundsScript (fuel : Nat) :
    (src.arrayBoundsScript fuel).run = src.arrayBounds fuel := by
  induction fuel with
  | zero => rfl
  | succ fuel ih =>
    simp only [arrayBoundsScript, arrayBounds, run_bind, run_ite, run_lift, run_pure, blind_accept,
      blind_tokensUntil, blind_expect, run_evaluateScript, ih] <;> rfl

theorem run_initializerScripts (fuel : Nat) :
    (src.initializerScript fuel).run = src.initializer fuel ∧
      (src.initializerItemsScript fuel).run = src.initializerItems fuel := by
  induction fuel with
  | zero => exact ⟨rfl, rfl⟩
  | succ fuel ih =>
    constructor
    · simp only [initializerScript, initializer, run_bind, run_ite, run_lift, run_pure,
        blind_accept, blind_expect, blind_tokensUntil, Blind.fail, run_evaluateScript, ih.2]
    · simp only [initializerItemsScript, initializerItems, run_bind, run_ite, run_lift, run_pure,
        blind_comes, blind_accept, ih.1, ih.2]

theorem run_initializerScript (fuel : Nat) :
    (src.initializerScript fuel).run = src.initializer fuel := (run_initializerScripts fuel).1

theorem run_bitWidthScript (field : String) (line : Nat) :
    (src.bitWidthScript field line).run = src.bitWidth field line := by
  simp only [bitWidthScript, bitWidth, run_bind, run_ite, run_lift, run_pure, blind_tokensUntil,
    run_evaluateScript, run_report] <;> rfl

/-! ### Productions that need one another -/

/-- With this fuel the scripts of the productions that need one another stand for them. -/
structure ScriptsAtFuel (src : Source) (fuel : Nat) : Prop where
  specifiers : (src.specifiersScript fuel).run = src.specifiers fuel
  typeName : (src.typeNameScript fuel).run = src.typeName fuel
  compound : ∀ kind, (src.compoundScript fuel kind).run = src.compound fuel kind
  members : (src.membersScript fuel).run = src.members fuel
  member : (src.memberScript fuel).run = src.member fuel
  fields : ∀ base line declared,
    (src.fieldsScript fuel base line declared).run = src.fields fuel base line declared
  declarator : (src.declaratorScript fuel).run = src.declarator fuel
  center : (src.centerScript fuel).run = src.center fuel
  abstractDeclarator : (src.abstractDeclaratorScript fuel).run = src.abstractDeclarator fuel
  abstractCenter : (src.abstractCenterScript fuel).run = src.abstractCenter fuel
  suffix : ∀ quals, (src.suffixScript fuel quals).run = src.suffix fuel quals
  parameterList : (src.parameterListScript fuel).run = src.parameterList fuel
  parameters : (src.parametersScript fuel).run = src.parameters fuel

namespace ScriptsAtFuel

variable {fuel : Nat}

theorem zero : ScriptsAtFuel src 0 :=
  ⟨rfl, rfl, fun _ => rfl, rfl, rfl, fun _ _ _ => rfl, rfl, rfl, rfl, rfl, fun _ => rfl, rfl, rfl⟩

theorem specifiers_succ (h : ScriptsAtFuel src fuel) :
    (src.specifiersScript (fuel + 1)).run = src.specifiers (fuel + 1) := by
  simp only [specifiersScript, Source.specifiers, run_bind, run_lift, run_pure, blind_leadingWords,
    h.typeName]

theorem typeName_succ (h : ScriptsAtFuel src fuel) :
    (src.typeNameScript (fuel + 1)).run = src.typeName (fuel + 1) := by
  simp only [typeNameScript, Source.typeName, run_bind, run_rest_bind]
  refine bind_congr fun s => ?_
  cases word? s.rest with
  | none => rfl
  | some word =>
    simp only [run_ite, run_bind, run_rest_bind, run_lift, run_pure, Blind.moveTo, Blind.fail,
      blind_fundamentalWords, run_enumerationScript, h.compound]

theorem compound_succ (h : ScriptsAtFuel src fuel) (kind : CompoundKind) :
    (src.compoundScript (fuel + 1) kind).run = src.compound (fuel + 1) kind := by
  simp only [compoundScript, Source.compound, run_bind, run_rest_bind, run_ite, run_lift,
    Blind.moveTo, blind_line, blind_name?, blind_accept, h.members]
  refine bind_congr fun line => bind_congr fun s => bind_congr fun _ => bind_congr fun name => ?_
  refine bind_congr fun opening => ?_
  cases name with
  | none => simp only [run_bind, run_pure, run_anonymousNameScript, run_defineFieldsScript]; rfl
  | some name =>
    simp only [run_bind, run_ite, run_look, run_pure, run_defineFieldsScript,
      run_defineCompoundScript]

theorem members_succ (h : ScriptsAtFuel src fuel) :
    (src.membersScript (fuel + 1)).run = src.members (fuel + 1) := by
  simp only [membersScript, Source.members, run_bind, run_rest_bind, run_ite, run_lift, run_pure,
    Blind.fail, blind_accept, h.members, h.member]

theorem member_succ (h : ScriptsAtFuel src fuel) :
    (src.memberScript (fuel + 1)).run = src.member (fuel + 1) := by
  simp only [memberScript, Source.member, run_attempt, run_bind, run_ite, run_lift, run_pure,
    Blind.fail, blind_comes, blind_skipBlock, blind_accept, blind_line, blind_expect,
    run_bitWidthScript, h.declarator, h.specifiers, h.fields]

theorem fields_succ (h : ScriptsAtFuel src fuel) (base : CType) (line : Nat)
    (declared : String × List LayerStep) :
    (src.fieldsScript (fuel + 1) base line declared).run =
      src.fields (fuel + 1) base line declared := by
  simp only [fieldsScript, Source.fields, run_bind, run_ite, run_lift, run_pure, blind_accept,
    run_bitWidthScript, run_initializerScript, h.declarator, h.fields]

theorem declarator_succ (h : ScriptsAtFuel src fuel) :
    (src.declaratorScript (fuel + 1)).run = src.declarator (fuel + 1) := by
  simp only [declaratorScript, Source.declarator, run_bind, run_lift, run_pure, blind_indirections,
    h.center, h.suffix]

theorem center_succ (h : ScriptsAtFuel src fuel) :
    (src.centerScript (fuel + 1)).run = src.center (fuel + 1) := by
  simp only [centerScript, Source.center, run_bind, run_lift, blind_name?]
  refine bind_congr fun name => ?_
  cases name with
  | none =>
    simp only [run_bind, run_ite, run_lift, run_pure, Blind.fail, blind_accept, blind_expect,
      h.declarator]
  | some name => rfl

theorem abstractDeclarator_succ (h : ScriptsAtFuel src fuel) :
    (src.abstractDeclaratorScript (fuel + 1)).run = src.abstractDeclarator (fuel + 1) := by
  simp only [abstractDeclaratorScript, Source.abstractDeclarator, run_attempt, run_bind, run_lift,
    run_pure, blind_indirections, h.abstractCenter, h.suffix]

theorem abstractCenter_succ (h : ScriptsAtFuel src fuel) :
    (src.abstractCenterScript (fuel + 1)).run = src.abstractCenter (fuel + 1) := by
  simp only [abstractCenterScript, Source.abstractCenter, run_bind, run_ite, run_lift, run_pure,
    Blind.fail, blind_expect, h.abstractDeclarator]

theorem suffix_succ (h : ScriptsAtFuel src fuel) (quals : Qualifiers) :
    (src.suffixScript (fuel + 1) quals).run = src.suffix (fuel + 1) quals := by
  simp only [suffixScript, Source.suffix, run_bind, run_ite, run_lift, run_pure, blind_comes,
    run_arrayBoundsScript, h.parameterList]

theorem parameterList_succ (h : ScriptsAtFuel src fuel) :
    (src.parameterListScript (fuel + 1)).run = src.parameterList (fuel + 1) := by
  simp only [parameterListScript, Source.parameterList, run_bind, run_rest_bind, run_ite, run_lift,
    run_pure, blind_expect, blind_accept]
  refine bind_congr fun _ => bind_congr fun empty => ite_congr rfl (fun _ => rfl) fun _ => ?_
  refine bind_congr fun s => ?_
  -- a single void is looked for in the two tokens to come
  rcases s.rest with _ | ⟨t, _ | ⟨u, rest⟩⟩ <;>
    simp only [run_bind, run_ite, run_lift, run_pure, Blind.moveTo, blind_expect, h.parameters]

theorem parameters_succ (h : ScriptsAtFuel src fuel) :
    (src.parametersScript (fuel + 1)).run = src.parameters (fuel + 1) := by
  simp only [parametersScript, Source.parameters, run_either, run_bind, run_ite, run_lift,
    run_pure, blind_accept, blind_tokensUntil, run_evaluateScript, h.specifiers, h.declarator,
    h.abstractDeclarator, h.parameters]

end ScriptsAtFuel

/-- With any fuel the scripts stand for the productions. -/
theorem scriptsAtFuel (fuel : Nat) : ScriptsAtFuel src fuel := by
  induction fuel with
  | zero => exact .zero
  | succ fuel ih =>
    exact
      { specifiers := ih.specifiers_succ
        typeName := ih.typeName_succ
        compound := ih.compound_succ
        members := ih.members_succ
        member := ih.member_succ
        fields := ih.fields_succ
        declarator := ih.declarator_succ
        center := ih.center_succ
        abstractDeclarator := ih.abstractDeclarator_succ
        abstractCenter := ih.abstractCenter_succ
        suffix := ih.suffix_succ
        parameterList := ih.parameterList_succ
        parameters := ih.parameters_succ }

/-! ### Declarations -/

theorem run_objectsScript (specs : Specifiers) (fuel : Nat)
    (declared : String × List LayerStep) :
    (src.objectsScript specs fuel declared).run = src.objects specs fuel declared := by
  induction fuel generalizing declared with
  | zero => rfl
  | succ fuel ih =>
    simp only [objectsScript, objects, run_bind, run_ite, run_lift, run_pure, blind_accept,
      run_initializerScript, run_declareScript, (scriptsAtFuel src.fuel).declarator, ih]

theorem run_typedefNamesScript (base : CType) (fuel : Nat) :
    (src.typedefNamesScript base fuel).run = src.typedefNames base fuel := by
  induction fuel with
  | zero => rfl
  | succ fuel ih =>
    simp only [typedefNamesScript, typedefNames, run_bind, run_ite, run_lift, run_pure, run_define,
      blind_accept, (scriptsAtFuel src.fuel).declarator, ih]

theorem run_typedefBodyScript : src.typedefBodyScript.run = src.typedefBody := by
  simp only [typedefBodyScript, typedefBody, run_bind, run_ite, run_lift, blind_comes, blind_expect,
    (scriptsAtFuel src.fuel).specifiers, run_typedefNamesScript]

/-- **The script of a declaration stands for its production.** -/
theorem run_declarationScript : src.declarationScript.run = src.declaration := by
  simp only [declarationScript, declaration, run_bind, run_ite, run_lift, run_pure, Blind.fail,
    blind_acceptWord, blind_accept, blind_comes, blind_skipBlock, blind_expect,
    run_typedefBodyScript, run_objectsScript, run_declareScript,
    (scriptsAtFuel src.fuel).specifiers, (scriptsAtFuel src.fuel).declarator]

end Source

end CInterface
