import CInterface.Grammar.Declarator
import CInterface.Grammar.Enumeration
/-!
# Reading types and declarators

The productions that need one another: specifiers may hold an aggregate, whose members are
declarations again, and declarators may hold parameter lists, whose parameters are declarations too.

* `Source.specifiers` — storage classes, qualifiers and the type that a declaration starts with.
* `Source.declarator`, `Source.abstractDeclarator` — declarators with and without a name.
* `Source.parameterList` — a parameter list.
* `Source.compound` — a structure or union.
* `Source.initializer` — the value of a variable or field.

Each production gets fuel that bounds how deep it may go.
-/

namespace CInterface

namespace CompoundKind

/-- The definition of an aggregate of a kind. -/
def definition : CompoundKind → Compound → Definition
  | struct, c => ⟨.structs, c⟩
  | union, c => ⟨.unions, c⟩

end CompoundKind

/-- What a declaration starts with. -/
structure Specifiers where
  /-- The storage classes, in order. -/
  storage : List String
  /-- The type with its qualifiers. -/
  base : CType

/-- Stages an aggregate and the type name for it. -/
def defineCompound (kind : CompoundKind) (name : String) (c : Compound) : Production Unit := do
  define name (kind.definition c)
  defineSynonym kind.keyword name

/-- Appends the steps of the array bounds, of which the last binds first. -/
def boundSteps (bounds : List (Option UInt64)) : List LayerStep := bounds.reverse.map .array

namespace Source

/-- The aggregate of a kind that a declaration sees under a name. -/
def visibleCompound? (src : Source) (s : Stage) : CompoundKind → String → Option Compound
  | .struct, name => src.visible? s .structs name
  | .union, name => src.visible? s .unions name

/-- Stages an aggregate with its fields, packed as its line says, unless it would hide one that has
fields with one that has none. -/
def defineFields (src : Source) (kind : CompoundKind) (name : String) (line : Nat)
    (fields : List Field) : Production Unit := do
  let known := src.visibleCompound? (← get) kind name
  if !fields.isEmpty || !(known.any fun c => !c.isEmpty) then
    match Compound.make? fields (src.packing.packAt line) with
    | .ok c => defineCompound kind name c
    | .error cause => report (.aggregate line kind name cause)

/-! ### Productions without recursion through declarations -/

/-- Passes storage classes and qualifiers in any order. -/
def leadingWords (src : Source) : Nat → List String → Qualifiers →
    Production (List String × Qualifiers)
  | 0, storage, quals => return (storage, quals)
  | fuel + 1, storage, quals => do
    match (word? (← get).rest).filter src.grammar.isStorage with
    | some word =>
      moveTo ((← get).rest.drop 1)
      src.leadingWords fuel (storage ++ [word]) quals
    | none =>
      match src.grammar.qualifier? true (← get).rest with
      | some (q, rest) =>
        moveTo rest
        src.leadingWords fuel storage (quals.insert q)
      | none => return (storage, quals)

/-- Passes the words of a built-in type. -/
def fundamentalWords (src : Source) : Production (List String) := do
  let words := (← get).rest.takeWhile fun t => t.kind.ident?.any src.grammar.isFundamental
  moveTo ((← get).rest.drop words.length)
  return words.filterMap (·.kind.ident?)

/-- Reads pointers and references with the qualifiers before them, and the qualifiers behind them,
which it returns apart. -/
def indirections (src : Source) : Nat → Production (List LayerStep × Qualifiers)
  | 0 => return ([], [])
  | fuel + 1 => do
    let quals ← src.qualifiers false []
    if ← accept .star then
      let (steps, last) ← src.indirections fuel
      return (qualifySteps quals ++ .pointer :: steps, last)
    else if ← accept .amp then
      let (steps, last) ← src.indirections fuel
      return (qualifySteps quals ++ .reference :: steps, last)
    else return ([], quals)

/-- Reads array bounds. A bound that has no value, or is no size, is not known. -/
def arrayBounds (src : Source) : Nat → Production (List (Option UInt64))
  | 0 => return []
  | fuel + 1 => do
    if ← accept .lbracket then
      let tokens ← src.tokensUntil [.rbracket]
      src.expect .rbracket
      let size := match ← src.evaluate .empty tokens with
        | .ok v => v.asSize?
        | .error _ => none
      return size :: (← src.arrayBounds fuel)
    else return []

mutual

/-- Reads the value of a variable or field: an expression, or a list of such values in braces. What
cannot be evaluated has no value, and neither has a list with such an item. -/
def initializer (src : Source) : Nat → Production (Option Value)
  | 0 => src.fail .initializer
  | fuel + 1 => do
    if ← accept .lbrace then
      let items ← src.initializerItems fuel
      src.expect .rbrace
      return (items.mapM id).map Value.list
    else
      let tokens ← src.tokensUntil [.comma, .semi]
      if tokens.isEmpty then src.fail .initializer
      else return (← src.evaluate .empty tokens).toOption

/-- Reads the items of a list up to the closing brace. -/
def initializerItems (src : Source) : Nat → Production (List (Option Value))
  | 0 => src.fail .initializer
  | fuel + 1 => do
    if ← comes .rbrace then return []
    let item ← src.initializer fuel
    if ← accept .comma then return item :: (← src.initializerItems fuel) else return [item]

end

/-- Reads the width of a bit field. One that is no integer that fits is an error. -/
def bitWidth (src : Source) (field : String) (line : Nat) : Production (Option UInt32) := do
  let tokens ← src.tokensUntil [.comma, .semi, .assign]
  let width := match ← src.evaluate .empty tokens with
    | .ok (.int n) => if n.toUInt64.toNat < UInt32.size then some n.toUInt64.toUInt32 else none
    | _ => none
  if width.isNone then report (.bitWidth line field)
  return width

/-! ### Productions that need one another -/

mutual

/-- Reads what a declaration starts with. -/
def specifiers (src : Source) : Nat → Production Specifiers
  | 0 => src.fail .typeName
  | fuel + 1 => do
    let (storage, quals) ← src.leadingWords src.fuel [] []
    return ⟨storage, .base (← src.typeName fuel) quals⟩

/-- Reads the name of a type: an aggregate, the words of a built-in type, or a typedef name. -/
def typeName (src : Source) : Nat → Production String
  | 0 => src.fail .typeName
  | fuel + 1 => do
    match word? (← get).rest with
    | none => src.fail .typeName
    | some word =>
      if word = "struct" then src.compound fuel .struct
      else if word = "union" then src.compound fuel .union
      else if word = "enum" then
        moveTo ((← get).rest.drop 1)
        src.enumeration
      else if src.grammar.isFundamental word then
        return " ".intercalate (← src.fundamentalWords)
      else if !src.grammar.isKeyword word then
        moveTo ((← get).rest.drop 1)
        return word
      else src.fail .typeName

/-- Reads a structure or union from its keyword on: a name, members, or both. A name that is not
known is declared without members. -/
def compound (src : Source) : Nat → CompoundKind → Production String
  | 0, _ => src.fail .typeName
  | fuel + 1, kind => do
    let line ← src.line
    moveTo ((← get).rest.drop 1)
    let name ← src.name?
    if ← accept .lbrace then
      let fields ← src.members fuel
      let name ← match name with
        | some name => pure name
        | none => src.anonymousName kind.keyword
      src.defineFields kind name line fields
      return kind.keyword ++ " " ++ name
    else
      match name with
      | none => src.fail .aggregateName
      | some name =>
        if (src.visibleCompound? (← get) kind name).isNone then defineCompound kind name .empty
        return kind.keyword ++ " " ++ name

/-- Reads members up to the closing brace and passes it. -/
def members (src : Source) : Nat → Production (List Field)
  | 0 => src.fail (.punct .rbrace)
  | fuel + 1 => do
    if ← accept .rbrace then return []
    else if ← accept .semi then src.members fuel
    else if (← get).rest.isEmpty then src.fail (.punct .rbrace)
    else
      let fields ← src.member fuel
      return fields ++ (← src.members fuel)

/-- Reads the declaration of members. A function with a body, with or without a return type,
declares none; a type alone is an aggregate embedded without a name. -/
def member (src : Source) : Nat → Production (List Field)
  | 0 => src.fail .typeName
  | fuel + 1 => do
    let body ← attempt do
      let _ ← src.declarator fuel
      if !(← comes .lbrace) then src.fail (.punct .lbrace)
    if body.isSome then
      src.skipBlock
      let _ ← accept .semi
      return []
    let line ← src.line
    let specs ← src.specifiers fuel
    if ← accept .semi then return [⟨none, specs.base, none, none⟩]
    else if ← accept .colon then
      let bits ← src.bitWidth "<padding>" line
      src.expect .semi
      return [⟨none, specs.base, none, bits⟩]
    else
      let declared ← src.declarator fuel
      if ← comes .lbrace then
        src.skipBlock
        let _ ← accept .semi
        return []
      else
        let fields ← src.fields fuel specs.base line declared
        src.expect .semi
        return fields

/-- Reads the width and value of a field, and the fields that follow it behind commas. -/
def fields (src : Source) : Nat → CType → Nat → String × List LayerStep → Production (List Field)
  | 0, _, _, _ => src.fail .declarator
  | fuel + 1, base, line, (name, steps) => do
    let bits ← if ← accept .colon then src.bitWidth name line else pure none
    let default ← if ← accept .assign then src.initializer src.fuel else pure none
    let field : Field := ⟨some name, buildType base steps, default, bits⟩
    if ← accept .comma then
      let next ← src.declarator fuel
      return field :: (← src.fields fuel base line next)
    else return [field]

/-- Reads a declarator with a name: the name, and the steps that build its type. -/
def declarator (src : Source) : Nat → Production (String × List LayerStep)
  | 0 => src.fail .declarator
  | fuel + 1 => do
    let (steps, quals) ← src.indirections src.fuel
    let (name, center) ← src.center fuel
    return (name, steps ++ (← src.suffix fuel quals) ++ center)

/-- Reads the name of a declarator, or the declarator in parentheses that holds it. -/
def center (src : Source) : Nat → Production (String × List LayerStep)
  | 0 => src.fail .declarator
  | fuel + 1 => do
    match ← src.name? with
    | some name => return (name, [])
    | none =>
      if ← accept .lparen then
        let inner ← src.declarator fuel
        src.expect .rparen
        return inner
      else src.fail .declarator

/-- Reads a declarator without a name: the steps that build its type. -/
def abstractDeclarator (src : Source) : Nat → Production (List LayerStep)
  | 0 => src.fail .declarator
  | fuel + 1 => do
    let (steps, quals) ← src.indirections src.fuel
    let center := (← attempt (src.abstractCenter fuel)).getD []
    return steps ++ (← src.suffix fuel quals) ++ center

/-- Reads a declarator without a name in parentheses. Empty parentheses are none: they are a
parameter list. -/
def abstractCenter (src : Source) : Nat → Production (List LayerStep)
  | 0 => src.fail .declarator
  | fuel + 1 => do
    src.expect .lparen
    let inner ← src.abstractDeclarator fuel
    if inner.isEmpty then src.fail .declarator
    src.expect .rparen
    return inner

/-- Reads what stands behind a declared name, a parameter list and array bounds, and puts the
qualifiers that stand before the name in their place. -/
def suffix (src : Source) : Nat → Qualifiers → Production (List LayerStep)
  | 0, _ => src.fail .declarator
  | fuel + 1, quals => do
    let params ← if ← comes .lparen then do
        let (params, variadic) ← src.parameterList fuel
        pure [LayerStep.function params variadic]
      else pure []
    let bounds ← src.arrayBounds src.fuel
    return params ++ qualifySteps quals ++ boundSteps bounds

/-- Reads a parameter list, and whether more arguments may follow. A single `void` is an empty
list. -/
def parameterList (src : Source) : Nat → Production (List Param × Bool)
  | 0 => src.fail (.punct .lparen)
  | fuel + 1 => do
    src.expect .lparen
    if ← accept .rparen then return ([], false)
    match (← get).rest with
    | t :: u :: rest =>
      if t.kind = .ident "void" && u.kind = .punct .rparen then
        moveTo rest
        return ([], false)
    | _ => pure ()
    let found ← src.parameters fuel
    src.expect .rparen
    return found

/-- Reads parameters up to the end of their list. -/
def parameters (src : Source) : Nat → Production (List Param × Bool)
  | 0 => src.fail .typeName
  | fuel + 1 => do
    if ← accept .ellipsis then return ([], true)
    let specs ← src.specifiers fuel
    let (name, steps) ← either
      (do
        let (name, steps) ← src.declarator fuel
        return (some name, steps))
      (do return (none, ← src.abstractDeclarator fuel))
    let default ← if ← accept .assign then do
        let tokens ← src.tokensUntil [.comma]
        pure (← src.evaluate .empty tokens).toOption
      else pure none
    let param : Param := ⟨name, buildType specs.base steps, default⟩
    if ← accept .comma then
      let (more, variadic) ← src.parameters fuel
      return (param :: more, variadic)
    else return ([param], false)

end

/-! ### Types by themselves -/

/-- Reads a declarator with a name, or else one without. -/
def anyDeclarator (src : Source) : Production (Option String × List LayerStep) :=
  either
    (do
      let (name, steps) ← src.declarator src.fuel
      return (some name, steps))
    (do return (none, ← src.abstractDeclarator src.fuel))

/-- Reads the declaration of one name, or a type alone, with a semicolon or without. -/
def typeExpression (src : Source) : Production (Option String × CType) := do
  let specs ← src.specifiers src.fuel
  let (name, steps) ← src.anyDeclarator
  let _ ← accept .semi
  match (← get).rest with
  | t :: _ => throw (.trailingInput t.kind)
  | [] => return (name, buildType specs.base steps)

end Source

/-- The name and type of a text that declares one name, or is a type alone. What it defines besides
is lost. -/
def Grammar.parseType (g : Grammar) (text : String) :
    Except ParseError (Option String × CType) := do
  let tokens := tokenize text
  let src := Source.ofTokens g .empty .initial text.toList tokens
  let (result, _) ← src.typeExpression ⟨tokens, [], []⟩
  return result

end CInterface
