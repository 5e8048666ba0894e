import CInterface.Grammar.Production
/-!
# Reading enumerations

* `synonym` — the definition that lets a tag with its keyword be used as a type name.
* `Source.anonymousName` — a name for an aggregate without one.
* `Source.enumeration` — an enumeration, by its name or with its members.
-/

namespace CInterface

/-- Stages the type name that consists of a keyword and a tag. -/
def defineSynonym (keyword name : String) : Production Unit :=
  let tagged := keyword ++ " " ++ name
  define tagged ⟨.types, .named tagged⟩

/-- Stages an enumeration and the type name for it. -/
def defineEnum (name : String) (d : EnumDef) : Production Unit := do
  define name ⟨.enums, d⟩
  defineSynonym "enum" name

/-- The name that an aggregate without one gets, where `n` others have theirs. -/
def anonymousText (keyword : String) (n : Nat) : String := "anon_" ++ keyword ++ toString n

namespace Source

/-- The first name for an aggregate without one that is not yet a type. Among one number more than
there are types one is free. -/
def anonymousName (src : Source) (keyword : String) : Production String := do
  let s ← get
  let bound := s.staged.length + src.registry.flat.types.size
  let free (n : Nat) : Bool :=
    (src.visible? s .types (keyword ++ " " ++ anonymousText keyword n)).isNone
  return anonymousText keyword (((List.range (bound + 1)).find? free).getD bound)

/-- The value that an expression gives to a member of an enumeration; without one the error is
recorded and the member counts on. -/
def memberValue (src : Source) (d : EnumDef) (member : String) : Production Int64 := do
  let line ← src.line
  let tokens ← src.tokensUntil [.comma]
  match ← src.evaluate d tokens with
  | .ok (.int n) => return n
  | .ok v =>
    report (.enumValue line member (.notInteger v))
    return d.nextValue
  | .error e =>
    report (.enumValue line member (.noValue e))
    return d.nextValue

/-- Reads members of an enumeration up to the closing brace, and adds them to those of `d`. -/
def enumMembers (src : Source) : Nat → EnumDef → Production EnumDef
  | 0, _ => src.fail .enumMember
  | fuel + 1, d => do
    if ← comes .rbrace then return d
    match ← src.name? with
    | none => src.fail .enumMember
    | some member =>
      let value ← if ← accept .assign then src.memberValue d member else pure d.nextValue
      let d := d.insert member value
      if ← accept .comma then src.enumMembers fuel d else return d

/-- Stages an enumeration with its members, unless it would hide one that has members with one that
has none. The members are constants too. -/
def defineMembers (src : Source) (name : String) (d : EnumDef) : Production Unit := do
  let known := src.visible? (← get) .enums name
  if !d.isEmpty || !(known.any fun e => !e.isEmpty) then
    for (member, value) in d.members.entries do
      define member ⟨.values, .int value⟩
    defineEnum name d

/-- Reads an enumeration behind its keyword: a name, members, or both. A name that is not known is
declared without members. -/
def enumeration (src : Source) : Production String := do
  let name ← src.name?
  if ← accept .lbrace then
    let d ← src.enumMembers src.fuel .empty
    src.expect .rbrace
    let name ← match name with
      | some name => pure name
      | none => src.anonymousName "enum"
    src.defineMembers name d
    return "enum " ++ name
  else
    match name with
    | none => src.fail .enumName
    | some name =>
      if (src.visible? (← get) .enums name).isNone then defineEnum name .empty
      return "enum " ++ name

end Source

end CInterface
