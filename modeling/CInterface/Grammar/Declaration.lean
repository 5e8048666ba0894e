import CInterface.Grammar.TypeName
/-!
# Reading declarations

* `Source.declaration` — a declaration outside all others: typedefs, variables, functions, or an
  aggregate alone.
* `Source.linkage?` — the words that set the linkage of what follows.

What a declaration defines is staged, to be taken over when all of it has matched.
-/

namespace CInterface

/-- Stages what a declared name is, by its type: a function, or a variable. A variable with a value
that is no list is a constant too. -/
def declare (storage : List String) (name : String) (t : CType) (value : Option Value) :
    Production Unit :=
  match t with
  | .function ret params variadic quals =>
    define name ⟨.functions, ret, params, variadic, quals, storage⟩
  | t => do
    match value.filter Value.isScalar with
    | some v => define name ⟨.values, v⟩
    | none => pure ()
    define name ⟨.vars, value, t, storage⟩

namespace Source

/-- Reads the value of a declared name, and the names that follow it behind commas. -/
def objects (src : Source) (specs : Specifiers) : Nat → String × List LayerStep → Production Unit
  | 0, _ => src.fail .declarator
  | fuel + 1, (name, steps) => do
    let value ← if ← accept .assign then src.initializer src.fuel else pure none
    declare specs.storage name (buildType specs.base steps) value
    if ← accept .comma then
      let next ← src.declarator src.fuel
      src.objects specs fuel next

/-- Reads the names of a typedef. -/
def typedefNames (src : Source) (base : CType) : Nat → Production Unit
  | 0 => src.fail .declarator
  | fuel + 1 => do
    let (name, steps) ← src.declarator src.fuel
    define name ⟨.types, buildType base steps⟩
    if ← accept .comma then src.typedefNames base fuel

/-- Reads a typedef behind its keyword. One without names may define an aggregate. -/
def typedefBody (src : Source) : Production Unit := do
  let specs ← src.specifiers src.fuel
  if !(← comes .semi) then src.typedefNames specs.base src.fuel
  src.expect .semi

/-- Reads a declaration: a typedef, a type alone, a function with its body, or names with their
values. -/
def declaration (src : Source) : Production Unit := do
  if ← acceptWord "typedef" then src.typedefBody
  else
    let specs ← src.specifiers src.fuel
    if ← accept .semi then return
    let (name, steps) ← src.declarator src.fuel
    if ← comes .lbrace then
      let t := buildType specs.base steps
      if !t.isFunction then src.fail (.punct .semi)
      src.skipBlock
      declare specs.storage name t none
    else
      src.objects specs src.fuel (name, steps)
      src.expect .semi

end Source

/-- The tokens behind `extern "C"` or `extern "C++"`, and whether a brace there opened a block. -/
def linkage? : List Token → Option (Bool × List Token)
  | t :: u :: rest =>
    if t.kind = .ident "extern" && (u.kind = .str "\"C\"" || u.kind = .str "\"C++\"") then
      match rest with
      | v :: inside => if v.kind = .punct .lbrace then some (true, inside) else some (false, rest)
      | [] => some (false, [])
    else none
  | _ => none

end CInterface
