import CInterface.CType
/-!
# Writing types

`CType.render` writes a type as a declaration of a name, or as an abstract type without one. The
layers wrap the name from the outermost inward: pointers stand before it, arrays and parameter
lists behind it, and a pointer that one of these wraps gets parentheses.
-/

namespace CInterface

/-- The mark of a pointer or reference before what it declares. -/
def wrapPointer (mark : String) (quals : Qualifiers) (inner : String) : String :=
  if quals.isEmpty then mark ++ inner
  else if inner.isEmpty then mark ++ " " ++ quals.text
  else mark ++ " " ++ quals.text ++ " " ++ inner

/-- What is declared, with parentheses if a pointer stands at its head. -/
def enclose (indirect : Bool) (inner : String) : String :=
  if indirect then "(" ++ inner ++ ")" else inner

/-- What is declared, with the qualifiers of a parameter list, calling conventions, before it. -/
def withConvention (quals : Qualifiers) (inner : String) : String :=
  if quals.isEmpty then inner
  else if inner.isEmpty then quals.text
  else quals.text ++ " " ++ inner

/-- The name of a type with its qualifiers before it and what is declared behind it. -/
def declaration (quals : Qualifiers) (name inner : String) : String :=
  (if quals.isEmpty then "" else quals.text ++ " ") ++ name ++
    (if inner.isEmpty then "" else " " ++ inner)

/-- The bounds of an array. -/
def arrayBounds : Option UInt64 → String
  | some n => "[" ++ toString n.toNat ++ "]"
  | none => "[]"

/-- A parameter list. -/
def paramList (params : List String) (variadic : Bool) : String :=
  "(" ++ ", ".intercalate (if variadic then params ++ ["..."] else params) ++ ")"

namespace CType

mutual

/-- Writes a type around what it declares. `indirect` tells that a pointer stands at the head of
`inner`. -/
def wrap (inner : String) (indirect : Bool) : CType → String
  | base name quals => declaration quals name inner
  | pointer t quals => wrap (wrapPointer "*" quals inner) true t
  | reference t quals => wrap (wrapPointer "&" quals inner) true t
  | array t size _ => wrap (enclose indirect inner ++ arrayBounds size) false t
  | function t params variadic quals =>
    let declared := enclose indirect (withConvention quals inner)
    wrap (declared ++ paramList (paramTexts params) variadic) false t

/-- The texts of parameters. -/
def paramTexts : List Param → List String
  | [] => []
  | ⟨name, type, _⟩ :: rest => wrap (name.getD "") false type :: paramTexts rest

end

/-- The declaration of a name with the type, or the type alone. -/
def render (t : CType) (name : Option String) : String := t.wrap (name.getD "") false

end CType

end CInterface
