import CInterface.Value
/-!
# C types

A type is built outward from its base name by pointers, references, arrays and parameter lists, and
every layer has qualifiers of its own.

* `Qualifiers` — qualifier words in order, none added twice.
* `CType`, `Param` — types and parameters.
* `CType.splice` — one type put in the place of the base of another, as a typedef name is read.
* `CType.outer`, `CType.addOuter` — the qualifiers of the outermost layer.

Since each layer carries its qualifiers, a type always has one set of them more than it has layers
around its base.
-/

namespace CInterface

/-- The qualifier words of one layer, in order. -/
abbrev Qualifiers := List String

namespace Qualifiers

/-- The qualifiers with one more word, unless it is among them. -/
def insert (qs : Qualifiers) (q : String) : Qualifiers := if q ∈ qs then qs else qs ++ [q]

/-- The qualifiers with those of `more` that are not among them. -/
def union (qs more : Qualifiers) : Qualifiers := more.foldl insert qs

/-- The qualifiers made of some words, each once. -/
def ofWords (words : List String) : Qualifiers := union [] words

/-- The words with spaces between them. -/
def text (qs : Qualifiers) : String := " ".intercalate qs

end Qualifiers

mutual

/-- A C type. The qualifiers of a layer come last. -/
inductive CType where
  /-- A type by its name: keywords, a tag with its keyword, or a typedef name. -/
  | base (name : String) (quals : Qualifiers)
  | pointer (inner : CType) (quals : Qualifiers)
  | reference (inner : CType) (quals : Qualifiers)
  /-- An array; without a size it is incomplete, or its size is not known. -/
  | array (inner : CType) (size : Option UInt64) (quals : Qualifiers)
  | function (ret : CType) (params : List Param) (variadic : Bool) (quals : Qualifiers)

/-- A parameter of a function. -/
structure Param where
  name : Option String
  type : CType
  default : Option Value

end

namespace CType

/-- The type with a name and no qualifiers. -/
def named (name : String) : CType := base name []

instance : Inhabited CType := ⟨named "int"⟩

/-! ### Equality -/

mutual

/-- Equality of types; default values are compared as values. -/
def same : CType → CType → Bool
  | base n p, base m q => n == m && p == q
  | pointer s p, pointer t q => same s t && p == q
  | reference s p, reference t q => same s t && p == q
  | array s m p, array t n q => same s t && m == n && p == q
  | function s ps v p, function t qs w q => same s t && sameParams ps qs && v == w && p == q
  | _, _ => false

/-- Equality of parameter lists, place by place. -/
def sameParams : List Param → List Param → Bool
  | [], [] => true
  | ⟨n, s, d⟩ :: ps, ⟨m, t, e⟩ :: qs => n == m && same s t && d == e && sameParams ps qs
  | _, _ => false

end

instance : BEq CType := ⟨same⟩

/-! ### Layers -/

/-- The name at the base of a type. -/
def baseName : CType → String
  | base n _ => n
  | pointer t _ | reference t _ | array t _ _ | function t _ _ _ => baseName t

/-- The type with another name at its base. -/
def withBase (name : String) : CType → CType
  | base _ q => base name q
  | pointer t q => pointer (withBase name t) q
  | reference t q => reference (withBase name t) q
  | array t n q => array (withBase name t) n q
  | function t ps v q => function (withBase name t) ps v q

/-- The qualifiers of the outermost layer. -/
def outer : CType → Qualifiers
  | base _ q | pointer _ q | reference _ q | array _ _ q | function _ _ _ q => q

/-- The type with more qualifiers on the outermost layer. -/
def addOuter (t : CType) (more : Qualifiers) : CType :=
  match t with
  | base n q => base n (q.union more)
  | pointer t q => pointer t (q.union more)
  | reference t q => reference t (q.union more)
  | array t n q => array t n (q.union more)
  | function t ps v q => function t ps v (q.union more)

/-- The outermost layer is a parameter list. -/
def isFunction : CType → Bool
  | function .. => true
  | _ => false

/-- The base stands alone, without layers around it. -/
def isBase : CType → Bool
  | base .. => true
  | _ => false

/-- The number of layers around the base. -/
def depth : CType → Nat
  | base _ _ => 0
  | pointer t _ | reference t _ | array t _ _ | function t _ _ _ => depth t + 1

/-- The type `onto` in the place of the base of a type, whose qualifiers join the outermost ones
of `onto`. -/
def splice (onto : CType) : CType → CType
  | base _ q => onto.addOuter q
  | pointer t q => pointer (splice onto t) q
  | reference t q => reference (splice onto t) q
  | array t n q => array (splice onto t) n q
  | function t ps v q => function (splice onto t) ps v q

/-- A splice has the base of the type that is put in. -/
theorem baseName_splice (onto t : CType) : (splice onto t).baseName = onto.baseName := by
  induction t using splice.induct with
  | case1 n q => cases onto <;> simp [splice, addOuter, baseName]
  | case2 t q ih | case3 t q ih | case4 t n q ih | case5 t ps v q ih =>
    simp [splice, baseName, ih]

end CType

/-- Equality of parameters. -/
instance : BEq Param := ⟨fun p q => CType.sameParams [p] [q]⟩

end CInterface
