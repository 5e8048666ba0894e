import CInterface.CType
/-!
# Declarators

A declarator builds a type outward from the type of its specifiers. It is kept as the steps of the
building, in the order in which they apply: the pointers that stand before the declared name, then
its parameter list, then its array bounds from the last to the first, and after all of these the
steps of the declarator in parentheses, if there is one. So `*a[2]` is an array of pointers and
`(*a)[2]` is a pointer to an array.

* `LayerStep` — one step; `LayerStep.apply` is what it does.
* `buildType` — the type that steps build.
-/

namespace CInterface

/-- A step of building a type outward. -/
inductive LayerStep where
  /-- Qualifiers for the present layer. -/
  | qualify (quals : Qualifiers)
  | pointer
  | reference
  | array (size : Option UInt64)
  | function (params : List Param) (variadic : Bool)

/-- The type after a step. -/
def LayerStep.apply (t : CType) : LayerStep → CType
  | qualify quals => t.addOuter quals
  | pointer => .pointer t []
  | reference => .reference t []
  | array size => .array t size []
  | function params variadic => .function t params variadic []

/-- The type that some steps build on a type. -/
def buildType (t : CType) (steps : List LayerStep) : CType := steps.foldl LayerStep.apply t

@[simp] theorem buildType_cons (t : CType) (s : LayerStep) (steps : List LayerStep) :
    buildType t (s :: steps) = buildType (s.apply t) steps := rfl

@[simp] theorem buildType_append (t : CType) (a b : List LayerStep) :
    buildType t (a ++ b) = buildType (buildType t a) b := by
  simp [buildType]

/-- The step of some qualifiers, no step if there are none. -/
def qualifySteps (quals : Qualifiers) : List LayerStep :=
  if quals.isEmpty then [] else [.qualify quals]

theorem buildType_qualifySteps (t : CType) (quals : Qualifiers) :
    buildType t (qualifySteps quals) = t.addOuter quals := by
  cases quals with
  | nil => cases t <;> rfl
  | cons q quals => rfl

end CInterface
