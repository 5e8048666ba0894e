import CInterface.CType.Render
/-!
# Errors of types

`TypeError` is why an operation on types or aggregates has no result; `TypeError.message` is the
wording.
-/

namespace CInterface

/-- Why an operation on types has no result. -/
inductive TypeError where
  /-- A name has no definition; `chain` are the names that led to it. -/
  | unresolved (name : String) (chain : List String)
  /-- A chain of names comes back to one of them, which stands at its end. -/
  | recursive (chain : List String)
  /-- A packing value is no power of two. -/
  | invalidPack (value : UInt32)
  /-- A type was expected to be that of a function. -/
  | notAFunction (type : CType)

namespace TypeError

/-- The names of a chain with arrows between them. -/
def chainText (chain : List String) : String := " -> ".intercalate chain

/-- The text of an error of types. -/
def message : TypeError → String
  | unresolved name chain =>
    "unresolved type '" ++ name ++ "'" ++
      (if chain.isEmpty then "" else " (via " ++ chainText chain ++ ")")
  | recursive chain => "recursive type definition: " ++ chainText chain
  | invalidPack value =>
    "invalid packing value " ++ toString value.toNat ++ ": must be a power of two"
  | notAFunction type => "'" ++ type.render none ++ "' is not a function type"

end TypeError

/-- The return type of a function type with its parameters and whether more may follow them. -/
def CType.signature? : CType → Except TypeError (CType × List Param × Bool)
  | .function ret params variadic _ => .ok (ret, params, variadic)
  | t => .error (.notAFunction t)

end CInterface
