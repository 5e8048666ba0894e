import CInterface.CType.Error
import CInterface.Expr
/-!
# Errors of declarations

* `ParseError` — a text that the grammar does not match: what was expected and what was found.
* `DefinitionError` — a declaration that matches the grammar but defines nothing that makes sense.

The wording of both is in their `message`.
-/

namespace CInterface

/-- What the grammar wants at some place. -/
inductive Expected where
  | punct (p : Punct)
  | typeName
  | declarator
  | closingBracket
  | initializer
  | aggregateName
  | enumName
  | enumMember
  deriving DecidableEq, Repr

/-- The words for what the grammar wants. -/
def Expected.text : Expected → String
  | punct p => "'" ++ p.text ++ "'"
  | typeName => "type name"
  | declarator => "declarator"
  | closingBracket => "closing bracket"
  | initializer => "initializer"
  | aggregateName => "aggregate name or '\x7b'"
  | enumName => "enum name or '\x7b'"
  | enumMember => "enum member"

/-- A mismatch of a text with the grammar. -/
inductive ParseError where
  /-- A token stands where something else is wanted. -/
  | unexpected (expected : Expected) (found : TokenKind) (line : Nat)
  /-- The text ends where something is wanted. -/
  | endOfInput (expected : Expected)
  /-- A token follows a complete type. -/
  | trailingInput (found : TokenKind)
  deriving DecidableEq, Repr

/-- The text of a mismatch. -/
def ParseError.message : ParseError → String
  | unexpected expected found line =>
    "line " ++ toString line ++ ": expected " ++ expected.text ++ ", found '" ++ found.text ++ "'"
  | endOfInput expected => "unexpected end of input, expected " ++ expected.text
  | trailingInput found => "unexpected '" ++ found.text ++ "' after type"

/-- The kinds of aggregate with fields. -/
inductive CompoundKind where
  | struct | union
  deriving DecidableEq, Repr

/-- The keyword of a kind of aggregate. -/
def CompoundKind.keyword : CompoundKind → String
  | struct => "struct"
  | union => "union"

/-- Why the expression of an enumeration member gives it no value. -/
inductive EnumValueFault where
  /-- The expression has no value. -/
  | noValue (cause : EvalError)
  /-- The value is no integer. -/
  | notInteger (value : Value)

/-- The text of a fault of an enumeration member. -/
def EnumValueFault.message : EnumValueFault → String
  | noValue cause => cause.message
  | notInteger value => "operator 'enum' cannot be applied to " ++ value.kindName

/-- Why a declaration that matches the grammar defines nothing. -/
inductive DefinitionError where
  /-- A member of an enumeration has no integer value. -/
  | enumValue (line : Nat) (member : String) (fault : EnumValueFault)
  /-- The width of a bit field is no integer constant that fits. -/
  | bitWidth (line : Nat) (field : String)
  /-- An aggregate cannot be packed as the packing log wants. -/
  | aggregate (line : Nat) (kind : CompoundKind) (name : String) (cause : TypeError)

namespace DefinitionError

/-- The line of the declaration, or of the member. -/
def line : DefinitionError → Nat
  | enumValue line _ _ | bitWidth line _ | aggregate line _ _ _ => line

/-- The text of a definition error. -/
def message : DefinitionError → String
  | enumValue line member fault =>
    "line " ++ toString line ++ ": enum member '" ++ member ++ "' has no integer value: " ++
      fault.message
  | bitWidth line field =>
    "line " ++ toString line ++ ": bit width of '" ++ field ++ "' is not an integer constant"
  | aggregate line kind name cause =>
    "line " ++ toString line ++ ": " ++ kind.keyword ++ " '" ++ name ++ "': " ++ cause.message

end DefinitionError

end CInterface
