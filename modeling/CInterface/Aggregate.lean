import CInterface.CType.Error
import CInterface.OrderedMap
/-!
# Structures, unions and enumerations

* `Field`, `Compound` — the members of a structure or union with their packing.
* `EnumDef` — the members of an enumeration with their values.
* `Compound.render`, `EnumDef.render` — their definitions in C.

A packing is a power of two, which `Compound.pack_valid` records. A compound without fields is one
that was only declared.
-/

namespace CInterface

/-! ### Structures and unions -/

/-- A member of a structure or union. An aggregate that is embedded without a name has none. -/
structure Field where
  name : Option String
  type : CType
  default : Option Value
  bits : Option UInt32

/-- The number is a power of two. -/
def isPowerOfTwo (n : UInt32) : Bool := n != 0 && n &&& (n - 1) == 0

/-- The members of a structure or union. -/
structure Compound where
  fields : List Field
  /-- The largest alignment of a member. -/
  pack : Option UInt32
  /-- The packing is a power of two. -/
  pack_valid : pack.all isPowerOfTwo = true := by rfl

instance : BEq Field :=
  ⟨fun a b => a.name == b.name && a.type == b.type && a.default == b.default && a.bits == b.bits⟩

instance : BEq Compound := ⟨fun a b => a.fields == b.fields && a.pack == b.pack⟩

namespace Compound

/-- A compound that is only declared. -/
def empty : Compound := ⟨[], none, rfl⟩

instance : Inhabited Compound := ⟨empty⟩

/-- The compound with some fields and a packing, which has to be a power of two. -/
def make? (fields : List Field) (pack : Option UInt32) : Except TypeError Compound :=
  match pack with
  | none => .ok ⟨fields, none, rfl⟩
  | some p =>
    if h : isPowerOfTwo p = true then .ok ⟨fields, some p, h⟩ else .error (.invalidPack p)

theorem fields_of_make? {fields : List Field} {pack : Option UInt32} {c : Compound}
    (h : make? fields pack = .ok c) : c.fields = fields := by
  unfold make? at h
  split at h
  · cases h
    rfl
  · split at h
    · cases h
      rfl
    · cases h

/-- A compound is refused only for a packing that is no power of two. -/
theorem pack_of_make? {fields : List Field} {pack : Option UInt32} {cause : TypeError}
    (h : make? fields pack = .error cause) :
    ∃ p, cause = .invalidPack p ∧ pack = some p ∧ isPowerOfTwo p = false := by
  unfold make? at h
  split at h
  · cases h
  · rename_i p
    split at h
    · cases h
    · rename_i hp
      cases h
      exact ⟨p, rfl, rfl, Bool.eq_false_iff.2 hp⟩

/-- The compound has no fields. -/
def isEmpty (c : Compound) : Bool := c.fields.isEmpty

/-- The first field with a name. -/
def field? (c : Compound) (name : String) : Option Field :=
  c.fields.find? (·.name = some name)

end Compound

/-- The declaration of a field, on a line of its own. -/
def Field.line (f : Field) : String :=
  "    " ++ f.type.render f.name ++
    (match f.bits with
      | some n => " : " ++ toString n.toNat
      | none => "") ++
    (match f.default with
      | some v => " = " ++ v.text
      | none => "") ++ ";\n"

/-- A definition by a keyword, a name and the lines of its members. -/
def aggregateText (keyword name : String) (lines : List String) : String :=
  keyword ++ " " ++ name ++
    if lines.isEmpty then "" else " \x7b\n" ++ String.join lines ++ "\x7d"

/-- The definition of a structure or union. -/
def Compound.render (c : Compound) (keyword name : String) : String :=
  aggregateText keyword name (c.fields.map Field.line)

/-! ### Enumerations -/

/-- The members of an enumeration with their values, in order. -/
structure EnumDef where
  members : OrderedMap Int64

instance : BEq EnumDef := ⟨fun a b => a.members == b.members⟩

namespace EnumDef

/-- The enumeration without members. -/
def empty : EnumDef := ⟨.empty⟩

instance : Inhabited EnumDef := ⟨empty⟩

/-- The enumeration with a value for a member. -/
def insert (d : EnumDef) (name : String) (value : Int64) : EnumDef :=
  ⟨d.members.insert name value⟩

/-- The value of a member. -/
def get? (d : EnumDef) (name : String) : Option Int64 := d.members.get? name

/-- The value of a member that comes next without one: one more than the last, or zero. -/
def nextValue (d : EnumDef) : Int64 :=
  match d.members.last? with
  | some e => e.2 + 1
  | none => 0

/-- The number of members. -/
def size (d : EnumDef) : Nat := d.members.size

/-- The enumeration has no members. -/
def isEmpty (d : EnumDef) : Bool := d.members.isEmpty

/-- The definition of the enumeration. -/
def render (d : EnumDef) (name : String) : String :=
  aggregateText "enum" name
    (d.members.entries.map fun e => "    " ++ e.1 ++ " = " ++ toString e.2.toInt ++ ",\n")

end EnumDef

end CInterface
