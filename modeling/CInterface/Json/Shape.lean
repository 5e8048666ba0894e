import CInterface.Json.Number
import CInterface.Json.Reader
import CInterface.OrderedMap
/-!
# Shapes of data in JSON

How data is laid out in documents, and read from them.

* **Variants** — one of several forms is an object whose only member has the name of the form.
* **Records** — an object with a member for each field. On reading, the members may have any order,
  others than the fields are passed over, and an array of the fields in their order will do as well.
* **Maps** — an object with a member for each name, in order.

What is read is nested at most `Json.nestingLimit` deep. Every reader takes the number of levels
that are left, and each array or object that it enters uses one; what is passed over uses none.
-/

namespace CInterface.Json

/-- How deep the arrays and objects that are read may be nested. -/
def nestingLimit : Nat := 127

/-- What a text holds, if all of it is a document that can be read. -/
def decode? {α : Type} (read? : Nat → Json → Option α) (text : String) : Option α := do
  read? nestingLimit (← parse? text)

/-- The text of a document. -/
def text (j : Json) : String := String.ofList j.render

/-! ### Simple data -/

/-- The text that a document is. -/
def text? : Json → Option String
  | string inside => (unquote? inside).map String.ofList
  | _ => none

/-- The truth value that a document is. -/
def bool? : Json → Option Bool
  | bool b => some b
  | _ => none

/-- The natural number below `bound` that a document is. -/
def nat? (bound : Nat) (j : Json) : Option Nat := do
  let n ← j.integer?
  if 0 ≤ n && n < bound then some n.toNat else none

/-- The signed word of 64 bits that a document is. -/
def int64? (j : Json) : Option Int64 := do
  let n ← j.integer?
  if Int64.minValue.toInt ≤ n && n ≤ Int64.maxValue.toInt then some (Int64.ofInt n) else none

/-- The word of 64 bits that a document is. -/
def uint64? (j : Json) : Option UInt64 := (j.nat? UInt64.size).map UInt64.ofNat

/-- The word of 32 bits that a document is. -/
def uint32? (j : Json) : Option UInt32 := (j.nat? UInt32.size).map UInt32.ofNat

/-- The document of a word of 32 bits. -/
def ofUInt32 (n : UInt32) : Json := ofInt n.toNat

/-- A value that may be missing: null stands for none. -/
def option? {α : Type} (read? : Json → Option α) : Json → Option (Option α)
  | null => some none
  | j => (read? j).map some

/-! ### Lists -/

/-- The document of a list. -/
def ofList {α : Type} (f : α → Json) (xs : List α) : Json := array (xs.map f)

/-- The list that a document is, whose items are read with one level less. -/
def list? {α : Type} (read? : Nat → Json → Option α) : Nat → Json → Option (List α)
  | depth + 1, array items => items.mapM (read? depth)
  | _, _ => none

/-- The list of texts that a document is. -/
def texts? : Nat → Json → Option (List String) := list? fun _ => text?

/-! ### Variants -/

/-- The document of a form with the given name. -/
def ofVariant (name : String) (content : Json) : Json := ofMembers [(name, content)]

/-- The name of a form and what it holds. -/
def variant? : Json → Option (String × Json)
  | object [(key, content)] => (unquote? key).map fun name => (String.ofList name, content)
  | _ => none

/-! ### Records -/

/-- The only value of a name among some members, none if there is none. A name must not occur
twice. -/
def member? (name : String) (members : List (String × Json)) : Option (Option Json) :=
  match members.filter (·.1 = name) with
  | [] => some none
  | [m] => some (some m.2)
  | _ => none

/-- The members of an object with their names. -/
def named? (members : List (List Char × Json)) : Option (List (String × Json)) :=
  members.mapM fun m => (unquote? m.1).map fun name => (String.ofList name, m.2)

/-- The fields of a record by their names; each may be missing. -/
def record? (names : List String) : Json → Option (List (Option Json))
  | object members => do
    let members ← named? members
    names.mapM (member? · members)
  | array items => if items.length = names.length then some (items.map some) else none
  | _ => none

/-- A field that may be missing or null. -/
def optional? {α : Type} (read? : Json → Option α) : Option Json → Option (Option α)
  | none => some none
  | some j => option? read? j

/-! ### Maps -/

/-- The document of a map. -/
def ofMap {α : Type} (f : α → Json) (m : OrderedMap α) : Json :=
  ofMembers (m.entries.map fun e => (e.1, f e.2))

/-- The map that a document is, whose values are read with one level less. A name that occurs twice
has the place of the first and the value of the last. -/
def map? {α : Type} (read? : Nat → Json → Option α) : Nat → Json → Option (OrderedMap α)
  | depth + 1, object members => do
    let members ← named? members
    OrderedMap.ofList <$> members.mapM fun m => (read? depth m.2).map (m.1, ·)
  | _, _ => none

end CInterface.Json
