import CInterface.CType.Error
import CInterface.OrderedMap
import CInterface.Text.Split
import CInterface.Vocabulary
/-!
# Resolving typedef names

A type is fundamental if its base is a tag or is made of words of the vocabulary. Any other base is
a typedef name, and resolving splices the definition of the name in its place until the base is
fundamental.

* `CType.isTagged`, `CType.isFundamental` — the classification of bases.
* `CType.stripSigned` — without a `signed` that changes nothing.
* `CType.resolve` — the fundamental type that a type comes to.

Resolving ends because the names on the chain are distinct names of a finite table.
-/

namespace CInterface

open Text

/-- The keywords of tagged types. -/
def tagKeywords : List String := ["struct", "union", "enum"]

namespace CType

/-- The base is a tag with its keyword. -/
def isTagged (t : CType) : Bool :=
  tagKeywords.any fun k => (k ++ " ").toList.isPrefixOf t.baseName.toList

/-- The words of a name. -/
def nameWords (name : String) : List String := (Text.words name.toList).map String.ofList

/-- The base needs no look-up: it is a tag, or is made of words of the vocabulary alone. -/
def isFundamental (vocab : Vocabulary) (t : CType) : Bool :=
  t.isTagged || (!(nameWords t.baseName).isEmpty && (nameWords t.baseName).all vocab.contains)

/-- Without a `signed` that changes nothing: next to `char` it does, and alone it means `int`. -/
def stripSigned (t : CType) : CType :=
  let words := nameWords t.baseName
  if words.contains "signed" && !words.contains "char" then
    let rest := words.filter (· ≠ "signed")
    t.withBase (if rest.isEmpty then "int" else " ".intercalate rest)
  else t

/-- The names of a table that are not on a chain. -/
def unvisited {α : Type} (typedefs : OrderedMap α) (chain : List String) : List String :=
  typedefs.keys.filter (· ∉ chain)

/-- A name of the table that joins the chain is no longer unvisited. -/
theorem unvisited_lt {α : Type} {typedefs : OrderedMap α} {chain : List String} {name : String}
    {x : α} (hc : name ∉ chain) (hx : typedefs.get? name = some x) :
    (unvisited typedefs (chain ++ [name])).length < (unvisited typedefs chain).length := by
  have hk : name ∈ unvisited typedefs chain := by
    simp [unvisited, hc, OrderedMap.mem_keys_of_get? hx]
  have hs : unvisited typedefs (chain ++ [name]) =
      (unvisited typedefs chain).filter (· ≠ name) := by
    simp only [unvisited, List.filter_filter]
    congr 1
    funext x
    simp [Bool.and_comm]
  rw [hs]
  exact List.length_filter_lt_length_iff_exists.mpr ⟨name, hk, by simp⟩

/-- Splices the definitions of typedef names into a type until its base is fundamental; `chain`
are the names passed so far. -/
def resolveFrom (typedefs : OrderedMap CType) (vocab : Vocabulary) (chain : List String)
    (t : CType) : Except TypeError CType :=
  if t.isFundamental vocab then .ok t.stripSigned
  else if hc : t.baseName ∈ chain then .error (.recursive (chain ++ [t.baseName]))
  else match ht : typedefs.get? t.baseName with
    | none => .error (.unresolved t.baseName chain)
    | some definition =>
      have := unvisited_lt hc ht
      resolveFrom typedefs vocab (chain ++ [t.baseName]) (splice definition t)
  termination_by (unvisited typedefs chain).length

/-- The fundamental type that a type comes to, by a table of typedefs. -/
def resolve (typedefs : OrderedMap CType) (vocab : Vocabulary) (t : CType) :
    Except TypeError CType :=
  resolveFrom typedefs vocab [] t

end CType

end CInterface
