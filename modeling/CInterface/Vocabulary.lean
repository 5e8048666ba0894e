/-!
# The vocabulary of type names

The words that the names of built-in types are made of.

* `baseTypeWords`, `sizeWords`, `signWords`, `fixedWidthWords` — the words by their role.
* `Vocabulary` — a set of such words.
-/

namespace CInterface

/-- Words that name a type by themselves. -/
def baseTypeWords : List String := ["void", "char", "bool", "_Bool", "int", "float", "double"]

/-- Words that give the size of a type. -/
def sizeWords : List String := ["short", "long"]

/-- Words that give the sign of a type. -/
def signWords : List String := ["signed", "unsigned"]

/-- Names of library types that count as built-in. -/
def fixedWidthWords : List String :=
  ["int8_t", "int16_t", "int32_t", "int64_t", "uint8_t", "uint16_t", "uint32_t", "uint64_t",
   "intptr_t", "uintptr_t", "size_t", "ssize_t", "ptrdiff_t", "wchar_t"]

/-- A set of words that the names of built-in types are made of. -/
structure Vocabulary where
  words : List String
  deriving DecidableEq, Repr

namespace Vocabulary

/-- The vocabulary without words. -/
def empty : Vocabulary := ⟨[]⟩

/-- The words of C. -/
def standard : Vocabulary := ⟨baseTypeWords ++ sizeWords ++ signWords ++ fixedWidthWords⟩

/-- The vocabulary with more words. -/
def withWords (v : Vocabulary) (words : List String) : Vocabulary := ⟨v.words ++ words⟩

/-- The word is in the vocabulary. -/
def contains (v : Vocabulary) (word : String) : Bool := v.words.contains word

end Vocabulary

end CInterface
