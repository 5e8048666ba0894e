import CInterface.Vocabulary
/-!
# Grammars

A grammar is C's grammar of declarations over a given vocabulary: which words name types, which
qualify them, and which are storage classes.

* `Grammar.standard` — the words of C; `Grammar.msvc` adds those of Microsoft's compiler.
* `Grammar.isFundamental`, `Grammar.isQualifier`, … — what a word is.
* `Grammar.vocabulary` — the vocabulary of type names that goes with a grammar.
-/

namespace CInterface

/-- The words of a grammar. -/
structure Grammar where
  /-- Words that name a type by themselves. -/
  baseTypes : List String
  /-- Words that give the size of a type. -/
  sizeModifiers : List String
  /-- Words that give the sign of a type. -/
  signModifiers : List String
  /-- Further words that name a type. -/
  extraTypes : List String
  /-- Qualifiers and calling conventions. -/
  qualifiers : List String
  /-- Modifiers that may have arguments in parentheses. -/
  extraModifiers : List String
  /-- Storage classes. -/
  storageClasses : List String
  /-- An unknown word with two underscores in front may be a modifier. -/
  doubleUnderscore : Bool
  deriving DecidableEq, Repr

namespace Grammar

/-- The grammar of C. -/
def standard : Grammar :=
  { baseTypes := baseTypeWords
    sizeModifiers := sizeWords
    signModifiers := signWords
    extraTypes := []
    qualifiers :=
      ["const", "volatile", "restrict", "near", "far", "__cdecl", "__stdcall", "call_conv"]
    extraModifiers := []
    storageClasses := ["inline", "static", "extern"]
    doubleUnderscore := true }

instance : Inhabited Grammar := ⟨standard⟩

/-- The grammar of Microsoft's compiler. -/
def msvc : Grammar :=
  { standard with
    extraTypes := ["__int64"]
    extraModifiers :=
      ["__based", "__declspec", "__fastcall", "__restrict", "__sptr", "__uptr", "__w64",
       "__unaligned", "__nullterminated"] }

/-! ### Words -/

/-- The words that names of built-in types are made of. -/
def fundamentalWords (g : Grammar) : List String :=
  g.baseTypes ++ g.sizeModifiers ++ g.signModifiers ++ g.extraTypes

/-- The word is part of the name of a built-in type. -/
def isFundamental (g : Grammar) (word : String) : Bool := g.fundamentalWords.contains word

/-- The word is a qualifier. -/
def isQualifier (g : Grammar) (word : String) : Bool := g.qualifiers.contains word

/-- The word is a modifier that may have arguments. -/
def isModifier (g : Grammar) (word : String) : Bool := g.extraModifiers.contains word

/-- The word is a storage class. -/
def isStorage (g : Grammar) (word : String) : Bool := g.storageClasses.contains word

/-- The words that every grammar reserves. -/
def reservedWords : List String := ["struct", "union", "enum", "typedef"]

/-- The word is reserved, so it names nothing. -/
def isKeyword (g : Grammar) (word : String) : Bool :=
  g.isFundamental word || g.isQualifier word || g.isModifier word || g.isStorage word ||
    reservedWords.contains word

/-- The word may be a modifier that the grammar does not know: it starts with two underscores. -/
def isUnderscoreWord (g : Grammar) (word : String) : Bool :=
  g.doubleUnderscore && "__".toList.isPrefixOf word.toList && !g.isKeyword word

/-- The vocabulary of type names that goes with the grammar. -/
def vocabulary (g : Grammar) : Vocabulary := Vocabulary.standard.withWords g.fundamentalWords

end Grammar

end CInterface
