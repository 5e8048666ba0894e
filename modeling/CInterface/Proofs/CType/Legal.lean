import CInterface.CType.Render
import CInterface.Grammar
import CInterface.Proofs.CType.Qualifiers
import CInterface.Proofs.Token.Spelling
/-!
# Legal types

Which types C can declare. A type that is built by hand may put a function into an array or a
qualifier on an array, and there is no text for it; those that remain are the legal ones.

* `Grammar.IsName`, `Grammar.IsQuals`, `Grammar.IsBase` — the words that a type is made of.
* `CType.Legal` — a type whose layers may stand on one another, in its parameter lists too.
* `Declarable` — a type that can be declared with a name, or without one.
* `Grammar.Proper` — a grammar whose words do not get in each other's way.
-/

namespace CInterface

/-! ### Words -/

namespace Grammar

/-- A word that can name something: an identifier that is no keyword and does not begin with two
underscores. -/
def IsName (g : Grammar) (w : String) : Prop :=
  isIdentifier w.toList = true ∧ g.isKeyword w = false ∧ "__".toList.isPrefixOf w.toList = false

/-- The qualifiers of one layer: distinct words of the grammar. -/
def IsQuals (g : Grammar) (qs : Qualifiers) : Prop :=
  qs.Nodup ∧ ∀ q ∈ qs, g.isQualifier q = true

/-- The keywords of tags. -/
def tagWords : List String := ["struct", "union", "enum"]

/-- The name at the base of a type. -/
inductive IsBase (g : Grammar) : String → Prop where
  /-- The words of a built-in type. -/
  | builtIn {ws : List String} (hne : ws ≠ []) (hws : ∀ w ∈ ws, g.isFundamental w = true) :
      IsBase g (" ".intercalate ws)
  /-- A tag with its keyword. -/
  | tag {keyword name : String} (hkeyword : keyword ∈ tagWords) (hname : g.IsName name) :
      IsBase g (keyword ++ " " ++ name)
  /-- A typedef name. -/
  | typedefName {name : String} (hname : g.IsName name) : IsBase g name

end Grammar

/-! ### Types -/

namespace CType

/-- The outermost layer is an array. -/
def isArray : CType → Bool
  | array .. => true
  | _ => false

/-- The outermost layer is a reference. -/
def isReference : CType → Bool
  | reference .. => true
  | _ => false

end CType

/-- The parameter list is written like an empty one. -/
def isVoidList : List Param → Bool
  | [⟨none, .base "void" [], _⟩] => true
  | _ => false

mutual

/-- A type that C can declare. Arrays have no qualifiers and hold no functions, functions return
neither functions nor arrays, and there is no reference to a reference. The qualifiers of a
function are written where those of a pointer that it returns would stand, so such a pointer has
none. -/
def CType.Legal (g : Grammar) : CType → Prop
  | .base name quals => g.IsBase name ∧ g.IsQuals quals
  | .pointer t quals => g.IsQuals quals ∧ t.Legal g
  | .reference t quals => g.IsQuals quals ∧ t.isReference = false ∧ t.Legal g
  | .array t size quals =>
    quals = [] ∧ (∀ n ∈ size, n.toNat < 2 ^ 63) ∧ t.isFunction = false ∧ t.Legal g
  | .function t params variadic quals =>
    g.IsQuals quals ∧ t.isFunction = false ∧ t.isArray = false ∧
      (t.isBase = false → t.outer = []) ∧ t.Legal g ∧
      (isVoidList params = true → variadic = true) ∧ LegalParams g params

/-- Parameters that C can declare. None has a default value. -/
def LegalParams (g : Grammar) : List Param → Prop
  | [] => True
  | ⟨name, type, default⟩ :: rest =>
    ((∀ n ∈ name, g.IsName n) ∧ (name = none → type.isFunction = false) ∧ default = none ∧
      type.Legal g) ∧ LegalParams g rest

end

/-- A type that can be declared with a name, or without one. A function needs a name: without one its
parameter list would be taken for a declarator in parentheses. -/
def Declarable (g : Grammar) (n : Option String) (t : CType) : Prop :=
  (∀ name ∈ n, g.IsName name) ∧ (n = none → t.isFunction = false) ∧ t.Legal g

/-! ### Grammars -/

namespace Grammar

/-- The words of the grammar are identifiers, and no word that begins a type can be taken for a
qualifier or a storage class, nor a qualifier for a storage class. -/
structure Proper (g : Grammar) : Prop where
  isIdentifier : ∀ w ∈ g.fundamentalWords ++ g.qualifiers, isIdentifier w.toList = true
  typeWord : ∀ w ∈ g.fundamentalWords ++ tagWords,
    g.isQualifier w = false ∧ g.isModifier w = false ∧ g.isStorage w = false
  fundamental : ∀ w ∈ g.fundamentalWords, w ∉ reservedWords
  qualifier : ∀ w ∈ g.qualifiers, g.isStorage w = false

theorem standard_proper : standard.Proper :=
  ⟨by decide +kernel, by decide +kernel, by decide +kernel, by decide +kernel⟩

variable {g : Grammar}

theorem mem_of_isFundamental {w : String} (h : g.isFundamental w = true) :
    w ∈ g.fundamentalWords := List.contains_iff_mem.1 h

theorem mem_of_isQualifier {w : String} (h : g.isQualifier w = true) : w ∈ g.qualifiers :=
  List.contains_iff_mem.1 h

theorem Proper.isFundamental_of_isQualifier (hg : g.Proper) {w : String}
    (h : g.isQualifier w = true) : g.isFundamental w = false := by
  cases hw : g.isFundamental w with
  | false => rfl
  | true =>
    have hq := (hg.typeWord w (List.mem_append_left _ (mem_of_isFundamental hw))).1
    rw [h] at hq
    cases hq

/-- A name is no word of the grammar. -/
theorem IsName.eq_false {w : String} (h : g.IsName w) :
    g.isFundamental w = false ∧ g.isQualifier w = false ∧ g.isModifier w = false ∧
      g.isStorage w = false ∧ w ∉ reservedWords := by
  have hkey := h.2.1
  simp only [isKeyword, Bool.or_eq_false_iff] at hkey
  obtain ⟨⟨⟨⟨h1, h2⟩, h3⟩, h4⟩, h5⟩ := hkey
  refine ⟨h1, h2, h3, h4, fun hmem => ?_⟩
  rw [List.contains_iff_mem.2 hmem] at h5
  cases h5

theorem IsName.isUnderscoreWord {w : String} (h : g.IsName w) : g.isUnderscoreWord w = false := by
  rw [Grammar.isUnderscoreWord, h.2.2, Bool.and_false, Bool.false_and]

/-! ### The tokens of a base -/

theorem kindsOf_words {ws : List String} (hws : ∀ w ∈ ws, isIdentifier w.toList = true) :
    kindsOf (" ".intercalate ws).toList = ws.map .ident := by
  have h := (Spells.words hws .nil rfl).kindsOf_eq
  rwa [List.append_nil, List.append_nil] at h

theorem Proper.kindsOf_builtIn (hg : g.Proper) {ws : List String}
    (hws : ∀ w ∈ ws, g.isFundamental w = true) :
    kindsOf (" ".intercalate ws).toList = ws.map .ident :=
  kindsOf_words fun w hw =>
    hg.isIdentifier w (List.mem_append_left _ (mem_of_isFundamental (hws w hw)))

theorem isIdentifier_of_mem_tagWords {keyword : String} (h : keyword ∈ tagWords) :
    CInterface.isIdentifier keyword.toList = true := by
  have hall : ∀ w ∈ tagWords, CInterface.isIdentifier w.toList = true := by decide +kernel
  exact hall keyword h

theorem kindsOf_tag {keyword name : String} (hkeyword : keyword ∈ tagWords)
    (hname : CInterface.isIdentifier name.toList = true) :
    kindsOf (keyword ++ " " ++ name).toList = [.ident keyword, .ident name] := by
  have hwords : ∀ w ∈ [keyword, name], CInterface.isIdentifier w.toList = true := by
    intro w hw
    rcases List.mem_cons.1 hw with rfl | hw
    · exact isIdentifier_of_mem_tagWords hkeyword
    · rw [List.mem_singleton.1 hw]
      exact hname
  exact kindsOf_words hwords

theorem kindsOf_name {name : String} (hname : CInterface.isIdentifier name.toList = true) :
    kindsOf name.toList = [.ident name] := by
  have hwords : ∀ w ∈ [name], CInterface.isIdentifier w.toList = true := by simpa using hname
  have h := kindsOf_words hwords
  rwa [String.intercalate_singleton] at h

/-- The name at the base of a type is made of identifiers. -/
theorem IsBase.exists_words (hg : g.Proper) {name : String} (h : g.IsBase name) :
    ∃ ws : List String, ws ≠ [] ∧ (∀ w ∈ ws, CInterface.isIdentifier w.toList = true) ∧
      name = " ".intercalate ws ∧ kindsOf name.toList = ws.map .ident := by
  cases h with
  | @builtIn ws hne hws =>
    refine ⟨ws, hne, fun w hw => ?_, rfl, hg.kindsOf_builtIn hws⟩
    exact hg.isIdentifier w (List.mem_append_left _ (mem_of_isFundamental (hws w hw)))
  | @tag keyword name hkeyword hname =>
    refine ⟨[keyword, name], by simp, fun w hw => ?_, rfl, kindsOf_tag hkeyword hname.1⟩
    rcases List.mem_cons.1 hw with rfl | hw
    · exact isIdentifier_of_mem_tagWords hkeyword
    · rw [List.mem_singleton.1 hw]
      exact hname.1
  | typedefName hname =>
    exact ⟨[name], by simp, by simpa using hname.1, by simp, kindsOf_name hname.1⟩

theorem IsQuals.isIdentifier (hg : g.Proper) {qs : Qualifiers} (h : g.IsQuals qs) :
    ∀ q ∈ qs, CInterface.isIdentifier q.toList = true :=
  fun q hq => hg.isIdentifier q (List.mem_append_right _ (mem_of_isQualifier (h.2 q hq)))

theorem IsQuals.nil : g.IsQuals [] := ⟨List.nodup_nil, by simp⟩

/-- Distinct qualifiers stay as they are. -/
theorem IsQuals.union_nil {qs : Qualifiers} (h : g.IsQuals qs) : Qualifiers.union [] qs = qs :=
  Qualifiers.nil_union h.1

end Grammar

end CInterface
