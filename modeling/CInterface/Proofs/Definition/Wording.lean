import CInterface.Aggregate
import CInterface.Proofs.CType.RoundTrip
import CInterface.Proofs.Value.Writing
/-!
# The tokens of a written aggregate

The definition of a structure, a union or an enumeration is written on lines, one for each member, and
read from tokens. Here the same recursion as for the text builds the tokens.

* `Field.Writable`, `EnumDef.Writable` — the fields and enumerations that have a text.
* `Field.kinds`, `EnumDef.memberKinds` — the tokens of a member.
* `Compound.kindsOf_render`, `EnumDef.kindsOf_render` — the text of a definition is read as its tokens.
-/

namespace CInterface

open Text

/-! ### Fields and their tokens -/

/-- The tokens of the width behind a field. -/
def widthKinds : Option UInt32 → List TokenKind
  | some n => [.punct .colon, .integer (toString n.toNat)]
  | none => []

/-- The tokens of the value behind a field. -/
def defaultKinds : Option Value → List TokenKind
  | some v => .punct .assign :: v.kinds
  | none => []

namespace Field

/-- The tokens of the type and the name of a field. -/
def headKinds (f : Field) : List TokenKind :=
  f.type.wrapKinds (f.name.toList.map .ident) false

/-- The tokens of a field. -/
def kinds (f : Field) : List TokenKind :=
  f.headKinds ++ (widthKinds f.bits ++ (defaultKinds f.default ++ [.punct .semi]))

/-- A field that can be written: a name of a type that can be declared, with or without a width and a
value, or a type alone, with or without a width. -/
structure Writable (g : Grammar) (f : Field) : Prop where
  declarable : Declarable g f.name f.type
  literal : ∀ v ∈ f.default, v.IsLiteral
  bare : f.name = none → f.type.isBase = true ∧ f.default = none

/-- The tokens of a field before others, apart from those of its type and its name. -/
theorem kinds_append (f : Field) (ks : List TokenKind) : f.kinds ++ ks =
    f.headKinds ++ (widthKinds f.bits ++ (defaultKinds f.default ++ .punct .semi :: ks)) := by
  simp only [kinds, List.append_assoc, List.singleton_append]

theorem length_kinds (f : Field) : f.kinds.length =
    f.headKinds.length + (widthKinds f.bits).length + (defaultKinds f.default).length + 1 := by
  simp only [kinds, List.length_append, List.length_singleton]
  omega

end Field

/-! ### Texts of fields -/

/-- The text can stand behind a declarator, and is read as the tokens where a delimiter follows. -/
structure Continues (cs : List Char) (ks : List TokenKind) : Prop where
  delimits : ∀ r : List Char, r.head?.all isDelimiter = true → (cs ++ r).head?.all isDelimiter = true
  kindsOf_append : ∀ r : List Char, r.head?.all isDelimiter = true →
    kindsOf (cs ++ r) = ks ++ kindsOf r

theorem head?_all_endsWord {r : List Char} (h : r.head?.all isDelimiter = true) :
    r.head?.all endsWord = true := by
  cases r with
  | nil => rfl
  | cons c r => exact endsWord_of_isDelimiter h

theorem Continues.nil : Continues [] [] := ⟨fun _ h => h, fun _ _ => rfl⟩

/-- A punctuator between spaces, and what is read as tokens behind it. -/
theorem Continues.spaced (p : Punct) {cs : List Char} {ks : List TokenKind}
    (h : ∀ r : List Char, r.head?.all isDelimiter = true → kindsOf (cs ++ r) = ks ++ kindsOf r) :
    Continues (' ' :: (p.text.toList ++ ' ' :: cs)) (.punct p :: ks) := by
  refine ⟨fun r _ => rfl, fun r hr => ?_⟩
  have hp : (' ' :: (cs ++ r)).head?.all p.endsBefore = true :=
    (TokenKind.punct p).endsBefore_of_isDelimiter (c := ' ') rfl
  rw [List.cons_append, List.append_assoc, List.cons_append, kindsOf_space (by decide), kindsOf_punct hp,
    kindsOf_space (by decide), h r hr, List.cons_append]

theorem continues_width (n : UInt32) :
    Continues (" : " ++ toString n.toNat).toList (widthKinds (some n)) := by
  rw [String.toList_append]
  exact .spaced .colon fun r hr => kindsOf_natText n.toNat (head?_all_endsWord hr)

theorem continues_default {v : Value} (h : v.IsLiteral) :
    Continues (" = " ++ v.text).toList (defaultKinds (some v)) := by
  rw [String.toList_append]
  exact .spaced .assign fun r hr => kindsOf_valueText v h (head?_all_endsWord hr)

/-- **The line of a field is read as the tokens of the field.** -/
theorem Field.kindsOf_line {g : Grammar} (hg : g.Proper) {f : Field} (hf : f.Writable g)
    (r : List Char) : kindsOf (f.line.toList ++ r) = f.kinds ++ kindsOf r := by
  obtain ⟨width, default, hline, hwidth, hdefault⟩ : ∃ width default : String,
      f.line = "    " ++ f.type.render f.name ++ width ++ default ++ ";\n" ∧
      Continues width.toList (widthKinds f.bits) ∧ Continues default.toList (defaultKinds f.default) := by
    refine ⟨_, _, rfl, ?_, ?_⟩
    · cases f.bits with
      | none => exact .nil
      | some n => exact continues_width n
    · cases hv : f.default with
      | none => exact .nil
      | some v => exact continues_default (hf.literal v hv)
  have hsemi : (Punct.semi.text.toList ++ '\n' :: r).head?.all isDelimiter = true := rfl
  have hrest := hdefault.delimits _ hsemi
  rw [hline]
  simp only [String.toList_append, List.append_assoc]
  show kindsOf (' ' :: ' ' :: ' ' :: ' ' :: (_ ++ (_ ++ (_ ++ (Punct.semi.text.toList ++ '\n' :: r))))) = _
  rw [kindsOf_space (by decide), kindsOf_space (by decide), kindsOf_space (by decide),
    kindsOf_space (by decide), (hf.declarable.spells hg).kindsOf_append (hwidth.delimits _ hrest),
    hwidth.kindsOf_append _ hrest, hdefault.kindsOf_append _ hsemi, kindsOf_separator (by decide),
    kindsOf_space (by decide), kinds_append, headKinds]

/-! ### Texts of definitions -/

/-- The tokens of members in braces, or none if there are no members. -/
def bodyKinds : List (List TokenKind) → List TokenKind
  | [] => []
  | m :: members => .punct .lbrace :: ((m :: members).flatten ++ [.punct .rbrace])

/-- The tokens of a definition: a keyword, a name, and its members. -/
def aggregateKinds (keyword name : String) (members : List (List TokenKind)) : List TokenKind :=
  .ident keyword :: .ident name :: bodyKinds members

theorem bodyKinds_append {members : List (List TokenKind)} (h : members ≠ []) (ks : List TokenKind) :
    bodyKinds members ++ ks = .punct .lbrace :: (members.flatten ++ .punct .rbrace :: ks) := by
  obtain ⟨m, members, rfl⟩ := List.exists_cons_of_ne_nil h
  rw [bodyKinds, List.cons_append, List.append_assoc]
  rfl

section

variable {α : Type} {members : List α} {line : α → String} {kinds : α → List TokenKind}

theorem kindsOf_lines
    (hlines : ∀ m ∈ members, ∀ r : List Char, kindsOf ((line m).toList ++ r) = kinds m ++ kindsOf r)
    (r : List Char) : kindsOf ((String.join (members.map line)).toList ++ r) =
      (members.map kinds).flatten ++ kindsOf r := by
  induction members with
  | nil => rfl
  | cons m members ih =>
    have hm := hlines m List.mem_cons_self ((String.join (members.map line)).toList ++ r)
    rw [ih fun v hv => hlines v (List.mem_cons_of_mem _ hv)] at hm
    rw [List.map_cons, String.join_cons, String.toList_append, List.append_assoc, hm, List.map_cons,
      List.flatten_cons, List.append_assoc]

/-- The text of a definition is read as its tokens, if the lines of its members are. -/
theorem kindsOf_aggregateText {keyword name : String} (hkeyword : isIdentifier keyword.toList = true)
    (hname : isIdentifier name.toList = true)
    (hlines : ∀ m ∈ members, ∀ r : List Char, kindsOf ((line m).toList ++ r) = kinds m ++ kindsOf r)
    {r : List Char} (hr : r.head?.all endsWord = true) :
    kindsOf ((aggregateText keyword name (members.map line)).toList ++ r) =
      aggregateKinds keyword name (members.map kinds) ++ kindsOf r := by
  have hword : ∀ {w : String}, isIdentifier w.toList = true → ∀ {r : List Char},
      r.head?.all endsWord = true → kindsOf (w.toList ++ r) = .ident w :: kindsOf r := by
    intro w hw r hr
    rw [kindsOf_ident hw hr, String.ofList_toList]
  have hhead : ∀ {tail : List Char}, tail.head?.all endsWord = true →
      kindsOf (keyword.toList ++ ' ' :: (name.toList ++ tail)) =
        .ident keyword :: .ident name :: kindsOf tail := by
    intro tail htail
    rw [hword hkeyword rfl, kindsOf_space (by decide), hword hname htail]
  cases members with
  | nil =>
    have htext : (aggregateText keyword name (([] : List α).map line)).toList ++ r =
        keyword.toList ++ ' ' :: (name.toList ++ r) := by simp [aggregateText]
    rw [htext, hhead hr]
    rfl
  | cons m members =>
    have htext : (aggregateText keyword name ((m :: members).map line)).toList ++ r =
        keyword.toList ++ ' ' :: (name.toList ++ ' ' :: (Punct.lbrace.text.toList ++ '\n' ::
          ((String.join ((m :: members).map line)).toList ++ (Punct.rbrace.text.toList ++ r)))) := by
      simp only [aggregateText, List.map_cons, List.isEmpty_cons, Bool.false_eq_true, if_false,
        String.toList_append, List.append_assoc]
      rfl
    rw [htext, hhead rfl, kindsOf_space (by decide), kindsOf_separator (by decide),
      kindsOf_space (by decide), kindsOf_lines hlines, kindsOf_separator (by decide), aggregateKinds,
      List.cons_append, List.cons_append, List.map_cons, bodyKinds_append (List.cons_ne_nil _ _)]

end

/-- **The text of a structure or union is read as the tokens of its fields**, between braces and behind
its keyword and its name. -/
theorem Compound.kindsOf_render {g : Grammar} (hg : g.Proper) {c : Compound}
    (hc : ∀ f ∈ c.fields, f.Writable g) {keyword name : String}
    (hkeyword : isIdentifier keyword.toList = true) (hname : isIdentifier name.toList = true)
    {r : List Char} (hr : r.head?.all endsWord = true) :
    kindsOf ((c.render keyword name).toList ++ r) =
      aggregateKinds keyword name (c.fields.map Field.kinds) ++ kindsOf r :=
  kindsOf_aggregateText hkeyword hname (fun f hf => f.kindsOf_line hg (hc f hf)) hr

/-! ### Texts of enumerations -/

namespace EnumDef

/-- The tokens of a member of an enumeration with its value. -/
def memberKinds (m : String × Int64) : List TokenKind :=
  .ident m.1 :: .punct .assign :: (Value.intKinds m.2.toInt ++ [.punct .comma])

/-- An enumeration that can be written: the names of its members are identifiers and no keywords. -/
def Writable (g : Grammar) (d : EnumDef) : Prop :=
  ∀ m ∈ d.members.keys, isIdentifier m.toList = true ∧ g.isKeyword m = false

/-- **The text of an enumeration is read as the tokens of its members**, between braces and behind its
keyword and its name. -/
theorem kindsOf_render {g : Grammar} {d : EnumDef} (hd : d.Writable g) {name : String}
    (hname : isIdentifier name.toList = true) {r : List Char} (hr : r.head?.all endsWord = true) :
    kindsOf ((d.render name).toList ++ r) =
      aggregateKinds "enum" name (d.members.entries.map memberKinds) ++ kindsOf r := by
  refine kindsOf_aggregateText (by decide +kernel) hname (fun m hm r => ?_) hr
  obtain ⟨hmember, -⟩ := hd m.1 (List.mem_map_of_mem hm)
  have hvalue : Continues (' ' :: (Punct.assign.text.toList ++ ' ' :: (toString m.2.toInt).toList))
      (.punct .assign :: Value.intKinds m.2.toInt) :=
    .spaced .assign fun r hr => kindsOf_intText m.2.toInt (head?_all_endsWord hr)
  have hcomma : (Punct.comma.text.toList ++ '\n' :: r).head?.all isDelimiter = true := rfl
  have htext : ("    " ++ m.1 ++ " = " ++ toString m.2.toInt ++ ",\n").toList ++ r =
      ' ' :: ' ' :: ' ' :: ' ' :: (m.1.toList ++
        (' ' :: (Punct.assign.text.toList ++ ' ' :: (toString m.2.toInt).toList) ++
          (Punct.comma.text.toList ++ '\n' :: r))) := by
    simp only [String.toList_append, List.append_assoc]
    rfl
  rw [htext, kindsOf_space (by decide), kindsOf_space (by decide), kindsOf_space (by decide),
    kindsOf_space (by decide), kindsOf_ident hmember rfl, String.ofList_toList,
    hvalue.kindsOf_append _ hcomma, kindsOf_separator (by decide), kindsOf_space (by decide),
    memberKinds]
  simp only [List.cons_append, List.append_assoc, List.nil_append]

end EnumDef

end CInterface
