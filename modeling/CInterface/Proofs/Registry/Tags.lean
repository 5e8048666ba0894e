import CInterface.Registry
/-!
# Tags and the aggregates they name

A base name such as `struct node` names an aggregate by its tag. In a closed view every such name
that occurs in a definition has its aggregate, and every aggregate is a type name of its own.

* `TagKind` — the aggregates by their keywords; `TagKind.tag` is the base name that a tag makes.
* `CType.baseNames`, `Definition.baseNames` — the base names in a type and in a definition.
* `Definitions.Closed` — no tag is without its aggregate.
* `Definitions.Extends` — no aggregate gets lost, and none loses its members.
* `Definitions.Closed.insert`, `Definitions.Closed.insertAggregate` — what may be added to a closed
  view.
-/

namespace CInterface

/-! ### Tags -/

/-- The kinds of aggregate that a tag names. -/
inductive TagKind where
  | struct | union | enum
  deriving DecidableEq, Repr

namespace TagKind

def keyword : TagKind → String
  | struct => "struct"
  | union => "union"
  | enum => "enum"

/-- The category that holds the aggregates of a kind. -/
def category : TagKind → Category
  | struct => .structs
  | union => .unions
  | enum => .enums

/-- The base name that a tag makes. -/
def tag (k : TagKind) (name : String) : String := k.keyword ++ " " ++ name

theorem toList_tag (k : TagKind) (name : String) :
    (k.tag name).toList = k.keyword.toList ++ ' ' :: name.toList := by
  simp [tag]

/-- A base name tells its keyword and its tag. -/
theorem tag_injective {k l : TagKind} {m n : String} (h : k.tag m = l.tag n) : k = l ∧ m = n := by
  have hlist : k.keyword.toList ++ ' ' :: m.toList = l.keyword.toList ++ ' ' :: n.toList := by
    rw [← toList_tag, ← toList_tag, h]
  cases k <;> cases l <;> simp [keyword, String.toList_inj] at hlist ⊢
  all_goals exact hlist

/-- A word is no tag with its keyword. -/
theorem ne_tag_of_not_mem {word : String} (h : ' ' ∉ word.toList) (k : TagKind) (name : String) :
    word ≠ k.tag name := by
  intro heq
  rw [heq, toList_tag] at h
  exact h (List.mem_append_right _ List.mem_cons_self)

/-- Words with blanks between them are no tag with its keyword, unless the first is a keyword. -/
theorem ne_tag_of_words {word : String} (hblank : ' ' ∉ word.toList)
    (hword : ∀ k : TagKind, word ≠ k.keyword) (words : List String) (k : TagKind) (name : String) :
    " ".intercalate (word :: words) ≠ k.tag name := by
  cases words with
  | nil =>
    rw [String.intercalate_singleton]
    exact ne_tag_of_not_mem hblank k name
  | cons next words =>
    intro heq
    have hlist : word.toList ++ ' ' :: (" ".intercalate (next :: words)).toList =
        k.keyword.toList ++ ' ' :: name.toList := by
      rw [← toList_tag, ← heq, String.intercalate_cons_cons]
      simp
    have hkeyword : ' ' ∉ k.keyword.toList := by cases k <;> decide
    have htake : ∀ {cs ds : List Char}, ' ' ∉ cs →
        (cs ++ ' ' :: ds).takeWhile (· ≠ ' ') = cs := by
      intro cs ds hcs
      have hall : ∀ c ∈ cs, decide (c ≠ ' ') = true := by
        intro c hc
        rw [decide_eq_true_eq]
        rintro rfl
        exact hcs hc
      rw [List.takeWhile_append_of_pos hall]
      simp
    have hfirst := congrArg (List.takeWhile (· ≠ ' ')) hlist
    rw [htake hblank, htake hkeyword, String.toList_inj] at hfirst
    exact hword k hfirst

theorem category_injective {k l : TagKind} (h : k.category = l.category) : k = l := by
  cases k <;> cases l <;> first | rfl | cases h

theorem category_ne_types (k : TagKind) : k.category ≠ .types := by cases k <;> decide

end TagKind

/-! ### Base names -/

mutual

/-- The base names in a type: its own, and those in its parameters. -/
def CType.baseNames : CType → List String
  | .base name _ => [name]
  | .pointer t _ | .reference t _ | .array t _ _ => CType.baseNames t
  | .function ret params _ _ => CType.baseNames ret ++ paramBaseNames params

/-- The base names in the types of some parameters. -/
def paramBaseNames : List Param → List String
  | [] => []
  | ⟨_, t, _⟩ :: params => CType.baseNames t ++ paramBaseNames params

end

namespace Definition

/-- The base names in a definition. -/
def baseNames : Definition → List String
  | ⟨.types, t⟩ => t.baseNames
  | ⟨.vars, v⟩ => v.type.baseNames
  | ⟨.functions, f⟩ => f.ret.baseNames ++ paramBaseNames f.params
  | ⟨.structs, c⟩ | ⟨.unions, c⟩ => c.fields.flatMap (·.type.baseNames)
  | ⟨.macros, _⟩ | ⟨.fnmacros, _⟩ | ⟨.enums, _⟩ | ⟨.values, _⟩ => []

/-- The definition is an aggregate with at least one member. -/
def hasMembers : Definition → Bool
  | ⟨.structs, c⟩ | ⟨.unions, c⟩ => !c.isEmpty
  | ⟨.enums, d⟩ => !d.isEmpty
  | _ => false

end Definition

namespace Definitions

variable {d e f : Definitions} {name base : String} {x : Definition} {k : TagKind}

/-! ### Definitions by name -/

theorem get?_insert (d : Definitions) (name : String) (x : Definition) (c : Category)
    (other : String) : (d.insert name x).get? c other =
      if c = x.category ∧ other = name then some x else d.get? c other := by
  obtain ⟨e, content⟩ := x
  by_cases hc : c = e
  · subst hc
    rw [get?, insert, update, map_set_self, OrderedMap.get?_insert]
    by_cases ho : other = name
    · rw [if_pos ho, if_pos ⟨rfl, ho⟩]
      rfl
    · rw [if_neg ho, if_neg fun h => ho h.2]
      rfl
  · rw [get?, insert, update, map_set_of_ne d hc, if_neg fun h => hc h.1]
    rfl

theorem get?_insert_self (d : Definitions) (name : String) (x : Definition) :
    (d.insert name x).get? x.category name = some x := by
  rw [get?_insert, if_pos ⟨rfl, rfl⟩]

theorem contains_eq (d : Definitions) (c : Category) (name : String) :
    d.contains c name = (d.get? c name).isSome := by
  rw [contains, get?, OrderedMap.contains, Option.isSome_map]

theorem contains_of_get? {c : Category} (h : d.get? c name = some x) : d.contains c name = true := by
  rw [contains_eq, h]
  rfl

theorem contains_insert (h : d.contains k.category base = true) (name : String) (x : Definition) :
    (d.insert name x).contains k.category base = true := by
  rw [contains_eq, get?_insert]
  split
  · rfl
  · rw [← contains_eq]
    exact h

/-! ### Closed views -/

/-- **Every tag has its aggregate.** A tag that occurs in any definition is defined, and each
aggregate is, with its keyword, a type name for itself. -/
structure Closed (d : Definitions) : Prop where
  tags : ∀ (c : Category) (name : String) (x : Definition), d.get? c name = some x →
    ∀ (k : TagKind) (n : String), k.tag n ∈ x.baseNames → d.contains k.category n = true
  synonyms : ∀ (k : TagKind) (n : String), d.contains k.category n = true →
    d.get? .types (k.tag n) = some ⟨.types, .named (k.tag n)⟩

/-- The view has an aggregate with the tag, and it has members. -/
def hasMembers (d : Definitions) (k : TagKind) (name : String) : Bool :=
  (d.get? k.category name).any Definition.hasMembers

theorem contains_of_hasMembers (h : d.hasMembers k name = true) :
    d.contains k.category name = true := by
  rw [hasMembers, Option.any_eq_true] at h
  obtain ⟨x, hx, _⟩ := h
  exact contains_of_get? hx

/-- The base name is no tag, or that of an aggregate. -/
def Known (d : Definitions) (base : String) : Prop :=
  ∀ (k : TagKind) (n : String), base = k.tag n → d.contains k.category n = true

theorem known_of_not_mem {word : String} (h : ' ' ∉ word.toList) : d.Known word :=
  fun k n heq => absurd heq (TagKind.ne_tag_of_not_mem h k n)

theorem known_tag (h : d.contains k.category name = true) : d.Known (k.tag name) := by
  intro l n heq
  obtain ⟨rfl, rfl⟩ := TagKind.tag_injective heq
  exact h

/-- Every aggregate of the first view is one of the second, and has members there if it has some
here. -/
structure Extends (d e : Definitions) : Prop where
  contains : ∀ (k : TagKind) (n : String), d.contains k.category n = true →
    e.contains k.category n = true
  members : ∀ (k : TagKind) (n : String), d.hasMembers k n = true → e.hasMembers k n = true

namespace Extends

theorem refl (d : Definitions) : d.Extends d := ⟨fun _ _ h => h, fun _ _ h => h⟩

theorem trans (h : d.Extends e) (h' : e.Extends f) : d.Extends f :=
  ⟨fun k n hn => h'.contains k n (h.contains k n hn),
    fun k n hn => h'.members k n (h.members k n hn)⟩

theorem known (h : d.Extends e) (hb : d.Known base) : e.Known base :=
  fun k n heq => h.contains k n (hb k n heq)

/-- A definition may be added that takes the place of no aggregate with members, unless it has
members too. -/
theorem insert (h : ∀ k : TagKind, k.category = x.category → d.hasMembers k name = true →
    x.hasMembers = true) : d.Extends (d.insert name x) := by
  refine ⟨fun k n hn => contains_insert hn name x, fun k n hn => ?_⟩
  rw [hasMembers, get?_insert]
  split
  · rename_i hsame
    obtain ⟨hcategory, rfl⟩ := hsame
    exact h k hcategory hn
  · exact hn

end Extends

namespace Closed

/-- A definition that is no aggregate may be added, if it takes the place of no type name for an
aggregate. -/
theorem insert (hd : d.Closed) (hx : ∀ k : TagKind, k.category ≠ x.category)
    (hname : x.category = .types → ∀ (k : TagKind) (n : String), name ≠ k.tag n)
    (hbases : ∀ b ∈ x.baseNames, d.Known b) : (d.insert name x).Closed := by
  have hcontains : ∀ (k : TagKind) (n : String),
      (d.insert name x).contains k.category n = d.contains k.category n := by
    intro k n
    rw [contains_eq, get?_insert, if_neg fun h => hx k h.1, ← contains_eq]
  constructor
  · intro c other y hy k n hn
    rw [get?_insert] at hy
    rw [hcontains]
    split at hy
    · obtain rfl : x = y := Option.some.inj hy
      exact hbases (k.tag n) hn k n rfl
    · exact hd.tags c other y hy k n hn
  · intro k n hn
    rw [hcontains] at hn
    rw [get?_insert, if_neg]
    · exact hd.synonyms k n hn
    · rintro ⟨htypes, hsame⟩
      exact hname htypes.symm k n hsame.symm

/-- An aggregate may be added together with the type name for it. -/
theorem insertAggregate (hd : d.Closed) (hx : x.category = k.category)
    (hbases : ∀ b ∈ x.baseNames, d.Known b) :
    ((d.insert name x).insert (k.tag name) ⟨.types, .named (k.tag name)⟩).Closed := by
  have hsynonym : ∀ (c : Category) (other : String), (c ≠ .types ∨ other ≠ k.tag name) →
      ((d.insert name x).insert (k.tag name) ⟨.types, .named (k.tag name)⟩).get? c other =
        (d.insert name x).get? c other := by
    intro c other hother
    rw [get?_insert, if_neg]
    rintro ⟨hc, hsame⟩
    exact hother.elim (fun h => h hc) fun h => h hsame
  have hcontains : ∀ (l : TagKind) (n : String),
      ((d.insert name x).insert (k.tag name) ⟨.types, .named (k.tag name)⟩).contains l.category n =
        (d.insert name x).contains l.category n := by
    intro l n
    rw [contains_eq, hsynonym _ _ (Or.inl l.category_ne_types), ← contains_eq]
  have hself : (d.insert name x).contains k.category name = true := by
    refine contains_of_get? (x := x) ?_
    rw [← hx]
    exact get?_insert_self d name x
  constructor
  · intro c other y hy l n hn
    rw [hcontains]
    rw [get?_insert] at hy
    split at hy
    · -- the type name is made of the tag itself
      obtain rfl : (⟨.types, .named (k.tag name)⟩ : Definition) = y := Option.some.inj hy
      obtain ⟨rfl, rfl⟩ : l = k ∧ n = name := TagKind.tag_injective (List.mem_singleton.1 hn)
      exact hself
    · apply contains_insert
      rw [get?_insert] at hy
      split at hy
      · obtain rfl : x = y := Option.some.inj hy
        exact hbases (l.tag n) hn l n rfl
      · exact hd.tags c other y hy l n hn
  · intro l n hn
    by_cases hsame : l.tag n = k.tag name
    · rw [hsame]
      exact get?_insert_self _ _ _
    · have htypes : Category.types ≠ x.category := by
        rw [hx]
        exact k.category_ne_types.symm
      rw [hcontains, contains_eq, get?_insert, if_neg, ← contains_eq] at hn
      · rw [hsynonym _ _ (Or.inr hsame), get?_insert, if_neg fun h => htypes h.1]
        exact hd.synonyms l n hn
      · rintro ⟨hcategory, rfl⟩
        exact hsame (by rw [TagKind.category_injective (hcategory.trans hx)])

end Closed

end Definitions

end CInterface
