import CInterface.Proofs.CType.Levels
import CInterface.Proofs.CType.Qualifiers
import CInterface.Proofs.CType.Resolution
/-!
# The qualifiers of a written type

A type is written layer by layer around what it declares, and nothing that is written is taken back:
a word that stands in the text of a part stands in the text of the whole. So the qualifiers of a
base, a pointer, a reference or a parameter list stand in the text of a type. Those of an array are
not written at all.

* `StandsIn` — a word stands in a text and is not part of a longer word there.
* `CType.qualifiers`, `CType.bareArrays` — the qualifiers of all levels, and the type without those
  of its arrays.
* `CType.exists_passes_qualifiers` — the qualifiers of a resolved type are those of the type and of
  the definitions on the way.
* `CType.standsIn_render` — which qualifiers stand in the text of a type.
* `CType.standsIn_render_resolve`, `CType.not_isInfix_render_resolve` — both together, and what
  becomes of the qualifiers of a typedef name that stands for an array.
-/

namespace CInterface

open Text

/-! ### Words in a text -/

/-- The text does not end inside a word. -/
def EndsClear (s : String) : Prop := (s.toList.getLast?.all fun c => !isWordTail c) = true

/-- The text does not begin inside a word. -/
def StartsClear (s : String) : Prop := (s.toList.head?.all fun c => !isWordTail c) = true

instance (s : String) : Decidable (EndsClear s) := inferInstanceAs (Decidable (_ = true))

instance (s : String) : Decidable (StartsClear s) := inferInstanceAs (Decidable (_ = true))

/-- The word stands in the text, and no letter, digit or underscore is next to it. -/
def StandsIn (word text : String) : Prop :=
  ∃ before after, text = before ++ word ++ after ∧ EndsClear before ∧ StartsClear after

variable {word text s t : String}

/-- What stands last in a text decides how it ends. -/
theorem EndsClear.append (ht : EndsClear t) (hs : EndsClear s ∨ t ≠ "") : EndsClear (s ++ t) := by
  rw [EndsClear, String.toList_append, List.getLast?_append]
  cases hlast : t.toList.getLast? with
  | none => exact hs.resolve_right fun hne => hne (by simpa using hlast)
  | some d =>
    rw [EndsClear, hlast] at ht
    exact ht

/-- What stands first in a text decides how it begins. -/
theorem StartsClear.append (hs : StartsClear s) (ht : StartsClear t ∨ s ≠ "") :
    StartsClear (s ++ t) := by
  rw [StartsClear, String.toList_append, List.head?_append]
  cases hhead : s.toList.head? with
  | none => exact ht.resolve_right fun hne => hne (by simpa using hhead)
  | some d =>
    rw [StartsClear, hhead] at hs
    exact hs

theorem endsClear_space (s : String) : EndsClear (s ++ " ") :=
  EndsClear.append (by decide) (.inr (by decide))

theorem startsClear_space (s : String) : StartsClear (" " ++ s) :=
  StartsClear.append (by decide) (.inr (by decide))

namespace StandsIn

theorem self (word : String) : StandsIn word word := ⟨"", "", by simp, by decide, by decide⟩

/-- **A word of a text stands in any text around it**, as long as no other word is run into. -/
theorem between (h : StandsIn word text) (hs : EndsClear s) (ht : StartsClear t) :
    StandsIn word (s ++ text ++ t) := by
  obtain ⟨before, after, rfl, hbefore, hafter⟩ := h
  refine ⟨s ++ before, after ++ t, ?_, hbefore.append (.inl hs), hafter.append (.inl ht)⟩
  simp only [String.append_assoc]

theorem behind (h : StandsIn word text) (hs : EndsClear s) : StandsIn word (s ++ text) := by
  simpa using h.between hs (t := "") (by decide)

theorem before (h : StandsIn word text) (ht : StartsClear t) : StandsIn word (text ++ t) := by
  simpa using h.between (s := "") (by decide) ht

/-- A word of a text stands in a list that has the text. -/
theorem intercalate {sep : String} {texts : List String} (h : StandsIn word text)
    (hmem : text ∈ texts) (hends : ∀ s, EndsClear (s ++ sep))
    (hstarts : ∀ s, StartsClear (sep ++ s)) : StandsIn word (sep.intercalate texts) := by
  induction texts with
  | nil => cases hmem
  | cons x texts ih =>
    cases texts with
    | nil =>
      obtain rfl := List.mem_singleton.1 hmem
      rwa [String.intercalate_singleton]
    | cons y texts =>
      rw [String.intercalate_cons_cons]
      rcases List.mem_cons.1 hmem with rfl | hmem
      · rw [String.append_assoc]
        exact h.before (hstarts _)
      · exact (ih hmem).behind (hends x)

end StandsIn

/-! ### The parts of a written type -/

section

variable {q mark inner name : String} {quals : Qualifiers} {texts : List String}

theorem standsIn_quals (hq : q ∈ quals) : StandsIn q quals.text :=
  (StandsIn.self q).intercalate hq endsClear_space startsClear_space

theorem wrapPointer_ne_empty (hmark : mark ≠ "") : wrapPointer mark quals inner ≠ "" := by
  rw [wrapPointer]
  split
  · simp [hmark]
  · split <;> simp [hmark]

theorem standsIn_wrapPointer (hq : q ∈ quals) : StandsIn q (wrapPointer mark quals inner) := by
  rw [wrapPointer, if_neg (by simpa using List.ne_nil_of_mem hq)]
  split
  · exact (standsIn_quals hq).behind (endsClear_space mark)
  · rw [String.append_assoc]
    exact (standsIn_quals hq).between (endsClear_space mark) (startsClear_space inner)

theorem standsIn_withConvention (hq : q ∈ quals) : StandsIn q (withConvention quals inner) := by
  rw [withConvention, if_neg (by simpa using List.ne_nil_of_mem hq)]
  split
  · exact standsIn_quals hq
  · rw [String.append_assoc]
    exact (standsIn_quals hq).before (startsClear_space inner)

theorem standsIn_declaration (hq : q ∈ quals) : StandsIn q (declaration quals name inner) := by
  rw [declaration, if_neg (by simpa using List.ne_nil_of_mem hq), String.append_assoc,
    String.append_assoc]
  exact (standsIn_quals hq).before (startsClear_space _)

theorem startsClear_arrayBounds (size : Option UInt64) : StartsClear (arrayBounds size) := by
  have hbracket : StartsClear "[" := by decide
  cases size with
  | none => decide
  | some n =>
    rw [arrayBounds, String.append_assoc]
    exact hbracket.append (.inr (by decide))

theorem startsClear_paramList (variadic : Bool) : StartsClear (paramList texts variadic) := by
  have hparen : StartsClear "(" := by decide
  rw [paramList, String.append_assoc]
  exact hparen.append (.inr (by decide))

namespace StandsIn

theorem wrapPointer (h : StandsIn word inner) (hinner : inner ≠ "") (hmark : EndsClear mark) :
    StandsIn word (wrapPointer mark quals inner) := by
  rw [CInterface.wrapPointer]
  split
  · exact h.behind hmark
  · rw [if_neg (by simpa using hinner)]
    exact h.behind (endsClear_space _)

theorem withConvention (h : StandsIn word inner) (hinner : inner ≠ "") :
    StandsIn word (withConvention quals inner) := by
  rw [CInterface.withConvention]
  split
  · exact h
  · rw [if_neg (by simpa using hinner)]
    exact h.behind (endsClear_space _)

theorem enclose (h : StandsIn word inner) (indirect : Bool) :
    StandsIn word (enclose indirect inner) := by
  cases indirect with
  | false => exact h
  | true => exact h.between (s := "(") (t := ")") (by decide) (by decide)

theorem declaration (h : StandsIn word inner) (hinner : inner ≠ "") :
    StandsIn word (declaration quals name inner) := by
  have hwritten : inner.isEmpty = false := by simpa using hinner
  rw [CInterface.declaration, hwritten, if_neg Bool.false_ne_true, ← String.append_assoc]
  exact h.behind (endsClear_space _)

/-- A word of a parameter stands behind the parenthesis, whatever the list belongs to. -/
theorem paramList (h : StandsIn word text) (htext : text ∈ texts) (declared : String)
    (variadic : Bool) : StandsIn word (declared ++ paramList texts variadic) := by
  have hcomma : EndsClear ", " ∧ StartsClear ", " := by decide
  have hparen : EndsClear "(" := by decide
  have hmem : text ∈ if variadic then texts ++ ["..."] else texts := by
    cases variadic with
    | false => exact htext
    | true => exact List.mem_append_left _ htext
  rw [CInterface.paramList, ← String.append_assoc, ← String.append_assoc]
  exact (h.intercalate hmem (fun _ => hcomma.1.append (.inr (by decide))) fun _ =>
    hcomma.2.append (.inr (by decide))).between (hparen.append (.inr (by decide))) (by decide)

end StandsIn

end

namespace CType

/-! ### The qualifiers of a type -/

/-- The qualifiers of all levels of a type. -/
def qualifiers (t : CType) : List String := t.levels.flatten

/-- The type without the qualifiers of its arrays. -/
def bareArrays : CType → CType
  | base n q => base n q
  | pointer t q => pointer (bareArrays t) q
  | reference t q => reference (bareArrays t) q
  | array t n _ => array (bareArrays t) n []
  | function t ps v q => function (bareArrays t) ps v q

variable {typedefs : OrderedMap CType} {vocab : Vocabulary} {word : String} {s t : CType}

@[simp] theorem qualifiers_base (n : String) (q : Qualifiers) : (base n q).qualifiers = q :=
  List.append_nil q

/-- A layer has its qualifiers and those of the type that it is around. -/
@[simp] theorem qualifiers_layer (t : CType) (q : Qualifiers) :
    (pointer t q).qualifiers = t.qualifiers ++ q ∧ (reference t q).qualifiers = t.qualifiers ++ q ∧
      (∀ size, (array t size q).qualifiers = t.qualifiers ++ q) ∧
      ∀ ps v, (function t ps v q).qualifiers = t.qualifiers ++ q := by
  have hconcat : (t.levels ++ [q]).flatten = t.levels.flatten ++ q := by simp
  exact ⟨hconcat, hconcat, fun _ => hconcat, fun _ _ => hconcat⟩

theorem mem_qualifiers_addOuter {more : Qualifiers} :
    word ∈ (t.addOuter more).qualifiers ↔ word ∈ t.qualifiers ∨ word ∈ more := by
  cases t <;> simp [addOuter, Qualifiers.mem_union, or_assoc]

/-- **A splice has the qualifiers of both types.** -/
theorem mem_qualifiers_splice {onto : CType} :
    word ∈ (splice onto t).qualifiers ↔ word ∈ onto.qualifiers ∨ word ∈ t.qualifiers := by
  induction t using splice.induct with
  | case1 n q => rw [splice, mem_qualifiers_addOuter, qualifiers_base]
  | case2 t q ih | case3 t q ih | case4 t n q ih | case5 t ps v q ih =>
    simp [splice, ih, or_assoc]

theorem qualifiers_stripSigned (t : CType) : t.stripSigned.qualifiers = t.qualifiers := by
  rw [stripSigned]
  dsimp only
  split
  · rw [qualifiers, levels_withBase, qualifiers]
  · rfl

/-- **Resolving keeps all qualifiers.** A resolved type has those of the type and those of the
definitions on the way to the fundamental name, and no others. -/
theorem exists_passes_qualifiers {r : CType} (h : t.resolve typedefs vocab = .ok r) :
    ∃ chain last, Passes typedefs vocab t.baseName chain last ∧
      (named last).isFundamental vocab = true ∧ ∀ q, q ∈ r.qualifiers ↔
        q ∈ t.qualifiers ∨ ∃ n ∈ chain, ∃ d, typedefs.get? n = some d ∧ q ∈ d.qualifiers := by
  refine resolve_induction (motive := fun t r => ∃ chain last,
    Passes typedefs vocab t.baseName chain last ∧ (named last).isFundamental vocab = true ∧
      ∀ q, q ∈ r.qualifiers ↔
        q ∈ t.qualifiers ∨ ∃ n ∈ chain, ∃ d, typedefs.get? n = some d ∧ q ∈ d.qualifiers) ?_ ?_ h
  · intro t hf
    exact ⟨[], t.baseName, .here _, hf, fun q => by simp [qualifiers_stripSigned]⟩
  · rintro t d r hf hget ⟨chain, last, hpass, hlast, hquals⟩
    rw [baseName_splice] at hpass
    have hnext : follow? typedefs vocab t.baseName = some d.baseName := follow?_of_get? hf hget
    refine ⟨t.baseName :: chain, last, .there hnext hpass, hlast, fun q => ?_⟩
    rw [hquals, mem_qualifiers_splice]
    simp only [List.mem_cons, exists_eq_or_imp, hget, Option.some.injEq, exists_eq_left']
    exact or_assoc.trans or_left_comm

/-! ### The text of a type -/

/-- The qualifiers of arrays are not written. -/
theorem wrap_bareArrays (t : CType) (inner : String) (indirect : Bool) :
    t.bareArrays.wrap inner indirect = t.wrap inner indirect := by
  induction t using bareArrays.induct generalizing inner indirect with
  | case1 n q => rfl
  | case2 t q ih | case3 t q ih | case4 t n q ih | case5 t ps v q ih =>
    simp only [bareArrays, wrap, ih]

theorem paramTexts_eq_map (ps : List Param) :
    paramTexts ps = ps.map fun p => p.type.render p.name := by
  induction ps with
  | nil => rfl
  | cons p ps ih =>
    obtain ⟨name, type, default⟩ := p
    rw [paramTexts, ih, List.map_cons, render]

/-- What is declared stands in the text of the type, if it is written at all. -/
theorem standsIn_wrap (t : CType) {inner : String} (h : StandsIn word inner) (hinner : inner ≠ "")
    (indirect : Bool) : StandsIn word (t.wrap inner indirect) := by
  induction t using bareArrays.induct generalizing inner indirect with
  | case1 n q => exact h.declaration hinner
  | case2 t q ih | case3 t q ih =>
    exact ih (h.wrapPointer hinner (by decide)) (wrapPointer_ne_empty (by decide)) true
  | case4 t n q ih =>
    have hbounds : enclose indirect inner ++ arrayBounds n ≠ "" := by
      cases n <;> simp [arrayBounds]
    exact ih ((h.enclose indirect).before (startsClear_arrayBounds n)) hbounds false
  | case5 t ps v q ih =>
    have hlist : enclose indirect (withConvention q inner) ++ paramList (paramTexts ps) v ≠ "" := by
      simp [paramList]
    have hdeclared : StandsIn word (enclose indirect (withConvention q inner)) :=
      (h.withConvention hinner).enclose indirect
    exact ih (hdeclared.before (startsClear_paramList v)) hlist false

/-- The qualifiers of a type itself, but for its arrays, stand in its text. -/
theorem standsIn_wrap_of_mem (t : CType) (inner : String) (indirect : Bool)
    (h : word ∈ t.bareArrays.qualifiers) : StandsIn word (t.wrap inner indirect) := by
  -- the qualifiers of a layer become a part of what the type under it declares
  induction t using bareArrays.induct generalizing inner indirect with
  | case1 n q => exact standsIn_declaration (by simpa [bareArrays] using h)
  | case2 t q ih | case3 t q ih =>
    simp only [bareArrays, qualifiers_layer, List.mem_append] at h
    rcases h with h | h
    · exact ih _ true h
    · exact standsIn_wrap t (standsIn_wrapPointer h) (wrapPointer_ne_empty (by decide)) true
  | case4 t n q ih =>
    simp only [bareArrays, qualifiers_layer, List.append_nil] at h
    exact ih _ false h
  | case5 t ps v q ih =>
    simp only [bareArrays, qualifiers_layer, List.mem_append] at h
    rcases h with h | h
    · exact ih _ false h
    · have hdeclared : StandsIn word (enclose indirect (withConvention q inner)) :=
        (standsIn_withConvention h).enclose indirect
      exact standsIn_wrap t (hdeclared.before (startsClear_paramList v)) (by simp [paramList]) false

/-- The texts of parameters stand in the text of a type. -/
theorem standsIn_wrap_of_param (t : CType) (inner : String) (indirect : Bool) {p : Param}
    (hp : p ∈ t.params) (h : StandsIn word (p.type.render p.name)) :
    StandsIn word (t.wrap inner indirect) := by
  induction t using bareArrays.induct generalizing inner indirect with
  | case1 n q => cases hp
  | case2 t q ih | case3 t q ih => exact ih _ true hp
  | case4 t n q ih => exact ih _ false hp
  | case5 t ps v q ih =>
    rcases List.mem_append.1 hp with hp | hp
    · exact ih _ false hp
    · have htext : p.type.render p.name ∈ paramTexts ps := by
        rw [paramTexts_eq_map]
        exact List.mem_map_of_mem hp
      exact standsIn_wrap t (h.paramList htext _ v) (by simp [paramList]) false

/-- **The qualifiers of a type and of the types of its parameters stand in its text**, each as a
word, if they are not qualifiers of arrays. -/
theorem standsIn_render (h : s.Within t) (hq : word ∈ s.bareArrays.qualifiers)
    (name : Option String) : StandsIn word (t.render name) := by
  induction h generalizing name with
  | refl => exact standsIn_wrap_of_mem s _ false hq
  | @param t p hp _ ih => exact standsIn_wrap_of_param t _ false hp (ih p.name)

/-- **Resolving and writing lose no qualifier but those of arrays.** A resolved type has the
qualifiers of the type and those of the definitions on the way. In its text stands each of them, and
each of those of its parameters, that is not the qualifier of an array; the others make no difference
to the text. -/
theorem standsIn_render_resolve {r : CType} (h : t.resolve typedefs vocab = .ok r)
    (name : Option String) :
    (∃ chain last, Passes typedefs vocab t.baseName chain last ∧
      (named last).isFundamental vocab = true ∧ ∀ q, q ∈ r.qualifiers ↔
        q ∈ t.qualifiers ∨ ∃ n ∈ chain, ∃ d, typedefs.get? n = some d ∧ q ∈ d.qualifiers) ∧
    (∀ s : CType, s.Within r → ∀ q ∈ s.bareArrays.qualifiers, StandsIn q (r.render name)) ∧
    r.bareArrays.render name = r.render name :=
  ⟨exists_passes_qualifiers h, fun _ hs _ hq => standsIn_render hs hq name,
    wrap_bareArrays r _ false⟩

/-- A pointer to a function, with a type for what the function gives. -/
def sampleHandler (result : CType) : CType :=
  pointer (function result [⟨some "p", pointer (named "char") ["restrict"], none⟩] false
    ["__stdcall"]) ["volatile"]

/-- The result is a typedef name of a qualified pointer. -/
theorem standsIn_render_sampleHandler :
    (sampleHandler (named "A")).resolve sampleTypedefs .standard =
        .ok (sampleHandler (pointer (named "long") ["const"])) ∧
      ∀ q ∈ ["const", "__stdcall", "volatile", "restrict"],
        StandsIn q ((sampleHandler (pointer (named "long") ["const"])).render (some "x")) := by
  have hget : sampleTypedefs.get? "A" = some (pointer (named "signed long") ["const"]) := rfl
  have hresolve : (sampleHandler (named "A")).resolve sampleTypedefs .standard =
      .ok (sampleHandler (pointer (named "long") ["const"])) := by
    rw [resolve_of_get? (by decide) hget (by decide)]
    rfl
  obtain ⟨-, hstands, -⟩ := standsIn_render_resolve hresolve (some "x")
  have hown : (sampleHandler (pointer (named "long") ["const"])).bareArrays.qualifiers =
      ["const", "__stdcall", "volatile"] := rfl
  have hparam : (pointer (named "char") ["restrict"]).bareArrays.qualifiers = ["restrict"] := rfl
  refine ⟨hresolve, fun q hq => ?_⟩
  have hmem : q ∈ ["const", "__stdcall", "volatile"] ++ ["restrict"] := hq
  rcases List.mem_append.1 hmem with hq | hq
  · exact hstands _ .refl q (hown ▸ hq)
  · exact hstands _ (.param List.mem_cons_self .refl) q (hparam ▸ hq)

/-- What `const` says of a name for an array is lost. -/
theorem not_isInfix_render_resolve :
    ¬ ∀ (typedefs : OrderedMap CType) (vocab : Vocabulary) (t r : CType) (name : Option String),
      t.resolve typedefs vocab = .ok r →
        ∀ qs ∈ r.levels, ∀ q ∈ qs, q.toList <:+: (r.render name).toList := by
  intro h
  have hget : (OrderedMap.ofList [("A", array (named "int") (some 3) [])]).get? "A" =
    some (array (named "int") (some 3) []) := rfl
  have hresolve : (base "A" ["const"]).resolve
      (.ofList [("A", array (named "int") (some 3) [])]) .standard =
        .ok (array (named "int") (some 3) ["const"]) := by
    rw [resolve_of_get? (by decide) hget (by decide)]
    rfl
  have hconst := h _ _ _ _ (some "x") hresolve ["const"] (List.mem_cons_of_mem _ List.mem_cons_self)
    "const" List.mem_cons_self
  have htext : (array (named "int") (some 3) ["const"]).render (some "x") = "int x[3]" := by
    decide
  rw [htext] at hconst
  exact absurd hconst (by decide +kernel)

end CType

end CInterface
