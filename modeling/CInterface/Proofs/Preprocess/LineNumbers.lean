import CInterface.Proofs.Conditional.Nesting
import CInterface.Proofs.Macro.OneLine
/-!
# Line numbers in preprocessed texts

Preprocessing gives one line for each line of the text, as long as no macro has a newline in it: a
line that was expanded must not come apart. The macros that a text defines are of one line again.

* `Definition.OneLine`, `Definitions.OneLine` — no macro has a newline.
* `Registry.Edited` — a registry with some definitions put in, all of one line, and some taken out.
* `PreprocessState.edited_lines` — preprocessing does no more than that to the registry.
* `preprocess_lines` — the lines of a preprocessed text, one by one.
-/

namespace CInterface

open Text

/-! ### Macros of one line -/

/-- A macro without a newline, or a definition that is no macro. -/
def Definition.OneLine : Definition → Prop
  | ⟨.macros, body⟩ => '\n' ∉ String.toList body
  | ⟨.fnmacros, m⟩ => FnMacro.OneLine m
  | _ => True

/-- No macro of the view has a newline. -/
structure Definitions.OneLine (d : Definitions) : Prop where
  object : ∀ {name body}, d.macros.get? name = some body → '\n' ∉ body.toList
  function : ∀ {name m}, d.fnmacros.get? name = some m → m.OneLine

namespace Definitions

variable {d : Definitions}

theorem oneLine_empty : Definitions.empty.OneLine where
  object h := nomatch h
  function h := nomatch h

theorem OneLine.insert (h : d.OneLine) (name : String) {x : Definition} (hx : x.OneLine) :
    (d.insert name x).OneLine := by
  obtain ⟨c, content⟩ := x
  cases c with
  | macros =>
    refine ⟨fun {n body} hm => ?_, h.function⟩
    have hm : (d.macros.insert name content).get? n = some body := hm
    rw [OrderedMap.get?_insert] at hm
    split at hm
    · cases hm
      exact hx
    · exact h.object hm
  | fnmacros =>
    refine ⟨h.object, fun {n m} hm => ?_⟩
    have hm : (d.fnmacros.insert name content).get? n = some m := hm
    rw [OrderedMap.get?_insert] at hm
    split at hm
    · cases hm
      exact hx
    · exact h.function hm
  | types | vars | functions | structs | unions | enums | values => exact ⟨h.object, h.function⟩

theorem OneLine.erase (h : d.OneLine) (c : Category) (name : String) : (d.erase c name).OneLine := by
  cases c with
  | macros =>
    refine ⟨fun {n body} hm => ?_, h.function⟩
    have hm : (d.macros.erase name).get? n = some body := hm
    rw [OrderedMap.get?_erase] at hm
    split at hm
    · cases hm
    · exact h.object hm
  | fnmacros =>
    refine ⟨h.object, fun {n m} hm => ?_⟩
    have hm : (d.fnmacros.erase name).get? n = some m := hm
    rw [OrderedMap.get?_erase] at hm
    split at hm
    · cases hm
    · exact h.function hm
  | types | vars | functions | structs | unions | enums | values => exact ⟨h.object, h.function⟩

end Definitions

/-! ### What preprocessing does to a registry -/

namespace Registry

/-- `Edited r s` — the registry `s` is `r` with some definitions put in, each of one line, and some
taken out. -/
inductive Edited (r : Registry) : Registry → Prop where
  | refl : Edited r r
  | insert {s : Registry} (file : Option String) (name : String) {x : Definition} (hx : x.OneLine)
      (h : Edited r s) : Edited r (s.insert file name x)
  | erase {s : Registry} (c : Category) (name : String) (h : Edited r s) : Edited r (s.erase c name)

variable {r s t : Registry}

theorem Edited.trans (hrs : r.Edited s) (hst : s.Edited t) : r.Edited t := by
  induction hst with
  | refl => exact hrs
  | insert file name hx _ ih => exact .insert file name hx ih
  | erase c name _ ih => exact .erase c name ih

theorem Edited.flat (h : r.Edited s) (hr : r.flat.OneLine) : s.flat.OneLine := by
  induction h with
  | refl => exact hr
  | insert file name hx _ ih => exact ih.insert name hx
  | erase c name _ ih => exact ih.erase c name

/-- What holds of all macros holds file by file. -/
theorem Edited.files (h : r.Edited s) (hr : ∀ file d, r.files.get? file = some d → d.OneLine) :
    ∀ file d, s.files.get? file = some d → d.OneLine := by
  induction h with
  | refl => exact hr
  | @insert s file name x hx _ ih =>
    intro f d hd
    cases file with
    | none => exact ih f d hd
    | some given =>
      have hd : (s.files.insert given ((s.fileView given).insert name x)).get? f = some d := hd
      rw [OrderedMap.get?_insert] at hd
      split at hd
      · cases hd
        refine Definitions.OneLine.insert ?_ name hx
        rw [fileView]
        cases hview : s.files.get? given with
        | none => exact Definitions.oneLine_empty
        | some view => exact ih given view hview
      · exact ih f d hd
  | @erase s c name _ ih =>
    intro f d hd
    have hd : (s.files.mapValues (·.erase c name)).get? f = some d := hd
    rw [OrderedMap.get?_mapValues] at hd
    obtain ⟨view, hview, rfl⟩ := Option.map_eq_some_iff.1 hd
    exact (ih f view hview).erase c name

theorem edited_undefine (r : Registry) (name : String) : r.Edited (r.undefine name) :=
  .erase _ _ (.erase _ _ (.erase _ _ .refl))

theorem oneLine_macroTable (h : r.flat.OneLine) : r.macroTable.OneLine := ⟨h.object, h.function⟩

theorem not_mem_expandText (h : r.flat.OneLine) (hidden : List String) (line : Nat)
    {text : List Char} (ht : '\n' ∉ text) : '\n' ∉ (r.expandText hidden line text).1 :=
  MacroTable.not_mem_expand (oneLine_macroTable h) hidden ht

/-- The body of a macro is expanded before it is put in. -/
theorem edited_defineObject (h : r.flat.OneLine) (file : Option String) (name : String)
    {body : String} (line : Nat) (hbody : '\n' ∉ body.toList) :
    r.Edited (r.defineObject file name body line).1 := by
  have hcontent : Definition.OneLine
      ⟨.macros, String.ofList (r.expandText [name] line body.toList).1⟩ := by
    show '\n' ∉ (String.ofList (r.expandText [name] line body.toList).1).toList
    rw [String.toList_ofList]
    exact not_mem_expandText h [name] line hbody
  rw [defineObject]
  dsimp only
  split
  · exact .insert _ _ hcontent (.insert _ _ trivial (edited_undefine r name))
  · exact .insert _ _ hcontent (edited_undefine r name)

end Registry

/-! ### Directives -/

section Directives

variable {x : Char} {cs rest : List Char}

theorem not_mem_trimStart (h : x ∉ cs) : x ∉ trimStart cs :=
  fun hm => h ((List.dropWhile_sublist _).subset hm)

theorem not_mem_afterHead? {head : List Char} (hr : afterHead? head cs = some rest) (h : x ∉ cs) :
    x ∉ rest := by
  unfold afterHead? at hr
  split at hr
  · rw [← Option.some.inj hr]
    exact not_mem_drop h _
  · cases hr

theorem not_mem_identifierAt? {ident : List Char} (hr : identifierAt? cs = some (ident, rest))
    (h : x ∉ cs) : x ∉ rest := by
  cases cs with
  | nil => cases hr
  | cons c r =>
    rw [identifierAt?] at hr
    split at hr
    · obtain ⟨-, rfl⟩ := Prod.mk.inj (Option.some.inj hr)
      exact fun hm => h (List.mem_cons_of_mem _ ((List.dropWhile_sublist _).subset hm))
    · cases hr

theorem not_mem_cut? {needle before : List Char} (hr : cut? needle cs = some (before, rest))
    (h : x ∉ cs) : x ∉ rest := by
  rw [← cut?_eq_append hr] at h
  exact fun hm => h (List.mem_append_right _ hm)

theorem Directive.not_mem_ofLine? {line : List Char} {d : Directive}
    (hd : Directive.ofLine? line = some d) (h : x ∉ line) : x ∉ d.rest := by
  rw [Directive.ofLine?] at hd
  obtain ⟨behind, hb, he⟩ := Option.bind_eq_some_iff.1 hd
  rw [← Option.some.inj he]
  exact not_mem_drop (not_mem_trimStart (not_mem_afterHead? hb (not_mem_trimStart h))) _

/-- The body of a macro as it is written. -/
def MacroDefinition.body : MacroDefinition → String
  | object _ body | function _ _ _ body => body

/-- The body of a macro stands on the line of its definition. -/
theorem MacroDefinition.not_mem_body {m : MacroDefinition}
    (hm : MacroDefinition.ofText? cs = some m) (h : x ∉ cs) : x ∉ m.body.toList := by
  rw [MacroDefinition.ofText?] at hm
  obtain ⟨⟨ident, after⟩, hi, hm⟩ := Option.bind_eq_some_iff.1 hm
  have hafter : x ∉ after := not_mem_identifierAt? hi (not_mem_trimStart h)
  dsimp only at hm
  split at hm
  · rename_i list
    have hlist : x ∉ list := fun hx => hafter (List.mem_cons_of_mem _ hx)
    obtain ⟨⟨inside, body⟩, hc, hm⟩ := Option.bind_eq_some_iff.1 hm
    have hbody : x ∉ (String.ofList (trim body)).toList := by
      rw [String.toList_ofList]
      exact not_mem_trim (not_mem_cut? hc hlist)
    dsimp only at hm
    split at hm
    · cases hm
      exact hbody
    · obtain ⟨params, -, hm⟩ := Option.bind_eq_some_iff.1 hm
      cases hm
      exact hbody
  · cases hm
    show x ∉ (String.ofList (trim after)).toList
    rw [String.toList_ofList]
    exact not_mem_trim hafter

end Directives

/-! ### Lines -/

namespace PreprocessState

variable {s : PreprocessState} {file : String} {number : Nat}

theorem edited_define (h : s.registry.flat.OneLine) {rest : List Char} (hrest : '\n' ∉ rest) :
    s.registry.Edited (s.define file number rest).registry := by
  rw [define]
  split
  · exact .refl
  · rename_i name body hm
    have hbody : '\n' ∉ body.toList := MacroDefinition.not_mem_body hm hrest
    exact Registry.edited_defineObject h (some file) name number hbody
  · rename_i name params variadic body hm
    have hbody : '\n' ∉ body.toList := MacroDefinition.not_mem_body hm hrest
    have hm : Definition.OneLine ⟨.fnmacros, .ofContent params body variadic⟩ :=
      FnMacro.oneLine_ofContent params variadic hbody
    show s.registry.Edited (s.registry.defineFunction (some file) name _)
    exact .insert _ _ hm (Registry.edited_undefine s.registry name)

theorem edited_undef (rest : List Char) :
    s.registry.Edited (s.undef number rest).registry := by
  rw [undef]
  split
  · exact Registry.edited_undefine _ _
  · exact .refl

theorem registry_pragma (rest : List Char) : (s.pragma number rest).registry = s.registry := by
  rw [pragma]
  split
  · rfl
  · split <;> rfl

theorem registry_regroup (directive : GroupDirective) (next : Option ConditionStack) :
    (s.regroup number directive next).registry = s.registry := by
  cases next <;> rfl

theorem registry_elif (text : List Char) : (s.elif number text).registry = s.registry :=
  registry_regroup _ _

/-- Only `#define` and `#undef` change the registry. -/
theorem edited_directive (h : s.registry.flat.OneLine) {d : Directive} (hd : '\n' ∉ d.rest) :
    s.registry.Edited (s.directive file number d).registry := by
  rw [directive]
  split
  · exact .refl
  · exact .refl
  · exact .refl
  · rw [registry_elif]
    exact .refl
  · rw [registry_regroup]
    exact .refl
  · rw [registry_regroup]
    exact .refl
  · split
    · exact edited_define h hd
    · exact .refl
  · split
    · exact edited_undef d.rest
    · exact .refl
  · split
    · rw [registry_pragma]
      exact .refl
    · exact .refl
  · exact .refl

/-- The line that a line gives. -/
theorem snd_line (s : PreprocessState) (file : String) (number : Nat) (text : List Char) :
    (s.line file number text).2 =
      if Directive.ofLine? text = none ∧ s.conditions.isActive = true then
        (s.registry.macroTable.expand [] text).text
      else [] := by
  rw [line]
  cases Directive.ofLine? text with
  | some d => simp
  | none => cases s.conditions.isActive <;> simp [Registry.expandText]

theorem edited_line (h : s.registry.flat.OneLine) {text : List Char} (ht : '\n' ∉ text) :
    s.registry.Edited (s.line file number text).1.registry := by
  rw [line]
  split
  · rename_i d hd
    exact edited_directive h (Directive.not_mem_ofLine? hd ht)
  · split <;> exact .refl

theorem not_mem_line (h : s.registry.flat.OneLine) {text : List Char} (ht : '\n' ∉ text) :
    '\n' ∉ (s.line file number text).2 := by
  rw [snd_line]
  split
  · exact MacroTable.not_mem_expand (Registry.oneLine_macroTable h) [] ht
  · exact List.not_mem_nil

/-- Lines keep the registry one of macros without newlines, and give lines. -/
theorem edited_lines (s : PreprocessState) (file : String) (number : Nat)
    {texts : List (List Char)} (h : s.registry.flat.OneLine) (ht : ∀ t ∈ texts, '\n' ∉ t) :
    s.registry.Edited (s.lines file number texts).1.registry ∧
      ∀ l ∈ (s.lines file number texts).2, '\n' ∉ l := by
  induction texts generalizing s number with
  | nil => exact ⟨.refl, fun l hl => absurd hl List.not_mem_nil⟩
  | cons text rest ih =>
    have htext := ht text List.mem_cons_self
    have hfirst : s.registry.Edited (s.line file number text).1.registry := edited_line h htext
    obtain ⟨hrest, hlines⟩ := ih (s.line file number text).1 (number + 1) (hfirst.flat h)
      fun t hm => ht t (List.mem_cons_of_mem _ hm)
    rw [lines_cons]
    refine ⟨hfirst.trans hrest, fun l hl => ?_⟩
    rcases List.mem_cons.1 hl with rfl | hl
    · exact not_mem_line h htext
    · exact hlines l hl

theorem length_lines (s : PreprocessState) (file : String) (number : Nat)
    (texts : List (List Char)) : (s.lines file number texts).2.length = texts.length := by
  induction texts generalizing s number with
  | nil => rfl
  | cons text rest ih =>
    rw [lines_cons, List.length_cons, List.length_cons, ih]

/-- Each line gives its line, in the state behind the lines before it. -/
theorem getElem?_lines (s : PreprocessState) (file : String) (number : Nat)
    {texts : List (List Char)} {k : Nat} {text : List Char} (h : texts[k]? = some text) :
    (s.lines file number texts).2[k]? =
      some (((s.lines file number (texts.take k)).1.line file (number + k) text).2) := by
  obtain ⟨hlt, htext⟩ := List.getElem?_eq_some_iff.1 h
  have hlength : (texts.take k).length = k := List.length_take_of_le (Nat.le_of_lt hlt)
  have hsplit := lines_append s file number (texts.take k) (texts.drop k)
  rw [List.take_append_drop, List.drop_eq_getElem_cons hlt, htext, lines_cons, hlength] at hsplit
  have hbefore : (s.lines file number (texts.take k)).2.length = k := by
    rw [length_lines, hlength]
  rw [hsplit, List.getElem?_append_right (Nat.le_of_eq hbefore), hbefore, Nat.sub_self]
  rfl

theorem registry_finish (s : PreprocessState) : s.finish.registry = s.registry := by
  rw [finish]
  split <;> rfl

end PreprocessState

/-! ### Texts -/

/-- **Lines keep their numbers.** Where no macro that can be used has a newline, a preprocessed text
has as many newlines as the text. The macros are free of newlines afterwards, file by file, too. Line
`k` is empty, if line `k` of the normal text is a directive or does not count, and is the expansion of
that line with the macros at hand otherwise. -/
theorem preprocess_lines (r : Registry) (file text : String) (h : r.flat.OneLine) :
    let source := splitAt '\n' (normalize text.toList)
    let before (k : Nat) := (PreprocessState.lines { registry := r } file 0 (source.take k)).1
    let out := preprocess r file text
    out.2.text.toList.count '\n' = text.toList.count '\n' ∧
      out.1.flat.OneLine ∧
      ((∀ f d, r.files.get? f = some d → d.OneLine) → ∀ f d, out.1.files.get? f = some d → d.OneLine) ∧
      ∀ k line, source[k]? = some line →
        (splitAt '\n' out.2.text.toList)[k]? =
          some (if Directive.ofLine? line = none ∧ (before k).conditions.isActive = true then
            ((before k).registry.macroTable.expand [] line).text else []) := by
  intro source before out
  have hsource : ∀ l ∈ source, '\n' ∉ l := fun l hl => not_mem_of_mem_splitAt hl
  obtain ⟨hedited, hlines⟩ := PreprocessState.edited_lines { registry := r } file 0 h hsource
  have htext : out.2.text.toList =
      joinWith ['\n'] (PreprocessState.lines { registry := r } file 0 source).2 := by
    simp only [out, preprocess, preprocessNormal, String.toList_ofList]
    rfl
  have hregistry : out.1 = (PreprocessState.lines { registry := r } file 0 source).1.registry := by
    simp only [out, preprocess, preprocessNormal, String.toList_ofList,
      PreprocessState.registry_finish]
    rfl
  have hlength := PreprocessState.length_lines { registry := r } file 0 source
  have hne : (PreprocessState.lines { registry := r } file 0 source).2 ≠ [] := by
    rw [← List.length_pos_iff, hlength, length_splitAt]
    omega
  rw [hregistry, htext, splitAt_joinWith hne hlines]
  refine ⟨?_, hedited.flat h, hedited.files, fun k line hk => ?_⟩
  · have hcount := count_joinWith hne hlines
    rw [hlength, length_splitAt, count_normalize] at hcount
    omega
  · rw [PreprocessState.getElem?_lines _ file 0 hk, PreprocessState.snd_line]

/-- A registry with a macro of no file and one of a file. -/
def sampleMacros : Registry :=
  (Registry.empty.insert none "N" ⟨.macros, "(4)"⟩).insert (some "b.h") "F"
    ⟨.fnmacros, .ofContent ["x"] "(x +\tN)" false⟩

/-- A comment over two lines, a definition that is continued, and a line without end. -/
def sampleText : String := "/* one\ntwo */ F(1)\n#define G \\\n F(N) // G\nG"

theorem preprocess_lines_sampleText :
    sampleMacros.flat.OneLine ∧ (preprocess sampleMacros "a.h" sampleText).1.flat.OneLine ∧
      (preprocess sampleMacros "a.h" sampleText).2.text.toList.count '\n' = 4 ∧
      (splitAt '\n' (preprocess sampleMacros "a.h" sampleText).2.text.toList)[2]? = some [] := by
  have hN : Definition.OneLine ⟨.macros, "(4)"⟩ := by
    show '\n' ∉ "(4)".toList
    decide
  have hF : Definition.OneLine ⟨.fnmacros, .ofContent ["x"] "(x +\tN)" false⟩ :=
    FnMacro.oneLine_ofContent ["x"] false (by decide)
  have hmacros : sampleMacros.flat.OneLine :=
    (Definitions.oneLine_empty.insert "N" hN).insert "F" hF
  obtain ⟨hcount, hflat, -, hline⟩ := preprocess_lines sampleMacros "a.h" sampleText hmacros
  have hdirective : (splitAt '\n' (normalize sampleText.toList))[2]? =
      some "#define G  F(N) ".toList := by decide +kernel
  refine ⟨hmacros, hflat, hcount.trans (by decide), (hline 2 _ hdirective).trans ?_⟩
  have hsome : Directive.ofLine? "#define G  F(N) ".toList ≠ none := by decide
  rw [if_neg fun h => hsome h.1]

end CInterface
