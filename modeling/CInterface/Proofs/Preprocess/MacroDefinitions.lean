import CInterface.Proofs.Macro.ArgumentLists
import CInterface.Proofs.Preprocess.DefinedOperands
import CInterface.Proofs.Text.Lines
/-!
# Reading and writing definitions of function macros

A definition is read leniently: blanks may stand around a name, and the last parameter may be three
dots. What is read is always in one form, though: names are identifiers, and the content is trimmed.
A definition that is written from such parts is read as them.

* `MacroDefinition.ofLine?` — what a line defines.
* `MacroDefinition.Plain`, `MacroDefinition.plain_of_ofText?` — the form of what is read.
* `MacroDefinition.listText`, `MacroDefinition.params?_listText` — a parameter list that is written
  and read.
* `MacroDefinition.ofText?_listed` — a whole definition that is written and read. It has no dots.
-/

namespace CInterface

open Text

/-! ### Texts -/

section Texts

variable {cs : List Char}

/-- Nothing is trimmed off a text with no blank at either end. -/
theorem trim_eq_self (hhead : cs.head?.any isBlank = false)
    (hlast : cs.getLast?.any isBlank = false) : trim cs = cs := by
  have hstart : trimStart cs = cs := by
    cases cs with
    | nil => rfl
    | cons c r => exact List.dropWhile_cons_of_neg (by simpa using hhead)
  have hend : cs.reverse.dropWhile isBlank = cs.reverse := by
    rw [← List.head?_reverse] at hlast
    cases hr : cs.reverse with
    | nil => rfl
    | cons c r =>
      rw [hr] at hlast
      exact List.dropWhile_cons_of_neg (by simpa using hlast)
  rw [trim, hstart, trimEnd, dropEndWhile, hend, List.reverse_reverse]

theorem head?_trim (cs : List Char) : (trim cs).head?.any isBlank = false := by
  obtain ⟨w, -, hw⟩ := exists_trimEnd (trimStart cs)
  cases ht : trim cs with
  | nil => rfl
  | cons c r =>
    rw [← trim, ht] at hw
    have hhead : (cs.dropWhile isBlank).head? = some c := by
      rw [← trimStart, hw]
      rfl
    have hnot := List.head?_dropWhile_not isBlank cs
    rw [hhead] at hnot
    simpa using hnot

theorem getLast?_trim (cs : List Char) : (trim cs).getLast?.any isBlank = false := by
  rw [trim, trimEnd, dropEndWhile, List.getLast?_reverse]
  have hnot := List.head?_dropWhile_not isBlank (trimStart cs).reverse
  cases hh : ((trimStart cs).reverse.dropWhile isBlank).head? with
  | none => rfl
  | some c =>
    rw [hh] at hnot
    simpa using hnot

theorem trim_trim (cs : List Char) : trim (trim cs) = trim cs :=
  trim_eq_self (head?_trim cs) (getLast?_trim cs)

/-- A text is cut at a character that it has not had before. -/
theorem cut?_char_append {c : Char} (h : c ∉ cs) (rest : List Char) :
    cut? [c] (cs ++ c :: rest) = some (cs, rest) := by
  induction cs with
  | nil => simp [cut?, afterHead?]
  | cons x cs ih =>
    have hx : c ≠ x := fun he => h (he ▸ List.mem_cons_self)
    have hnone : afterHead? [c] (x :: (cs ++ c :: rest)) = none := by
      simp [afterHead?, List.isPrefixOf, hx]
    rw [List.cons_append, cut?, hnone, ih fun hm => h (List.mem_cons_of_mem _ hm)]
    rfl

end Texts

/-! ### Identifiers -/

section Identifiers

variable {c : Char} {w cs rest : List Char}

theorem isBlank_of_isIdentTail (h : isIdentTail c = true) : isBlank c = false := by
  rw [isIdentTail, Bool.or_eq_true, decide_eq_true_eq] at h
  rcases h with h | rfl
  · exact isBlank_of_isWordTail h
  · decide

theorem all_isIdentTail (h : isIdentifier w = true) : ∀ x ∈ w, isIdentTail x = true := by
  cases w with
  | nil => cases h
  | cons c w =>
    obtain ⟨hhead, htail⟩ := Bool.and_eq_true_iff.1 h
    intro x hx
    rcases List.mem_cons.1 hx with rfl | hx
    · exact isIdentTail_of_isIdentHead hhead
    · exact List.all_eq_true.1 htail x hx

theorem not_mem_of_isIdentifier (h : isIdentifier w = true) (hc : isIdentTail c = false) :
    c ∉ w := by
  intro hmem
  rw [all_isIdentTail h c hmem] at hc
  cases hc

theorem ne_nil_of_isIdentifier (h : isIdentifier w = true) : w ≠ [] := by
  rintro rfl
  cases h

theorem head?_of_isIdentifier (h : isIdentifier w = true) (r : List Char) :
    (w ++ r).head?.any isBlank = false := by
  cases w with
  | nil => cases h
  | cons c w => exact isBlank_of_isIdentTail (all_isIdentTail h c List.mem_cons_self)

theorem getLast?_of_isIdentifier (h : isIdentifier w = true) (r : List Char) :
    (r ++ w).getLast?.any isBlank = false := by
  have hlast := List.getLast?_eq_some_getLast (ne_nil_of_isIdentifier h)
  rw [List.getLast?_append, hlast]
  exact isBlank_of_isIdentTail (all_isIdentTail h _ (List.getLast_mem (ne_nil_of_isIdentifier h)))

theorem trim_of_isIdentifier (h : isIdentifier w = true) : trim w = w := by
  have hhead := head?_of_isIdentifier h []
  rw [List.append_nil] at hhead
  exact trim_eq_self hhead (getLast?_of_isIdentifier h [])

theorem isIdentifier_of_identifierAt? (h : identifierAt? cs = some (w, rest)) :
    isIdentifier w = true := by
  cases cs with
  | nil => cases h
  | cons c r =>
    rw [identifierAt?] at h
    split at h
    · rename_i hhead
      obtain ⟨rfl, -⟩ := Prod.mk.inj (Option.some.inj h)
      exact Bool.and_eq_true_iff.2 ⟨hhead, List.all_takeWhile⟩
    · cases h

end Identifiers

namespace MacroDefinition

/-! ### Parameters -/

section Parameters

variable {cs w : List Char} {pieces : List (List Char)} {name : String} {names params : List String}
  {variadic : Bool}

/-- A parameter that is just its name. -/
theorem param?_of_isIdentifier (h : isIdentifier w = true) :
    param? w = some (String.ofList w, false) := by
  have hdot : '.' ∉ w := not_mem_of_isIdentifier h (by decide)
  have halone : w ≠ ['.', '.', '.'] := by
    rintro rfl
    exact hdot List.mem_cons_self
  have hbehind : ¬ ['.', '.', '.'].reverse.isPrefixOf w.reverse = true := by
    intro hprefix
    have hsub := (List.isPrefixOf_iff_prefix.1 hprefix).subset
    exact hdot (List.mem_reverse.1 (hsub List.mem_cons_self))
  have hwhole := identifierAt?_append h (r := []) rfl
  rw [List.append_nil] at hwhole
  rw [param?, if_neg halone, if_neg hbehind]
  simp only [hwhole]
  rfl

/-- Whichever way a parameter is written, its name is an identifier. -/
theorem isIdentifier_of_param? (h : param? cs = some (name, variadic)) :
    isIdentifier name.toList = true := by
  rw [param?] at h
  split_ifs at h
  · cases h
    decide
  -- the name is read in the same way, with dots behind it or without
  all_goals
    obtain ⟨_, hname, he⟩ := Option.map_eq_some_iff.1 h
    obtain ⟨rfl, -⟩ := Prod.mk.inj he
    dsimp only at hname
    split at hname
    · rename_i ident hident
      rw [← Option.some.inj hname, String.toList_ofList]
      exact isIdentifier_of_identifierAt? hident
    · cases hname

theorem isIdentifier_of_params? (h : params? pieces = some (names, variadic)) :
    ∀ n ∈ names, isIdentifier n.toList = true := by
  fun_induction params? pieces generalizing names variadic with
  | case1 =>
    cases h
    exact fun n hn => absurd hn List.not_mem_nil
  | case2 p =>
    obtain ⟨⟨name, _⟩, hp, he⟩ := Option.bind_eq_some_iff.1 h
    cases he
    intro n hn
    rw [List.mem_singleton.1 hn]
    exact isIdentifier_of_param? hp
  | case3 p ps hne ih =>
    obtain ⟨⟨name, last⟩, hp, h⟩ := Option.bind_eq_some_iff.1 h
    dsimp only at h
    split at h
    · cases h
    · obtain ⟨⟨others, _⟩, hps, he⟩ := Option.bind_eq_some_iff.1 h
      cases he
      intro n hn
      rcases List.mem_cons.1 hn with rfl | hn
      · exact isIdentifier_of_param? hp
      · exact ih hps n hn

/-- Names with blanks around them are read as parameters, none of them variadic. -/
theorem params?_of_trim (htrim : pieces.map trim = params.map String.toList)
    (hparams : ∀ p ∈ params, isIdentifier p.toList = true) :
    params? pieces = some (params, false) := by
  induction pieces generalizing params with
  | nil =>
    rw [List.map_eq_nil_iff.1 htrim.symm]
    rfl
  | cons piece pieces ih =>
    cases params with
    | nil => cases htrim
    | cons param params =>
      obtain ⟨hpiece, hpieces⟩ := List.cons.inj htrim
      have hone : param? (trim piece) = some (param, false) := by
        rw [hpiece, param?_of_isIdentifier (hparams param List.mem_cons_self), String.ofList_toList]
      have hrest := ih hpieces fun p hp => hparams p (List.mem_cons_of_mem _ hp)
      cases pieces with
      | nil =>
        rw [List.map_eq_nil_iff.1 hpieces.symm, params?, hone]
        rfl
      | cons other pieces =>
        rw [params?, hone, hrest]
        · rfl
        · exact List.cons_ne_nil _ _

/-- The text of a parameter list as a listing writes it. -/
def listText (params : List String) : List Char := [',', ' '].intercalate (params.map String.toList)

theorem listText_cons (param : String) (params : List String) :
    listText (param :: params) =
      joinWith [','] (param.toList :: params.map fun p => ' ' :: p.toList) := by
  rw [listText, List.map_cons, intercalate_comma_space, List.map_map]
  rfl

theorem listText_cons_cons (param other : String) (params : List String) :
    listText (param :: other :: params) =
      param.toList ++ [',', ' '] ++ listText (other :: params) := List.intercalate_cons_cons

theorem listText_singleton (param : String) : listText [param] = param.toList :=
  List.intercalate_singleton

/-- There is nothing in the list but the names, commas and spaces. -/
theorem not_mem_listText {c : Char} (hc : isIdentTail c = false) (hcomma : c ≠ ',')
    (hspace : c ≠ ' ') (hparams : ∀ p ∈ params, isIdentifier p.toList = true) :
    c ∉ listText params := by
  induction params with
  | nil => exact List.not_mem_nil
  | cons param params ih =>
    have hparam : c ∉ param.toList := not_mem_of_isIdentifier (hparams param List.mem_cons_self) hc
    have hrest := ih fun p hp => hparams p (List.mem_cons_of_mem _ hp)
    cases params with
    | nil =>
      rw [listText_singleton]
      exact hparam
    | cons other params =>
      rw [listText_cons_cons]
      simp [hparam, hcomma, hspace, hrest]

/-- The list ends with a name. -/
theorem exists_listText (hne : params ≠ [])
    (hparams : ∀ p ∈ params, isIdentifier p.toList = true) :
    ∃ before last, isIdentifier last = true ∧ listText params = before ++ last := by
  induction params with
  | nil => exact absurd rfl hne
  | cons param params ih =>
    cases params with
    | nil => exact ⟨[], param.toList, hparams param List.mem_cons_self, listText_singleton param⟩
    | cons other params =>
      obtain ⟨before, last, hlast, he⟩ :=
        ih (List.cons_ne_nil _ _) fun p hp => hparams p (List.mem_cons_of_mem _ hp)
      refine ⟨param.toList ++ [',', ' '] ++ before, last, hlast, ?_⟩
      rw [listText_cons_cons, he, List.append_assoc _ before]

theorem listText_ne_nil (hne : params ≠ [])
    (hparams : ∀ p ∈ params, isIdentifier p.toList = true) : listText params ≠ [] := by
  obtain ⟨before, last, hlast, he⟩ := exists_listText hne hparams
  rw [he]
  exact List.append_ne_nil_of_right_ne_nil before (ne_nil_of_isIdentifier hlast)

theorem trim_listText (hne : params ≠ [])
    (hparams : ∀ p ∈ params, isIdentifier p.toList = true) :
    trim (listText params) = listText params := by
  refine trim_eq_self ?_ ?_
  · cases params with
    | nil => exact absurd rfl hne
    | cons param params =>
      have hparam := hparams param List.mem_cons_self
      cases params with
      | nil =>
        rw [listText_singleton, ← List.append_nil param.toList]
        exact head?_of_isIdentifier hparam []
      | cons other params =>
        rw [listText_cons_cons, List.append_assoc]
        exact head?_of_isIdentifier hparam _
  · obtain ⟨before, last, hlast, he⟩ := exists_listText hne hparams
    rw [he]
    exact getLast?_of_isIdentifier hlast before

/-- A listed parameter list is read as it was. -/
theorem params?_listText (hne : params ≠ [])
    (hparams : ∀ p ∈ params, isIdentifier p.toList = true) :
    params? (splitAt ',' (listText params)) = some (params, false) := by
  obtain ⟨param, params, rfl⟩ := List.exists_cons_of_ne_nil hne
  have hcomma : ∀ p ∈ param :: params, ',' ∉ p.toList := fun p hp =>
    not_mem_of_isIdentifier (hparams p hp) (by decide)
  have htrim : ∀ p ∈ param :: params, trim p.toList = p.toList := fun p hp =>
    trim_of_isIdentifier (hparams p hp)
  rw [listText_cons, splitAt_joinWith (List.cons_ne_nil _ _)]
  · refine params?_of_trim ?_ hparams
    rw [List.map_cons, htrim param List.mem_cons_self, List.map_map, List.map_cons]
    congr 1
    refine List.map_congr_left fun p hp => ?_
    rw [Function.comp_apply, trim_cons_of_isBlank (by decide), htrim p (List.mem_cons_of_mem _ hp)]
  · intro piece hpiece
    rcases List.mem_cons.1 hpiece with rfl | hpiece
    · exact hcomma param List.mem_cons_self
    · obtain ⟨p, hp, rfl⟩ := List.mem_map.1 hpiece
      simpa using hcomma p (List.mem_cons_of_mem _ hp)

end Parameters

/-! ### Definitions -/

/-- What a line defines, if it is a `#define` that can be read. -/
def ofLine? (line : List Char) : Option MacroDefinition :=
  (Directive.ofLine? line).bind fun d => if d.keyword = .define then ofText? d.rest else none

/-- The parts of a function macro are as a definition gives them: its name and its parameters are
identifiers, and its content is trimmed. -/
structure Plain (name : String) (params : List String) (body : String) : Prop where
  name : isIdentifier name.toList = true
  params : ∀ p ∈ params, isIdentifier p.toList = true
  body : trim body.toList = body.toList

section Reading

variable {rest : List Char} {name body : String} {params : List String} {variadic : Bool}

theorem plain_of_ofText? (h : ofText? rest = some (.function name params variadic body)) :
    Plain name params body := by
  rw [ofText?] at h
  obtain ⟨⟨ident, after⟩, hident, h⟩ := Option.bind_eq_some_iff.1 h
  have hname : isIdentifier (String.ofList ident).toList = true := by
    rw [String.toList_ofList]
    exact isIdentifier_of_identifierAt? hident
  dsimp only at h
  split at h
  · obtain ⟨⟨inside, content⟩, -, h⟩ := Option.bind_eq_some_iff.1 h
    have hbody : trim (String.ofList (trim content)).toList =
        (String.ofList (trim content)).toList := by
      rw [String.toList_ofList, trim_trim]
    dsimp only at h
    split at h
    · cases h
      exact ⟨hname, fun p hp => absurd hp List.not_mem_nil, hbody⟩
    · obtain ⟨⟨names, last⟩, hparams, he⟩ := Option.bind_eq_some_iff.1 h
      cases he
      exact ⟨hname, isIdentifier_of_params? hparams, hbody⟩
  · cases h

/-- The text behind `#define` that a listing writes is read as a macro that is not variadic. -/
theorem ofText?_listed (h : Plain name params body) :
    ofText? (' ' :: (name.toList ++ '(' :: (listText params ++ ')' :: ' ' :: body.toList))) =
      some (.function name params false body) := by
  have hstart := trimStart_name (g := [' ']) rfl h.name
    ('(' :: (listText params ++ ')' :: ' ' :: body.toList))
  have hident := identifierAt?_append h.name
    (r := '(' :: (listText params ++ ')' :: ' ' :: body.toList)) rfl
  have hclosing : ')' ∉ listText params :=
    not_mem_listText (by decide) (by decide) (by decide) h.params
  have hcut := cut?_char_append hclosing (' ' :: body.toList)
  have hbody : String.ofList (trim (' ' :: body.toList)) = body := by
    rw [trim_cons_of_isBlank (by decide), h.body, String.ofList_toList]
  rw [← List.singleton_append, ofText?, hstart, hident]
  simp only [Option.bind_eq_bind, Option.bind_some, hcut, hbody, String.ofList_toList]
  cases hparams : params with
  | nil => rfl
  | cons param rest =>
    rw [← hparams]
    have hne : params ≠ [] := by
      rw [hparams]
      exact List.cons_ne_nil _ _
    rw [trim_listText hne h.params, if_neg (by simpa using listText_ne_nil hne h.params),
      params?_listText hne h.params]
    rfl

end Reading

end MacroDefinition

end CInterface
