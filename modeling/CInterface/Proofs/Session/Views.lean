import CInterface.Proofs.Macro.Steps
import CInterface.Proofs.Registry.Views
import CInterface.Proofs.Session.Cache
import Mathlib.Data.List.Induction
import Mathlib.Data.List.Nodup
/-!
# The views of a session

The registry of a session has a view of all definitions and one of each header. The headers are
processed one after the other, and what a header defines takes the place of what was there. So the
view of all holds what the last header with a name says of it, and the rest of it is what the session
was given before any header.

* `Registry.lastView?` — what the last of some files says.
* `Registry.ViewsAgree` — the views of some files agree with the view of all.
* `Registry.ViewsAgree.rewritten`, `Session.viewsAgree_processFiles` — a header, and many of them.
* `SessionSetup.Given` — what a session is given.
* `viewsAgree_session` — the views of a session agree after each of its headers.
-/

namespace CInterface

/-! ### Views that agree -/

namespace Registry

/-- What the last of some files that has a name in a category says of it. -/
def lastView? (r : Registry) (files : List String) (c : Category) (name : String) :
    Option Definition :=
  files.reverse.findSome? fun f => (r.fileView f).get? c name

/-- The views agree after some files were processed, in their order. What was given before is in the
view of all alone. -/
structure ViewsAgree (r : Registry) (given : Category → String → Definition → Prop)
    (files : List String) : Prop where
  /-- Only files that were processed have definitions. -/
  processed : ∀ (f : String) (c : Category) (name : String) (x : Definition),
    (r.fileView f).get? c name = some x → f ∈ files
  /-- What the last of the files with a name says is in the view of all. -/
  last : ∀ (c : Category) (name : String) (x : Definition),
    r.lastView? files c name = some x → r.flat.get? c name = some x
  /-- What none of the files has was given. -/
  rest : ∀ (c : Category) (name : String) (x : Definition),
    r.flat.get? c name = some x → r.lastView? files c name = none → given c name x

variable {r s : Registry} {files : List String} {file : String}
  {given : Category → String → Definition → Prop}

theorem lastView?_concat (r : Registry) (files : List String) (file : String) (c : Category)
    (name : String) : r.lastView? (files ++ [file]) c name =
      ((r.fileView file).get? c name).or (r.lastView? files c name) := by
  rw [lastView?, List.reverse_concat, List.findSome?_cons, lastView?]
  cases (r.fileView file).get? c name <;> rfl

theorem lastView?_erase (r : Registry) (c : Category) (name : String) (files : List String)
    (e : Category) (other : String) : (r.erase c name).lastView? files e other =
      if e = c ∧ other = name then none else r.lastView? files e other := by
  rw [lastView?, lastView?]
  by_cases h : e = c ∧ other = name
  · rw [if_pos h, List.findSome?_eq_none_iff]
    intro f _
    rw [get?_fileView_erase, if_pos h]
  · rw [if_neg h]
    congr 1
    funext f
    rw [get?_fileView_erase, if_neg h]

/-- A definition that the last file gives is what the last file says. -/
theorem lastView?_insert (r : Registry) (files : List String) (file name : String) (x : Definition)
    (c : Category) (other : String) :
    (r.insert (some file) name x).lastView? (files ++ [file]) c other =
      if c = x.category ∧ other = name then some x
      else r.lastView? (files ++ [file]) c other := by
  by_cases h : c = x.category ∧ other = name
  · rw [if_pos h, lastView?_concat, get?_fileView_insert, if_pos ⟨rfl, h⟩]
    rfl
  · rw [if_neg h, lastView?, lastView?]
    congr 1
    funext f
    rw [get?_fileView_insert, if_neg fun hnew => h hnew.2]

namespace ViewsAgree

theorem erase (h : r.ViewsAgree given files) (c : Category) (name : String) :
    (r.erase c name).ViewsAgree given files := by
  constructor
  · intro f e other x hx
    rw [get?_fileView_erase] at hx
    split at hx
    · cases hx
    · exact h.processed f e other x hx
  · intro e other x hx
    rw [lastView?_erase] at hx
    rw [get?_flat_erase]
    split at hx
    · cases hx
    · rename_i hother
      rw [if_neg hother]
      exact h.last e other x hx
  · intro e other x hx hnone
    rw [get?_flat_erase] at hx
    rw [lastView?_erase] at hnone
    split at hx
    · cases hx
    · rename_i hother
      rw [if_neg hother] at hnone
      exact h.rest e other x hx hnone

theorem insert (h : r.ViewsAgree given (files ++ [file])) (name : String) (x : Definition) :
    (r.insert (some file) name x).ViewsAgree given (files ++ [file]) := by
  constructor
  · intro f c other y hy
    rw [get?_fileView_insert] at hy
    split at hy
    · rename_i hnew
      rw [← Option.some.inj hnew.1]
      exact List.mem_append_right files (List.mem_singleton_self file)
    · exact h.processed f c other y hy
  · intro c other y hy
    rw [lastView?_insert] at hy
    rw [get?_flat_insert]
    split at hy
    · rename_i hnew
      rw [if_pos hnew]
      exact hy
    · rename_i hother
      rw [if_neg hother]
      exact h.last c other y hy
  · intro c other y hy hnone
    rw [lastView?_insert] at hnone
    rw [get?_flat_insert] at hy
    split at hy
    · rename_i hnew
      rw [if_pos hnew] at hnone
      cases hnone
    · rename_i hother
      rw [if_neg hother] at hnone
      exact h.rest c other y hy hnone

/-- Whatever the last file does, the views agree. -/
theorem rewritten (h : r.ViewsAgree given (files ++ [file]))
    (hrewritten : r.Rewritten (some file) s) : s.ViewsAgree given (files ++ [file]) := by
  induction hrewritten with
  | refl => exact h
  | insert name _ _ ih => exact ih.insert name _
  | erase c name _ ih => exact ih.erase c name

/-- A file that was not processed has not said anything yet. -/
theorem concat (h : r.ViewsAgree given files) (hfile : file ∉ files) :
    r.ViewsAgree given (files ++ [file]) := by
  have hnone : ∀ c name, (r.fileView file).get? c name = none := by
    intro c name
    cases hx : (r.fileView file).get? c name with
    | none => rfl
    | some x => exact absurd (h.processed file c name x hx) hfile
  have hlast : ∀ c name, r.lastView? (files ++ [file]) c name = r.lastView? files c name := by
    intro c name
    rw [lastView?_concat, hnone, Option.none_or]
  constructor
  · intro f c name x hx
    exact List.mem_append_left [file] (h.processed f c name x hx)
  · intro c name x hx
    rw [hlast] at hx
    exact h.last c name x hx
  · intro c name x hx hrest
    rw [hlast] at hrest
    exact h.rest c name x hx hrest

/-- Nothing is said by the files that were processed only if no file says anything. -/
theorem lastView?_eq_none_iff (h : r.ViewsAgree given files) (c : Category) (name : String) :
    r.lastView? files c name = none ↔ ∀ f, (r.fileView f).get? c name = none := by
  rw [lastView?, List.findSome?_eq_none_iff]
  constructor
  · intro hnone f
    cases hx : (r.fileView f).get? c name with
    | none => rfl
    | some x =>
      rw [hnone f (List.mem_reverse.2 (h.processed f c name x hx))] at hx
      cases hx
  · intro hnone f _
    exact hnone f

/-- Files that were not processed have not said anything yet. -/
theorem append {more : List String} (h : r.ViewsAgree given files)
    (hnodup : (files ++ more).Nodup) : r.ViewsAgree given (files ++ more) := by
  induction more generalizing files with
  | nil =>
    rw [List.append_nil]
    exact h
  | cons file more ih =>
    have hfile : file ∉ files := fun hmem =>
      List.disjoint_of_nodup_append hnodup hmem List.mem_cons_self
    rw [List.append_cons] at hnodup ⊢
    exact ih (h.concat hfile) hnodup

end ViewsAgree

end Registry

/-! ### What is given -/

namespace Registry

variable {r s : Registry}

/-- What comes from no file gives no file a definition. -/
theorem get?_fileView_of_rewritten_none (hrewritten : r.Rewritten none s) (f : String)
    (c : Category) (name : String) (hnone : (r.fileView f).get? c name = none) :
    (s.fileView f).get? c name = none := by
  induction hrewritten with
  | refl => exact hnone
  | insert other _ _ ih =>
    rw [get?_fileView_insert, if_neg fun h => Option.some_ne_none f h.1.symm]
    exact ih
  | erase e other _ ih => rw [get?_fileView_erase, ih, ite_self]

theorem fileView_insertions (r : Registry) (seeds : List (String × Definition)) (f : String) :
    (seeds.foldl (fun r e => r.insert none e.1 e.2) r).fileView f = r.fileView f := by
  induction seeds generalizing r with
  | nil => rfl
  | cons e rest ih => exact ih (r.insert none e.1 e.2)

/-- Insertions into the view of all come to what was there or to one of the definitions. -/
theorem get?_flat_insertions (seeds : List (String × Definition)) {c : Category} {name : String}
    {x : Definition}
    (h : (seeds.foldl (fun r e => r.insert none e.1 e.2) r).flat.get? c name = some x) :
    r.flat.get? c name = some x ∨ (name, x) ∈ seeds ∧ x.category = c := by
  induction seeds generalizing r with
  | nil => exact Or.inl h
  | cons e rest ih =>
    rcases ih h with hbefore | ⟨hmem, hc⟩
    · rw [get?_flat_insert] at hbefore
      split at hbefore
      · rename_i hnew
        obtain ⟨rfl, rfl⟩ := hnew
        cases hbefore
        exact Or.inr ⟨List.mem_cons_self, rfl⟩
      · exact Or.inl hbefore
    · exact Or.inr ⟨List.mem_cons_of_mem e hmem, hc⟩

/-- A macro that is defined beforehand gives a macro and a constant of its name. -/
theorem get?_flat_predefine {name body : String} {c : Category} {other : String} {x : Definition}
    (h : (predefine r name body).1.flat.get? c other = some x) :
    r.flat.get? c other = some x ∨ (c = .macros ∨ c = .values) ∧ other = name := by
  by_cases hnew : (c = .macros ∨ c = .values) ∧ other = name
  · exact Or.inr hnew
  · apply Or.inl
    have hinsert : ∀ (r : Registry) (y : Definition), y.category = .macros ∨ y.category = .values →
        (r.insert none name y).flat.get? c other = r.flat.get? c other := by
      intro r y hy
      rw [get?_flat_insert, if_neg]
      rintro ⟨rfl, hother⟩
      exact hnew ⟨hy, hother⟩
    have hcleared : (r.undefine name).flat.get? c other = some x := by
      rw [predefine, defineObject] at h
      dsimp only at h
      rw [hinsert _ _ (Or.inl rfl)] at h
      split at h
      · rwa [hinsert _ _ (Or.inr rfl)] at h
      · exact h
    rw [get?_undefine] at hcleared
    split at hcleared
    · cases hcleared
    · exact hcleared

end Registry

namespace SessionSetup

variable {s : SessionSetup}

/-- Where a definition comes from that a session has before any header. -/
inductive Origin (s : SessionSetup) (c : Category) (name : String) (x : Definition) : Prop where
  /-- It is among the definitions that are given. -/
  | seed (hseed : (name, x) ∈ s.seeds) (hc : x.category = c)
  /-- It is what a macro that is defined beforehand comes to, or the value of that. -/
  | predefined (before : List (String × String)) (body : String) (behind : List (String × String))
      (hmacros : s.macros = before ++ (name, body) :: behind) (hc : c = .macros ∨ c = .values)
      (hx : (predefine { s with macros := before }.start name body).1.flat.get? c name = some x)

/-- The session has the definition before any header. -/
structure Given (s : SessionSetup) (c : Category) (name : String) (x : Definition) : Prop where
  start : s.start.flat.get? c name = some x
  origin : s.Origin c name x

theorem start_concat (s : SessionSetup) (macros : List (String × String)) (e : String × String) :
    { s with macros := macros ++ [e] }.start =
      (predefine { s with macros := macros }.start e.1 e.2).1 := by
  rw [start, start]
  dsimp only
  rw [List.foldl_concat]

theorem origin_of_start (himports : s.imports = []) {c : Category} {name : String}
    {x : Definition} (macros behind : List (String × String)) (hmacros : s.macros = macros ++ behind)
    (hx : { s with macros }.start.flat.get? c name = some x) : s.Origin c name x := by
  induction macros using List.reverseRecOn generalizing behind with
  | nil =>
    rw [start, himports] at hx
    rcases Registry.get?_flat_insertions s.seeds hx with hnone | ⟨hseed, hc⟩
    · have hempty : Definitions.empty.get? c name = some x := hnone
      rw [Definitions.get?_empty] at hempty
      cases hempty
    · exact .seed hseed hc
  | append_singleton macros e ih =>
    rw [List.append_assoc, List.singleton_append] at hmacros
    rw [start_concat] at hx
    rcases Registry.get?_flat_predefine hx with hbefore | ⟨hc, rfl⟩
    · exact ih (e :: behind) hmacros hbefore
    · exact .predefined macros e.2 behind hmacros hc hx

theorem get?_fileView_start (himports : s.imports = []) (macros : List (String × String))
    (f : String) (c : Category) (name : String) :
    ({ s with macros }.start.fileView f).get? c name = none := by
  induction macros using List.reverseRecOn with
  | nil =>
    rw [start, himports]
    have hview := Registry.fileView_insertions .empty s.seeds f
    rw [Registry.fileView_empty] at hview
    exact (congrArg (Definitions.get? · c name) hview).trans (Definitions.get?_empty c name)
  | append_singleton macros e ih =>
    rw [start_concat]
    exact Registry.get?_fileView_of_rewritten_none (rewritten_predefine _ e.1 e.2) f c name ih

/-- Before any header there is what is given, and no file has said anything. -/
theorem viewsAgree_start (himports : s.imports = []) : s.start.ViewsAgree s.Given [] where
  processed f c name x hx := by
    rw [get?_fileView_start himports s.macros] at hx
    cases hx
  last c name x hx := by cases hx
  rest c name x hx _ := ⟨hx, origin_of_start himports s.macros [] (by simp) hx⟩

end SessionSetup

/-! ### Headers -/

namespace Session

variable {s : Session} {given : Category → String → Definition → Prop} {before : List String}

theorem rewritten_processText (s : Session) (file text : String) :
    s.registry.Rewritten (some file) (s.processText file text).registry := by
  have hpreprocess := rewritten_preprocess s.registry file (s.edit file text)
  rw [processText]
  exact hpreprocess.trans (rewritten_parseFile s.grammar _ file _ _)

theorem viewsAgree_processText {file : String} (h : s.registry.ViewsAgree given before)
    (hfile : file ∉ before) (text : String) :
    (s.processText file text).registry.ViewsAgree given (before ++ [file]) :=
  (h.concat hfile).rewritten (s.rewritten_processText file text)

/-- Headers that come behind others leave the views agreeing. A header without a text ends the
processing, and then it and the headers behind it say nothing. -/
theorem viewsAgree_processFiles {files : List String} (h : s.registry.ViewsAgree given before)
    (hnodup : (before ++ files).Nodup) :
    (s.processFiles files).1.registry.ViewsAgree given (before ++ files) := by
  induction files generalizing s before with
  | nil =>
    rw [List.append_nil]
    exact h
  | cons file rest ih =>
    have hfile : file ∉ before := fun hmem =>
      List.disjoint_of_nodup_append hnodup hmem List.mem_cons_self
    cases htext : s.text? file with
    | none =>
      rw [processFiles_missing rest htext]
      exact h.append hnodup
    | some text =>
      rw [processFiles_text rest htext, List.append_cons]
      rw [List.append_cons] at hnodup
      exact ih (viewsAgree_processText h hfile text) hnodup

/-- The session after the first headers. -/
def after (s : Session) (n : Nat) : Session :=
  ({ s with processed := true }.processFiles (s.options.files.take n)).1

theorem viewsAgree_after (h : s.registry.ViewsAgree given []) (hnodup : s.options.files.Nodup)
    (n : Nat) : (s.after n).registry.ViewsAgree given (s.options.files.take n) := by
  have hstart : (Session.registry { s with processed := true }).ViewsAgree given [] := h
  have hfiles : ([] ++ s.options.files.take n).Nodup := hnodup.take
  exact viewsAgree_processFiles hstart hfiles

/-- The headers that are processed are those of the options, all of them. -/
theorem process_eq_after (h : s.processed = false) :
    s.process.1 = s.after s.options.files.length := by
  rw [after, process, h, if_neg Bool.false_ne_true, List.take_length]

end Session

/-- **The views of a session agree**, whatever its rules do to the texts. In a session without
imports, after each of its headers, a name that the view of a header has in a category is in the view
of all, as the last of the headers so far that has it says. A name that only the view of all has is
there as it was before any header, and comes from the definitions that are given or from the macros
that are defined beforehand. -/
theorem viewsAgree_session {engine : RegexEngine} {s : SessionSetup} (himports : s.imports = [])
    {a : Session} (ha : s.buildWith engine = .ok a) :
    (∀ (n : Nat) (c : Category) (name : String),
      (∀ f x, ((a.after n).registry.fileView f).get? c name = some x →
        ∃ y, (a.after n).registry.lastView? (s.headers.keys.take n) c name = some y ∧
          (a.after n).registry.flat.get? c name = some y) ∧
      ∀ x, (a.after n).registry.flat.get? c name = some x →
        (∀ f, ((a.after n).registry.fileView f).get? c name = none) → s.Given c name x) ∧
    a.process.1 = a.after s.headers.keys.length := by
  have hagree : ∀ n, (a.after n).registry.ViewsAgree s.Given (s.headers.keys.take n) := by
    obtain ⟨rules, rfl⟩ := SessionSetup.exists_rules_of_build ha
    exact Session.viewsAgree_after (SessionSetup.viewsAgree_start himports) s.headers.nodup
  have hfiles : a.options.files = s.headers.keys := by
    rw [(SessionSetup.headers_of_build ha).2, SessionSetup.options]
  refine ⟨?_, ?_⟩
  · intro n c name
    have hnone := (hagree n).lastView?_eq_none_iff c name
    constructor
    · intro f x hx
      have hsome : (a.after n).registry.lastView? (s.headers.keys.take n) c name ≠ none :=
        fun h => Option.some_ne_none x (hx.symm.trans (hnone.1 h f))
      obtain ⟨y, hy⟩ := Option.ne_none_iff_exists'.1 hsome
      exact ⟨y, hy, (hagree n).last c name y hy⟩
    · intro x hx hrest
      exact (hagree n).rest c name x hx (hnone.2 hrest)
  · rw [← hfiles]
    exact Session.process_eq_after (SessionSetup.processed_of_build ha)

/-- Two headers that define a name anew that is given, the second of which removes a macro. -/
def redefiningSetup : SessionSetup :=
  { headers := .ofList [("a.h", ⟨some "#define A 1", 0⟩), ("b.h", ⟨some "#define A N\n#undef N", 0⟩)]
    macros := [("N", "4")]
    seeds := [("A", ⟨.values, .int 0⟩)] }

/-- The second header defines `A` while `N` is a macro, and then removes `N`. -/
theorem preprocess_second_redefiningSetup (r : Registry) : preprocess r "b.h" "#define A N\n#undef N" =
    ((r.defineObject (some "b.h") "A" "N" 0).1.undefine "N",
      ⟨"\n", .initial, (r.defineObject (some "b.h") "A" "N" 0).2⟩) := by
  have hsource : Text.splitAt '\n' (Text.normalize "#define A N\n#undef N".toList) =
      ["#define A N".toList, "#undef N".toList] := by decide +kernel
  have hline : Directive.ofLine? "#define A N".toList = some ⟨.define, " A N".toList⟩ := by
    decide
  have hread : MacroDefinition.ofText? " A N".toList = some (.object "A" "N") := by decide
  have hundef : Directive.ofLine? "#undef N".toList = some ⟨.undef, " N".toList⟩ := by
    decide
  have hname : leadingName? " N".toList = some "N" := by decide
  have hfirst := PreprocessState.line_defineObject (s := { registry := r }) rfl hline hread "b.h" 0
  rw [preprocess, preprocessNormal, String.toList_ofList, hsource, PreprocessState.lines, hfirst]
  dsimp only
  rw [PreprocessState.lines, PreprocessState.line_undefine rfl hundef hname]
  rfl

/-- The registry that the headers make. -/
theorem registry_redefiningSetup : redefiningSetup.plainSession.process.1.registry =
    ((redefiningSetup.start.defineObject (some "a.h") "A" "1" 0).1.defineObject
      (some "b.h") "A" "N" 0).1.undefine "N" := by
  have hline : Directive.ofLine? "#define A 1".toList = some ⟨.define, " A 1".toList⟩ := by
    decide
  have hread : MacroDefinition.ofText? " A 1".toList = some (.object "A" "1") := by decide
  have hfirst := preprocess_defineObject (by decide +kernel) hline hread
    redefiningSetup.start "a.h"
  have hsecond := preprocess_second_redefiningSetup
    (redefiningSetup.start.defineObject (some "a.h") "A" "1" 0).1
  have hprocess : redefiningSetup.plainSession.process.1 = Session.processText (Session.processText
      { redefiningSetup.plainSession with processed := true } "a.h" "#define A 1") "b.h"
      "#define A N\n#undef N" := rfl
  have hafter := Session.registry_processText
    (s := { redefiningSetup.plainSession with processed := true }) rfl hfirst
  rw [Grammar.parseFile_empty] at hafter
  rw [← hafter] at hsecond
  rw [hprocess, Session.registry_processText rfl hsecond,
    Grammar.parseFile_of_no_tokens (by decide +kernel), hafter]

/-- Behind the first header `N` is still the macro that was given. -/
theorem expand_redefiningSetup :
    (redefiningSetup.start.defineObject (some "a.h") "A" "1" 0).1.macroTable.expand ["A"]
      "N".toList = ⟨"4".toList, 9999, []⟩ := by
  let seeded : Registry := Registry.empty.insert none "A" ⟨.values, .int 0⟩
  have hstart : redefiningSetup.start = (seeded.defineObject none "N" "4" 0).1 := rfl
  have hgiven : seeded.macroTable.expand ["N"] "4".toList = ⟨"4".toList, 10000, []⟩ :=
    MacroTable.expand_eq_of_iterate 2 (by decide)
  refine MacroTable.expand_eq_of_iterate 5 ?_
  rw [Registry.macroTable_defineObject, hstart, Registry.macros_defineObject,
    Registry.fnmacros_defineObject, Registry.expandText, hgiven]
  decide

/-- The second header finds the value of `A` in the macro that it removes then. -/
theorem get?_fileView_redefiningSetup :
    (redefiningSetup.plainSession.process.1.registry.fileView "b.h").get? .values "A" =
      some ⟨.values, .int 4⟩ := by
  have htokens : tokenize "4" = [⟨.integer "4", 0, 1⟩] := by decide +kernel
  have hvalue : ∀ env : Env, evalText env "4" = .ok (.int 4) := by
    intro env
    rw [evalText, htokens]
    rfl
  rw [registry_redefiningSetup, Registry.undefine, Registry.get?_fileView_erase, if_neg (by decide),
    Registry.get?_fileView_erase, if_neg (by decide), Registry.get?_fileView_erase,
    if_neg (by decide), Registry.defineObject, Registry.expandText, expand_redefiningSetup]
  dsimp only
  rw [String.ofList_toList, hvalue]
  dsimp only
  rw [Registry.get?_fileView_insert, if_neg (by decide), Registry.get?_fileView_insert,
    if_pos (by decide)]

theorem viewsAgree_redefiningSetup : ∃ a, redefiningSetup.buildWith .words = .ok a ∧
    ((a.process.1.registry.fileView "b.h").get? .values "A" = some ⟨.values, .int 4⟩) ∧
    ∃ y, a.process.1.registry.lastView? ["a.h", "b.h"] .values "A" = some y ∧
      a.process.1.registry.flat.get? .values "A" = some y := by
  have hbuild : redefiningSetup.buildWith .words = .ok redefiningSetup.plainSession := rfl
  obtain ⟨hagree, hprocess⟩ := viewsAgree_session (s := redefiningSetup) rfl hbuild
  have hview := get?_fileView_redefiningSetup
  have hfiles : redefiningSetup.headers.keys.take redefiningSetup.headers.keys.length =
      ["a.h", "b.h"] := by decide
  refine ⟨_, hbuild, hview, ?_⟩
  rw [hprocess] at hview ⊢
  rw [← hfiles]
  exact (hagree redefiningSetup.headers.keys.length .values "A").1 "b.h" _ hview

end CInterface
