import CInterface.Proofs.Macro.Bodies
import Mathlib.Data.List.Forall2
import Mathlib.Data.List.Induction
import Mathlib.Data.List.TakeWhile
/-!
# What a call of a function macro becomes

A function macro is kept as a template, and its calls fill the template. What comes out can be said
without it: the words of the content that are parameters give way to what the parameters take, all
at once, and everything else stays as it is.

* `FnMacro.Fits` — the number of arguments fits the parameters.
* `FnMacro.LastAt`, `FnMacro.Takes` — the place of a parameter, and the text that it takes.
* `FnMacro.Becomes` — what a segment of the content becomes.
* `FnMacro.substitute_ofContent` — a call whose arguments fit becomes the content segment by segment,
  and any other call fails with the count.
-/

namespace CInterface

open Text

namespace FnMacro

/-! ### The rule -/

/-- The only argument is a blank one, and there are no parameters. -/
def OnlyBlank (params args : List String) : Prop :=
  params = [] ∧ ∃ arg, args = [arg] ∧ ∀ c ∈ arg.toList, isBlank c = true

/-- The number of arguments fits: there is one for each parameter, or a blank one where there are no
parameters, or one for each but the last parameter of a variadic macro. -/
def Fits (params : List String) (variadic : Bool) (args : List String) : Prop :=
  args.length = params.length ∨
    OnlyBlank params args ∨
    (variadic = true ∧ params ≠ [] ∧ params.length ≤ args.length + 1)

/-- The word is the parameter at this place; of places with one name the last. -/
def LastAt (params : List String) (word : String) (i : Nat) : Prop :=
  params[i]? = some word ∧ ∀ j, i < j → params[j]? ≠ some word

/-- The parameter at place `i` of `n` takes the text: that of its argument, or, at the last place of
a variadic macro, those of all arguments that are left, trimmed and with commas between. -/
def Takes (n : Nat) (variadic : Bool) (args : List String) (i : Nat) (text : List Char) : Prop :=
  if variadic = true ∧ i + 1 = n then
    text = [',', ' '].intercalate ((args.drop i).map fun arg => trim arg.toList)
  else ∃ arg, args[i]? = some arg ∧ text = arg.toList

/-- What a segment of the content becomes: a word that is a parameter what this takes, and any other
segment itself. -/
inductive Becomes (params : List String) (variadic : Bool) (args : List String) :
    Segment → List Char → Prop where
  | parameter {s : Segment} {i : Nat} {text : List Char} (hword : s.kind = .ident)
      (hlast : LastAt params (String.ofList s.text) i)
      (htakes : Takes params.length variadic args i text) : Becomes params variadic args s text
  | verbatim {s : Segment} (h : s.kind = .ident → String.ofList s.text ∉ params) :
      Becomes params variadic args s s.text

end FnMacro

/-! ### Places of parameters -/

namespace Template

variable {params args : List String} {name : String} {i : Nat}

theorem slot?_concat (params : List String) (p name : String) :
    slot? (params ++ [p]) name = if p = name then some params.length else slot? params name := by
  rw [slot?, slot?, List.zipIdx_append, List.filter_append, List.getLast?_append]
  by_cases hp : p = name <;> simp [hp]

/-- One more parameter is the last place of its name and changes no other. -/
theorem lastAt_concat (params : List String) (p name : String) (i : Nat) :
    FnMacro.LastAt (params ++ [p]) name i ↔
      if p = name then i = params.length else FnMacro.LastAt params name i := by
  have hlast : (params ++ [p])[params.length]? = some p := List.getElem?_concat_length
  have hother : ∀ j, j ≠ params.length → (params ++ [p])[j]? = params[j]? := by
    intro j hj
    rw [List.getElem?_append]
    grind
  split
  · rename_i hp
    subst hp
    constructor
    · rintro ⟨hi, hno⟩
      by_contra hne
      rw [hother i hne] at hi
      exact hno _ (List.getElem?_eq_some_iff.1 hi).1 hlast
    · rintro rfl
      refine ⟨hlast, fun j hj => ?_⟩
      rw [hother j (by omega), List.getElem?_eq_none (by omega)]
      exact (Option.some_ne_none p).symm
  · rename_i hp
    have hsame : ∀ j : Nat, (params ++ [p])[j]? = some name ↔ params[j]? = some name := by
      intro j
      by_cases hj : j = params.length
      · rw [hj, hlast, List.getElem?_eq_none (Nat.le_refl _)]
        simpa using hp
      · rw [hother j hj]
    rw [FnMacro.LastAt, FnMacro.LastAt, hsame i]
    simp only [Ne, hsame]

/-- The slot of a parameter is its last place. -/
theorem slot?_eq_some_iff : slot? params name = some i ↔ FnMacro.LastAt params name i := by
  induction params using List.reverseRecOn with
  | nil => simp [slot?, FnMacro.LastAt]
  | append_singleton params p ih =>
    rw [slot?_concat, lastAt_concat]
    split
    · exact Option.some_inj.trans eq_comm
    · exact ih

theorem slot?_eq_none_iff : slot? params name = none ↔ name ∉ params := by
  induction params using List.reverseRecOn with
  | nil => simp [slot?]
  | append_singleton params p ih =>
    rw [slot?_concat]
    split
    · rename_i hp
      simp [hp]
    · rename_i hp
      simp [ih, Ne.symm hp]

variable {piece : List Char} {segs : List Segment}

/-- **A template is filled all at once**, if there is an argument for each parameter. -/
theorem fill_cut_of_length (h : args.length = params.length) :
    (cut params piece segs).fill args =
      .ok (String.ofList (piece ++ segs.flatMap (instantiate params args))) := by
  induction segs generalizing piece with
  | nil => simp [cut, fill, fillSlots, bind, Except.bind, pure, Except.pure]
  | cons s segs ih =>
    rw [cut, List.flatMap_cons, instantiate]
    dsimp only
    cases hs : (if s.kind = .ident then slot? params (String.ofList s.text) else none) with
    | none => simp only [ih, List.append_assoc]
    | some i =>
      have hi : i < args.length := by
        rw [h]
        split at hs
        · exact slot?_lt hs
        · cases hs
      have harg : args[i]? = some args[i] := List.getElem?_eq_getElem hi
      simp only [fill_cons_of_some (pieces_ne_nil _ _ _) harg, ih, harg]
      simp [Except.map, String.append_assoc]

end Template

/-! ### Arguments -/

theorem trim_eq_nil_iff {cs : List Char} : trim cs = [] ↔ ∀ c ∈ cs, isBlank c = true := by
  rw [trim, trimEnd, dropEndWhile, List.reverse_eq_nil_iff, List.dropWhile_eq_nil_iff]
  constructor
  · intro h c hc
    obtain ⟨w, hw, hcs⟩ := exists_trimStart cs
    rw [hcs] at hc
    rcases List.mem_append.1 hc with hc | hc
    · exact hw c hc
    · exact h c (List.mem_reverse.2 hc)
  · intro h c hc
    exact h c ((List.dropWhile_suffix _).subset (List.mem_reverse.1 hc))

namespace FnMacro

variable {m : FnMacro} {params args : List String}

theorem dropBlank_of_ne_nil (h : params ≠ []) : dropBlank params.length args = args := by
  cases params with
  | nil => exact absurd rfl h
  | cons p params => rfl

theorem dropBlank_of_onlyBlank (h : OnlyBlank params args) :
    dropBlank params.length args = [] := by
  obtain ⟨rfl, arg, rfl, hblank⟩ := h
  rw [List.length_nil, dropBlank, if_pos (List.isEmpty_iff.2 (trim_eq_nil_iff.2 hblank))]

theorem dropBlank_of_not_onlyBlank (h : ¬ OnlyBlank params args) :
    dropBlank params.length args = args := by
  by_cases hne : params ≠ []
  · exact dropBlank_of_ne_nil hne
  · obtain rfl := Decidable.not_not.1 hne
    match args with
    | [] => rfl
    | [arg] =>
      rw [List.length_nil, dropBlank, if_neg]
      exact fun hempty => h ⟨rfl, arg, rfl, trim_eq_nil_iff.1 (List.isEmpty_iff.1 hempty)⟩
    | a :: b :: args => rfl

theorem bind_of_variadic (hv : m.variadic = true) (hp : m.params ≠ []) (args : List String) :
    m.bind args =
      if args.length < m.params.length - 1 then
        .error (.argumentCount m.params.length args.length)
      else .ok (args.take (m.params.length - 1) ++
        [", ".intercalate ((args.drop (m.params.length - 1)).map
          fun a => String.ofList (trim a.toList))]) := by
  have hpos : 0 < m.params.length := List.length_pos_iff.2 hp
  simp only [bind, dropBlank_of_ne_nil hp, hv, hpos, Bool.true_and, decide_true, if_true]

theorem bind_of_not_variadic (h : ¬ (m.variadic = true ∧ m.params ≠ [])) (args : List String) :
    m.bind args =
      if (dropBlank m.params.length args).length ≠ m.params.length then
        .error (.argumentCount m.params.length (dropBlank m.params.length args).length)
      else .ok (dropBlank m.params.length args) := by
  have hcond : ¬ (m.variadic && decide (0 < m.params.length)) = true := by
    rw [Bool.and_eq_true, decide_eq_true_eq, List.length_pos_iff]
    exact h
  simp only [bind, if_neg hcond]

/-- Arguments that fit are bound, one for each parameter. -/
theorem exists_bind (h : Fits m.params m.variadic args) :
    ∃ bound, m.bind args = .ok bound ∧ bound.length = m.params.length ∧
      ∀ i < m.params.length, ∀ text,
        Takes m.params.length m.variadic args i text ↔ text = (bound[i]?.getD "").toList := by
  by_cases hv : m.variadic = true ∧ m.params ≠ []
  · have hcount : m.params.length ≤ args.length + 1 := by
      rcases h with heq | ⟨hnil, -⟩ | ⟨-, -, hle⟩
      · omega
      · exact absurd hnil hv.2
      · exact hle
    have hpos : 0 < m.params.length := List.length_pos_iff.2 hv.2
    have hfixed : (args.take (m.params.length - 1)).length = m.params.length - 1 := by
      rw [List.length_take]
      omega
    refine ⟨_, (bind_of_variadic hv.1 hv.2 args).trans (if_neg (by omega)), ?_, ?_⟩
    · rw [List.length_append, hfixed, List.length_singleton]
      omega
    · intro i hi text
      by_cases hlast : i + 1 = m.params.length
      · obtain rfl : m.params.length - 1 = i := by omega
        rw [Takes, if_pos ⟨hv.1, hlast⟩, List.getElem?_append_right (by omega), hfixed]
        simp [String.toList_intercalate, Function.comp_def]
      · have hbefore : i < (args.take (m.params.length - 1)).length := by omega
        have harg : i < args.length := by omega
        rw [Takes, if_neg fun hand => hlast hand.2, List.getElem?_append_left hbefore,
          List.getElem?_take_of_lt (by omega), List.getElem?_eq_getElem harg]
        simp
  · have hbound : (dropBlank m.params.length args).length = m.params.length := by
      by_cases hblank : OnlyBlank m.params args
      · rw [dropBlank_of_onlyBlank hblank, hblank.1]
      · rw [dropBlank_of_not_onlyBlank hblank]
        rcases h with heq | hblank' | hvariadic
        · exact heq
        · exact absurd hblank' hblank
        · exact absurd ⟨hvariadic.1, hvariadic.2.1⟩ hv
    refine ⟨_, (bind_of_not_variadic hv args).trans (if_neg (by simpa using hbound)), hbound, ?_⟩
    intro i hi text
    have hne : m.params ≠ [] := List.length_pos_iff.1 (by omega)
    rw [dropBlank_of_ne_nil hne] at hbound ⊢
    have harg : i < args.length := by omega
    rw [Takes, if_neg fun hand => hv ⟨hand.1, hne⟩, List.getElem?_eq_getElem harg]
    simp

/-- Arguments that do not fit are counted. -/
theorem bind_eq_error (h : ¬ Fits m.params m.variadic args) :
    m.bind args = .error (.argumentCount m.params.length args.length) := by
  by_cases hv : m.variadic = true ∧ m.params ≠ []
  · have hcount : ¬ m.params.length ≤ args.length + 1 := fun hle => h (.inr (.inr ⟨hv.1, hv.2, hle⟩))
    exact (bind_of_variadic hv.1 hv.2 args).trans (if_pos (by omega))
  · have hkept := dropBlank_of_not_onlyBlank fun hblank => h (.inr (.inl hblank))
    rw [bind_of_not_variadic hv, hkept, if_pos fun heq => h (.inl heq)]

/-! ### Segments -/

/-- What becomes of a segment is what the filled template has in its place. -/
theorem becomes_iff {bound : List String} {variadic : Bool} {s : Segment} {text : List Char}
    (h : ∀ i < params.length, ∀ text,
      Takes params.length variadic args i text ↔ text = (bound[i]?.getD "").toList) :
    Becomes params variadic args s text ↔ text = Template.instantiate params bound s := by
  by_cases hword : s.kind = .ident
  · cases hs : Template.slot? params (String.ofList s.text) with
    | none =>
      rw [Template.instantiate, if_pos hword, hs]
      have hout := Template.slot?_eq_none_iff.1 hs
      constructor
      · rintro (⟨-, hlast, -⟩ | -)
        · exact absurd (List.mem_of_getElem? hlast.1) hout
        · rfl
      · rintro rfl
        exact .verbatim fun _ => hout
    | some i =>
      rw [Template.instantiate, if_pos hword, hs]
      have hlast := Template.slot?_eq_some_iff.1 hs
      have htakes := h i (Template.slot?_lt hs)
      constructor
      · rintro (⟨-, hlast', htakes'⟩ | hverbatim)
        · have hsame := Template.slot?_eq_some_iff.2 hlast'
          rw [hs] at hsame
          cases hsame
          exact (htakes _).1 htakes'
        · exact absurd (List.mem_of_getElem? hlast.1) (hverbatim hword)
      · intro htext
        exact .parameter hword hlast ((htakes _).2 htext)
  · rw [Template.instantiate, if_neg hword]
    constructor
    · rintro (⟨hword', -, -⟩ | -)
      · exact absurd hword' hword
      · rfl
    · rintro rfl
      exact .verbatim fun hword' => absurd hword' hword

/-- **A call of a function macro puts the arguments in the places of the parameters.** It has a
text if and only if the number of arguments fits, and the text is the content with each segment
replaced by what it becomes. Any other call fails, and it fails with the number of parameters and
the number of arguments. -/
theorem substitute_ofContent (params : List String) (content : String) (variadic : Bool)
    (args : List String) :
    (∀ text, (ofContent params content variadic).substitute args = .ok text ↔
      Fits params variadic args ∧ ∃ parts,
        List.Forall₂ (Becomes params variadic args) (segments content.toList) parts ∧
          text.toList = parts.flatten) ∧
    ∀ e, (ofContent params content variadic).substitute args = .error e ↔
      ¬ Fits params variadic args ∧ e = .argumentCount params.length args.length := by
  by_cases hfits : Fits params variadic args
  · obtain ⟨bound, hbind, hlength, htakes⟩ :=
      exists_bind (m := ofContent params content variadic) hfits
    have hcall : (ofContent params content variadic).substitute args = .ok (String.ofList
        ((segments content.toList).flatMap (Template.instantiate params bound))) := by
      rw [substitute, hbind]
      exact Template.fill_cut_of_length hlength
    have hbecomes : Becomes params variadic args =
        fun s text => Template.instantiate params bound s = text :=
      funext₂ fun s text => propext ((becomes_iff htakes).trans eq_comm)
    have hparts : ∀ parts, List.Forall₂ (Becomes params variadic args) (segments content.toList)
        parts ↔ (segments content.toList).map (Template.instantiate params bound) = parts := by
      intro parts
      rw [← List.forall₂_eq_eq_eq, List.forall₂_map_left_iff, hbecomes]
    refine ⟨fun text => ?_, fun e => ?_⟩
    · rw [hcall]
      simp only [hparts, exists_eq_left', hfits, true_and, ← List.flatMap_def, Except.ok.injEq]
      exact ⟨fun h => by rw [← h, String.toList_ofList], fun h => by rw [← h, String.ofList_toList]⟩
    · rw [hcall]
      exact ⟨fun h => (by cases h), fun h => absurd hfits h.1⟩
  · have hcall : (ofContent params content variadic).substitute args =
        .error (.argumentCount params.length args.length) := by
      rw [substitute, bind_eq_error hfits]
      rfl
    refine ⟨fun text => ?_, fun e => ?_⟩
    · rw [hcall]
      exact ⟨fun h => (by cases h), fun h => absurd h.1 hfits⟩
    · rw [hcall, Except.error.injEq, eq_comm]
      exact ⟨fun h => ⟨hfits, h⟩, fun h => h.2⟩

/-- An argument that names another parameter is not replaced again. -/
example : (ofContent ["x", "y"] "x+\"x\"+y" false).substitute ["y", "x"] = .ok "y+\"x\"+x" := by
  decide +kernel

end FnMacro

end CInterface
