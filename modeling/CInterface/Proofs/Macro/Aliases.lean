import CInterface.Proofs.Macro.Derivation
import CInterface.Proofs.Macro.Gaps
import CInterface.Proofs.Macro.Steps
/-!
# Aliases of macros

An object macro whose body is the name of another macro is an alias of it. A text and the same text
with the name in the place of the alias are one gapped text, with either word in the gaps. Their
expansions go side by side: where the first replaces the alias, the second has the replacement
already, and from then on the same macros are hidden in both, the alias apart.

* `HiddenToo`, `SameHidden` — what is hidden in the two texts.
* `MacroTable.Conditions.clearOf` — the alias is not met where it is hidden, and no replacement goes
  on with a later alias.
* `MacroTable.Expands.expandsToo` — the two texts expand to the same.
* `MacroTable.text_expand_renameWord` — an alias expands as the macro that it stands for.
* `MacroTable.not_text_expand_renameWord` — not so in the arguments of its own call, nor where a
  replacement goes on with it.
-/

namespace CInterface

open Text

/-! ### Hidden macros in a gapped text -/

section Hidden

variable {w w' : List Char} {g g' : List (Option Char)} {hidden hidden' : List HiddenMacro}
  {p : String → Prop} {name : String}

/-- Each macro with a name in `p` that is hidden in the gapped text with `w` in the gaps is hidden
up to the same place with `w'` in them. -/
def HiddenToo (p : String → Prop) (w w' : List Char) (g : List (Option Char))
    (hidden hidden' : List HiddenMacro) : Prop :=
  ∀ h ∈ hidden, p h.name → h.tail < (fill w g).length →
    ∃ s, s <:+ g ∧ h.tail = (fill w s).length ∧ ⟨h.name, (fill w' s).length⟩ ∈ hidden'

theorem mem_hiddenNames {cs : List Char} :
    name ∈ hiddenNames hidden cs ↔ ∃ h ∈ hidden, h.tail < cs.length ∧ h.name = name := by
  simp [hiddenNames, and_assoc]

theorem mem_hideMacro {tail : Nat} {x : HiddenMacro} :
    x ∈ hideMacro hidden name tail ↔
      (∃ y ∈ hidden, x = ⟨y.name, min y.tail tail⟩) ∨ x = ⟨name, tail⟩ := by
  simp only [hideMacro, List.mem_append, List.mem_map, List.mem_singleton, eq_comm]

/-- An end that is shorter than another is an end of that. -/
theorem suffix_of_length_fill_lt {s : List (Option Char)} (hs : s <:+ g) (hg' : g' <:+ g)
    (hlt : (fill w s).length < (fill w g').length) : s <:+ g' := by
  rcases List.suffix_or_suffix_of_suffix hs hg' with h | h
  · exact h
  · exact absurd (length_fill_le w h) (Nat.not_le_of_lt hlt)

/-- The shorter of two ends. -/
theorem exists_suffix_min {s after : List (Option Char)} (hs : s <:+ g) (ha : after <:+ g) :
    ∃ s', s' <:+ after ∧ ∀ v : List Char,
      min (fill v s).length (fill v after).length = (fill v s').length := by
  rcases List.suffix_or_suffix_of_suffix hs ha with h | h
  · exact ⟨s, h, fun v => Nat.min_eq_left (length_fill_le v h)⟩
  · exact ⟨after, List.suffix_rfl, fun v => Nat.min_eq_right (length_fill_le v h)⟩

namespace HiddenToo

/-- Behind a part of the text. -/
theorem of_suffix (h : HiddenToo p w w' g hidden hidden') (hg' : g' <:+ g) :
    HiddenToo p w w' g' hidden hidden' := by
  intro x hx hp hlt
  obtain ⟨s, hs, htail, hmem⟩ := h x hx hp (Nat.lt_of_lt_of_le hlt (length_fill_le w hg'))
  exact ⟨s, suffix_of_length_fill_lt hs hg' (htail ▸ hlt), htail, hmem⟩

/-- Macros that are hidden throughout. -/
theorem throughout {names names' : List String} (h : ∀ n ∈ names, p n → n ∈ names')
    (w w' : List Char) (g : List (Option Char)) :
    HiddenToo p w w' g (names.map (⟨·, 0⟩)) (names'.map (⟨·, 0⟩)) := by
  intro x hx hp _
  obtain ⟨n, hn, rfl⟩ := List.mem_map.1 hx
  exact ⟨[], List.nil_suffix, rfl, List.mem_map.2 ⟨n, h n hn hp, rfl⟩⟩

/-- A macro that is hidden at the beginning of the text is hidden inside it. -/
theorem exists_inside (h : HiddenToo p w w' g hidden hidden') (hw' : w' ≠ []) {x : HiddenMacro}
    (hx : x ∈ hidden) (hp : p x.name) (hlt : x.tail < (fill w g).length) :
    ∃ s, s <:+ g ∧ s ≠ g ∧ x.tail = (fill w s).length ∧
      ⟨x.name, (fill w' s).length⟩ ∈ hidden'.filter (·.tail < (fill w' g).length) := by
  obtain ⟨s, hs, htail, hmem⟩ := h x hx hp hlt
  have hproper : s ≠ g := by
    rintro rfl
    exact absurd htail (Nat.ne_of_lt hlt)
  have hlt' := length_fill_lt hw' hs hproper
  exact ⟨s, hs, hproper, htail, List.mem_filter.2 ⟨hmem, decide_eq_true hlt'⟩⟩

theorem mem_names (h : HiddenToo p w w' g hidden hidden') (hw' : w' ≠ [])
    (hn : name ∈ hiddenNames hidden (fill w g)) (hp : p name) :
    name ∈ hiddenNames hidden' (fill w' g) := by
  obtain ⟨x, hx, hlt, rfl⟩ := mem_hiddenNames.1 hn
  obtain ⟨s, -, -, -, hmem⟩ := h.exists_inside hw' hx hp hlt
  exact List.mem_map.2 ⟨_, hmem, rfl⟩

/-- Inside a replacement that both texts have. -/
theorem hideMacro (h : HiddenToo p w w' g hidden hidden') (hw' : w' ≠ [])
    {after : List (Option Char)} (ha : after <:+ g) (text : List Char) (name : String) :
    HiddenToo p w w' (text.map some ++ after)
      (hideMacro (hidden.filter (·.tail < (fill w g).length)) name (fill w after).length)
      (hideMacro (hidden'.filter (·.tail < (fill w' g).length)) name (fill w' after).length) := by
  have hsuffix : after <:+ text.map some ++ after := List.suffix_append _ _
  intro x hx hp _
  rcases mem_hideMacro.1 hx with ⟨y, hy, rfl⟩ | rfl
  · obtain ⟨hy, hlt⟩ := List.mem_filter.1 hy
    obtain ⟨s, hs, -, htail, hmem⟩ := h.exists_inside hw' hy hp (of_decide_eq_true hlt)
    obtain ⟨s', hs', hmin⟩ := exists_suffix_min hs ha
    refine ⟨s', hs'.trans hsuffix, by rw [← hmin, htail], ?_⟩
    exact mem_hideMacro.2 (Or.inl ⟨_, hmem, by rw [hmin]⟩)
  · exact ⟨after, hsuffix, rfl, mem_hideMacro.2 (Or.inr rfl)⟩

end HiddenToo

/-- In the gapped text with `w` in the gaps and with `w'` the same macros are hidden up to the same
places, except that the macro `w` may be hidden in the first text alone. -/
structure SameHidden (w w' : List Char) (g : List (Option Char))
    (hidden hidden' : List HiddenMacro) : Prop where
  left : HiddenToo (· ≠ String.ofList w) w w' g hidden hidden'
  right : HiddenToo (fun _ => True) w' w g hidden' hidden

namespace SameHidden

theorem of_suffix (h : SameHidden w w' g hidden hidden') (hg' : g' <:+ g) :
    SameHidden w w' g' hidden hidden' := ⟨h.left.of_suffix hg', h.right.of_suffix hg'⟩

/-- The macros that are hidden where the text begins, hidden throughout. -/
theorem throughout (h : SameHidden w w' g hidden hidden') (hw : w ≠ []) (hw' : w' ≠ [])
    (a : List (Option Char)) :
    SameHidden w w' a ((hiddenNames hidden (fill w g)).map (⟨·, 0⟩))
      ((hiddenNames hidden' (fill w' g)).map (⟨·, 0⟩)) :=
  ⟨.throughout (fun _ hn hp => h.left.mem_names hw' hn hp) w w' a,
    .throughout (fun _ hn hp => h.right.mem_names hw hn hp) w' w a⟩

theorem hideMacro (h : SameHidden w w' g hidden hidden') (hw : w ≠ []) (hw' : w' ≠ [])
    {after : List (Option Char)} (ha : after <:+ g) (text : List Char) (name : String) :
    SameHidden w w' (text.map some ++ after)
      (hideMacro (hidden.filter (·.tail < (fill w g).length)) name (fill w after).length)
      (hideMacro (hidden'.filter (·.tail < (fill w' g).length)) name (fill w' after).length) :=
  ⟨h.left.hideMacro hw' ha text name, h.right.hideMacro hw ha text name⟩

/-- Inside the replacement of a gap in the first text by what the second text has in it. -/
theorem hideGap (h : SameHidden w w' (none :: g) hidden hidden') (hw : w ≠ []) (hw' : w' ≠ []) :
    SameHidden w w' (w'.map some ++ g)
      (CInterface.hideMacro (hidden.filter (·.tail < (fill w (none :: g)).length))
        (String.ofList w) (fill w g).length) hidden' := by
  have hsuffix : g <:+ w'.map some ++ g := List.suffix_append _ _
  refine ⟨fun x hx hne _ => ?_, fun x hx _ hlt => ?_⟩
  · rcases mem_hideMacro.1 hx with ⟨y, hy, rfl⟩ | rfl
    · obtain ⟨hy, hlt⟩ := List.mem_filter.1 hy
      obtain ⟨s, hs, hproper, htail, hmem⟩ :=
        h.left.exists_inside hw' hy hne (of_decide_eq_true hlt)
      have hs' := (List.suffix_cons_iff.1 hs).resolve_left hproper
      refine ⟨s, hs'.trans hsuffix, ?_, (List.mem_filter.1 hmem).1⟩
      rw [htail]
      exact Nat.min_eq_left (length_fill_le w hs')
    · exact absurd rfl hne
  · rw [fill_append, fill_map_some, ← fill_none] at hlt
    obtain ⟨s, hs, hproper, htail, hmem⟩ := h.right.exists_inside hw hx trivial hlt
    have hs' := (List.suffix_cons_iff.1 hs).resolve_left hproper
    refine ⟨s, hs'.trans hsuffix, htail, mem_hideMacro.2 (Or.inl ⟨_, hmem, ?_⟩)⟩
    rw [Nat.min_eq_left (length_fill_le w hs')]

end SameHidden

end Hidden

namespace MacroTable

variable {t : MacroTable} {w w' : List Char} {g : List (Option Char)} {name : String}

/-! ### Replacements in a gapped text -/

theorem argumentsAt_of_no_call {rest : List Char} (h : ∀ p, callArguments? rest ≠ some (.ok p)) :
    t.argumentsAt name rest = [] := by
  unfold argumentsAt
  split
  · rename_i hc
    exact absurd hc (h _)
  · rfl

theorem argumentsAt_of_object {body : String} (ho : t.objects.get? name = some body)
    (rest : List Char) : t.argumentsAt name rest = [] := by
  rw [argumentsAt, ho]

theorem argumentsAt_of_no_function (hm : t.functions.get? name = none) (rest : List Char) :
    t.argumentsAt name rest = [] := by
  rw [argumentsAt, hm]
  split
  · rename_i hsome _
    cases hsome
  · rfl

/-- The arguments of a call in a gapped text are gapped. -/
theorem argumentsAt_fill (t : MacroTable) (name : String) (hw : isWord w = true)
    (hw' : isWord w' = true) (hg : Standing w g) :
    ∃ args : List (List (Option Char)), t.argumentsAt name (fill w g) = args.map (fill w) ∧
      t.argumentsAt name (fill w' g) = args.map (fill w') ∧ ∀ a ∈ args, Standing w a := by
  have hnil : ∀ a ∈ ([] : List (List (Option Char))), Standing w a := fun a ha => by cases ha
  cases ho : t.objects.get? name with
  | some body =>
    exact ⟨[], argumentsAt_of_object ho _, argumentsAt_of_object ho _, hnil⟩
  | none =>
    cases hm : t.functions.get? name with
    | none => exact ⟨[], argumentsAt_of_no_function hm _, argumentsAt_of_no_function hm _, hnil⟩
    | some m =>
      rcases callArguments?_fill hw hw' hg with h | ⟨found, hc, hc', hargs, -, -⟩
      · exact ⟨[], argumentsAt_of_no_call fun p => (h p).1, argumentsAt_of_no_call fun p => (h p).2,
          hnil⟩
      · exact ⟨found.1, argumentsAt_of_call ho hm hc, argumentsAt_of_call ho hm hc', hargs⟩

theorem replacement?_of_object {expandArgs : List (List Char) → List String} {body : String}
    (ho : t.objects.get? name = some body) (rest : List Char) :
    t.replacement? expandArgs name rest = some (body.toList, rest) := by
  rw [replacement?, ho]

theorem replacement?_of_no_function {expandArgs : List (List Char) → List String}
    (ho : t.objects.get? name = none) (hm : t.functions.get? name = none) (rest : List Char) :
    t.replacement? expandArgs name rest = none := by
  rw [replacement?, ho, hm]

theorem replacement?_of_no_call {expandArgs : List (List Char) → List String} {rest : List Char}
    (ho : t.objects.get? name = none) (h : ∀ p, callArguments? rest ≠ some (.ok p)) :
    t.replacement? expandArgs name rest = none := by
  unfold replacement?
  rw [ho]
  dsimp only
  cases t.functions.get? name with
  | none => rfl
  | some m =>
    dsimp only
    split
    · rfl
    · rfl
    · rename_i hc
      exact absurd hc (h _)

theorem replacement?_of_call {expandArgs : List (List Char) → List String} {m : FnMacro}
    {args : List (List Char)} {rest after : List Char} (ho : t.objects.get? name = none)
    (hm : t.functions.get? name = some m) (hc : callArguments? rest = some (.ok (args, after))) :
    t.replacement? expandArgs name rest =
      match m.substitute (expandArgs args) with
      | .error _ => none
      | .ok text => some (text.toList, after) := by
  cases hs : m.substitute (expandArgs args) with
  | error e => simp only [replacement?, ho, hm, hc, hs]
  | ok text => simp only [replacement?, ho, hm, hc, hs]

/-- A replacement in a gapped text is the same with either word in the gaps. -/
theorem replacement?_fill (t : MacroTable) (name : String) (texts : List String)
    (hw : isWord w = true) (hw' : isWord w' = true) (hg : Standing w g) :
    (t.replacement? (fun _ => texts) name (fill w g) = none ∧
      t.replacement? (fun _ => texts) name (fill w' g) = none) ∨
    ∃ text after, t.replacement? (fun _ => texts) name (fill w g) = some (text, fill w after) ∧
      t.replacement? (fun _ => texts) name (fill w' g) = some (text, fill w' after) ∧
      Standing w after ∧ after <:+ g := by
  cases ho : t.objects.get? name with
  | some body =>
    exact Or.inr ⟨body.toList, g, replacement?_of_object ho _, replacement?_of_object ho _, hg,
      List.suffix_rfl⟩
  | none =>
    cases hm : t.functions.get? name with
    | none =>
      exact Or.inl ⟨replacement?_of_no_function ho hm _, replacement?_of_no_function ho hm _⟩
    | some m =>
      rcases callArguments?_fill hw hw' hg with h | ⟨found, hc, hc', -, hafter, hend⟩
      · exact Or.inl ⟨replacement?_of_no_call ho fun p => (h p).1,
          replacement?_of_no_call ho fun p => (h p).2⟩
      · rw [replacement?_of_call ho hm hc, replacement?_of_call ho hm hc']
        cases m.substitute texts with
        | error e => exact Or.inl ⟨rfl, rfl⟩
        | ok text => exact Or.inr ⟨text.toList, found.2, rfl, rfl, hafter, hend⟩

/-! ### Expansions of a gapped text -/

/-- The first segment of a gapped text, which it shares with the other text unless it is a gap. -/
theorem firstSegment_fill {kind : SegmentKind} {word rest : List Char} (hw' : isWord w' = true)
    (h : FirstSegment kind word rest) (hfill : word ++ rest = fill w g) (hg : Standing w g) :
    (kind = .ident ∧ word = w ∧ ∃ g', g = none :: g' ∧ rest = fill w g' ∧ Standing w g') ∨
      ∃ g', g = word.map some ++ g' ∧ rest = fill w g' ∧
        FirstSegment kind word (fill w' g') ∧ Standing w g' := by
  rcases hg.firstSegment_cases hw' with rfl | ⟨g', rfl, hfirst, -, hg'⟩ |
    ⟨kind', u, g', rfl, hfirst, hfirst', hg'⟩
  · exact absurd (List.append_eq_nil_iff.1 hfill).1 h.ne_nil
  · obtain ⟨rfl, rfl, rfl⟩ := h.unique hfirst (hfill.trans (fill_none w g'))
    exact Or.inl ⟨rfl, rfl, g', rfl, rfl, hg'⟩
  · rw [fill_append, fill_map_some] at hfill
    obtain ⟨rfl, rfl, rfl⟩ := h.unique hfirst hfill
    exact Or.inr ⟨g', rfl, rfl, hfirst', hg'⟩

theorem eq_nil_of_fill_eq_nil (hw : w ≠ []) (h : fill w g = []) : g = [] := by
  cases g with
  | nil => rfl
  | cons o g =>
    cases o with
    | none => exact absurd (List.append_eq_nil_iff.1 h).1 hw
    | some c => cases h

/-- What is asked of an expansion so that an alias may stand for its macro in it: the name `w` is
not met where it is hidden, and no replacement takes a later `w` into a longer segment. -/
def Conditions.clearOf (w : List Char) : Conditions where
  hides name := name ≠ String.ofList w
  splices text after := ∀ k ∈ wordPlaces w after, k ∈ wordPlaces w (text ++ after)

/-- Each gapped text that gives `cs` with `w` in the gaps expands to `out` with `w'` in them, where
the same macros are hidden. -/
def ExpandsToo (t : MacroTable) (w w' : List Char) (hidden : List HiddenMacro)
    (cs out : List Char) : Prop :=
  ∀ {g : List (Option Char)} {hidden' : List HiddenMacro}, cs = fill w g → Standing w g →
    SameHidden w w' g hidden hidden' → t.Expands .none hidden' (fill w' g) out

/-- The arguments of a call. -/
theorem ExpandsToo.arguments {hidden hidden' : List HiddenMacro} {g' : List (Option Char)}
    {outs : List (List Char)} (hw : isWord w = true) (hw' : isWord w' = true)
    (hg : Standing w g) (hs : SameHidden w w' g' hidden hidden')
    (hlength : (t.argumentsAt name (fill w g)).length = outs.length)
    (hargs : ∀ a ∈ (t.argumentsAt name (fill w g)).zip outs,
      t.ExpandsToo w w' ((hiddenNames hidden (fill w g')).map (⟨·, 0⟩)) a.1 a.2) :
    (t.argumentsAt name (fill w' g)).length = outs.length ∧
      ∀ a ∈ (t.argumentsAt name (fill w' g)).zip outs,
        t.Expands .none ((hiddenNames hidden' (fill w' g')).map (⟨·, 0⟩)) a.1 a.2 := by
  obtain ⟨args, hat, hat', hstanding⟩ := argumentsAt_fill t name hw hw' hg
  rw [hat, List.length_map] at hlength
  rw [hat, List.zip_map_left, List.forall_mem_map] at hargs
  rw [hat', List.length_map, List.zip_map_left, List.forall_mem_map]
  refine ⟨hlength, fun a ha => hargs a ha rfl (hstanding a.1 (List.of_mem_zip ha).1) ?_⟩
  exact hs.throughout (isWord.ne_nil hw) (isWord.ne_nil hw') a.1

/-- A gapped text expands to the same with either word in the gaps, where the one is an alias of the
other. -/
theorem Expands.expandsToo (hw : isWord w = true) (hw' : isWord w' = true)
    (halias : t.objects.get? (String.ofList w) = some (String.ofList w'))
    {hidden : List HiddenMacro} {cs out : List Char}
    (h : t.Expands (.clearOf w) hidden cs out) : t.ExpandsToo w w' hidden cs out := by
  have hne := isWord.ne_nil hw
  have hne' := isWord.ne_nil hw'
  have hsuffix : ∀ (word : List Char) (g : List (Option Char)), g <:+ word.map some ++ g :=
    fun _ _ => List.suffix_append _ _
  induction h with
  | nil =>
    intro g hidden' hfill hg hs
    rw [eq_nil_of_fill_eq_nil hne hfill.symm]
    exact .nil
  | @other hidden kind word rest out h hk hrest ih =>
    intro g hidden' hfill hg hs
    rcases firstSegment_fill hw' h hfill hg with ⟨hident, -⟩ | ⟨g', rfl, rfl, hfirst, hg'⟩
    · exact absurd hident hk
    · rw [fill_append, fill_map_some]
      exact .other hfirst hk (ih rfl hg' (hs.of_suffix (hsuffix word g')))
  | @hidden hidden word rest out h hin hp hrest ih =>
    intro g hidden' hfill hg hs
    rcases firstSegment_fill hw' h hfill hg with ⟨-, rfl, -⟩ | ⟨g', rfl, rfl, hfirst, hg'⟩
    · exact absurd rfl hp
    · rw [hfill] at hin
      have hin' := hs.left.mem_names hne' hin hp
      rw [fill_append, fill_map_some] at hin' ⊢
      exact .hidden hfirst hin' trivial (ih rfl hg' (hs.of_suffix (hsuffix word g')))
  | @kept hidden word rest out outs h hin hlength hargs hnone hrest ihargs ih =>
    intro g hidden' hfill hg hs
    rcases firstSegment_fill hw' h hfill hg with ⟨-, rfl, -⟩ | ⟨g', rfl, rfl, hfirst, hg'⟩
    · rw [replacement?_of_object halias] at hnone
      cases hnone
    · rw [hfill] at hin ihargs
      have hin' := fun hmem => hin (hs.right.mem_names hne hmem trivial)
      obtain ⟨hlength', hargs'⟩ := ExpandsToo.arguments hw hw' hg' hs hlength ihargs
      rcases replacement?_fill t (String.ofList word) (outs.map String.ofList) hw hw' hg' with
        ⟨-, hnone'⟩ | ⟨text, after, hsome, -⟩
      · rw [fill_append, fill_map_some] at hin' hargs' ⊢
        exact .kept hfirst hin' hlength' hargs' hnone'
          (ih rfl hg' (hs.of_suffix (hsuffix word g')))
      · rw [hnone] at hsome
        cases hsome
  | @replaced hidden word rest text after out outs h hin hlength hargs hsome hp hrest ihargs ih =>
    intro g hidden' hfill hg hs
    rcases firstSegment_fill hw' h hfill hg with ⟨-, rfl, g', rfl, rfl, hg'⟩ |
      ⟨g', rfl, rfl, hfirst, hg'⟩
    · -- the replacement of the alias is what stands in the other text already
      rw [replacement?_of_object halias, String.toList_ofList] at hsome
      obtain ⟨rfl, rfl⟩ := Prod.mk.inj (Option.some.inj hsome)
      have hsame : fill word (w'.map some ++ g') = w' ++ fill word g' := by
        rw [fill_append, fill_map_some]
      have hstanding : Standing word (w'.map some ++ g') := hg'.map_some_append hp
      rw [hfill] at ih
      have hout := ih hsame.symm hstanding (hs.hideGap hne hne')
      rwa [fill_append, fill_map_some] at hout
    · rw [hfill] at hin ihargs ih
      have hin' := fun hmem => hin (hs.right.mem_names hne hmem trivial)
      obtain ⟨hlength', hargs'⟩ := ExpandsToo.arguments hw hw' hg' hs hlength ihargs
      rcases replacement?_fill t (String.ofList word) (outs.map String.ofList) hw hw' hg' with
        ⟨hnone, -⟩ | ⟨text', after', hsome₁, hsome', hafter, hend⟩
      · rw [hsome] at hnone
        cases hnone
      · obtain ⟨rfl, rfl⟩ := Prod.mk.inj (Option.some.inj (hsome.symm.trans hsome₁))
        have hsame : fill w (text.map some ++ after') = text ++ fill w after' := by
          rw [fill_append, fill_map_some]
        have hstanding : Standing w (text.map some ++ after') := hafter.map_some_append hp
        have hout := ih hsame.symm hstanding
          (hs.hideMacro hne hne' (hend.trans (hsuffix word g')) text (String.ofList word))
        rw [fill_append, fill_map_some, fill_append, fill_map_some] at hout
        rw [fill_append, fill_map_some] at hin' hargs' ⊢
        exact .replaced hfirst hin' hlength' hargs' hsome' trivial hout

/-! ### Whole texts -/

/-- The object macro `synonym` has the name of the function macro `name` as its body, and no other
macro has a body in which the word `synonym` stands. -/
structure IsAlias (t : MacroTable) (synonym name : String) : Prop where
  body : t.objects.get? synonym = some name
  function : (t.functions.get? name).isSome = true
  objects : ∀ e ∈ t.objects.entries, e.1 ≠ synonym → wordPlaces synonym.toList e.2.toList = []
  functions : ∀ e ∈ t.functions.entries, wordPlaces synonym.toList e.2.content.toList = []

/-- **An alias expands as the macro that it stands for**, in a text in whose expansion the alias is
not met where it is hidden and no replacement takes a later one into a longer segment. -/
theorem text_expand_renameWord {t : MacroTable} {synonym name : String}
    (halias : t.objects.get? synonym = some name) (hname : isWord name.toList = true)
    {hidden : List String} {text : List Char}
    (hclear : ∃ out, t.Expands (.clearOf synonym.toList) (hidden.map (⟨·, 0⟩)) text out)
    (hx : (t.expand hidden text).exhausted = false)
    (hx' : (t.expand hidden (renameWord synonym.toList name.toList text)).exhausted = false) :
    (t.expand hidden text).text =
      (t.expand hidden (renameWord synonym.toList name.toList text)).text := by
  obtain ⟨out, hout⟩ := hclear
  have hb := of_decide_eq_false hx
  have hb' := of_decide_eq_false hx'
  have hself : fill synonym.toList (gaps synonym.toList text) = text := by
    rw [fill_gaps, renameWord_self]
  have hrenamed := fill_gaps synonym.toList name.toList text
  by_cases hword : isWord synonym.toList = true
  · have hsame : SameHidden synonym.toList name.toList (gaps synonym.toList text)
        (hidden.map (⟨·, 0⟩)) (hidden.map (⟨·, 0⟩)) :=
      ⟨.throughout (fun _ hn _ => hn) _ _ _, .throughout (fun _ hn _ => hn) _ _ _⟩
    have hout' := hout.expandsToo hword hname (by rwa [String.ofList_toList, String.ofList_toList])
      hself.symm (standing_gaps _ text) hsame
    rw [hrenamed] at hout'
    exact (hout.text_scan hb).trans (hout'.text_scan hb').symm
  · -- what is no word stands nowhere in the text
    rw [renameWord_of_not_word hword]

/-- An alias `A` of a function macro `F`, and a macro `B` that a number may go on behind. -/
def aliasTable : MacroTable where
  objects := .ofList [("A", "F"), ("B", "1")]
  functions := .ofList [("F", .ofContent ["x"] "x+1" false)]

theorem isAlias_aliasTable : aliasTable.IsAlias "A" "F" where
  body := by decide +kernel
  function := by decide +kernel
  objects := by decide +kernel
  functions := by decide +kernel

/-- The call of `F` with an argument `1`, and that with a call of `A` as its argument. -/
theorem calls_aliasTable :
    (aliasTable.argumentsAt "F" ['(', '1', ')'] = [['1']] ∧
      aliasTable.replacement? (fun _ => ["1"]) "F" ['(', '1', ')'] = some (['1', '+', '1'], [])) ∧
    (aliasTable.argumentsAt "F" ['(', 'A', '(', '1', ')', ')'] = [['A', '(', '1', ')']] ∧
      aliasTable.replacement? (fun _ => ["1+1"]) "F" ['(', 'A', '(', '1', ')', ')'] =
        some (['1', '+', '1', '+', '1'], [])) ∧
    (∀ cs ∈ [['1'], ['1', '+', '1'], ['1', '+', '1', '+', '1']],
      (segments cs).all (·.kind ≠ .ident) = true) ∧
    wordPlaces ['A'] ['(', '1', ')'] = [] := by
  decide +kernel

/-- The call of `F` that the alias stands for. -/
theorem expands_aliasTable_call {hidden : List HiddenMacro}
    (h : "F" ∉ hiddenNames hidden ['F', '(', '1', ')']) :
    aliasTable.Expands (.clearOf "A".toList) hidden ['F', '(', '1', ')'] ['1', '+', '1'] := by
  obtain ⟨⟨harguments, hreplacement⟩, -, hplain, -⟩ := calls_aliasTable
  refine @Expands.replaced _ _ hidden ['F'] ['(', '1', ')'] ['1', '+', '1'] [] _ [['1']]
    ⟨'F', [], rfl, rfl⟩ h ?_ ?_ ?_ ?_ ?_
  · exact congrArg List.length harguments
  · rw [harguments]
    rintro a ha
    obtain rfl := List.mem_singleton.1 ha
    exact .of_no_words (hplain _ List.mem_cons_self)
  · exact hreplacement
  · intro k hk
    rw [wordPlaces_nil] at hk
    cases hk
  · exact .of_no_words (hplain _ (List.mem_cons_of_mem _ List.mem_cons_self))

/-- A call of the alias in the arguments of another call. -/
theorem expands_aliasTable :
    aliasTable.Expands (.clearOf "A".toList) [] ['F', '(', 'A', '(', '1', ')', ')']
      ['1', '+', '1', '+', '1'] := by
  obtain ⟨-, ⟨harguments, hreplacement⟩, hplain, hplaces⟩ := calls_aliasTable
  have halias : aliasTable.Expands (.clearOf "A".toList) [] ['A', '(', '1', ')']
      ['1', '+', '1'] := by
    have hobject : aliasTable.objects.get? "A" = some "F" := isAlias_aliasTable.body
    have hnone : aliasTable.argumentsAt "A" ['(', '1', ')'] = [] := argumentsAt_of_object hobject _
    refine @Expands.replaced _ _ [] ['A'] ['(', '1', ')'] ['F'] ['(', '1', ')'] _ []
      ⟨'A', [], rfl, rfl⟩ (by decide) ?_ ?_ (replacement?_of_object hobject _) ?_
      (expands_aliasTable_call (by decide))
    · exact congrArg List.length hnone
    · rw [hnone]
      rintro a ha
      cases ha
    · intro k hk
      exact absurd (hplaces ▸ hk) List.not_mem_nil
  refine @Expands.replaced _ _ [] ['F'] ['(', 'A', '(', '1', ')', ')'] ['1', '+', '1', '+', '1'] []
    _ [['1', '+', '1']] ⟨'F', [], rfl, rfl⟩ (by decide) ?_ ?_ ?_ ?_ ?_
  · exact (congrArg List.length harguments).trans rfl
  · rw [harguments]
    rintro a ha
    obtain rfl := List.mem_singleton.1 ha
    exact halias
  · exact hreplacement
  · intro k hk
    rw [wordPlaces_nil] at hk
    cases hk
  · exact .of_no_words (hplain _ (by decide))

theorem renameWord_aliasTable :
    renameWord "A".toList "F".toList "F(A(1))".toList = "F(F(1))".toList ∧
      renameWord "A".toList "F".toList "A(A(1))".toList = "F(F(1))".toList ∧
        renameWord "A".toList "F".toList "B.A".toList = "B.F".toList := by
  refine ⟨?_, ?_, ?_⟩ <;> decide +kernel

theorem expand_aliasTable :
    aliasTable.expand [] "F(A(1))".toList = ⟨"1+1+1".toList, 9997, []⟩ ∧
      aliasTable.expand [] "F(F(1))".toList = ⟨"1+1+1".toList, 9998, []⟩ ∧
        aliasTable.expand [] "A(A(1))".toList = ⟨"A(1)+1".toList, 9998, []⟩ ∧
          aliasTable.expand [] "B.A".toList = ⟨"1.A".toList, 9999, []⟩ ∧
            aliasTable.expand [] "B.F".toList = ⟨"1.F".toList, 9999, []⟩ := by
  refine ⟨?_, ?_, ?_, ?_, ?_⟩ <;> exact expand_eq_of_iterate 40 (by decide +kernel)

/-- A call of the alias in the arguments of another call. -/
theorem text_expand_renameWord_argument :
    (∃ out, aliasTable.Expands (.clearOf "A".toList) [] "F(A(1))".toList out) ∧
      (aliasTable.expand [] "F(A(1))".toList).text =
        (aliasTable.expand [] (renameWord "A".toList "F".toList "F(A(1))".toList)).text := by
  have hclear : ∃ out, aliasTable.Expands (.clearOf "A".toList) [] "F(A(1))".toList out :=
    ⟨_, expands_aliasTable⟩
  refine ⟨hclear, text_expand_renameWord isAlias_aliasTable.body (by decide) hclear ?_ ?_⟩
  · rw [expand_aliasTable.1]
    rfl
  · rw [renameWord_aliasTable.1, expand_aliasTable.2.1]
    rfl

/-- Neither may the alias stand in the arguments of its own call, where it is hidden as if they were
in its replacement, nor behind a replacement that goes on with it. -/
theorem not_text_expand_renameWord :
    aliasTable.IsAlias "A" "F" ∧ ∀ text ∈ ["A(A(1))".toList, "B.A".toList],
      (aliasTable.expand [] text).exhausted = false ∧
        (aliasTable.expand [] (renameWord "A".toList "F".toList text)).exhausted = false ∧
        (aliasTable.expand [] text).text ≠
          (aliasTable.expand [] (renameWord "A".toList "F".toList text)).text := by
  refine ⟨isAlias_aliasTable, fun text htext => ?_⟩
  rcases List.mem_cons.1 htext with rfl | htext
  · rw [renameWord_aliasTable.2.1, expand_aliasTable.2.1, expand_aliasTable.2.2.1]
    exact ⟨rfl, rfl, by decide⟩
  · obtain rfl := List.mem_singleton.1 htext
    rw [renameWord_aliasTable.2.2, expand_aliasTable.2.2.2.1, expand_aliasTable.2.2.2.2]
    exact ⟨rfl, rfl, by decide⟩

end MacroTable

end CInterface
