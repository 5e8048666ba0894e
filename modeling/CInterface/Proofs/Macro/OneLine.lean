import CInterface.Proofs.Macro.Scan
import CInterface.Proofs.Text.Lines
/-!
# Macros of one line

Where no macro of a table has a newline in it, the expansion of a line is a line.

* `FnMacro.OneLine`, `MacroTable.OneLine` — there is no newline in the macro, or in any macro.
* `FnMacro.oneLine_ofContent` — a macro is of one line with its content.
* `FnMacro.not_mem_substitute` — arguments without newlines are put into it.
* `MacroTable.not_mem_expand` — the expansion of a line, also one that is cut short by its budget.
-/

namespace CInterface

open Text

/-! ### Texts made of texts -/

theorem not_mem_trim {x : Char} {cs : List Char} (h : x ∉ cs) : x ∉ trim cs := by
  obtain ⟨v, -, hv⟩ := exists_trimStart cs
  obtain ⟨w, -, hw⟩ := exists_trimEnd (trimStart cs)
  rw [hv, List.mem_append, not_or, hw, List.mem_append, not_or] at h
  exact h.2.1

theorem not_mem_joinWith {x : Char} {sep : List Char} {pieces : List (List Char)} (hs : x ∉ sep)
    (h : ∀ p ∈ pieces, x ∉ p) : x ∉ joinWith sep pieces := by
  induction pieces with
  | nil => exact List.not_mem_nil
  | cons p ps ih =>
    have hp : x ∉ p := h p List.mem_cons_self
    have hps := ih fun q hq => h q (List.mem_cons_of_mem _ hq)
    cases ps with
    | nil =>
      have hone : joinWith sep [p] = p := by simp [joinWith]
      rwa [hone]
    | cons q qs =>
      rw [joinWith_cons _ _ (List.cons_ne_nil q qs), List.mem_append, List.mem_append, not_or, not_or]
      exact ⟨⟨hp, hs⟩, hps⟩

theorem not_mem_take {x : Char} {cs : List Char} (h : x ∉ cs) (n : Nat) : x ∉ cs.take n :=
  fun hm => h (List.mem_of_mem_take hm)

theorem not_mem_drop {x : Char} {cs : List Char} (h : x ∉ cs) (n : Nat) : x ∉ cs.drop n :=
  fun hm => h (List.mem_of_mem_drop hm)

/-! ### Calls -/

/-- The arguments of a call, and the text behind it, are parts of the text behind its name. -/
theorem not_mem_argumentsFrom {x : Char} {depth : Nat} {arg cs after : List Char}
    {args : List (List Char)} (h : argumentsFrom depth arg cs = some (args, after))
    (harg : x ∉ arg) (hcs : x ∉ cs) : (∀ a ∈ args, x ∉ a) ∧ x ∉ after := by
  fun_induction argumentsFrom depth arg cs generalizing args with
  | case1 => simp at h
  | case2 depth arg c r kind n hn hk ih | case7 depth arg c r kind n hn hk hl hr hc ih =>
    obtain ⟨hc, hr⟩ := not_or.1 (mt List.mem_cons.2 hcs)
    refine ih h ?_ (not_mem_drop hr n)
    simp only [List.mem_append, List.mem_reverse, List.mem_cons, not_or]
    exact ⟨⟨hc, not_mem_take hr n⟩, harg⟩
  | case3 depth arg r kind n hn hk ih | case5 arg r kind n hn hk depth hp ih =>
    obtain ⟨hc, hr⟩ := not_or.1 (mt List.mem_cons.2 hcs)
    exact ih h (not_or.2 ⟨hc, harg⟩ ∘ List.mem_cons.1) hr
  | case4 arg r kind n hn hk =>
    obtain ⟨rfl, rfl⟩ := Prod.mk.inj (Option.some.inj h)
    refine ⟨fun a ha => ?_, fun hm => hcs (List.mem_cons_of_mem _ hm)⟩
    rw [List.mem_singleton.1 ha]
    exact not_mem_trim (mt List.mem_reverse.1 harg)
  | case6 depth arg c r kind n hn hk hl hr hc ih =>
    obtain ⟨⟨as, rest⟩, ha, he⟩ := Option.map_eq_some_iff.1 h
    obtain ⟨rfl, rfl⟩ := Prod.mk.inj he
    have hrest := ih ha List.not_mem_nil fun hm => hcs (List.mem_cons_of_mem _ hm)
    refine ⟨fun a hmem => ?_, hrest.2⟩
    rcases List.mem_cons.1 hmem with rfl | hmem
    · exact not_mem_trim (mt List.mem_reverse.1 harg)
    · exact hrest.1 a hmem

theorem not_mem_callArguments {x : Char} {cs after : List Char} {args : List (List Char)}
    (h : callArguments? cs = some (.ok (args, after))) (hx : x ∉ cs) :
    (∀ a ∈ args, x ∉ a) ∧ x ∉ after := by
  unfold callArguments? at h
  split at h
  · rename_i list hl
    have hlist : x ∉ list := by
      obtain ⟨w, -, hw⟩ := exists_trimStart cs
      rw [hl] at hw
      rw [hw] at hx
      exact fun hm => hx (List.mem_append_right _ (List.mem_cons_of_mem _ hm))
    split at h
    · rename_i found hf
      obtain rfl : found = (args, after) := by simpa using h
      exact not_mem_argumentsFrom hf List.not_mem_nil hlist
    · simp at h
  · simp at h

/-! ### Function macros -/

/-- Neither the content of the macro nor a piece of its template has a newline. -/
structure FnMacro.OneLine (m : FnMacro) : Prop where
  content : '\n' ∉ m.content.toList
  pieces : ∀ p ∈ m.template.pieces, '\n' ∉ p.toList

namespace Template

theorem not_mem_cut {x : Char} {params : List String} {piece : List Char} {segs : List Segment}
    (hpiece : x ∉ piece) (h : ∀ s ∈ segs, x ∉ s.text) :
    ∀ p ∈ (cut params piece segs).pieces, x ∉ p.toList := by
  induction segs generalizing piece with
  | nil =>
    intro p hp
    rw [List.mem_singleton.1 hp, String.toList_ofList]
    exact hpiece
  | cons s segs ih =>
    have hsegs : ∀ t ∈ segs, x ∉ t.text := fun t ht => h t (List.mem_cons_of_mem _ ht)
    rw [cut]
    dsimp only
    split
    · intro p hp
      rcases List.mem_cons.1 hp with rfl | hp
      · rw [String.toList_ofList]
        exact hpiece
      · exact ih List.not_mem_nil hsegs p hp
    · refine ih ?_ hsegs
      rw [List.mem_append, not_or]
      exact ⟨hpiece, h s List.mem_cons_self⟩

theorem not_mem_fillSlots {x : Char} {args pieces : List String} {slots : List Nat} {text : String}
    (h : fillSlots args pieces slots = .ok text) (hargs : ∀ a ∈ args, x ∉ a.toList)
    (hpieces : ∀ p ∈ pieces, x ∉ p.toList) : x ∉ text.toList := by
  induction pieces generalizing slots text with
  | nil =>
    rw [← Except.ok.inj h]
    exact List.not_mem_nil
  | cons piece pieces ih =>
    cases slots with
    | nil =>
      rw [← Except.ok.inj h]
      exact List.not_mem_nil
    | cons slot slots =>
      rw [fillSlots] at h
      cases ha : args[slot]? with
      | none =>
        rw [ha] at h
        cases h
      | some arg =>
        rw [ha] at h
        cases hf : fillSlots args pieces slots with
        | error e =>
          rw [hf] at h
          cases h
        | ok filled =>
          rw [hf] at h
          cases h
          have hrest := ih hf fun p hp => hpieces p (List.mem_cons_of_mem _ hp)
          simp only [String.toList_append, List.mem_append, not_or]
          exact ⟨⟨hpieces piece List.mem_cons_self, hargs arg (List.mem_of_getElem? ha)⟩, hrest⟩

end Template

namespace FnMacro

/-- A macro is of one line if its content is. -/
theorem oneLine_ofContent (params : List String) {content : String} (variadic : Bool)
    (h : '\n' ∉ content.toList) : (ofContent params content variadic).OneLine := by
  refine ⟨h, Template.not_mem_cut List.not_mem_nil fun s hs hm => h ?_⟩
  rw [← flatten_segments content.toList]
  exact List.mem_flatMap.2 ⟨s, hs, hm⟩

/-- The arguments that a macro takes from a call are made of those of the call. -/
theorem not_mem_bind {m : FnMacro} {args bound : List String} (h : m.bind args = .ok bound)
    (hargs : ∀ a ∈ args, '\n' ∉ a.toList) : ∀ a ∈ bound, '\n' ∉ a.toList := by
  have hkept : ∀ a ∈ dropBlank m.params.length args, '\n' ∉ a.toList := by
    unfold dropBlank
    split
    · split
      · simp
      · exact hargs
    · exact hargs
  unfold bind at h
  dsimp only at h
  split_ifs at h with hv hlt hne
  · obtain rfl := Except.ok.inj h
    intro a ha
    rcases List.mem_append.1 ha with ha | ha
    · exact hkept a (List.mem_of_mem_take ha)
    · rw [List.mem_singleton.1 ha, String.toList_intercalate]
      have hsep : '\n' ∉ [',', ' '] := by decide
      refine not_mem_joinWith hsep fun p hp => ?_
      obtain ⟨_, hq, rfl⟩ := List.mem_map.1 hp
      obtain ⟨b, hb, rfl⟩ := List.mem_map.1 hq
      rw [String.toList_ofList]
      exact not_mem_trim (hkept b (List.mem_of_mem_drop hb))
  · obtain rfl := Except.ok.inj h
    exact hkept

theorem not_mem_substitute {m : FnMacro} (hm : m.OneLine) {args : List String} {text : String}
    (h : m.substitute args = .ok text) (hargs : ∀ a ∈ args, '\n' ∉ a.toList) :
    '\n' ∉ text.toList := by
  unfold substitute at h
  cases hbound : m.bind args with
  | error e =>
    rw [hbound] at h
    cases h
  | ok bound =>
    rw [hbound] at h
    have hfill : m.template.fill bound = .ok text := h
    unfold Template.fill at hfill
    cases hslots : Template.fillSlots bound m.template.pieces m.template.slots with
    | error e =>
      rw [hslots] at hfill
      cases hfill
    | ok filled =>
      rw [hslots] at hfill
      cases hfill
      have hfilled := Template.not_mem_fillSlots hslots (not_mem_bind hbound hargs) hm.pieces
      have hlast : '\n' ∉ (m.template.pieces.getLast?.getD "").toList := by
        cases hl : m.template.pieces.getLast? with
        | none => exact List.not_mem_nil
        | some p => exact hm.pieces p (List.mem_of_getLast? hl)
      rw [String.toList_append, List.mem_append, not_or]
      exact ⟨hfilled, hlast⟩

end FnMacro

/-! ### Expansion -/

namespace MacroTable

/-- No macro of the table has a newline. -/
structure OneLine (t : MacroTable) : Prop where
  object : ∀ {name body}, t.objects.get? name = some body → '\n' ∉ body.toList
  function : ∀ {name m}, t.functions.get? name = some m → m.OneLine

variable {t : MacroTable}

theorem OneLine.replacement (ht : t.OneLine) {expandArgs : List (List Char) → List String}
    {name : String} {rest text after : List Char}
    (h : t.replacement? expandArgs name rest = some (text, after)) (hrest : '\n' ∉ rest)
    (hargs : ∀ args after, callArguments? rest = some (.ok (args, after)) →
      ∀ a ∈ expandArgs args, '\n' ∉ a.toList) : '\n' ∉ text ∧ '\n' ∉ after := by
  rcases replacement?_cases h with ⟨body, hb, rfl, rfl⟩ | ⟨m, args, out, hm, hcall, hs, rfl⟩
  · exact ⟨ht.object hb, hrest⟩
  · exact ⟨FnMacro.not_mem_substitute (ht.function hm) hs (hargs args after hcall),
      (not_mem_callArguments hcall hrest).2⟩

theorem not_mem_scanAll {names : List String} {budget : Nat}
    {failures : List (String × MacroError)} {args : List (List Char)}
    (h : ∀ a ∈ args, ∀ b ≤ budget, ∀ f, '\n' ∉ (t.scan (names.map (⟨·, 0⟩)) [] b f a).text) :
    ∀ text ∈ (t.scanAll names budget failures args).texts, '\n' ∉ text.toList := by
  induction args generalizing budget failures with
  | nil =>
    rw [scanAll]
    intro text hm
    exact absurd hm List.not_mem_nil
  | cons a args ih =>
    rw [scanAll]
    intro text hm
    rcases List.mem_cons.1 hm with rfl | hm
    · rw [String.toList_ofList]
      exact h a List.mem_cons_self budget (Nat.le_refl _) failures
    · exact ih (fun x hx b hb => h x (List.mem_cons_of_mem _ hx) b
        (Nat.le_trans hb (Nat.min_le_right _ _))) text hm

/-- What is finished stays finished, and what is spliced in has no newline. -/
theorem not_mem_scan (ht : t.OneLine) (hidden : List HiddenMacro) (before : List Char)
    (budget : Nat) (failures : List (String × MacroError)) (cs : List Char)
    (hbefore : '\n' ∉ before) (hcs : '\n' ∉ cs) :
    '\n' ∉ (t.scan hidden before budget failures cs).text := by
  match cs with
  | [] =>
    rw [scan_nil]
    exact mt List.mem_reverse.1 hbefore
  | c :: r =>
    have hdrop := length_drop_lt c r (nextSegment c r).2
    obtain ⟨hc, hr⟩ := not_or.1 (mt List.mem_cons.2 hcs)
    have hrest : '\n' ∉ r.drop (nextSegment c r).2 := not_mem_drop hr _
    have hpassed : '\n' ∉ (c :: r.take (nextSegment c r).2).reverse ++ before := by
      simp only [List.mem_append, List.mem_reverse, List.mem_cons, not_or]
      exact ⟨⟨hc, not_mem_take hr _⟩, hbefore⟩
    have hstop : '\n' ∉ before.reverse ++ c :: r := by
      rw [List.mem_append, List.mem_reverse, not_or]
      exact ⟨hbefore, hcs⟩
    by_cases hk : (nextSegment c r).1 = .ident
    · by_cases hb : budget = 0
      · subst hb
        rw [scan_of_budget_zero hk]
        exact hstop
      · obtain ⟨b, hle, f, -, he⟩ := scan_ident t hidden before failures hk hb rfl rfl rfl
        rw [he]
        split
        · exact not_mem_scan ht _ _ b f _ hpassed hrest
        · split
          · exact not_mem_scan ht _ _ b f _ hpassed hrest
          · rename_i text after hreplacement
            obtain ⟨htext, hafter⟩ := ht.replacement hreplacement hrest fun args after hcall =>
              not_mem_scanAll fun a ha b' hb' f' =>
                have hlt := length_lt_of_mem_callArguments hcall ha
                not_mem_scan ht _ [] b' f' a List.not_mem_nil ((not_mem_callArguments hcall hrest).1 a ha)
            split
            · exact hstop
            · refine not_mem_scan ht _ before (b - 1) f _ hbefore ?_
              rw [List.mem_append, not_or]
              exact ⟨htext, hafter⟩
    · rw [scan_other hk]
      exact not_mem_scan ht _ _ budget failures _ hpassed hrest
  termination_by (budget, cs.length)
  decreasing_by
    · exact lex_of_le_of_lt hle hdrop
    · exact lex_of_le_of_lt hb' (Nat.lt_trans hlt hdrop)
    · exact Prod.Lex.left _ _ (by omega)
    · exact lex_of_le_of_lt hle hdrop
    · exact Prod.Lex.right _ hdrop

/-- The expansion of a line is a line. -/
theorem not_mem_expand (ht : t.OneLine) (hidden : List String) {text : List Char}
    (h : '\n' ∉ text) : '\n' ∉ (t.expand hidden text).text :=
  not_mem_scan ht _ [] expansionLimit [] text List.not_mem_nil h

end MacroTable

end CInterface
