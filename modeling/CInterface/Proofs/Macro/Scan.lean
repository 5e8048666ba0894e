import CInterface.Proofs.Macro.Unfolding
/-!
# The scan for macros

`MacroTable.scan` writes each replacement into the text and goes on at its beginning. Which macros are
hidden it tells from how much of the text is to come.

* `MacroTable.Hides` — the hidden macros, while a part of the text is scanned, are a set of names.
* `MacroTable.scan_congr` — only the hidden macros whose replacement is not over matter.
* `MacroTable.scan_budget_le` — a scan never adds to the budget.
* `MacroTable.scan_word` — a name is passed, or replaced by what `MacroTable.replacement?` gives.
-/

namespace CInterface

open Text

/-! ### Hidden macros -/

theorem filter_filter_tail {hidden : List HiddenMacro} {k n : Nat} (h : k ≤ n) :
    (hidden.filter (·.tail < n)).filter (·.tail < k) = hidden.filter (·.tail < k) := by
  rw [List.filter_filter]
  refine List.filter_congr fun x _ => ?_
  rw [← Bool.decide_and]
  exact decide_eq_decide.2 ⟨fun hx => hx.1, fun hx => ⟨hx, Nat.lt_of_lt_of_le hx h⟩⟩

/-- Behind a replacement the macros are hidden that were hidden before. -/
theorem filter_hideMacro (hidden : List HiddenMacro) (name : String) (k : Nat) :
    (hideMacro hidden name k).filter (·.tail < k) = hidden.filter (·.tail < k) := by
  rw [hideMacro, List.filter_append]
  have hlast : [(⟨name, k⟩ : HiddenMacro)].filter (·.tail < k) = [] := by simp
  rw [hlast, List.append_nil]
  induction hidden with
  | nil => rfl
  | cons h hidden ih =>
    rw [List.map_cons, List.filter_cons, List.filter_cons, ih]
    by_cases ht : h.tail < k
    · have hm : min h.tail k = h.tail := Nat.min_eq_left (Nat.le_of_lt ht)
      simp [hm, ht]
    · have hm : min h.tail k = k := Nat.min_eq_right (Nat.le_of_not_lt ht)
      simp [hm, ht]

namespace MacroTable

variable {t : MacroTable} {hidden hidden' : List HiddenMacro} {before : List Char} {budget : Nat}
  {failures : List (String × MacroError)}

/-- While the scan is inside the first `inner` of the characters to come, the hidden macros are
those of a set. `outer` characters follow these. -/
structure Hides (hidden : List HiddenMacro) (active : List String) (inner outer : Nat) : Prop where
  tail : ∀ h ∈ hidden, h.tail < inner + outer → h.tail ≤ outer
  names : ∀ name, name ∈ active ↔ ∃ h ∈ hidden, h.tail ≤ outer ∧ h.name = name

theorem Hides.mono {active : List String} {inner inner' outer : Nat}
    (h : Hides hidden active inner outer) (hle : inner' ≤ inner) :
    Hides hidden active inner' outer :=
  ⟨fun x hx hlt => h.tail x hx (by omega), h.names⟩

/-- Macros that are hidden throughout. -/
theorem hides_throughout {active names : List String} (h : ∀ n, n ∈ active ↔ n ∈ names)
    (inner outer : Nat) : Hides (names.map (⟨·, 0⟩)) active inner outer := by
  refine ⟨fun x hm _ => ?_, fun name => ?_⟩
  · obtain ⟨n, -, rfl⟩ := List.mem_map.1 hm
    exact Nat.zero_le _
  · rw [h]
    constructor
    · intro hn
      exact ⟨⟨name, 0⟩, List.mem_map.2 ⟨name, hn, rfl⟩, Nat.zero_le _, rfl⟩
    · rintro ⟨x, hm, -, rfl⟩
      obtain ⟨n, hn, rfl⟩ := List.mem_map.1 hm
      exact hn

/-- The hidden macros where a name is found. -/
theorem Hides.inside {active : List String} {inner outer : Nat} (h : Hides hidden active inner outer)
    (hi : 0 < inner) (name : String) :
    name ∈ active ↔ ∃ x ∈ hidden.filter (·.tail < inner + outer), x.name = name := by
  rw [h.names]
  constructor
  · rintro ⟨x, hx, hle, hn⟩
    exact ⟨x, List.mem_filter.2 ⟨hx, decide_eq_true (by omega)⟩, hn⟩
  · rintro ⟨x, hx, hn⟩
    obtain ⟨hx, hlt⟩ := List.mem_filter.1 hx
    exact ⟨x, hx, h.tail x hx (of_decide_eq_true hlt), hn⟩

/-- In a replacement the macro is hidden, too. -/
theorem hides_hideMacro {active : List String}
    (h : ∀ n, n ∈ active ↔ ∃ x ∈ hidden, x.name = n) (name : String) (inner outer : Nat) :
    Hides (hideMacro hidden name outer) (name :: active) inner outer := by
  have htail : ∀ x ∈ hideMacro hidden name outer, x.tail ≤ outer := by
    intro x hx
    rcases List.mem_append.1 hx with hx | hx
    · obtain ⟨y, -, rfl⟩ := List.mem_map.1 hx
      exact Nat.min_le_right _ _
    · exact Nat.le_of_eq (by rw [List.mem_singleton.1 hx])
  refine ⟨fun x hx _ => htail x hx, fun n => ?_⟩
  rw [List.mem_cons, h]
  constructor
  · rintro (rfl | ⟨x, hx, rfl⟩)
    · exact ⟨⟨n, outer⟩, List.mem_append_right _ List.mem_cons_self, Nat.le_refl _, rfl⟩
    · have hm : { x with tail := min x.tail outer } ∈ hideMacro hidden name outer :=
        List.mem_append_left _ (List.mem_map_of_mem hx)
      exact ⟨_, hm, htail _ hm, rfl⟩
  · rintro ⟨x, hx, -, rfl⟩
    rcases List.mem_append.1 hx with hx | hx
    · obtain ⟨y, hy, rfl⟩ := List.mem_map.1 hx
      exact .inr ⟨y, hy, rfl⟩
    · rw [List.mem_singleton.1 hx]
      exact .inl rfl

/-! ### One step of the scan -/

variable {c : Char} {r : List Char}

theorem scan_nil : t.scan hidden before budget failures [] = ⟨before.reverse, budget, failures⟩ := by
  rw [scan]

/-- A segment that is no word is passed. -/
theorem scan_other (hk : (nextSegment c r).1 ≠ .ident) :
    t.scan hidden before budget failures (c :: r) =
      t.scan hidden ((c :: r.take (nextSegment c r).2).reverse ++ before) budget failures
        (r.drop (nextSegment c r).2) := by
  rw [scan, if_pos hk]

theorem scan_of_budget_zero (hk : (nextSegment c r).1 = .ident) :
    t.scan hidden before 0 failures (c :: r) = ⟨before.reverse ++ c :: r, 0, failures⟩ := by
  have hne : ¬ (nextSegment c r).1 ≠ .ident := fun h => h hk
  rw [scan, if_neg hne, if_pos rfl]

theorem inside_eq (hidden : List HiddenMacro) (n : Nat) :
    (if hidden.isEmpty then [] else hidden.filter (·.tail < n)) = hidden.filter (·.tail < n) := by
  cases hidden <;> rfl

/-- The scan at a word. -/
theorem scan_name (hk : (nextSegment c r).1 = .ident) (hb : budget ≠ 0) :
    t.scan hidden before budget failures (c :: r) =
      let rest := r.drop (nextSegment c r).2
      let passed := (c :: r.take (nextSegment c r).2).reverse ++ before
      let name := String.ofList (c :: r.take (nextSegment c r).2)
      let inside := hidden.filter (·.tail < (c :: r).length)
      if inside.any (·.name = name) then t.scan inside passed budget failures rest
      else match t.objects.get? name with
        | some body =>
          t.scan (hideMacro inside name rest.length) before (budget - 1) failures
            (body.toList ++ rest)
        | none => match t.functions.get? name with
          | none => t.scan inside passed budget failures rest
          | some m => match callArguments? rest with
            | none => t.scan inside passed budget failures rest
            | some (.error e) => t.scan inside passed budget ((name, e) :: failures) rest
            | some (.ok (args, after)) =>
              let found := t.scanAll (inside.map (·.name)) budget failures args
              let left := min found.budget budget
              match m.substitute found.texts with
              | .error e => t.scan inside passed left ((name, e) :: found.failures) rest
              | .ok text =>
                if left = 0 then ⟨before.reverse ++ c :: r, left, found.failures⟩
                else
                  t.scan (hideMacro inside name after.length) before (left - 1) found.failures
                    (text.toList ++ after) := by
  have hne : ¬ (nextSegment c r).1 ≠ .ident := fun h => h hk
  rw [scan, if_neg hne, if_neg hb]
  simp only [inside_eq]
  dsimp only [List.length_cons]
  by_cases hin : (hidden.filter (·.tail < r.length + 1)).any
      (·.name = String.ofList (c :: r.take (nextSegment c r).2)) = true
  · rw [if_pos hin, if_pos hin]
  · rw [if_neg hin, if_neg hin]
    cases t.objects.get? (String.ofList (c :: r.take (nextSegment c r).2)) with
    | some body => rfl
    | none =>
      cases t.functions.get? (String.ofList (c :: r.take (nextSegment c r).2)) with
      | none => rfl
      | some m =>
        dsimp only
        rcases callArguments? (r.drop (nextSegment c r).2) with _ | (e | ⟨args, after⟩)
        · rfl
        · rfl
        · rfl

/-- Only those hidden macros matter that are hidden where the scan begins. -/
theorem scan_congr (t : MacroTable) (before : List Char) (budget : Nat)
    (failures : List (String × MacroError)) {cs : List Char}
    (h : hidden.filter (·.tail < cs.length) = hidden'.filter (·.tail < cs.length)) :
    t.scan hidden before budget failures cs = t.scan hidden' before budget failures cs :=
  match cs with
  | [] => by rw [scan_nil, scan_nil]
  | c :: r => by
    by_cases hk : (nextSegment c r).1 = .ident
    · by_cases hb : budget = 0
      · subst hb
        rw [scan_of_budget_zero hk, scan_of_budget_zero hk]
      · rw [scan_name hk hb, scan_name hk hb, h]
    · rw [scan_other hk, scan_other hk]
      refine scan_congr t _ budget failures ?_
      have hle := Nat.le_of_lt (length_drop_lt c r (nextSegment c r).2)
      rw [← filter_filter_tail hle, h, filter_filter_tail hle]
  termination_by cs.length
  decreasing_by exact length_drop_lt c r _

/-- Behind a replacement the scan is as if nothing had been replaced. -/
theorem scan_hideMacro {name : String} {n : Nat} {inside : List HiddenMacro} {cs : List Char}
    (hi : hidden.filter (·.tail < n) = inside) (hle : cs.length ≤ n) :
    t.scan (hideMacro inside name cs.length) before budget failures cs =
      t.scan hidden before budget failures cs := by
  refine scan_congr t before budget failures ?_
  rw [filter_hideMacro, ← hi, filter_filter_tail hle]

/-- A name is passed, or it is replaced and the scan goes on at the replacement. `b` is what the
arguments of a call have left of the budget. -/
theorem scan_ident (t : MacroTable) (hidden : List HiddenMacro) (before : List Char)
    (failures : List (String × MacroError)) (hk : (nextSegment c r).1 = .ident) (hb : budget ≠ 0)
    {name : String}
    (hn : String.ofList (c :: r.take (nextSegment c r).2) = name) {rest : List Char}
    (hr : r.drop (nextSegment c r).2 = rest) {inside : List HiddenMacro}
    (hi : hidden.filter (·.tail < (c :: r).length) = inside) :
    ∃ b ≤ budget, ∃ f,
      (∀ m args after, (inside.any (·.name = name)) = false → t.objects.get? name = none →
        t.functions.get? name = some m → callArguments? rest = some (.ok (args, after)) →
        b ≤ (t.scanAll (inside.map (·.name)) budget failures args).budget) ∧
      t.scan hidden before budget failures (c :: r) =
        if inside.any (·.name = name) then
          t.scan inside ((c :: r.take (nextSegment c r).2).reverse ++ before) b f rest
        else match t.replacement?
            (fun args => (t.scanAll (inside.map (·.name)) budget failures args).texts) name rest with
          | none => t.scan inside ((c :: r.take (nextSegment c r).2).reverse ++ before) b f rest
          | some (text, after) =>
            if b = 0 then ⟨before.reverse ++ c :: r, b, f⟩
            else t.scan (hideMacro inside name after.length) before (b - 1) f (text ++ after) := by
  rw [scan_name hk hb, hn, hr, hi]
  dsimp only
  by_cases hin : inside.any (·.name = name) = true
  · refine ⟨budget, Nat.le_refl _, failures, fun _ _ _ h => ?_, ?_⟩
    · rw [hin] at h
      exact absurd h (by decide)
    · rw [if_pos hin, if_pos hin]
  · rw [if_neg hin]
    unfold replacement?
    cases ho : t.objects.get? name with
    | some body =>
      refine ⟨budget, Nat.le_refl _, failures, fun _ _ _ _ h => by simp at h, ?_⟩
      rw [if_neg hin]
      dsimp only
      rw [if_neg hb]
    | none =>
      dsimp only
      cases hm : t.functions.get? name with
      | none =>
        refine ⟨budget, Nat.le_refl _, failures, fun _ _ _ _ _ h => by simp at h, ?_⟩
        rw [if_neg hin]
      | some m =>
        dsimp only
        rcases hc : callArguments? rest with _ | (e | ⟨args, after⟩)
        · refine ⟨budget, Nat.le_refl _, failures, fun _ _ _ _ _ _ h => by simp at h, ?_⟩
          rw [if_neg hin]
        · refine ⟨budget, Nat.le_refl _, (name, e) :: failures, fun _ _ _ _ _ _ h => by simp at h, ?_⟩
          rw [if_neg hin]
        · dsimp only
          have hargs : ∀ m' args' after', (inside.any (·.name = name)) = false →
              (none : Option String) = none → some m = some m' →
              some (Except.ok (args, after)) =
                (some (.ok (args', after')) : Option (Except MacroError _)) →
              min (t.scanAll (inside.map (·.name)) budget failures args).budget budget ≤
                (t.scanAll (inside.map (·.name)) budget failures args').budget := by
            intro m' args' after' _ _ _ h
            obtain ⟨rfl, rfl⟩ := Prod.mk.inj (Except.ok.inj (Option.some.inj h))
            exact Nat.min_le_left _ _
          cases m.substitute
              (t.scanAll (inside.map (·.name)) budget failures args).texts with
          | error e => exact ⟨_, Nat.min_le_right _ _, _, hargs, (if_neg hin).symm⟩
          | ok text => exact ⟨_, Nat.min_le_right _ _, _, hargs, (if_neg hin).symm⟩

theorem lex_of_le_of_lt {a a' b b' : Nat} (ha : a ≤ a') (hb : b < b') :
    Prod.Lex (· < ·) (· < ·) (a, b) (a', b') := by
  rcases Nat.lt_or_eq_of_le ha with ha | rfl
  · exact Prod.Lex.left _ _ ha
  · exact Prod.Lex.right _ hb

/-- A scan never adds to the budget. -/
theorem scan_budget_le (t : MacroTable) (hidden : List HiddenMacro) (before : List Char)
    (budget : Nat) (failures : List (String × MacroError)) (cs : List Char) :
    (t.scan hidden before budget failures cs).budget ≤ budget := by
  match cs with
  | [] => exact Nat.le_of_eq (by rw [scan_nil])
  | c :: r =>
    have hdrop := length_drop_lt c r (nextSegment c r).2
    by_cases hk : (nextSegment c r).1 = .ident
    · by_cases hb : budget = 0
      · subst hb
        exact Nat.le_of_eq (by rw [scan_of_budget_zero hk])
      · obtain ⟨b, hle, f, -, he⟩ := scan_ident t hidden before failures hk hb rfl rfl rfl
        have hpassed := fun hidden passed =>
          Nat.le_trans (scan_budget_le t hidden passed b f (r.drop (nextSegment c r).2)) hle
        rw [he]
        split
        · exact hpassed _ _
        · split
          · exact hpassed _ _
          · rename_i text after _
            split
            · exact hle
            · rename_i hb0
              have := scan_budget_le t (hideMacro (hidden.filter (·.tail < (c :: r).length))
                (String.ofList (c :: r.take (nextSegment c r).2)) after.length) before (b - 1) f
                (text ++ after)
              omega
    · rw [scan_other hk]
      exact scan_budget_le t _ _ _ _ _
  termination_by (budget, cs.length)
  decreasing_by
    · exact lex_of_le_of_lt hle hdrop
    · exact Prod.Lex.left _ _ (by omega)
    · exact Prod.Lex.right _ hdrop

/-- Where the budget is not used up, a name is passed or replaced. `expandArgs` gives what the scan
makes of the arguments of a call. -/
theorem scan_word (hk : (nextSegment c r).1 = .ident)
    (hb : (t.scan hidden before budget failures (c :: r)).budget ≠ 0) {name : String}
    (hn : String.ofList (c :: r.take (nextSegment c r).2) = name) {rest : List Char}
    (hr : r.drop (nextSegment c r).2 = rest) {inside : List HiddenMacro}
    (hi : hidden.filter (·.tail < (c :: r).length) = inside)
    {expandArgs : List (List Char) → List String}
    (hargs : ∀ m args after, t.objects.get? name = none → t.functions.get? name = some m →
      callArguments? rest = some (.ok (args, after)) →
      (t.scanAll (inside.map (·.name)) budget failures args).budget ≠ 0 →
      (t.scanAll (inside.map (·.name)) budget failures args).texts = expandArgs args) :
    (∃ b ≤ budget, ∃ f,
      ((∃ x ∈ inside, x.name = name) ∨ t.replacement? expandArgs name rest = none) ∧
      t.scan hidden before budget failures (c :: r) =
        t.scan hidden ((c :: r.take (nextSegment c r).2).reverse ++ before) b f rest) ∨
    ∃ b < budget, ∃ f text after,
      (¬ ∃ x ∈ inside, x.name = name) ∧
      t.replacement? expandArgs name rest = some (text, after) ∧
      t.scan hidden before budget failures (c :: r) =
        t.scan (hideMacro inside name after.length) before b f (text ++ after) := by
  have hb0 : budget ≠ 0 := by
    rintro rfl
    exact hb (by rw [scan_of_budget_zero hk])
  obtain ⟨b, hle, f, hleft, he⟩ := scan_ident t hidden before failures hk hb0 hn hr hi
  have hany : inside.any (·.name = name) = true ↔ ∃ x ∈ inside, x.name = name := by
    simp
  have hcongr : ∀ passed, t.scan inside passed b f rest = t.scan hidden passed b f rest := by
    intro passed
    refine scan_congr t passed b f ?_
    rw [← hi, ← hr]
    exact filter_filter_tail (Nat.le_of_lt (length_drop_lt c r _))
  by_cases hin : inside.any (·.name = name) = true
  · rw [if_pos hin, hcongr] at he
    exact .inl ⟨b, hle, f, .inl (hany.1 hin), he⟩
  · rw [if_neg hin] at he
    have hb1 : b ≠ 0 := by
      rintro rfl
      rw [he] at hb
      split at hb
      · exact hb (Nat.le_zero.1 (scan_budget_le t _ _ 0 f rest))
      · exact hb rfl
    have hexpand : t.replacement?
        (fun args => (t.scanAll (inside.map (·.name)) budget failures args).texts) name rest =
          t.replacement? expandArgs name rest := by
      refine replacement?_congr fun m args after ho hm hc => hargs m args after ho hm hc ?_
      have := hleft m args after (Bool.not_eq_true _ ▸ hin) ho hm hc
      omega
    rw [hexpand] at he
    cases hrep : t.replacement? expandArgs name rest with
    | none =>
      rw [hrep] at he
      exact .inl ⟨b, hle, f, .inr rfl, he.trans (hcongr _)⟩
    | some p =>
      obtain ⟨text, after⟩ := p
      rw [hrep] at he
      refine .inr ⟨b - 1, by omega, f, text, after, fun h => hin (hany.2 h), rfl, ?_⟩
      exact he.trans (if_neg hb1)

/-! ### The scan of arguments -/

theorem scanAll_budget_le (t : MacroTable) (names : List String) (budget : Nat)
    (failures : List (String × MacroError)) (args : List (List Char)) :
    (t.scanAll names budget failures args).budget ≤ budget := by
  induction args generalizing budget failures with
  | nil =>
    exact Nat.le_of_eq (by rw [scanAll])
  | cons a args ih =>
    rw [scanAll]
    exact Nat.le_trans (ih _ _) (Nat.min_le_right _ _)

/-- Where the scan of each argument gives its expansion, the scan of all gives their expansions. -/
theorem scanAll_texts {names : List String} {args outs : List (List Char)}
    (hlength : args.length = outs.length) (hb : (t.scanAll names budget failures args).budget ≠ 0)
    (h : ∀ p ∈ args.zip outs, ∀ b ≤ budget, ∀ f,
      (t.scan (names.map (⟨·, 0⟩)) [] b f p.1).budget ≠ 0 →
      (t.scan (names.map (⟨·, 0⟩)) [] b f p.1).text = p.2) :
    (t.scanAll names budget failures args).texts = outs.map String.ofList := by
  induction args generalizing outs budget failures with
  | nil =>
    rw [List.length_eq_zero_iff.1 hlength.symm, scanAll, List.map_nil]
  | cons a args ih =>
    obtain ⟨out, outs, rfl⟩ := List.exists_cons_of_length_eq_add_one hlength.symm
    rw [scanAll] at hb ⊢
    dsimp only at hb ⊢
    have hle := scanAll_budget_le t names
      (min (t.scan (names.map (⟨·, 0⟩)) [] budget failures a).budget budget)
      (t.scan (names.map (⟨·, 0⟩)) [] budget failures a).failures args
    have hmin := Nat.min_le_left (t.scan (names.map (⟨·, 0⟩)) [] budget failures a).budget budget
    have hfirst := h (a, out) List.mem_cons_self budget (Nat.le_refl _) failures
    dsimp only at hfirst
    rw [hfirst (by omega), ih (Nat.succ.inj hlength) hb fun p hp b hb' =>
      h p (List.mem_cons_of_mem _ hp) b (Nat.le_trans hb' (Nat.min_le_right _ _)), List.map_cons]

end MacroTable

end CInterface
