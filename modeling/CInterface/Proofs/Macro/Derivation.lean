import CInterface.Proofs.Macro.Boundaries
import CInterface.Proofs.Macro.Scan
/-!
# Expansion by rules

What an expansion does while its budget lasts, as rules without a budget: one for what is no word,
one for the name of a hidden macro, and two for any other name, with and without a replacement. A
derivation may carry conditions on the places that it comes to, so that one derivation says what the
expansion gives and which places it avoids.

* `MacroTable.Conditions` — what is asked of hidden names and of replacements.
* `MacroTable.Expands` — the rules.
* `MacroTable.expands_iff` — without conditions, the rules give what the scan gives.
-/

namespace CInterface

open Text

/-- The names of the macros that are hidden at the beginning of the text `cs`. -/
def hiddenNames (hidden : List HiddenMacro) (cs : List Char) : List String :=
  (hidden.filter (·.tail < cs.length)).map (·.name)

namespace MacroTable

/-- The arguments that are expanded where a text follows the name. -/
def argumentsAt (t : MacroTable) (name : String) (rest : List Char) : List (List Char) :=
  match t.objects.get? name, t.functions.get? name, callArguments? rest with
  | none, some _, some (.ok (args, _)) => args
  | _, _, _ => []

/-- Conditions on the places that an expansion comes to. -/
structure Conditions where
  /-- Asked of a name that stays since its macro is hidden. -/
  hides : String → Prop
  /-- Asked of a replacement and the text behind it. -/
  splices : List Char → List Char → Prop

/-- No conditions. -/
def Conditions.none : Conditions := ⟨fun _ => True, fun _ _ => True⟩

/-- `t.Expands p hidden cs out` — where the macros `hidden` are hidden, the expansion of `cs` is
`out`, and the places that it comes to meet the conditions `p`. -/
inductive Expands (t : MacroTable) (p : Conditions) :
    List HiddenMacro → List Char → List Char → Prop
  /-- Nothing is left to expand. -/
  | nil {hidden : List HiddenMacro} : t.Expands p hidden [] []
  /-- What is no word stays. -/
  | other {hidden : List HiddenMacro} {kind : SegmentKind} {word rest out : List Char}
      (h : FirstSegment kind word rest) (hk : kind ≠ .ident) (hrest : t.Expands p hidden rest out) :
      t.Expands p hidden (word ++ rest) (word ++ out)
  /-- The name of a hidden macro stays. -/
  | hidden {hidden : List HiddenMacro} {word rest out : List Char}
      (h : FirstSegment .ident word rest)
      (hin : String.ofList word ∈ hiddenNames hidden (word ++ rest))
      (hp : p.hides (String.ofList word)) (hrest : t.Expands p hidden rest out) :
      t.Expands p hidden (word ++ rest) (word ++ out)
  /-- A name that has no replacement stays. -/
  | kept {hidden : List HiddenMacro} {word rest out : List Char} {outs : List (List Char)}
      (h : FirstSegment .ident word rest)
      (hin : String.ofList word ∉ hiddenNames hidden (word ++ rest))
      (hlength : (t.argumentsAt (String.ofList word) rest).length = outs.length)
      (hargs : ∀ a ∈ (t.argumentsAt (String.ofList word) rest).zip outs,
        t.Expands p ((hiddenNames hidden (word ++ rest)).map (⟨·, 0⟩)) a.1 a.2)
      (hnone : t.replacement? (fun _ => outs.map String.ofList) (String.ofList word) rest = none)
      (hrest : t.Expands p hidden rest out) :
      t.Expands p hidden (word ++ rest) (word ++ out)
  /-- Any other name is replaced, and the replacement expanded with what follows it. -/
  | replaced {hidden : List HiddenMacro} {word rest text after out : List Char}
      {outs : List (List Char)} (h : FirstSegment .ident word rest)
      (hin : String.ofList word ∉ hiddenNames hidden (word ++ rest))
      (hlength : (t.argumentsAt (String.ofList word) rest).length = outs.length)
      (hargs : ∀ a ∈ (t.argumentsAt (String.ofList word) rest).zip outs,
        t.Expands p ((hiddenNames hidden (word ++ rest)).map (⟨·, 0⟩)) a.1 a.2)
      (hsome : t.replacement? (fun _ => outs.map String.ofList) (String.ofList word) rest =
        some (text, after))
      (hp : p.splices text after)
      (hrest : t.Expands p (hideMacro (hidden.filter (·.tail < (word ++ rest).length))
        (String.ofList word) after.length) (text ++ after) out) :
      t.Expands p hidden (word ++ rest) out

variable {t : MacroTable} {p : Conditions} {hidden : List HiddenMacro} {before : List Char}
  {budget : Nat} {failures : List (String × MacroError)} {kind : SegmentKind}
  {word rest cs out : List Char}

theorem argumentsAt_of_call {name : String} {m : FnMacro} {args : List (List Char)}
    {after : List Char} (ho : t.objects.get? name = none) (hm : t.functions.get? name = some m)
    (hc : callArguments? rest = some (.ok (args, after))) : t.argumentsAt name rest = args := by
  rw [argumentsAt, ho, hm, hc]

theorem exists_call_of_mem_argumentsAt {name : String} {a : List Char}
    (ha : a ∈ t.argumentsAt name rest) :
    ∃ m args after, t.objects.get? name = none ∧ t.functions.get? name = some m ∧
      callArguments? rest = some (.ok (args, after)) ∧ a ∈ args := by
  unfold argumentsAt at ha
  split at ha
  · rename_i m args after ho hm hc
    exact ⟨m, args, after, ho, hm, hc, ha⟩
  · cases ha

/-- A text without words stays. -/
theorem Expands.of_no_words (h : (segments cs).all (·.kind ≠ .ident) = true) :
    t.Expands p hidden cs cs := by
  induction cs using firstSegment_induction with
  | hnil => exact .nil
  | hsegment kind word rest hfirst ih =>
    rw [segments_append hfirst, List.all_cons, Bool.and_eq_true, decide_eq_true_eq] at h
    exact .other hfirst h.1 (ih h.2)

/-! ### The scan at the first segment -/

theorem scan_firstSegment_other (h : FirstSegment kind word rest) (hk : kind ≠ .ident) :
    t.scan hidden before budget failures (word ++ rest) =
      t.scan hidden (word.reverse ++ before) budget failures rest := by
  obtain ⟨c, w, rfl, hn⟩ := h
  rw [List.cons_append, scan_other (by rwa [hn]), hn, List.take_left, List.drop_left]

/-- Where the budget is not used up, a name stays or is replaced. -/
theorem scan_firstSegment_ident (h : FirstSegment .ident word rest)
    (hb : (t.scan hidden before budget failures (word ++ rest)).budget ≠ 0)
    {expandArgs : List (List Char) → List String}
    (hargs : ∀ m args after, t.objects.get? (String.ofList word) = none →
      t.functions.get? (String.ofList word) = some m →
      callArguments? rest = some (.ok (args, after)) →
      (t.scanAll (hiddenNames hidden (word ++ rest)) budget failures args).budget ≠ 0 →
      (t.scanAll (hiddenNames hidden (word ++ rest)) budget failures args).texts =
        expandArgs args) :
    (∃ b ≤ budget, ∃ f,
      (String.ofList word ∈ hiddenNames hidden (word ++ rest) ∨
        t.replacement? expandArgs (String.ofList word) rest = none) ∧
      t.scan hidden before budget failures (word ++ rest) =
        t.scan hidden (word.reverse ++ before) b f rest) ∨
    ∃ b < budget, ∃ f text after,
      String.ofList word ∉ hiddenNames hidden (word ++ rest) ∧
      t.replacement? expandArgs (String.ofList word) rest = some (text, after) ∧
      t.scan hidden before budget failures (word ++ rest) =
        t.scan (hideMacro (hidden.filter (·.tail < (word ++ rest).length)) (String.ofList word)
          after.length) before b f (text ++ after) := by
  obtain ⟨c, w, rfl, hn⟩ := h
  have htake : (w ++ rest).take (nextSegment c (w ++ rest)).2 = w := by rw [hn, List.take_left]
  have hdrop : (w ++ rest).drop (nextSegment c (w ++ rest)).2 = rest := by
    rw [hn, List.drop_left]
  have hword := scan_word (t := t) (congrArg Prod.fst hn) hb (by rw [htake]) hdrop rfl hargs
  rw [htake] at hword
  simpa only [hiddenNames, List.mem_map, List.cons_append] using hword

/-! ### The scan follows the rules -/

/-- Where the rules give what the scan gives of each argument, they give what it gives of all. -/
theorem texts_argumentsAt {names : List String} {name : String} {outs : List (List Char)}
    (hlength : (t.argumentsAt name rest).length = outs.length)
    (hargs : ∀ a ∈ (t.argumentsAt name rest).zip outs, ∀ {b f},
      (t.scan (names.map (⟨·, 0⟩)) [] b f a.1).budget ≠ 0 →
      (t.scan (names.map (⟨·, 0⟩)) [] b f a.1).text = a.2)
    (m : FnMacro) (args : List (List Char)) (after : List Char)
    (ho : t.objects.get? name = none) (hm : t.functions.get? name = some m)
    (hc : callArguments? rest = some (.ok (args, after)))
    (hb : (t.scanAll names budget failures args).budget ≠ 0) :
    (t.scanAll names budget failures args).texts = outs.map String.ofList := by
  rw [argumentsAt_of_call ho hm hc] at hlength hargs
  exact scanAll_texts hlength hb fun a ha b _ f => hargs a ha

/-- What the rules give is what the scan gives. -/
theorem Expands.text_scan (h : t.Expands p hidden cs out)
    (hb : (t.scan hidden before budget failures cs).budget ≠ 0) :
    (t.scan hidden before budget failures cs).text = before.reverse ++ out := by
  induction h generalizing before budget failures with
  | nil => rw [scan_nil, List.append_nil]
  | other h hk _ ih =>
    rw [scan_firstSegment_other h hk] at hb ⊢
    rw [ih hb, List.reverse_append, List.reverse_reverse, List.append_assoc]
  | hidden h hin _ _ ih =>
    rcases scan_firstSegment_ident h hb fun _ _ _ _ _ _ _ => rfl with
      ⟨b, -, f, -, he⟩ | ⟨b, -, f, text, after, hnot, -, -⟩
    · rw [he] at hb ⊢
      rw [ih hb, List.reverse_append, List.reverse_reverse, List.append_assoc]
    · exact absurd hin hnot
  | kept h hin hlength _ hnone _ hargs ih =>
    rcases scan_firstSegment_ident h hb (texts_argumentsAt hlength fun a ha => hargs a ha) with
      ⟨b, -, f, -, he⟩ | ⟨b, -, f, text, after, -, hsome, -⟩
    · rw [he] at hb ⊢
      rw [ih hb, List.reverse_append, List.reverse_reverse, List.append_assoc]
    · rw [hnone] at hsome
      cases hsome
  | replaced h hin hlength _ hsome _ _ hargs ih =>
    rcases scan_firstSegment_ident h hb (texts_argumentsAt hlength fun a ha => hargs a ha) with
      ⟨b, -, f, hor, -⟩ | ⟨b, -, f, text', after', -, hsome', he⟩
    · rcases hor with hmem | hnone
      · exact absurd hmem hin
      · rw [hsome] at hnone
        cases hnone
    · obtain ⟨rfl, rfl⟩ := Prod.mk.inj (Option.some.inj (hsome.symm.trans hsome'))
      rw [he] at hb ⊢
      exact ih hb

/-! ### The rules follow the scan -/

/-- Where the budget is not used up, it is not used up in the arguments of a call. -/
theorem scanAll_budget_ne_zero (h : FirstSegment .ident word rest)
    (hb : (t.scan hidden before budget failures (word ++ rest)).budget ≠ 0)
    (hin : String.ofList word ∉ hiddenNames hidden (word ++ rest)) {m : FnMacro}
    {args : List (List Char)} {after : List Char}
    (ho : t.objects.get? (String.ofList word) = none)
    (hm : t.functions.get? (String.ofList word) = some m)
    (hc : callArguments? rest = some (.ok (args, after))) :
    (t.scanAll (hiddenNames hidden (word ++ rest)) budget failures args).budget ≠ 0 := by
  obtain ⟨c, w, rfl, hn⟩ := h
  have hk : (nextSegment c (w ++ rest)).1 = .ident := by rw [hn]
  have htake : (w ++ rest).take (nextSegment c (w ++ rest)).2 = w := by rw [hn, List.take_left]
  have hdrop : (w ++ rest).drop (nextSegment c (w ++ rest)).2 = rest := by
    rw [hn, List.drop_left]
  have hb0 : budget ≠ 0 := by
    rintro rfl
    exact hb (by rw [List.cons_append, scan_of_budget_zero hk])
  obtain ⟨b, -, f, hleft, he⟩ :=
    scan_ident t hidden before failures hk hb0 (by rw [htake]) hdrop rfl
  have hnot : (hidden.filter (·.tail < (c :: w ++ rest).length)).any
      (·.name = String.ofList (c :: w)) = false := by
    simpa [hiddenNames] using hin
  rw [List.cons_append] at hb hnot
  rw [hnot, if_neg Bool.false_ne_true] at he
  have hb1 : b ≠ 0 := by
    rintro rfl
    rw [he] at hb
    split at hb
    · exact hb (Nat.le_zero.1 (scan_budget_le t _ _ 0 f rest))
    · exact hb rfl
  have hle := hleft m args after hnot ho hm hc
  rw [hiddenNames, List.cons_append]
  omega

/-- The scan of arguments is the scan of each. -/
theorem exists_scan_of_mem {names : List String} {args : List (List Char)}
    (hb : (t.scanAll names budget failures args).budget ≠ 0) {a : List Char} (ha : a ∈ args) :
    ∃ b ≤ budget, ∃ f, (t.scan (names.map (⟨·, 0⟩)) [] b f a).budget ≠ 0 := by
  induction args generalizing budget failures with
  | nil => cases ha
  | cons a' args ih =>
    rw [scanAll] at hb
    dsimp only at hb
    rcases List.mem_cons.1 ha with rfl | ha
    · refine ⟨budget, Nat.le_refl _, failures, fun h0 => hb ?_⟩
      rw [h0, Nat.zero_min]
      exact Nat.le_zero.1 (scanAll_budget_le t names 0 _ args)
    · obtain ⟨b, hle, f, hbudget⟩ := ih hb ha
      exact ⟨b, Nat.le_trans hle (Nat.min_le_right _ _), f, hbudget⟩

theorem exists_zip {α β : Type} {R : α → β → Prop} {l : List α} (h : ∀ a ∈ l, ∃ b, R a b) :
    ∃ l' : List β, l.length = l'.length ∧ ∀ x ∈ l.zip l', R x.1 x.2 := by
  induction l with
  | nil => exact ⟨[], rfl, fun x hx => by cases hx⟩
  | cons a l ih =>
    obtain ⟨b, hab⟩ := h a List.mem_cons_self
    obtain ⟨l', hlength, hall⟩ := ih fun x hx => h x (List.mem_cons_of_mem _ hx)
    refine ⟨b :: l', congrArg (· + 1) hlength, fun x hx => ?_⟩
    rcases List.mem_cons.1 hx with rfl | hx
    · exact hab
    · exact hall x hx

/-- Where the budget is not used up, the rules apply. -/
theorem exists_expands (t : MacroTable) (hidden : List HiddenMacro) (before : List Char)
    (budget : Nat) (failures : List (String × MacroError)) (cs : List Char)
    (hb : (t.scan hidden before budget failures cs).budget ≠ 0) :
    ∃ out, t.Expands .none hidden cs out := by
  match cs with
  | [] => exact ⟨[], .nil⟩
  | c :: r =>
    obtain ⟨kind, word, rest, hsplit, h⟩ := exists_firstSegment c r
    have hrest : rest.length < (c :: r).length := by
      rw [hsplit, List.length_append]
      exact Nat.lt_add_of_pos_left (List.length_pos_iff.2 h.ne_nil)
    rw [hsplit] at hb ⊢
    by_cases hk : kind = .ident
    · subst hk
      by_cases hin : String.ofList word ∈ hiddenNames hidden (word ++ rest)
      · rcases scan_firstSegment_ident h hb fun _ _ _ _ _ _ _ => rfl with
          ⟨b, hle, f, -, he⟩ | ⟨b, -, f, text, after, hnot, -, -⟩
        · rw [he] at hb
          obtain ⟨out, hout⟩ := exists_expands t _ _ b f rest hb
          exact ⟨_, .hidden h hin trivial hout⟩
        · exact absurd hin hnot
      · have hargs : ∀ a ∈ t.argumentsAt (String.ofList word) rest,
            ∃ out, t.Expands .none ((hiddenNames hidden (word ++ rest)).map (⟨·, 0⟩)) a out := by
          intro a ha
          obtain ⟨m, args, after, ho, hm, hc, hmem⟩ := exists_call_of_mem_argumentsAt ha
          obtain ⟨b, hle, f, hba⟩ :=
            exists_scan_of_mem (scanAll_budget_ne_zero h hb hin ho hm hc) hmem
          have hshorter := length_lt_of_mem_callArguments hc hmem
          exact exists_expands t _ [] b f a hba
        obtain ⟨outs, hlength, hexpands⟩ := exists_zip hargs
        rcases scan_firstSegment_ident h hb (texts_argumentsAt hlength fun a ha _ _ hba =>
            (hexpands a ha).text_scan hba) with
          ⟨b, hle, f, hor, he⟩ | ⟨b, hlt, f, text, after, -, hsome, he⟩
        · rw [he] at hb
          obtain ⟨out, hout⟩ := exists_expands t _ _ b f rest hb
          exact ⟨_, .kept h hin hlength hexpands (hor.resolve_left hin) hout⟩
        · rw [he] at hb
          obtain ⟨out, hout⟩ := exists_expands t _ _ b f (text ++ after) hb
          exact ⟨_, .replaced h hin hlength hexpands hsome trivial hout⟩
    · rw [scan_firstSegment_other h hk] at hb
      obtain ⟨out, hout⟩ := exists_expands t _ _ budget failures rest hb
      exact ⟨_, .other h hk hout⟩
  termination_by (budget, cs.length)
  decreasing_by
    · exact lex_of_le_of_lt hle hrest
    · exact lex_of_le_of_lt hle (Nat.lt_trans hshorter hrest)
    · exact lex_of_le_of_lt hle hrest
    · exact Prod.Lex.left _ _ hlt
    · exact Prod.Lex.right _ hrest

/-- **Without conditions, the rules give what the scan gives.** -/
theorem expands_iff (hb : (t.scan hidden before budget failures cs).budget ≠ 0) :
    t.Expands .none hidden cs out ↔
      (t.scan hidden before budget failures cs).text = before.reverse ++ out := by
  constructor
  · exact fun h => h.text_scan hb
  · intro htext
    obtain ⟨out', h⟩ := exists_expands t hidden before budget failures cs hb
    rw [h.text_scan hb, List.append_cancel_left_eq] at htext
    exact htext ▸ h

end MacroTable

end CInterface
