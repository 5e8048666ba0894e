import CInterface.Proofs.Macro.Bodies
import CInterface.Proofs.Macro.Calls
import CInterface.Macro.Expansion
/-!
# Expansion by recursion

The expansion of a text as one would define it on paper: the macros that are being replaced are kept
as a set, and the expansion of a text is put together from the expansions of its parts.

* `MacroTable.unfolding` — the expansion of a text in which some macros are not replaced.
* `MacroTable.unfolding_of_unfoldWithin?` — it is evaluated with a bound on the depth of recursion.
* `MacroTable.Wrapping` — a table all of whose replacements are wrapped.
* `MacroTable.walk_unfolding` — expansion keeps parentheses and literals as they are.
-/

namespace CInterface

open Text

/-! ### The definition -/

/-- The arguments of a call are shorter than the text behind its name. -/
theorem length_lt_of_mem_callArguments {cs after : List Char} {args : List (List Char)}
    (h : callArguments? cs = some (.ok (args, after))) {a : List Char} (ha : a ∈ args) :
    a.length < cs.length := by
  have hl := callArguments?_length h
  have ht := (List.sublist_flatten_of_mem ha).length_le
  omega

theorem length_after_lt {cs after : List Char} {args : List (List Char)}
    (h : callArguments? cs = some (.ok (args, after))) : after.length < cs.length := by
  have hl := callArguments?_length h
  omega

theorem length_drop_lt (c : Char) (r : List Char) (n : Nat) :
    (r.drop n).length < (c :: r).length := by
  rw [List.length_drop, List.length_cons]
  omega

namespace MacroTable

/-- The names that a table has macros for. -/
def names (t : MacroTable) : List String := t.objects.keys ++ t.functions.keys

/-- The number of names of the table outside a list. -/
def remaining (t : MacroTable) (active : List String) : Nat :=
  (t.names.filter (· ∉ active)).length

theorem remaining_cons_lt {t : MacroTable} {active : List String} {name : String}
    (h : name ∈ t.names) (ha : name ∉ active) : t.remaining (name :: active) < t.remaining active := by
  have hf : t.names.filter (· ∉ name :: active) =
      (t.names.filter (· ∉ active)).filter (· ≠ name) := by
    rw [List.filter_filter]
    refine List.filter_congr fun x _ => ?_
    simp [List.mem_cons, not_or]
  rw [remaining, remaining, hf]
  refine List.length_filter_lt_length_iff_exists.2 ⟨name, ?_, by simp⟩
  exact List.mem_filter.2 ⟨h, by simpa using ha⟩

theorem mem_names_of_object {t : MacroTable} {name body : String}
    (h : t.objects.get? name = some body) : name ∈ t.names :=
  List.mem_append_left _ (OrderedMap.mem_keys_of_get? h)

theorem mem_names_of_function {t : MacroTable} {name : String} {m : FnMacro}
    (h : t.functions.get? name = some m) : name ∈ t.names :=
  List.mem_append_right _ (OrderedMap.mem_keys_of_get? h)

/-- The expansion of a text in which the macros `active` are not replaced. A name of an object macro
becomes the expansion of its body, and a call of a function macro the expansion of its body with
the expanded arguments in it. Inside these the macro is active as well. Every other segment stays
as it is. -/
def unfolding (t : MacroTable) (active : List String) (cs : List Char) : List Char :=
  match cs with
  | [] => []
  | c :: r =>
    let word := c :: r.take (nextSegment c r).2
    let rest := r.drop (nextSegment c r).2
    let name := String.ofList word
    if h : (nextSegment c r).1 ≠ .ident ∨ name ∈ active then word ++ t.unfolding active rest
    else match ho : t.objects.get? name with
      | some body =>
        have := remaining_cons_lt (mem_names_of_object ho) fun e => h (.inr e)
        t.unfolding (name :: active) body.toList ++ t.unfolding active rest
      | none => match hf : t.functions.get? name with
        | none => word ++ t.unfolding active rest
        | some m => match ha : callArguments? rest with
          | none | some (.error _) => word ++ t.unfolding active rest
          | some (.ok (args, after)) =>
            have : ∀ a ∈ args, a.length < rest.length := fun _ => length_lt_of_mem_callArguments ha
            match m.substitute (args.attach.map fun a => String.ofList (t.unfolding active a.1)) with
            | .error _ => word ++ t.unfolding active rest
            | .ok text =>
              have := remaining_cons_lt (mem_names_of_function hf) fun e => h (.inr e)
              have := length_after_lt ha
              t.unfolding (name :: active) text.toList ++ t.unfolding active after
  termination_by (t.remaining active, cs.length)
  decreasing_by
    all_goals try exact Prod.Lex.right _ (length_drop_lt c r _)
    · exact Prod.Lex.left _ _ this
    · exact Prod.Lex.right _ (Nat.lt_trans (this a.1 a.2) (length_drop_lt c r _))
    · exact Prod.Lex.left _ _ ‹_›
    · exact Prod.Lex.right _ (Nat.lt_trans this (length_drop_lt c r _))

@[simp] theorem unfolding_nil (t : MacroTable) (active : List String) :
    t.unfolding active [] = [] := by
  rw [unfolding]

/-! ### One replacement -/

/-- What stands in the place of a name, and the text that follows it then. `expandArgs` expands the
arguments of a call. -/
def replacement? (t : MacroTable) (expandArgs : List (List Char) → List String) (name : String)
    (rest : List Char) : Option (List Char × List Char) :=
  match t.objects.get? name with
  | some body => some (body.toList, rest)
  | none => match t.functions.get? name with
    | none => none
    | some m => match callArguments? rest with
      | none | some (.error _) => none
      | some (.ok (args, after)) =>
        match m.substitute (expandArgs args) with
        | .error _ => none
        | .ok text => some (text.toList, after)

/-- The expansions of some arguments. -/
def unfoldingAll (t : MacroTable) (active : List String) (args : List (List Char)) : List String :=
  args.map fun a => String.ofList (t.unfolding active a)

variable {t : MacroTable} {active : List String} {name : String} {c : Char}
  {r rest text after : List Char} {expandArgs : List (List Char) → List String}

/-- A segment is copied, or a name is replaced. -/
theorem unfolding_cons (t : MacroTable) (active : List String) (c : Char) (r : List Char) :
    t.unfolding active (c :: r) =
      let word := c :: r.take (nextSegment c r).2
      let rest := r.drop (nextSegment c r).2
      let name := String.ofList word
      if (nextSegment c r).1 ≠ .ident ∨ name ∈ active then word ++ t.unfolding active rest
      else match t.replacement? (t.unfoldingAll active) name rest with
        | none => word ++ t.unfolding active rest
        | some (text, after) => t.unfolding (name :: active) text ++ t.unfolding active after := by
  rw [unfolding]
  dsimp only
  split_ifs
  · rfl
  · unfold replacement?
    split
    · rename_i body hb
      rw [hb]
    · rename_i hb
      rw [hb]
      dsimp only
      split
      · rename_i hm
        rw [hm]
      · rename_i m hm
        rw [hm]
        dsimp only
        split
        · rename_i hc
          rw [hc]
        · rename_i e hc
          rw [hc]
        · rename_i args after hc
          rw [hc]
          dsimp only
          rw [List.attach_map_val (f := fun a => String.ofList (t.unfolding active a)),
            ← unfoldingAll]
          cases m.substitute (t.unfoldingAll active args) with
          | error e => rfl
          | ok text => rfl

/-- A replacement is a body, or a body with the arguments of a call. -/
theorem replacement?_cases (h : t.replacement? expandArgs name rest = some (text, after)) :
    (∃ body, t.objects.get? name = some body ∧ text = body.toList ∧ after = rest) ∨
      ∃ m args out, t.functions.get? name = some m ∧
        callArguments? rest = some (.ok (args, after)) ∧
        m.substitute (expandArgs args) = .ok out ∧
        text = out.toList := by
  unfold replacement? at h
  split at h
  · rename_i body hb
    obtain ⟨rfl, rfl⟩ := Prod.mk.inj (Option.some.inj h)
    exact .inl ⟨body, hb, rfl, rfl⟩
  · split at h
    · simp at h
    · rename_i m hm
      split at h
      · simp at h
      · simp at h
      · rename_i args after hc
        split at h
        · simp at h
        · rename_i out ho
          obtain ⟨rfl, rfl⟩ := Prod.mk.inj (Option.some.inj h)
          exact .inr ⟨m, args, out, hm, hc, ho, rfl⟩

/-- Only the arguments of the call are expanded. -/
theorem replacement?_congr {expandArgs' : List (List Char) → List String}
    (h : ∀ m args after, t.objects.get? name = none → t.functions.get? name = some m →
      callArguments? rest = some (.ok (args, after)) → expandArgs args = expandArgs' args) :
    t.replacement? expandArgs name rest = t.replacement? expandArgs' name rest := by
  unfold replacement?
  cases ho : t.objects.get? name with
  | some body => rfl
  | none =>
    cases hm : t.functions.get? name with
    | none => rfl
    | some m =>
      dsimp only
      split
      · rfl
      · rfl
      · rename_i args after hc
        rw [h m args after ho hm hc]

/-! ### Evaluation -/

/-- The arguments of the call that a text begins with. -/
def calledWith (rest : List Char) : List (List Char) :=
  match callArguments? rest with
  | some (.ok (args, _)) => args
  | _ => []

/-- The expansion by recursion that is `fuel` deep at most. -/
def unfoldWithin? (t : MacroTable) : Nat → List String → List Char → Option (List Char)
  | 0, _, _ => none
  | _ + 1, _, [] => some []
  | fuel + 1, active, c :: r => do
    let word := c :: r.take (nextSegment c r).2
    let rest := r.drop (nextSegment c r).2
    let name := String.ofList word
    if (nextSegment c r).1 ≠ .ident ∨ name ∈ active then
      return word ++ (← t.unfoldWithin? fuel active rest)
    else
      let expanded ← (calledWith rest).mapM (t.unfoldWithin? fuel active)
      match t.replacement? (fun _ => expanded.map String.ofList) name rest with
      | none => return word ++ (← t.unfoldWithin? fuel active rest)
      | some (text, after) =>
        return (← t.unfoldWithin? fuel (name :: active) text) ++
          (← t.unfoldWithin? fuel active after)

theorem unfoldingAll_of_mapM {expand? : List Char → Option (List Char)}
    (h : ∀ cs out, expand? cs = some out → t.unfolding active cs = out) {args outs : List (List Char)}
    (hargs : args.mapM expand? = some outs) :
    t.unfoldingAll active args = outs.map String.ofList := by
  induction args generalizing outs with
  | nil =>
    cases hargs
    rfl
  | cons a args ih =>
    rw [List.mapM_cons] at hargs
    obtain ⟨out, hout, hargs⟩ := Option.bind_eq_some_iff.1 hargs
    obtain ⟨more, hmore, heq⟩ := Option.bind_eq_some_iff.1 hargs
    cases heq
    rw [unfoldingAll, List.map_cons, h a out hout, ← unfoldingAll, ih hmore]
    rfl

/-- **A depth that is enough** gives the expansion. -/
theorem unfolding_of_unfoldWithin? (fuel : Nat) {cs out : List Char}
    (h : t.unfoldWithin? fuel active cs = some out) : t.unfolding active cs = out := by
  induction fuel generalizing active cs out with
  | zero => cases h
  | succ fuel ih =>
    cases cs with
    | nil =>
      cases h
      exact unfolding_nil t active
    | cons c r =>
      rw [unfoldWithin?] at h
      rw [unfolding_cons]
      dsimp only at h ⊢
      by_cases hpass : (nextSegment c r).1 ≠ .ident ∨
          String.ofList (c :: r.take (nextSegment c r).2) ∈ active
      · rw [if_pos hpass] at h ⊢
        obtain ⟨rest, hrest, heq⟩ := Option.bind_eq_some_iff.1 h
        cases heq
        rw [ih hrest]
      · rw [if_neg hpass] at h ⊢
        obtain ⟨expanded, hexpanded, h⟩ := Option.bind_eq_some_iff.1 h
        have hargs := unfoldingAll_of_mapM (fun cs out => ih) hexpanded
        have hsame : t.replacement? (t.unfoldingAll active)
            (String.ofList (c :: r.take (nextSegment c r).2)) (r.drop (nextSegment c r).2) =
              t.replacement? (fun _ => expanded.map String.ofList)
                (String.ofList (c :: r.take (nextSegment c r).2)) (r.drop (nextSegment c r).2) := by
          refine replacement?_congr fun m args after _ _ hcall => ?_
          rw [calledWith, hcall] at hargs
          exact hargs
        rw [hsame]
        split at h
        · obtain ⟨rest, hrest, heq⟩ := Option.bind_eq_some_iff.1 h
          cases heq
          rw [ih hrest]
        · obtain ⟨inner, hinner, h⟩ := Option.bind_eq_some_iff.1 h
          obtain ⟨rest, hrest, heq⟩ := Option.bind_eq_some_iff.1 h
          cases heq
          rw [ih hinner, ih hrest]

/-! ### Behind a call -/

/-- Behind a closing text follows what followed it before. -/
theorem replacement?_append {d : Nat} (behind : List Char) (h : ClosingAt d rest) (hne : rest ≠ []) :
    t.replacement? expandArgs name (rest ++ behind) =
      (t.replacement? expandArgs name rest).map fun p => (p.1, p.2 ++ behind) := by
  unfold replacement?
  cases t.objects.get? name with
  | some body => rfl
  | none =>
    cases t.functions.get? name with
    | none => rfl
    | some m =>
      dsimp only
      rcases callArguments?_append behind h hne with ⟨h₁, h₂⟩ | ⟨args, after, h₁, h₂⟩
      · rw [h₁, h₂]
        rfl
      · rw [h₁, h₂]
        dsimp only
        cases m.substitute (expandArgs args) with
        | error e => rfl
        | ok out => rfl

/-! ### Parentheses and literals -/

/-- A table all of whose replacements are wrapped, where arguments are matched. -/
structure Wrapping (t : MacroTable) : Prop where
  object : ∀ {name body}, t.objects.get? name = some body → Wrapped body.toList
  call : ∀ {name m args text}, t.functions.get? name = some m → (∀ a ∈ args, Matched a.toList) →
    m.substitute args = .ok text → Wrapped text.toList

theorem mem_names_of_replacement (h : t.replacement? expandArgs name rest = some (text, after)) :
    name ∈ t.names := by
  rcases replacement?_cases h with ⟨body, hb, -, -⟩ | ⟨m, args, out, hm, -⟩
  · exact mem_names_of_object hb
  · exact mem_names_of_function hm

theorem length_after_replacement (h : t.replacement? expandArgs name rest = some (text, after)) :
    after.length ≤ rest.length := by
  rcases replacement?_cases h with ⟨body, -, -, rfl⟩ | ⟨m, args, out, -, hc, -⟩
  · exact Nat.le_refl _
  · exact Nat.le_of_lt (length_after_lt hc)

/-- Where arguments stay matched, a replacement is wrapped, and it replaces a matched text. -/
theorem Wrapping.replacement (ht : t.Wrapping) (hc : Clear rest)
    (hx : ∀ a : List Char, a.length < rest.length → Matched a → Matched (t.unfolding active a))
    (h : t.replacement? (t.unfoldingAll active) name rest = some (text, after)) :
    Wrapped text ∧ ∃ u, rest = u ++ after ∧ Matched u := by
  rcases replacement?_cases h with ⟨body, hb, rfl, rfl⟩ | ⟨m, args, out, hm, hcall, hs, rfl⟩
  · exact ⟨ht.object hb, [], rfl, Matched.nil⟩
  · obtain ⟨hargs, hu⟩ := callArguments?_split hcall hc
    refine ⟨ht.call hm (fun a ha => ?_) hs, hu⟩
    obtain ⟨arg, hmem, rfl⟩ := List.mem_map.1 ha
    rw [String.toList_ofList]
    exact hx arg (length_lt_of_mem_callArguments hcall hmem) (hargs arg hmem)

/-- A segment before texts with the same walk. The second text is empty with the first, since a
literal may reach the end. -/
theorem walk_segment_congr {v : List Char} (hc : Clear (c :: r))
    (hv : ∀ d, walk (.outside, d) v = walk (.outside, d) (r.drop (nextSegment c r).2))
    (hn : r.drop (nextSegment c r).2 = [] → v = []) (d : Nat) :
    walk (.outside, d) (c :: r.take (nextSegment c r).2 ++ v) = walk (.outside, d) (c :: r) := by
  have hs : c :: r = (c :: r.take (nextSegment c r).2) ++ r.drop (nextSegment c r).2 := by
    rw [List.cons_append, List.take_append_drop]
  by_cases ho : c = '('
  · subst ho
    rw [nextSegment_opening] at hv ⊢
    exact hv (d + 1)
  · by_cases hcl : c = ')'
    · subst hcl
      rw [nextSegment_closing] at hv ⊢
      exact hv (d - 1)
    · rcases matched_nextSegment hc ho hcl with hm | he
      · rw [hm.walk_append, hv, ← hm.walk_append, ← hs]
      · rw [hn he, ← he, ← hs]

theorem matched_ident (hk : (nextSegment c r).1 = .ident) :
    Matched (c :: r.take (nextSegment c r).2) := by
  have hp := nextSegment_word (c := c) (r := r) (by rw [hk]; decide)
  exact matched_of_plain (plain_of_nextSegment (by rw [hk]; decide) hp.1 hp.2)

/-- The expansion of a text leads to the same place and depth as the text. -/
theorem walk_unfolding (ht : t.Wrapping) (active : List String) {cs : List Char} (hc : Clear cs)
    (d : Nat) :
    walk (.outside, d) (t.unfolding active cs) = walk (.outside, d) cs :=
  match cs with
  | [] => by rw [unfolding_nil]
  | c :: r => by
    have hdrop := length_drop_lt c r (nextSegment c r).2
    have hclear := clear_drop_nextSegment hc
    have hrest := walk_unfolding ht active hclear
    have hcopy := walk_segment_congr hc hrest (fun he => by rw [he, unfolding_nil]) d
    rw [unfolding_cons]
    dsimp only
    split_ifs with hk
    · exact hcopy
    · have hident := Decidable.not_not.1 (not_or.1 hk).1
      split
      · exact hcopy
      · rename_i text after hr
        have hlt := remaining_cons_lt (mem_names_of_replacement hr) (not_or.1 hk).2
        have hle := length_after_replacement hr
        have harg : ∀ a : List Char, a.length < (r.drop (nextSegment c r).2).length → Matched a →
            Matched (t.unfolding active a) := by
          intro a ha hm e
          rw [walk_unfolding ht active hm.clear]
          exact hm e
        obtain ⟨hw, u, hu, hm⟩ := ht.replacement hclear harg hr
        have hafter : Clear after := (hu ▸ hclear).of_append (hm 0)
        have htext : Matched (t.unfolding (String.ofList (c :: r.take (nextSegment c r).2) :: active)
            text) := by
          intro e
          rw [walk_unfolding ht _ hw.matched.clear]
          exact hw.matched e
        rw [htext.walk_append, walk_unfolding ht active hafter, ← hm.walk_append, ← hu,
          ← (matched_ident hident).walk_append, List.cons_append, List.take_append_drop]
  termination_by (t.remaining active, cs.length)
  decreasing_by
    · exact Prod.Lex.right _ hdrop
    · exact Prod.Lex.right _ (Nat.lt_trans ha hdrop)
    · exact Prod.Lex.left _ _ hlt
    · exact Prod.Lex.right _ (Nat.lt_of_le_of_lt hle hdrop)

end MacroTable

end CInterface
