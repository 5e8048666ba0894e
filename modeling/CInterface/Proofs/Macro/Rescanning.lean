import CInterface.Proofs.Macro.Scan
import CInterface.Proofs.Macro.Steps
/-!
# Expansion by splicing

Splicing the replacements into the text and scanning on from there gives what
`MacroTable.unfolding` gives, where all replacements are wrapped: then the scan of a replacement
does not reach what follows it, and the macros that are hidden are those around the place.

* `Delimited` — nothing that begins in a part of the text goes on behind it.
* `MacroTable.Leaves`, `MacroTable.leaves` — the scan of such a part leaves its expansion behind.
* `MacroTable.expand_eq_unfolding` — a whole text.
-/

namespace CInterface

open Text

/-! ### The scan of a part of the text -/

/-- No literal of the text is cut off, and nothing that begins in it goes on in the text behind. -/
def Delimited (u behind : List Char) : Prop := Clear u ∧ (behind = [] ∨ ∃ d, ClosingAt d u)

theorem Delimited.of_wrapped {u : List Char} (h : Wrapped u) (behind : List Char) :
    Delimited u behind := by
  refine ⟨h.matched.clear, .inr ⟨0, h.matched 0, fun x hx => ?_⟩⟩
  rw [h.last] at hx
  exact (Option.some.inj hx).symm

theorem Delimited.of_matched_append {u v behind : List Char} (h : Delimited (u ++ v) behind)
    (hu : Matched u) : Delimited v behind := by
  refine ⟨h.1.of_append (hu 0), h.2.imp_right ?_⟩
  rintro ⟨d, hd⟩
  exact ⟨d, hd.of_append (hu d)⟩

variable {t : MacroTable} {c : Char} {r behind : List Char}

/-- The first segment is that of the text alone, and what follows it is delimited. -/
theorem Delimited.segment (h : Delimited (c :: r) behind) :
    nextSegment c (r ++ behind) = nextSegment c r ∧
      (r ++ behind).take (nextSegment c r).2 = r.take (nextSegment c r).2 ∧
      (r ++ behind).drop (nextSegment c r).2 = r.drop (nextSegment c r).2 ++ behind ∧
      Delimited (r.drop (nextSegment c r).2) behind := by
  obtain ⟨hc, rfl | ⟨d, hd⟩⟩ := h
  · simp only [List.append_nil, true_and]
    exact ⟨clear_drop_nextSegment hc, .inl rfl⟩
  · by_cases ho : c = '('
    · subst ho
      rw [nextSegment_opening, nextSegment_opening]
      exact ⟨rfl, rfl, rfl, hc.of_append (show walk (.outside, 0) ['('] = _ from rfl),
        .inr ⟨d + 1, hd.of_append (show walk _ ['('] = _ from rfl)⟩⟩
    · by_cases hcl : c = ')'
      · subst hcl
        rw [nextSegment_closing, nextSegment_closing]
        exact ⟨rfl, rfl, rfl, hc.of_append (show walk (.outside, 0) [')'] = _ from rfl),
          .inr ⟨d - 1, hd.of_append (show walk _ [')'] = _ from rfl)⟩⟩
      · obtain ⟨hlt, hw⟩ := hd.word ho hcl
        exact ⟨nextSegment_append behind hlt, List.take_append_of_le_length (Nat.le_of_lt hlt),
          List.drop_append_of_le_length (Nat.le_of_lt hlt), clear_drop_nextSegment hc,
          .inr ⟨d, hw⟩⟩

/-- Behind a name of a closing text more of it follows. -/
theorem Delimited.behind_name (h : Delimited (c :: r) behind) (hk : (nextSegment c r).1 = .ident) :
    behind = [] ∨ r.drop (nextSegment c r).2 ≠ [] ∧ ∃ d, ClosingAt d (r.drop (nextSegment c r).2) := by
  refine h.2.imp_right ?_
  rintro ⟨d, hd⟩
  obtain ⟨ho, hcl⟩ := nextSegment_word (c := c) (r := r) (by rw [hk]; decide)
  obtain ⟨hlt, hw⟩ := hd.word ho hcl
  refine ⟨fun he => ?_, d, hw⟩
  have := List.drop_eq_nil_iff.1 he
  omega

theorem Delimited.replacement {expandArgs : List (List Char) → List String} {name : String}
    (h : Delimited (c :: r) behind) (hk : (nextSegment c r).1 = .ident) :
    t.replacement? expandArgs name (r.drop (nextSegment c r).2 ++ behind) =
      (t.replacement? expandArgs name (r.drop (nextSegment c r).2)).map
        fun p => (p.1, p.2 ++ behind) := by
  rcases h.behind_name hk with rfl | ⟨hne, d, hd⟩
  · simp
  · exact MacroTable.replacement?_append behind hd hne

theorem Delimited.call {args : List (List Char)} {after : List Char}
    (h : Delimited (c :: r) behind) (hk : (nextSegment c r).1 = .ident)
    (hc : callArguments? (r.drop (nextSegment c r).2 ++ behind) = some (.ok (args, after))) :
    ∃ after', callArguments? (r.drop (nextSegment c r).2) = some (.ok (args, after')) := by
  rcases h.behind_name hk with rfl | ⟨hne, d, hd⟩
  · rw [List.append_nil] at hc
    exact ⟨after, hc⟩
  · rcases callArguments?_append behind hd hne with ⟨-, h₂⟩ | ⟨args', after', h₁, h₂⟩
    · rw [h₂] at hc
      simp at hc
    · rw [h₂] at hc
      obtain ⟨rfl, -⟩ := Prod.mk.inj (Except.ok.inj (Option.some.inj hc))
      exact ⟨after', h₁⟩

namespace MacroTable

/-- With the budget, the scan of `u` leaves its expansion behind and goes on with what follows, where
the macros are hidden that were hidden before. -/
def Leaves (t : MacroTable) (active : List String) (budget : Nat) (u : List Char) : Prop :=
  ∀ (hidden : List HiddenMacro) (before : List Char) (failures : List (String × MacroError))
    (behind : List Char), Delimited u behind → Hides hidden active u.length behind.length →
    (t.scan hidden before budget failures (u ++ behind)).budget ≠ 0 →
    ∃ b ≤ budget, ∃ f, t.scan hidden before budget failures (u ++ behind) =
      t.scan hidden ((t.unfolding active u).reverse ++ before) b f behind

variable {active : List String} {budget : Nat} {hidden : List HiddenMacro} {before : List Char}
  {failures : List (String × MacroError)}

/-- The scan of a text alone. -/
theorem Leaves.text {u : List Char} (h : t.Leaves active budget u) (hu : Clear u)
    {names : List String} (hn : ∀ n, n ∈ active ↔ n ∈ names)
    (hb : (t.scan (names.map (⟨·, 0⟩)) [] budget failures u).budget ≠ 0) :
    (t.scan (names.map (⟨·, 0⟩)) [] budget failures u).text = t.unfolding active u := by
  obtain ⟨b, -, f, he⟩ := h _ [] failures [] ⟨hu, .inl rfl⟩ (hides_throughout hn _ _)
    (by rwa [List.append_nil])
  rw [List.append_nil, scan_nil] at he
  rw [he]
  simp

/-- A first segment that is copied. -/
theorem leaves_copy {b : Nat} {f : List (String × MacroError)} (hle : b ≤ budget)
    (hu : Delimited (c :: r) behind) (hh : Hides hidden active (c :: r).length behind.length)
    (hb : (t.scan hidden before budget failures (c :: r ++ behind)).budget ≠ 0)
    (hunf : t.unfolding active (c :: r) =
      c :: r.take (nextSegment c r).2 ++ t.unfolding active (r.drop (nextSegment c r).2))
    (he : t.scan hidden before budget failures (c :: r ++ behind) =
      t.scan hidden ((c :: r.take (nextSegment c r).2).reverse ++ before) b f
        (r.drop (nextSegment c r).2 ++ behind))
    (hrest : t.Leaves active b (r.drop (nextSegment c r).2)) :
    ∃ b ≤ budget, ∃ f, t.scan hidden before budget failures (c :: r ++ behind) =
      t.scan hidden ((t.unfolding active (c :: r)).reverse ++ before) b f behind := by
  rw [he] at hb ⊢
  obtain ⟨b', hle', f', he'⟩ := hrest hidden _ f behind hu.segment.2.2.2
    (hh.mono (Nat.le_of_lt (length_drop_lt c r _))) hb
  refine ⟨b', Nat.le_trans hle' hle, f', he'.trans ?_⟩
  rw [hunf, List.reverse_append, List.append_assoc]

/-- A name that is replaced: first its replacement is scanned, where the name is hidden too, and then
what follows the name, where it is not. -/
theorem leaves_replace {b : Nat} {f : List (String × MacroError)} {name : String}
    {text after : List Char} {inside : List HiddenMacro} (hlt : b < budget)
    (hinside : ∀ n, n ∈ active ↔ ∃ x ∈ inside, x.name = n)
    (hi : hidden.filter (·.tail < (c :: r ++ behind).length) = inside)
    (hh : Hides hidden active (c :: r).length behind.length) (hw : Wrapped text)
    (hafter : Delimited after behind) (hlen : after.length ≤ (c :: r).length)
    (hb : (t.scan hidden before budget failures (c :: r ++ behind)).budget ≠ 0)
    (hunf : t.unfolding active (c :: r) =
      t.unfolding (name :: active) text ++ t.unfolding active after)
    (he : t.scan hidden before budget failures (c :: r ++ behind) =
      t.scan (hideMacro inside name (after ++ behind).length) before b f (text ++ (after ++ behind)))
    (hreplaced : ∀ b < budget, ∀ active u, t.Leaves active b u) :
    ∃ b ≤ budget, ∃ f, t.scan hidden before budget failures (c :: r ++ behind) =
      t.scan hidden ((t.unfolding active (c :: r)).reverse ++ before) b f behind := by
  rw [he] at hb ⊢
  obtain ⟨b₁, hle₁, f₁, he₁⟩ := hreplaced b hlt (name :: active) text _ before f (after ++ behind)
    (.of_wrapped hw _) (hides_hideMacro hinside name _ _) hb
  have hshort : (after ++ behind).length ≤ (c :: r ++ behind).length := by
    rw [List.length_append, List.length_append]
    omega
  rw [he₁, scan_hideMacro hi hshort] at hb
  obtain ⟨b₂, hle₂, f₂, he₂⟩ := hreplaced b₁ (by omega) active after hidden _ f₁ behind hafter
    (hh.mono hlen) hb
  refine ⟨b₂, by omega, f₂, ?_⟩
  rw [he₁, scan_hideMacro hi hshort, he₂, hunf, List.reverse_append, List.append_assoc]

/-- A text that begins with a name, where its arguments and what follows it are scanned well. -/
theorem leaves_name (ht : t.Wrapping) (hk : (nextSegment c r).1 = .ident)
    (hu : Delimited (c :: r) behind) (hh : Hides hidden active (c :: r).length behind.length)
    (hb : (t.scan hidden before budget failures (c :: r ++ behind)).budget ≠ 0)
    (hrest : ∀ b ≤ budget, t.Leaves active b (r.drop (nextSegment c r).2))
    (hargs : ∀ b ≤ budget, ∀ a : List Char, a.length < (r.drop (nextSegment c r).2).length →
      t.Leaves active b a)
    (hreplaced : ∀ b < budget, ∀ active u, t.Leaves active b u) :
    ∃ b ≤ budget, ∃ f, t.scan hidden before budget failures (c :: r ++ behind) =
      t.scan hidden ((t.unfolding active (c :: r)).reverse ++ before) b f behind := by
  obtain ⟨hseg, htake, hdrop, hdel⟩ := hu.segment
  obtain ⟨inside, hi⟩ : ∃ l, hidden.filter (·.tail < (c :: r ++ behind).length) = l := ⟨_, rfl⟩
  have hinside : ∀ n, n ∈ active ↔ ∃ x ∈ inside, x.name = n := by
    intro n
    rw [← hi, List.length_append]
    exact hh.inside (Nat.zero_lt_succ _) n
  have htexts : ∀ args after,
      callArguments? (r.drop (nextSegment c r).2 ++ behind) = some (.ok (args, after)) →
      (t.scanAll (inside.map (·.name)) budget failures args).budget ≠ 0 →
      (t.scanAll (inside.map (·.name)) budget failures args).texts =
        t.unfoldingAll active args := by
    intro args after hc hleft
    obtain ⟨after', hc'⟩ := hu.call hk hc
    have hzip : args.zip (args.map (t.unfolding active)) =
        args.map fun a => (a, t.unfolding active a) := by rw [← List.zip_map', List.map_id']
    have hall : t.unfoldingAll active args = (args.map (t.unfolding active)).map String.ofList := by
      rw [List.map_map]
      rfl
    rw [hall]
    refine scanAll_texts (List.length_map _).symm hleft fun p hp b hle f hba => ?_
    obtain ⟨a, ha, rfl⟩ := List.mem_map.1 (hzip ▸ hp)
    have hm := (callArguments?_split hc' hdel.1).1 a ha
    refine (hargs b hle a (length_lt_of_mem_callArguments hc' ha)).text hm.clear (fun n => ?_) hba
    rw [hinside, List.mem_map]
  have hn : String.ofList (c :: (r ++ behind).take (nextSegment c (r ++ behind)).2) =
      String.ofList (c :: r.take (nextSegment c r).2) := by rw [hseg, htake]
  have hr : (r ++ behind).drop (nextSegment c (r ++ behind)).2 =
      r.drop (nextSegment c r).2 ++ behind := by rw [hseg, hdrop]
  have hkb : (nextSegment c (r ++ behind)).1 = .ident := by rw [hseg, hk]
  rcases scan_word (r := r ++ behind) hkb hb hn hr hi fun _ args after _ _ => htexts args after with
    ⟨b, hle, f, hcopy, he⟩ | ⟨b, hlt, f, text, after, hnot, hrep, he⟩
  · refine leaves_copy hle hu hh hb ?_ (by rw [List.cons_append, he, hseg, htake]) (hrest b hle)
    rw [unfolding_cons]
    dsimp only
    rcases hcopy with hin | hnone
    · exact if_pos (.inr ((hinside _).2 hin))
    · rw [hu.replacement hk, Option.map_eq_none_iff] at hnone
      rw [hnone]
      exact ite_self _
  · rw [hu.replacement hk] at hrep
    obtain ⟨⟨text, after⟩, hown, hp⟩ := Option.map_eq_some_iff.1 hrep
    obtain ⟨rfl, rfl⟩ := Prod.mk.inj hp
    obtain ⟨hw, w, hws, hm⟩ := ht.replacement hdel.1
      (fun a _ hma e => (walk_unfolding ht active hma.clear e).trans (hma e)) hown
    have hlen := Nat.le_trans (length_after_replacement hown)
      (Nat.le_of_lt (length_drop_lt c r (nextSegment c r).2))
    refine leaves_replace hlt hinside hi hh hw ((hws ▸ hdel).of_matched_append hm) hlen hb ?_ he
      hreplaced
    rw [unfolding_cons]
    dsimp only
    rw [if_neg (not_or.2 ⟨fun h => h hk, fun h => hnot ((hinside _).1 h)⟩), hown]

/-- The scan of a delimited part leaves its expansion behind. -/
theorem leaves (ht : t.Wrapping) (active : List String) (budget : Nat) (u : List Char) :
    t.Leaves active budget u := by
  intro hidden before failures behind hu hh hb
  match u with
  | [] => exact ⟨budget, Nat.le_refl _, failures, by rw [unfolding_nil]; rfl⟩
  | c :: r =>
    have hlen := length_drop_lt c r (nextSegment c r).2
    have hrest : ∀ b ≤ budget, t.Leaves active b (r.drop (nextSegment c r).2) :=
      fun b hle => leaves ht active b _
    by_cases hk : (nextSegment c r).1 = .ident
    · exact leaves_name ht hk hu hh hb hrest (fun b hle a ha => leaves ht active b a)
        fun b hlt active' u' => leaves ht active' b u'
    · obtain ⟨hseg, htake, hdrop, -⟩ := hu.segment
      refine leaves_copy (f := failures) (Nat.le_refl _) hu hh hb ?_ ?_ (hrest budget (Nat.le_refl _))
      · rw [unfolding_cons]
        exact if_pos (.inl hk)
      · rw [List.cons_append, scan_other (by rw [hseg]; exact hk), hseg, htake, hdrop]
  termination_by (budget, u.length)
  decreasing_by
    · exact lex_of_le_of_lt hle hlen
    · exact lex_of_le_of_lt hle (Nat.lt_trans ha hlen)
    · exact Prod.Lex.left _ _ hlt

/-! ### Whole texts -/

/-- Each function macro has the template of its content. -/
def compiled (t : MacroTable) : Bool :=
  t.functions.entries.all fun e => e.2.template = .compile e.2.params e.2.content

/-- All bodies of the table are fully parenthesised. -/
def parenthesised (t : MacroTable) : Bool :=
  (t.objects.entries.all fun e => fullyParenthesised e.2.toList) &&
    t.functions.entries.all fun e => fullyParenthesised e.2.content.toList

/-- No literal in a body of the table is cut off by a newline. -/
def literalsClosed (t : MacroTable) : Bool :=
  (t.objects.entries.all fun e => CInterface.literalsClosed e.2.toList) &&
    t.functions.entries.all fun e => CInterface.literalsClosed e.2.content.toList

theorem wrapping_of_parenthesised (hm : t.compiled = true) (hp : t.parenthesised = true)
    (hc : t.literalsClosed = true) : t.Wrapping := by
  rw [parenthesised, Bool.and_eq_true, List.all_eq_true, List.all_eq_true] at hp
  rw [literalsClosed, Bool.and_eq_true, List.all_eq_true, List.all_eq_true] at hc
  rw [compiled, List.all_eq_true] at hm
  refine ⟨fun hb => ?_, fun hf hargs hs => ?_⟩
  · have he := OrderedMap.mem_entries_of_get? hb
    exact wrapped_body (hp.1 _ he) (hc.1 _ he)
  · have he := OrderedMap.mem_entries_of_get? hf
    exact FnMacro.wrapped_substitute (of_decide_eq_true (hm _ he)) (hp.2 _ he) (hc.2 _ he) hargs hs

/-- Splicing replacements into the text and scanning on gives what the definition by recursion
gives, unless the budget is used up. -/
theorem expand_eq_unfolding (hm : t.compiled = true) (hp : t.parenthesised = true)
    (hc : t.literalsClosed = true) (active : List String) {text : List Char} (hn : '\n' ∉ text)
    (hx : (t.expand active text).exhausted = false) :
    (t.expand active text).text = t.unfolding active text := by
  have ht := wrapping_of_parenthesised hm hp hc
  have hb : (t.scan (active.map (⟨·, 0⟩)) [] expansionLimit [] text).budget ≠ 0 :=
    of_decide_eq_false hx
  exact (leaves ht active expansionLimit text).text (clear_of_no_newline hn) (fun _ => Iff.rfl) hb

/-- Macros that refer to each other and to themselves. In `F(A)` the argument is expanded where `F` is
not hidden, and the `A` left in it once more where `F` is. -/
def nestedTable : MacroTable where
  objects := .ofList [("A", "(F(B) A)"), ("B", "(1)")]
  functions := .ofList [("F", .ofContent ["x"] "(x + x)" false)]

theorem runs_nestedTable :
    nestedTable.expand [] "F(A)".toList =
        ⟨"((((1) + (1)) (F((1)) A)) + (((1) + (1)) (F((1)) A)))".toList, 9992, []⟩ ∧
      nestedTable.unfolding [] "F(A)".toList =
        "((((1) + (1)) (F((1)) A)) + (((1) + (1)) (F((1)) A)))".toList :=
  ⟨expand_eq_of_iterate 120 (by decide +kernel), unfolding_of_unfoldWithin? 100 (by decide +kernel)⟩

theorem expand_nestedTable : (nestedTable.expand [] "F(A)".toList).text =
    "((((1) + (1)) (F((1)) A)) + (((1) + (1)) (F((1)) A)))".toList := by
  obtain ⟨hexpand, hunfolding⟩ := runs_nestedTable
  have hexhausted : (nestedTable.expand [] "F(A)".toList).exhausted = false := by
    rw [hexpand]
    rfl
  exact (expand_eq_unfolding (by decide +kernel) (by decide +kernel) (by decide +kernel) []
    (by decide) hexhausted).trans hunfolding

/-- A literal in the body of `A` that a newline cuts off. -/
def cutTable : MacroTable where
  objects := .ofList [("A", "(F(\"a \n))"), ("B", "(1)")]
  functions := .ofList [("F", .ofContent ["x"] "(x)" false)]

/-- Without its newline the literal goes on to the end of the text, and `B` is in it. -/
theorem runs_cutTable :
    cutTable.expand [] "A B".toList = ⟨"((\"a)) B".toList, 9998, []⟩ ∧
      cutTable.unfolding [] "A B".toList = "((\"a)) (1)".toList :=
  ⟨expand_eq_of_iterate 40 (by decide +kernel), unfolding_of_unfoldWithin? 40 (by decide +kernel)⟩

/-- That the bodies are fully parenthesised is not enough: an argument is trimmed, and a newline that
cuts off a literal is lost so. -/
theorem not_expand_eq_unfolding :
    ¬ ∀ (t : MacroTable) (text : List Char), t.compiled = true → t.parenthesised = true →
      '\n' ∉ text → (t.expand [] text).exhausted = false →
      (t.expand [] text).text = t.unfolding [] text := by
  intro h
  obtain ⟨hexpand, hunfolding⟩ := runs_cutTable
  have hexhausted : (cutTable.expand [] "A B".toList).exhausted = false := by
    rw [hexpand]
    rfl
  have he := h cutTable "A B".toList (by decide +kernel) (by decide +kernel) (by decide) hexhausted
  rw [hexpand, hunfolding] at he
  exact absurd he (by decide)

end MacroTable

end CInterface
