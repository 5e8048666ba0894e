import CInterface.Proofs.Grammar.Accounting
import CInterface.Proofs.Grammar.Settling
/-!
# Reading headers side by side

Two headers with the same tokens are read turn by turn. As long as the first is read without skipping
anything, each turn of one goes with a turn of the other, and they give the same definitions.

* `Pairing.header` — the state of the second reading that goes with a state of the first.
* `Pairing.Pairs` — the pairing is one of the two headers.
* `Pairing.step_paired` — one turn.
* `Pairing.run_paired` — all turns of a header that is read without skipping anything, where the second
  header goes on behind it.
* `Pairing.run_shifted` — all turns of any header, where both end together.
-/

namespace CInterface

/-! ### Reports on other lines -/

/-- The entry, so many lines later. -/
def Unparsed.shift (n : Nat) (u : Unparsed) : Unparsed := { u with line := u.line + n }

/-- The report, so many lines later. -/
def ParseReport.shift (n : Nat) (r : ParseReport) : ParseReport :=
  ⟨r.unparsed.map (·.shift n), r.errors.map (·.shift n)⟩

/-! ### Turns that skip nothing -/

namespace HeaderText

variable {h : HeaderText} {s s' : HeaderState}

/-- At the end of the text there is no declaration. -/
theorem declaration_nil (hrest : s.stage.rest = []) :
    (h.declaration s).report.unparsed ≠ s.report.unparsed := by
  rw [declaration]
  cases hrun : (h.source s.registry).declaration s.stage with
  | error e =>
    show s.report.unparsed ++ [_] ≠ _
    exact fun heq => List.cons_ne_nil _ _ (List.append_right_eq_self.1 heq)
  | ok r =>
    have hlt := Passes.of_closes closes_declaration s.stage r.1 r.2 hrun
    rw [hrest] at hlt
    exact absurd hlt (Nat.not_lt_zero _)

/-- The last token that is passed on the way from one state to another may end a statement. -/
def Ends (s s' : HeaderState) : Prop :=
  ∃ t : Token, t.kind.endsStatement = true ∧ t :: s'.stage.rest <:+ s.stage.rest

/-- A turn that skips nothing ends with a token that may end a statement. -/
theorem Turn.ends (hturn : h.Turn s s') (hskip : s'.report.unparsed = s.report.unparsed) :
    Ends s s' := by
  cases hturn with
  | @semicolon t rest htokens hsemi hnext =>
    refine ⟨t, by rw [hsemi]; rfl, ?_⟩
    rw [hnext, htokens]
    exact List.suffix_refl _
  | @opened rest hlinkage hnext =>
    obtain ⟨a, b, v, hv, -, -, hopen⟩ := linkage?_block hlinkage
    refine ⟨v, by rw [hopen]; rfl, ?_⟩
    rw [hnext, hv]
    exact ⟨[a, b], rfl⟩
  | @closed t rest _ htokens hbrace _ hnext =>
    refine ⟨t, by rw [hbrace]; rfl, ?_⟩
    rw [hnext]
    show t :: rest <:+ _
    rw [← htokens]
    exact declarationTokens_suffix _
  | matched _ hrun hnext =>
    obtain ⟨t, ht, hsuffix⟩ :=
      closes_declaration.mono (List.cons_subset_cons Punct.semi (List.subset_cons_self Punct.lbrace _))
        _ _ _ hrun
    refine ⟨t, ht, ?_⟩
    rw [hnext, commit_rest]
    exact hsuffix.trans (declarationTokens_suffix _)
  | skipped _ _ hnext =>
    rw [hnext] at hskip
    exact absurd (List.append_right_eq_self.1 hskip) (List.cons_ne_nil _ _)

/-- Entries are only added to the skipped texts. -/
theorem Turn.unparsed_prefix (hturn : h.Turn s s') (hs : s.Idle) :
    s.report.unparsed <+: s'.report.unparsed := by
  cases hturn with
  | semicolon _ _ hnext | opened _ hnext | closed _ _ _ _ hnext =>
    rw [hnext]
    exact List.prefix_refl _
  | matched _ _ hnext =>
    rw [hnext, commit_eq (s := s.ahead) hs]
    split <;> exact List.prefix_refl _
  | skipped _ _ hnext =>
    rw [hnext]
    exact List.prefix_append _ _

theorem unparsed_run_succ (hs : s.Idle) {n : Nat} (hskip : (h.run (n + 1) s).report.unparsed = []) :
    (h.run n s).report.unparsed = [] := by
  rcases h.turn_run n s with ⟨-, hstay⟩ | ⟨-, hturn⟩
  · rwa [hstay] at hskip
  · have hprefix := hturn.unparsed_prefix (idle_run hs n)
    rw [hskip] at hprefix
    exact List.prefix_nil.1 hprefix

/-- A header that is read without skipping anything ends with a statement. -/
theorem ends_run (hs : s.Idle) (n : Nat) (hskip : (h.run n s).report.unparsed = []) :
    (h.run n s).stage.rest = s.stage.rest ∨ Ends s (h.run n s) := by
  induction n with
  | zero => exact Or.inl rfl
  | succ n ih =>
    have hbefore := unparsed_run_succ hs hskip
    have hsuffix : (h.run n s).stage.rest <:+ s.stage.rest := run_suffix hs n.zero_le
    rcases h.turn_run n s with ⟨-, hstay⟩ | ⟨-, hturn⟩
    · rw [hstay]
      exact ih hbefore
    · obtain ⟨t, ht, hends⟩ := hturn.ends (hskip.trans hbefore.symm)
      exact Or.inr ⟨t, ht, hends.trans hsuffix⟩

end HeaderText

namespace Pairing

variable {K : Pairing} {h h' : HeaderText} {s : HeaderState} {e : Nat} {due : List Punct}

/-! ### Two headers -/

/-- The pairing where another registry is known. -/
def withRegistry (K : Pairing) (r : Registry) : Pairing :=
  { K with source := { K.source with registry := r } }

theorem ready_withRegistry {r : Registry} {ts : List Token} :
    (K.withRegistry r).Ready due ts ↔ K.Ready due ts :=
  ⟨fun h => ⟨h.line, h.length_le, h.nested, h.ends⟩, fun h => ⟨h.line, h.length_le, h.nested, h.ends⟩⟩

/-- The state of the second header that goes with a state of the first, where the second has opened `e`
more linkage blocks. -/
def header (K : Pairing) (e : Nat) (s : HeaderState) : HeaderState :=
  ⟨K.stage s.stage, s.registry, s.blocks + e, s.report.shift K.shift⟩

/-- The pairing is one of two headers, of which the second has opened `e` more linkage blocks where
the first begins. -/
structure Pairs (K : Pairing) (e : Nat) (h h' : HeaderText) : Prop where
  source : ∀ r, h.source r = (K.withRegistry r).source
  other : ∀ r, h'.source r = (K.withRegistry r).other
  file : h'.file = h.file
  /-- Where both texts end together, the text of some tokens is the same. -/
  text : K.tail = none → ∀ ts : List Token, h'.textOf (ts.map K.move) = h.textOf ts
  blocks : K.tail = none → e = 0

theorem afterStatement_map {move : Token → Token} (hmove : ∀ t, (move t).kind = t.kind)
    (depth : Nat) (ts : List Token) :
    afterStatement depth (ts.map move) = (afterStatement depth ts).map move := by
  have hsemi : ∀ ts : List Token, dropSemi (ts.map move) = (dropSemi ts).map move := by
    intro ts
    cases ts with
    | nil => rfl
    | cons t ts =>
      rw [List.map_cons, dropSemi, dropSemi, hmove]
      split <;> rfl
  induction ts generalizing depth with
  | nil => rfl
  | cons t ts ih =>
    rw [List.map_cons, afterStatement, afterStatement, hmove, ih, ih, hsemi, ih]
    split
    · rfl
    · split
      · rfl
      · split
        · split <;> rfl
        · rfl

/-- What is committed is the same definitions, and the same errors on the lines of the second text. -/
theorem commit_paired (hfile : h'.file = h.file) (s : HeaderState) (t : Stage) :
    h'.commit (K.header e s) (K.stage t) = K.header e (h.commit s t) := by
  have hfound : ∀ n, (K.stage t).errors.take n = (t.errors.take n).map (·.shift K.shift) := by
    intro n
    exact (List.map_take ..).symm
  have hlength : (K.stage t).errors.length = t.errors.length := List.length_map ..
  have hlength' : (K.header e s).stage.errors.length = s.stage.errors.length := List.length_map ..
  rw [HeaderText.commit, HeaderText.commit, hfile, hlength, hlength', hfound, List.isEmpty_map]
  dsimp only
  split
  · rfl
  · simp only [header, HeaderState.moveTo, ParseReport.shift, List.map_append, List.map_reverse]
    rfl

/-- What is skipped is the same statement on its line of the second text. -/
theorem skip_paired (hp : K.Pairs e h h') (htail : K.tail = none)
    (hready : K.Ready due s.stage.rest) :
    h'.skip (K.header e s) (h'.source s.registry) = K.header e (h.skip s (h.source s.registry)) := by
  have htokens : ∀ ts, K.tokens ts = ts.map K.move := by
    intro ts
    rw [tokens, htail, Option.getD_none, List.append_nil]
  have hrest : afterStatement 0 (K.tokens s.stage.rest) = K.tokens (afterStatement 0 s.stage.rest) := by
    rw [htokens, htokens, afterStatement_map K.kind_move]
  have hline : (h'.source s.registry).lineAt (K.tokens s.stage.rest) =
      (h.source s.registry).lineAt s.stage.rest + K.shift := by
    rw [hp.other, hp.source]
    exact (ready_withRegistry.2 hready).lineAt_tokens (Or.inl htail)
  have htext : h'.textOf ((K.tokens s.stage.rest).take ((K.tokens s.stage.rest).length -
        (K.tokens (afterStatement 0 s.stage.rest)).length)) =
      h.textOf (s.stage.rest.take (s.stage.rest.length - (afterStatement 0 s.stage.rest).length)) := by
    rw [htokens, htokens, List.length_map, List.length_map, ← List.map_take, hp.text htail]
  rw [HeaderText.skip, HeaderText.skip]
  simp only [header, stage_rest, hrest, hline, htext, HeaderState.moveTo, ParseReport.shift,
    List.map_append]
  rfl

theorem declaration_paired (hp : K.Pairs e h h') (hready : K.Ready due s.stage.rest)
    (hskip : K.tail = none ∨ (h.declaration s).report.unparsed = s.report.unparsed) :
    h'.declaration (K.header e s) = K.header e (h.declaration s) ∧
      K.Ready due (h.declaration s).stage.rest := by
  have hready' := ready_withRegistry (r := s.registry).2 hready
  rw [HeaderText.declaration, HeaderText.declaration] at *
  have hstage : (K.header e s).stage = K.stage s.stage := rfl
  have hregistry : (K.header e s).registry = s.registry := rfl
  rw [hstage, hregistry]
  cases hrun : (h.source s.registry).declaration s.stage with
  | ok r =>
    rw [hp.source] at hrun
    obtain ⟨hother, ht⟩ := settles_declaration.forward s.stage hready' r.1 r.2 hrun
    rw [← hp.other] at hother
    have hother' : (h'.source s.registry).declaration (K.stage s.stage) = .ok (r.1, K.stage r.2) :=
      hother
    rw [hother']
    refine ⟨commit_paired hp.file s r.2, ?_⟩
    show K.Ready due (h.commit s r.2).stage.rest
    rw [HeaderText.commit_rest]
    exact ready_withRegistry.1 ht
  | error e₁ =>
    rw [hrun] at hskip
    have htail : K.tail = none := hskip.resolve_right fun heq =>
      absurd (List.append_right_eq_self.1 heq) (List.cons_ne_nil _ _)
    rw [hp.source] at hrun
    have houtcome := agrees_declaration.outcome s.stage hready' (Nat.lt_succ_self _)
    rw [hrun, ← hp.other] at houtcome
    have hother : ∃ e₂, (h'.source s.registry).declaration (K.stage s.stage) = .error e₂ := by
      generalize hr : (h'.source s.registry).declaration (K.stage s.stage) = r
      have houtcome' : (K.withRegistry s.registry).Outcome due (.error e₁) r := hr ▸ houtcome
      cases houtcome' with
      | failed e₁ e₂ => exact ⟨e₂, rfl⟩
      | «open» e₁ r hlax => exact absurd htail hlax.1
    obtain ⟨e₂, hother⟩ := hother
    rw [hother]
    refine ⟨skip_paired hp htail hready, ?_⟩
    exact hready.of_suffix (afterStatement_suffix 0 _) fun hne => absurd htail hne

/-! ### Turns -/

/-- The words that set the linkage are the same in both texts. -/
theorem Ready.linkage?_tokens {ts : List Token} (h : K.Ready due ts) (hts : ts ≠ []) :
    linkage? (K.tokens ts) = (linkage? ts).map fun p => (p.1, K.tokens p.2) := by
  obtain ⟨t, ts, rfl⟩ := List.exists_cons_of_ne_nil hts
  rw [tokens_cons]
  by_cases ht : t.kind = .ident "extern"
  · have hseen : K.Seen ts := h.seen_behind (by rw [ht]; rfl)
    have hbehind : K.Ready due ts := h.behind (by rw [ht]; rfl)
    cases ts with
    | nil =>
      rw [tokens_nil (hseen.resolve_right fun hne => hne rfl)]
      rfl
    | cons u ts =>
      rw [tokens_cons]
      simp only [linkage?, K.kind_move]
      split
      · rename_i hwords
        simp only [Bool.and_eq_true, Bool.or_eq_true, decide_eq_true_eq] at hwords
        have hu : u.kind.endsStatement = false := by
          rcases hwords.2 with hu | hu <;> rw [hu] <;> rfl
        have hseen' : K.Seen ts := hbehind.seen_behind hu
        cases ts with
        | nil =>
          rw [tokens_nil (hseen'.resolve_right fun hne => hne rfl)]
          show some (false, []) = some (false, K.tokens [])
          rw [tokens_nil (hseen'.resolve_right fun hne => hne rfl)]
        | cons v ts =>
          simp only [tokens_cons, K.kind_move]
          split <;> rfl
      · rfl
  · have hnone : ∀ (v : Token) (us : List Token), v.kind ≠ .ident "extern" →
        linkage? (v :: us) = none := by
      intro v us hv
      cases us with
      | nil => rfl
      | cons u us =>
        simp only [linkage?]
        rw [if_neg]
        simp only [Bool.and_eq_true, decide_eq_true_eq]
        exact fun hwords => hv hwords.1
    rw [hnone t ts ht, hnone _ _ (by rw [K.kind_move]; exact ht)]
    rfl

/-- The closing braces of the linkage blocks that are open. -/
def blockEnds (s : HeaderState) : List Punct := List.replicate s.blocks .rbrace

theorem linked_paired (hp : K.Pairs e h h') (hready : K.Ready (blockEnds s) s.stage.rest)
    (hskip : K.tail = none ∨ (h.linked s).report.unparsed = s.report.unparsed) :
    h'.linked (K.header e s) = K.header e (h.linked s) ∧
      K.Ready (blockEnds (h.linked s)) (h.linked s).stage.rest := by
  have hdeclaration : (K.tail = none ∨ (h.declaration s).report.unparsed = s.report.unparsed) →
      h'.declaration (K.header e s) = K.header e (h.declaration s) ∧
        K.Ready (blockEnds (h.declaration s)) (h.declaration s).stage.rest := by
    intro hskip
    have hblocks : (h.declaration s).blocks = s.blocks := by
      rw [HeaderText.declaration]
      cases (h.source s.registry).declaration s.stage with
      | error => rfl
      | ok r =>
        show (h.commit s r.2).blocks = s.blocks
        rw [HeaderText.commit]
        dsimp only
        split <;> rfl
    rw [blockEnds, hblocks]
    exact declaration_paired hp hready hskip
  have hrest : (K.header e s).stage.rest = K.tokens s.stage.rest := rfl
  rw [HeaderText.linked, HeaderText.linked] at *
  rw [hrest]
  cases htokens : s.stage.rest with
  | nil =>
    rw [htokens] at hskip
    have htail : K.tail = none := hskip.resolve_right fun heq =>
      absurd heq (HeaderText.declaration_nil htokens)
    rw [tokens_nil htail]
    exact hdeclaration (Or.inl htail)
  | cons t rest =>
    rw [htokens] at hskip hready
    rw [tokens_cons]
    have hblocks : (K.header e s).blocks = s.blocks + e := rfl
    simp only [K.kind_move, hblocks] at hskip ⊢
    by_cases hclose : (decide (0 < s.blocks) && decide (t.kind = .punct .rbrace)) = true
    · obtain ⟨hpos, hkind⟩ : 0 < s.blocks ∧ t.kind = .punct .rbrace := by
        simpa only [Bool.and_eq_true, decide_eq_true_eq] using hclose
      obtain ⟨n, hn⟩ : ∃ n, s.blocks = n + 1 := ⟨s.blocks - 1, by omega⟩
      have hother : (decide (0 < s.blocks + e) && decide (t.kind = .punct .rbrace)) = true := by
        simp only [Bool.and_eq_true, decide_eq_true_eq]
        exact ⟨Nat.lt_of_lt_of_le hpos (Nat.le_add_right _ _), hkind⟩
      rw [if_pos hclose, if_pos hother]
      refine ⟨?_, ?_⟩
      · simp only [header, HeaderState.moveTo, hn, Nat.add_sub_cancel]
        rw [show n + 1 + e - 1 = n + e by omega]
        rfl
      · refine hready.behind ?_
        show t.kind.due (List.replicate s.blocks .rbrace) = some (List.replicate (s.blocks - 1) .rbrace)
        rw [hkind, hn]
        rfl
    · have hother : ¬(decide (0 < s.blocks + e) && decide (t.kind = .punct .rbrace)) = true := by
        simp only [Bool.and_eq_true, decide_eq_true_eq, not_and] at hclose ⊢
        intro hpos hkind
        have hzero : s.blocks = 0 := Nat.eq_zero_of_not_pos fun hpos => hclose hpos hkind
        by_cases htail : K.tail = none
        · rw [hp.blocks htail, hzero] at hpos
          exact absurd hpos (Nat.lt_irrefl 0)
        · -- outside the linkage blocks no brace is due
          obtain ⟨next, hnext, -⟩ := closesDue_cons.1 (hready.nested htail)
          obtain ⟨p, -, hdue⟩ := TokenKind.due_close (by rw [hkind]; rfl) hnext
          rw [blockEnds, hzero] at hdue
          cases hdue
      rw [if_neg hclose] at hskip ⊢
      rw [if_neg hother]
      exact hdeclaration hskip

/-- **One turn of the first header goes with one of the second**, where the first skips nothing or both
end together. -/
theorem step_paired (hp : K.Pairs e h h') (hready : K.Ready (blockEnds s) s.stage.rest)
    (hne : s.stage.rest ≠ [])
    (hskip : K.tail = none ∨ (h.step s).report.unparsed = s.report.unparsed) :
    h'.step (K.header e s) = K.header e (h.step s) ∧
      K.Ready (blockEnds (h.step s)) (h.step s).stage.rest := by
  have hrest : (K.header e s).stage.rest = K.tokens s.stage.rest := rfl
  have hlinkage := hready.linkage?_tokens hne
  rw [HeaderText.step, HeaderText.step] at *
  rw [hrest]
  cases htokens : s.stage.rest with
  | nil => exact absurd htokens hne
  | cons t rest =>
    rw [htokens] at hskip hready hlinkage
    rw [tokens_cons] at hlinkage ⊢
    simp only [K.kind_move, hlinkage] at hskip ⊢
    by_cases hsemi : t.kind = .punct .semi
    · rw [if_pos hsemi, if_pos hsemi]
      refine ⟨rfl, hready.behind ?_⟩
      rw [hsemi]
      rfl
    · rw [if_neg hsemi] at hskip ⊢
      rw [if_neg hsemi]
      cases hwords : linkage? (t :: rest) with
      | none =>
        rw [hwords] at hskip
        rw [← htokens] at hready
        exact linked_paired hp hready hskip
      | some found =>
        obtain ⟨opens, behind⟩ := found
        rw [hwords] at hskip
        cases opens with
        | true =>
          obtain ⟨a, b, v, hv, ha, hb, hopen⟩ := linkage?_block hwords
          rw [hv] at hready
          have hplain : b.kind.due (blockEnds s) = some (blockEnds s) := by
            rcases hb with hb | hb <;> rw [hb] <;> rfl
          refine ⟨?_, ((hready.behind (by rw [ha]; rfl)).behind hplain).behind ?_⟩
          · simp only [header, HeaderState.moveTo, Option.map_some]
            rw [show s.blocks + e + 1 = s.blocks + 1 + e by omega]
            rfl
          · rw [hopen]
            rfl
        | false =>
          obtain ⟨a, b, hb, ha, hname⟩ := linkage?_words hwords
          rw [hb] at hready
          have hplain : b.kind.due (blockEnds s) = some (blockEnds s) := by
            rcases hname with hname | hname <;> rw [hname] <;> rfl
          exact linked_paired (s := s.moveTo behind) hp
            ((hready.behind (by rw [ha]; rfl)).behind hplain) hskip

/-! ### All turns -/

/-- **A header that is read without skipping anything is read alike in front of more tokens.** -/
theorem run_paired (hp : K.Pairs e h h') (hs : s.Idle)
    (hready : K.Ready (blockEnds s) s.stage.rest) (n : Nat)
    (hskip : (h.run n s).report.unparsed = []) :
    (∃ m ≤ n, h'.run m (K.header e s) = K.header e (h.run n s)) ∧
      K.Ready (blockEnds (h.run n s)) (h.run n s).stage.rest := by
  induction n with
  | zero => exact ⟨⟨0, Nat.le_refl 0, rfl⟩, hready⟩
  | succ n ih =>
    have hbefore := HeaderText.unparsed_run_succ hs hskip
    obtain ⟨⟨m, hm, hrun⟩, hready'⟩ := ih hbefore
    rw [HeaderText.run_succ] at hskip ⊢
    split at hskip
    · rename_i hnil
      rw [if_pos hnil]
      exact ⟨⟨m, Nat.le_succ_of_le hm, hrun⟩, hready'⟩
    · rename_i hrest
      rw [if_neg hrest]
      have hne : (h.run n s).stage.rest ≠ [] := fun hnil => hrest (by rw [hnil]; rfl)
      obtain ⟨hstep, hready''⟩ :=
        step_paired hp hready' hne (Or.inr (hskip.trans hbefore.symm))
      refine ⟨⟨m + 1, Nat.succ_le_succ hm, ?_⟩, hready''⟩
      rw [HeaderText.run_succ, hrun, if_neg, hstep]
      obtain ⟨t, ts, hts⟩ := List.exists_cons_of_ne_nil hne
      show ¬(K.tokens (h.run n s).stage.rest).isEmpty = true
      rw [hts]
      exact Bool.false_ne_true

/-- **A header is read alike at another place, up to the end.** -/
theorem run_shifted (hp : K.Pairs e h h') (htail : K.tail = none)
    (hready : K.Ready (blockEnds s) s.stage.rest) (n : Nat) :
    h'.run n (K.header e s) = K.header e (h.run n s) ∧
      K.Ready (blockEnds (h.run n s)) (h.run n s).stage.rest := by
  induction n with
  | zero => exact ⟨rfl, hready⟩
  | succ n ih =>
    obtain ⟨hrun, hready'⟩ := ih
    have hempty : (K.header e (h.run n s)).stage.rest.isEmpty = (h.run n s).stage.rest.isEmpty := by
      show (K.tokens (h.run n s).stage.rest).isEmpty = _
      cases (h.run n s).stage.rest with
      | nil => rw [tokens_nil htail]
      | cons t ts => rfl
    rw [HeaderText.run_succ, HeaderText.run_succ, hrun, hempty]
    split
    · exact ⟨rfl, hready'⟩
    · rename_i hrest
      have hne : (h.run n s).stage.rest ≠ [] := fun hnil => hrest (by rw [hnil]; rfl)
      exact step_paired hp hready' hne (Or.inl htail)

/-- At the end of the first header all linkage blocks are closed, and the second goes on. -/
theorem header_of_nil (hs : s.Idle) (hready : K.Ready (blockEnds s) s.stage.rest)
    (htail : K.tail ≠ none) (hrest : s.stage.rest = []) :
    K.header e s = ⟨⟨K.tail.getD [], [], []⟩, s.registry, e, s.report.shift K.shift⟩ := by
  rw [hrest] at hready
  have hdue : blockEnds s = [] := closesDue_nil.1 (hready.nested htail)
  have hblocks : s.blocks = 0 := (List.replicate_eq_nil_iff _).1 hdue
  rw [header, stage, hrest, hs.1, hs.2, hblocks, Nat.zero_add]
  rfl

end Pairing

/-! ### Runs one behind the other -/

namespace HeaderText

variable {h : HeaderText} {s : HeaderState}

theorem run_add (m n : Nat) : h.run (m + n) s = h.run n (h.run m s) := by
  induction n with
  | zero => rfl
  | succ n ih => rw [← Nat.add_assoc, run_succ, run_succ, ih]

/-- Behind the end of the text nothing happens. -/
theorem run_of_nil (hrest : s.stage.rest = []) (n : Nat) : h.run n s = s := by
  induction n with
  | zero => rfl
  | succ n ih =>
    rw [run_succ, ih, if_pos]
    rw [hrest]
    rfl

theorem run_of_le {m n : Nat} (hle : m ≤ n) (hrest : (h.run m s).stage.rest = []) :
    h.run n s = h.run m s := by
  obtain ⟨k, rfl⟩ := Nat.exists_eq_add_of_le hle
  rw [run_add, run_of_nil hrest]

end HeaderText

end CInterface
