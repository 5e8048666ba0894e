import CInterface.Proofs.Grammar.Forward
/-!
# The turns of the loop over a header

The reading of a header is a loop, and each turn of it passes a semicolon, the opening or the closing
of a linkage block, or what may be a declaration. Here it is said once what a turn can do, with the
tokens by which it does it; what holds of a turn is read off from that.

* `HeaderState.Idle` — nothing is staged.
* `HeaderState.AtDeclaration` — a declaration has to come next.
* `HeaderText.Turn` — what a turn can do; `HeaderText.turn_step` — it does nothing else.
* `HeaderText.commit_eq`, `HeaderText.skip_eq` — what is taken over, and what is skipped.
* `HeaderText.idle_run`, `HeaderText.run_suffix` — nothing is staged between turns, and the tokens
  that are left are left by the turns before.
-/

namespace CInterface

/-! ### Tokens that are passed -/

theorem dropSemi_suffix (ts : List Token) : dropSemi ts <:+ ts := by
  cases ts with
  | nil => exact List.suffix_refl _
  | cons t ts =>
    rw [dropSemi]
    split
    · exact List.suffix_cons t ts
    · exact List.suffix_refl _

theorem afterStatement_suffix (depth : Nat) (ts : List Token) : afterStatement depth ts <:+ ts := by
  induction ts generalizing depth with
  | nil => exact List.suffix_refl _
  | cons t ts ih =>
    have hcons : ts <:+ t :: ts := List.suffix_cons t ts
    rw [afterStatement]
    split
    · exact hcons
    · split
      · exact (ih _).trans hcons
      · split
        · split
          · exact (dropSemi_suffix ts).trans hcons
          · exact (ih _).trans hcons
        · exact (ih _).trans hcons

/-- The words that set the linkage, without a block. -/
theorem linkage?_words {ts rest : List Token} (h : linkage? ts = some (false, rest)) :
    ∃ t u : Token, ts = t :: u :: rest ∧ t.kind = .ident "extern" ∧
      (u.kind = .str "\"C\"" ∨ u.kind = .str "\"C++\"") := by
  unfold linkage? at h
  split at h
  · rename_i t u behind
    split at h
    · rename_i hwords
      simp only [Bool.and_eq_true, Bool.or_eq_true, decide_eq_true_eq] at hwords
      split at h
      · split at h <;> cases h
        exact ⟨t, u, rfl, hwords⟩
      · cases h
        exact ⟨t, u, rfl, hwords⟩
    · cases h
  · cases h

/-- The words that set the linkage, with the brace that opens a block. -/
theorem linkage?_block {ts rest : List Token} (h : linkage? ts = some (true, rest)) :
    ∃ t u v : Token, ts = t :: u :: v :: rest ∧ t.kind = .ident "extern" ∧
      (u.kind = .str "\"C\"" ∨ u.kind = .str "\"C++\"") ∧ v.kind = .punct .lbrace := by
  unfold linkage? at h
  split at h
  · rename_i t u behind
    split at h
    · rename_i hwords
      simp only [Bool.and_eq_true, Bool.or_eq_true, decide_eq_true_eq] at hwords
      split at h
      · rename_i v inside
        split at h
        · rename_i hopen
          cases h
          exact ⟨t, u, v, rfl, hwords.1, hwords.2, hopen⟩
        · cases h
      · cases h
    · cases h
  · cases h

theorem linkage?_suffix {ts rest : List Token} {opens : Bool} (h : linkage? ts = some (opens, rest)) :
    rest <:+ ts := by
  cases opens with
  | true =>
    obtain ⟨t, u, v, rfl, -⟩ := linkage?_block h
    exact ⟨[t, u, v], rfl⟩
  | false =>
    obtain ⟨t, u, rfl, -⟩ := linkage?_words h
    exact ⟨[t, u], rfl⟩

/-- The tokens at which a declaration begins: behind the words that set its linkage. -/
def declarationTokens (ts : List Token) : List Token := ((linkage? ts).map (·.2)).getD ts

theorem declarationTokens_of_linkage {ts rest : List Token} {opens : Bool}
    (h : linkage? ts = some (opens, rest)) : declarationTokens ts = rest := by
  rw [declarationTokens, h]
  rfl

theorem declarationTokens_of_none {ts : List Token} (h : linkage? ts = none) :
    declarationTokens ts = ts := by
  rw [declarationTokens, h]
  rfl

theorem declarationTokens_suffix (ts : List Token) : declarationTokens ts <:+ ts := by
  cases h : linkage? ts with
  | none =>
    exact ⟨[], declarationTokens_of_none h⟩
  | some found =>
    rw [declarationTokens_of_linkage h]
    exact linkage?_suffix h

/-! ### States between turns -/

/-- The registry with the definitions of a file, put in one after the other. -/
def Registry.insertAll (r : Registry) (file : String) (ds : List (String × Definition)) : Registry :=
  ds.foldl (fun r d => r.insert (some file) d.1 d.2) r

/-- What the registry holds behind the definitions of a file is what was in sight. -/
theorem Registry.flat_insertAll (r : Registry) (file : String) (ds : List (String × Definition)) :
    (r.insertAll file ds).flat = ds.foldl (fun d v => d.insert v.1 v.2) r.flat := by
  induction ds generalizing r with
  | nil => rfl
  | cons v ds ih => exact ih (r.insert (some file) v.1 v.2)

namespace HeaderState

/-- Nothing is staged. -/
def Idle (s : HeaderState) : Prop := s.stage.staged = [] ∧ s.stage.errors = []

/-- The state behind the words that set the linkage of a declaration. -/
def ahead (s : HeaderState) : HeaderState := s.moveTo (declarationTokens s.stage.rest)

/-- Nothing but a declaration may come next: no semicolon, no linkage block, and no brace that closes
one. -/
structure AtDeclaration (s : HeaderState) : Prop where
  more : s.stage.rest ≠ []
  semicolon : ∀ t ∈ s.stage.rest.head?, t.kind ≠ .punct .semi
  opening : ∀ rest, linkage? s.stage.rest ≠ some (true, rest)
  closing : 0 < s.blocks → ∀ t ∈ (declarationTokens s.stage.rest).head?, t.kind ≠ .punct .rbrace

variable {s : HeaderState}

theorem Idle.stage_eq (hs : s.Idle) : s.stage = ⟨s.stage.rest, [], []⟩ := by
  obtain ⟨⟨rest, staged, errors⟩, registry, blocks, report⟩ := s
  obtain ⟨rfl, rfl⟩ : staged = [] ∧ errors = [] := hs
  rfl

theorem Idle.moveTo (hs : s.Idle) (rest : List Token) : (s.moveTo rest).Idle := hs

/-- Where nothing is staged, a declaration is read from its tokens. -/
theorem Idle.ahead_stage (hs : s.Idle) :
    s.ahead.stage = ⟨declarationTokens s.stage.rest, [], []⟩ :=
  Idle.stage_eq (s := s.ahead) hs

end HeaderState

namespace HeaderText

variable {h : HeaderText} {s s' : HeaderState}

/-! ### What a turn does -/

/-- The entry of the report for the statement at the head of some tokens. -/
def skipped (h : HeaderText) (ts : List Token) : Unparsed :=
  ⟨h.start.lineAt ts, h.textOf (ts.take (ts.length - (afterStatement 0 ts).length))⟩

/-- What a turn of the loop can do where there are tokens. -/
inductive Turn (h : HeaderText) (s s' : HeaderState) : Prop where
  /-- A semicolon is passed. -/
  | semicolon {t : Token} {rest : List Token} (htokens : s.stage.rest = t :: rest)
      (hsemi : t.kind = .punct .semi) (hnext : s' = s.moveTo rest)
  /-- A linkage block is opened. -/
  | opened {rest : List Token} (hlinkage : linkage? s.stage.rest = some (true, rest))
      (hnext : s' = { s.moveTo rest with blocks := s.blocks + 1 })
  /-- The brace that closes a linkage block is passed. -/
  | closed {t : Token} {rest : List Token} (hlinkage : ∀ rest, linkage? s.stage.rest ≠ some (true, rest))
      (htokens : declarationTokens s.stage.rest = t :: rest) (hbrace : t.kind = .punct .rbrace)
      (hblocks : 0 < s.blocks) (hnext : s' = { s.moveTo rest with blocks := s.blocks - 1 })
  /-- A declaration matches. -/
  | matched {t : Stage} (hat : s.AtDeclaration)
      (hrun : (h.source s.registry).declaration s.ahead.stage = .ok ((), t))
      (hnext : s' = h.commit s.ahead t)
  /-- No declaration matches, and a statement is skipped. -/
  | skipped {e : ParseError} (hat : s.AtDeclaration)
      (hrun : (h.source s.registry).declaration s.ahead.stage = .error e)
      (hnext : s' = h.skip s.ahead (h.source s.registry))

theorem turn_declaration (hat : s.AtDeclaration) : h.Turn s (h.declaration s.ahead) := by
  rw [declaration]
  cases hrun : (h.source s.ahead.registry).declaration s.ahead.stage with
  | ok r => exact .matched hat hrun rfl
  | error e => exact .skipped hat hrun rfl

theorem turn_linked (hmore : s.stage.rest ≠ [])
    (hsemi : ∀ t ∈ s.stage.rest.head?, t.kind ≠ .punct .semi)
    (hopening : ∀ rest, linkage? s.stage.rest ≠ some (true, rest)) :
    h.Turn s (h.linked s.ahead) := by
  rw [linked]
  split
  · rename_i t rest htokens
    have htokens' : declarationTokens s.stage.rest = t :: rest := htokens
    split
    · rename_i hclose
      simp only [Bool.and_eq_true, decide_eq_true_eq] at hclose
      exact .closed hopening htokens' hclose.2 hclose.1 rfl
    · rename_i hclose
      simp only [Bool.and_eq_true, decide_eq_true_eq, not_and] at hclose
      refine turn_declaration ⟨hmore, hsemi, hopening, fun hblocks u hu => ?_⟩
      rw [htokens'] at hu
      cases hu
      exact hclose hblocks
  · rename_i hnil
    have hnil' : declarationTokens s.stage.rest = [] := hnil
    refine turn_declaration ⟨hmore, hsemi, hopening, fun _ u hu => ?_⟩
    rw [hnil'] at hu
    cases hu

/-- **A turn does one of these things.** -/
theorem turn_step (hmore : s.stage.rest ≠ []) : h.Turn s (h.step s) := by
  rw [step]
  split
  · rename_i t rest htokens
    split
    · rename_i hsemi
      exact .semicolon htokens hsemi rfl
    · rename_i hsemi
      have hhead : ∀ u ∈ s.stage.rest.head?, u.kind ≠ .punct .semi := by
        intro u hu
        rw [htokens] at hu
        cases hu
        exact hsemi
      split
      · rename_i rest' hlinkage
        exact .opened hlinkage rfl
      · rename_i rest' hlinkage
        have hahead : s.moveTo rest' = s.ahead := by
          rw [HeaderState.ahead, declarationTokens_of_linkage hlinkage]
        rw [hahead]
        exact turn_linked hmore hhead fun rest hblock => by
          rw [hlinkage] at hblock
          cases hblock
      · rename_i hlinkage
        have hahead : s = s.ahead := by
          rw [HeaderState.ahead, declarationTokens_of_none hlinkage]
          rfl
        have hlinked : h.Turn s (h.linked s.ahead) := turn_linked hmore hhead fun rest hblock => by
          rw [hlinkage] at hblock
          cases hblock
        rwa [← hahead] at hlinked
  · rename_i hnil
    exact absurd hnil hmore

/-- The turns follow one another until the tokens end. -/
theorem run_succ (h : HeaderText) (n : Nat) (s : HeaderState) :
    h.run (n + 1) s =
      if (h.run n s).stage.rest.isEmpty then h.run n s else h.step (h.run n s) := by
  induction n generalizing s with
  | zero => rfl
  | succ n ih =>
    rw [run]
    by_cases hrest : s.stage.rest.isEmpty = true
    · have hstay : h.run (n + 1) s = s := by rw [run, if_pos hrest]
      rw [if_pos hrest, hstay, if_pos hrest]
    · have hnext : h.run (n + 1) s = h.run n (h.step s) := by rw [run, if_neg hrest]
      rw [if_neg hrest, ih, hnext]

/-- Where there are tokens a turn follows, and otherwise nothing. -/
theorem turn_run (h : HeaderText) (n : Nat) (s : HeaderState) :
    (h.run n s).stage.rest = [] ∧ h.run (n + 1) s = h.run n s ∨
      (h.run n s).stage.rest ≠ [] ∧ h.Turn (h.run n s) (h.run (n + 1) s) := by
  rw [run_succ]
  by_cases hrest : (h.run n s).stage.rest = []
  · rw [hrest]
    exact Or.inl ⟨rfl, rfl⟩
  · refine Or.inr ⟨hrest, ?_⟩
    rw [List.isEmpty_eq_false_iff.2 hrest]
    exact turn_step hrest

/-! ### What a declaration leaves -/

/-- Without errors the definitions of a declaration are put into the registry; otherwise its errors
are reported. -/
theorem commit_eq (hs : s.Idle) (t : Stage) : h.commit s t =
    if t.errors = [] then
      ⟨⟨t.rest, [], []⟩, s.registry.insertAll h.file t.staged.reverse, s.blocks, s.report⟩
    else
      ⟨⟨t.rest, [], []⟩, s.registry, s.blocks,
        { s.report with errors := s.report.errors ++ t.errors.reverse }⟩ := by
  obtain ⟨⟨rest, staged, errors⟩, registry, blocks, report⟩ := s
  obtain ⟨rfl, rfl⟩ : staged = [] ∧ errors = [] := hs
  obtain ⟨rest', staged', errors'⟩ := t
  simp only [commit, List.length_nil, Nat.sub_zero, List.take_length]
  cases errors' with
  | nil => rfl
  | cons e es => rfl

theorem skip_eq (hs : s.Idle) : h.skip s (h.source s.registry) =
    ⟨⟨afterStatement 0 s.stage.rest, [], []⟩, s.registry, s.blocks,
      { s.report with unparsed := s.report.unparsed ++ [h.skipped s.stage.rest] }⟩ := by
  obtain ⟨⟨rest, staged, errors⟩, registry, blocks, report⟩ := s
  obtain ⟨rfl, rfl⟩ : staged = [] ∧ errors = [] := hs
  rfl

theorem idle_commit (hs : s.Idle) (t : Stage) : (h.commit s t).Idle := by
  rw [commit_eq hs]
  split <;> exact ⟨rfl, rfl⟩

/-- A declaration leaves nothing staged. -/
theorem idle_declaration (hs : s.Idle) : (h.declaration s).Idle := by
  rw [declaration]
  split
  · exact idle_commit hs _
  · exact hs

namespace Turn

/-- A turn leaves nothing staged. -/
theorem idle (hturn : h.Turn s s') (hs : s.Idle) : s'.Idle := by
  cases hturn with
  | semicolon _ _ hnext | opened _ hnext | closed _ _ _ _ hnext | skipped _ _ hnext =>
    rw [hnext]
    exact hs
  | matched _ _ hnext =>
    rw [hnext]
    exact idle_commit hs _

/-- A turn passes some tokens and leaves the others. -/
theorem suffix (hturn : h.Turn s s') (hs : s.Idle) : s'.stage.rest <:+ s.stage.rest := by
  have hahead : s.ahead.stage.rest <:+ s.stage.rest := declarationTokens_suffix s.stage.rest
  cases hturn with
  | semicolon htokens _ hnext =>
    rw [hnext, htokens]
    exact List.suffix_cons _ _
  | opened hlinkage hnext =>
    rw [hnext]
    exact linkage?_suffix hlinkage
  | @closed t rest _ htokens _ _ hnext =>
    rw [hnext]
    have hrest : rest <:+ declarationTokens s.stage.rest := by
      rw [htokens]
      exact List.suffix_cons t rest
    exact hrest.trans hahead
  | @matched t _ hrun hnext =>
    have hforward : t.rest <:+ s.ahead.stage.rest := forward_declaration.suffix hrun
    rw [hnext, commit_eq (s := s.ahead) hs]
    split <;> exact hforward.trans hahead
  | skipped _ _ hnext =>
    rw [hnext]
    exact (afterStatement_suffix 0 _).trans hahead

end Turn

/-! ### All turns -/

/-- Every turn starts with nothing staged. -/
theorem idle_run (hs : s.Idle) (n : Nat) : (h.run n s).Idle := by
  induction n with
  | zero => exact hs
  | succ n ih =>
    rcases h.turn_run n s with ⟨-, hstay⟩ | ⟨-, hturn⟩
    · rw [hstay]
      exact ih
    · exact hturn.idle ih

/-- What is left of the tokens after some turns is left behind the turns before. -/
theorem run_suffix (hs : s.Idle) {m n : Nat} (hle : m ≤ n) :
    (h.run n s).stage.rest <:+ (h.run m s).stage.rest := by
  induction hle with
  | refl => exact List.suffix_refl _
  | @step n _ ih =>
    rcases h.turn_run n s with ⟨-, hstay⟩ | ⟨-, hturn⟩
    · rw [hstay]
      exact ih
    · exact (hturn.suffix (idle_run hs n)).trans ih

end HeaderText

/-! ### Reading a header -/

/-- The header that `Grammar.parseFile` reads. -/
def Grammar.header (g : Grammar) (registry : Registry) (file : String) (packing : PackingLog)
    (text : String) : HeaderText :=
  ⟨file, text.toList, Source.ofTokens g registry packing text.toList (tokenize text)⟩

/-- The state before the first turn. -/
def HeaderState.start (registry : Registry) (text : String) : HeaderState :=
  ⟨⟨tokenize text, [], []⟩, registry, 0, .clean⟩

theorem idle_start (registry : Registry) (text : String) : (HeaderState.start registry text).Idle :=
  ⟨rfl, rfl⟩

end CInterface
