import CInterface.Proofs.Grammar.Progress
import CInterface.Proofs.Grammar.Turns
import CInterface.Proofs.Text.Tiling
import CInterface.Proofs.Token.Places
/-!
# Every token is accounted for

Where no declaration matches, a statement is skipped, by a scan that only counts braces. The scan
passes a token wherever it starts, so the loop over a header ends. Its turns cut the tokens into
pieces that come one behind the other: semicolons, the openings and closings of linkage blocks,
declarations, and statements that are skipped. The report has one entry for each of the last, and no
others, so that nothing is lost and nothing is both reported and defined.

* `TokenRange`, `Accounts` — an entry of the report and the tokens that it stands for.
* `HeaderText.Turn.length_lt` — every turn passes a token.
* `Piece`, `Piece.Of` — what a turn makes of the tokens that it passes.
* `HeaderText.Turn.exists_piece` — every turn makes one of these things of its tokens.
* `parseFile_accounts` — the reading of a whole header.
-/

namespace CInterface

open Text

/-! ### Ranges of tokens -/

/-- Some tokens of a text that follow one another, by their numbers: those from `first` on that come
before `stop`. -/
structure TokenRange where
  first : Nat
  stop : Nat

/-- The entry of the report stands for the tokens of the range. -/
inductive Accounts (h : HeaderText) (ts : List Token) (r : TokenRange) (u : Unparsed) : Prop where
  /-- A statement: its line is that of its first token, and its text goes from there to the end of its
  last token. -/
  | statement {a b : Token} (hlt : r.first < r.stop) (hfirst : ts[r.first]? = some a)
      (hlast : ts[r.stop - 1]? = some b) (hline : u.line = h.start.lines.lineOf a.start)
      (htext : u.text = String.ofList (slice a.start b.stop h.text)) (hsome : u.text ≠ "")
  /-- Nothing, where the text ends behind the words that set the linkage. -/
  | linkage {a b : Token} (hrange : r = ⟨ts.length, ts.length⟩) (hend : [a, b] <:+ ts)
      (hword : a.kind = .ident "extern") (hname : b.kind = .str "\"C\"" ∨ b.kind = .str "\"C++\"")
      (hline : u.line = h.start.lines.lineOf b.start) (htext : u.text = "")

/-! ### Every turn passes a token -/

theorem afterStatement_length (depth : Nat) {ts : List Token} (h : ts ≠ []) :
    (afterStatement depth ts).length < ts.length := by
  obtain ⟨t, ts, rfl⟩ := List.exists_cons_of_ne_nil h
  have hrest : ∀ depth, (afterStatement depth ts).length < (t :: ts).length := fun depth =>
    Nat.lt_succ_of_le (afterStatement_suffix depth ts).length_le
  rw [afterStatement]
  split
  · exact Nat.lt_succ_self _
  · split
    · exact hrest _
    · split
      · split
        · exact Nat.lt_succ_of_le (dropSemi_suffix ts).length_le
        · exact hrest _
      · exact hrest _

theorem linkage?_length {ts rest : List Token} {opens : Bool} (h : linkage? ts = some (opens, rest)) :
    rest.length < ts.length := by
  cases opens with
  | true =>
    obtain ⟨t, u, v, rfl, -⟩ := linkage?_block h
    exact Nat.lt_succ_of_lt (Nat.lt_succ_of_lt (Nat.lt_succ_self _))
  | false =>
    obtain ⟨t, u, rfl, -⟩ := linkage?_words h
    exact Nat.lt_succ_of_lt (Nat.lt_succ_self _)

namespace HeaderText

variable {h : HeaderText} {s s' : HeaderState}

theorem commit_rest (h : HeaderText) (s : HeaderState) (stage : Stage) :
    (h.commit s stage).stage.rest = stage.rest := by
  rw [commit]
  split <;> rfl

/-- **Every turn of the loop passes a token.** -/
theorem Turn.length_lt (hturn : h.Turn s s') :
    s'.stage.rest.length < s.stage.rest.length := by
  have hahead : (declarationTokens s.stage.rest).length ≤ s.stage.rest.length :=
    (declarationTokens_suffix _).length_le
  cases hturn with
  | semicolon htokens _ hnext =>
    rw [hnext, htokens]
    exact Nat.lt_succ_self _
  | opened hlinkage hnext =>
    rw [hnext]
    exact linkage?_length hlinkage
  | closed _ htokens _ _ hnext =>
    rw [hnext]
    rw [htokens] at hahead
    exact hahead
  | matched _ hrun hnext =>
    obtain ⟨t, -, hsuffix⟩ := closes_declaration _ _ _ hrun
    rw [hnext, commit_rest]
    exact Nat.lt_of_lt_of_le hsuffix.length_le hahead
  | skipped hat _ hnext =>
    rw [hnext]
    show (afterStatement 0 (declarationTokens s.stage.rest)).length < _
    by_cases hnil : declarationTokens s.stage.rest = []
    · rw [hnil]
      exact List.length_pos_iff.2 hat.more
    · exact Nat.lt_of_lt_of_le (afterStatement_length 0 hnil) hahead

theorem run_length (h : HeaderText) (s : HeaderState) (n : Nat) :
    (h.run n s).stage.rest.length ≤ s.stage.rest.length - n := by
  induction n with
  | zero => exact Nat.le_refl _
  | succ n ih =>
    rcases h.turn_run n s with ⟨hnil, hstay⟩ | ⟨-, hturn⟩
    · rw [hstay, hnil]
      exact Nat.zero_le _
    · have hlt := hturn.length_lt
      omega

/-- As many turns as there are tokens leave none. -/
theorem rest_run (h : HeaderText) (s : HeaderState) :
    (h.run s.stage.rest.length s).stage.rest = [] := by
  have hle := h.run_length s s.stage.rest.length
  rw [Nat.sub_self] at hle
  exact List.length_eq_zero_iff.1 (Nat.le_zero.1 hle)

end HeaderText

/-! ### Skipped statements -/

/-- A statement that is skipped is reported with its line and its text. -/
theorem accounts_skipped {h : HeaderText} {text : String} (htext : h.text = text.toList)
    {ts : List Token} (hsuffix : ts <:+ tokenize text) (hts : ts ≠ []) :
    Accounts h (tokenize text)
      ⟨(tokenize text).length - ts.length, (tokenize text).length - (afterStatement 0 ts).length⟩
      (h.skipped ts) := by
  obtain ⟨before, hbefore⟩ := hsuffix
  obtain ⟨inside, hinside⟩ := afterStatement_suffix 0 ts
  have hlt := afterStatement_length 0 hts
  have hlength : inside.length + (afterStatement 0 ts).length = ts.length := by
    rw [← List.length_append, hinside]
  have hne : inside ≠ [] := by
    rintro rfl
    rw [List.length_nil] at hlength
    omega
  have htake : ts.take (ts.length - (afterStatement 0 ts).length) = inside := by
    rw [← hlength, Nat.add_sub_cancel]
    conv => lhs; rw [← hinside]
    exact List.take_left
  obtain ⟨a, inside', rfl⟩ := List.exists_cons_of_ne_nil hne
  obtain ⟨b, hb⟩ : ∃ b, (a :: inside').getLast? = some b :=
    ⟨_, List.getLast?_eq_some_getLast (List.cons_ne_nil a inside')⟩
  -- all three parts of the text, so that the numbers of the tokens can be read off
  have hparts : tokenize text = before ++ ((a :: inside') ++ afterStatement 0 ts) := by
    rw [hinside, hbefore]
  have htotal : (tokenize text).length = before.length + ts.length := by
    rw [← hbefore, List.length_append]
  have hhead : ts = a :: (inside' ++ afterStatement 0 ts) := hinside.symm
  have hentry : h.skipped ts =
      ⟨h.start.lines.lineOf a.start, String.ofList (slice a.start b.stop h.text)⟩ := by
    rw [HeaderText.skipped, htake, HeaderText.textOf, hb]
    conv => lhs; rw [hhead]
    rfl
  rw [hentry]
  refine .statement (a := a) (b := b) (by dsimp only; omega) ?_ ?_ rfl rfl ?_
  · dsimp only
    rw [htotal, Nat.add_sub_cancel, hparts, List.getElem?_append_right (Nat.le_refl _),
      Nat.sub_self]
    rfl
  · have hnumber : (tokenize text).length - (afterStatement 0 ts).length - 1 =
        before.length + ((a :: inside').length - 1) := by
      simp only [List.length_cons] at hlength ⊢
      omega
    dsimp only
    rw [hnumber, hparts, List.getElem?_append_right (Nat.le_add_right _ _), Nat.add_sub_cancel_left,
      List.getElem?_append_left (by simp), ← List.getLast?_eq_getElem?]
    exact hb
  · have hinfix : (a :: inside') <:+: tokenize text :=
      ⟨before, afterStatement 0 ts, by rw [hparts, List.append_assoc]⟩
    have hslice := slice_ne_nil hinfix rfl hb
    dsimp only
    rw [htext]
    exact fun hempty => hslice (String.ofList_eq_empty_iff.1 hempty)


/-! ### Pieces -/

/-- What a turn of the loop makes of the tokens that it passes. -/
inductive PieceKind where
  | semicolon
  /-- A linkage block is opened. -/
  | opening
  /-- A linkage block is closed. -/
  | closing
  | declaration
  /-- No declaration matches, and the statement gets an entry in the report. -/
  | skipped (u : Unparsed)

/-- The tokens that one turn passes, by their numbers: those from `first` on that come before `stop`.
Those before `start` set a linkage. -/
structure Piece where
  first : Nat
  start : Nat
  stop : Nat
  kind : PieceKind

namespace Piece

/-- The numbers of the tokens of a piece. -/
def range (p : Piece) : Nat × Nat := (p.first, p.stop)

/-- The entry that the report has for a piece. -/
def unparsed? (p : Piece) : Option Unparsed :=
  match p.kind with
  | .skipped u => some u
  | .semicolon | .opening | .closing | .declaration => none

/-- The tokens from `first` up to `start` are the words that set a linkage, or there are none. -/
def Linked (ts : List Token) (first start : Nat) : Prop :=
  start = first ∨ start = first + 2 ∧ ∃ a b : Token, ts[first]? = some a ∧ ts[first + 1]? = some b ∧
    a.kind = .ident "extern" ∧ (b.kind = .str "\"C\"" ∨ b.kind = .str "\"C++\"")

/-- The tokens of the piece are of its kind, where `s` is the state before its turn. -/
def Fits (h : HeaderText) (ts : List Token) (s : HeaderState) (p : Piece) : Prop :=
  match p.kind with
  | .semicolon =>
    p.start = p.first ∧ p.stop = p.start + 1 ∧ ts[p.start]?.map (·.kind) = some (.punct .semi)
  | .opening =>
    p.start = p.first + 2 ∧ p.stop = p.start + 1 ∧
      ts[p.start]?.map (·.kind) = some (.punct .lbrace)
  | .closing =>
    0 < s.blocks ∧ p.stop = p.start + 1 ∧ ts[p.start]?.map (·.kind) = some (.punct .rbrace)
  | .declaration =>
    ∃ t : Stage, (h.source s.registry).declaration ⟨ts.drop p.start, [], []⟩ = .ok ((), t) ∧
      t.rest = ts.drop p.stop
  | .skipped u =>
    (∃ e, (h.source s.registry).declaration ⟨ts.drop p.start, [], []⟩ = .error e) ∧
      ts.drop p.stop = afterStatement 0 (ts.drop p.start) ∧ Accounts h ts ⟨p.start, p.stop⟩ u

/-- The piece is what the turn from one state to the next makes of its tokens. -/
structure Of (h : HeaderText) (ts : List Token) (s s' : HeaderState) (p : Piece) : Prop where
  first : p.first = ts.length - s.stage.rest.length
  stop : p.stop = ts.length - s'.stage.rest.length
  passes : p.first < p.stop
  linked : Linked ts p.first p.start
  fits : p.Fits h ts s

end Piece

section Numbers

variable {ts us : List Token}

/-- The tokens from the number of a suffix on are the suffix. -/
theorem drop_of_suffix (h : us <:+ ts) : ts.drop (ts.length - us.length) = us :=
  (List.suffix_iff_eq_drop.1 h).symm

theorem getElem?_of_suffix {t : Token} (h : t :: us <:+ ts) :
    ts[ts.length - (us.length + 1)]? = some t := by
  have hdrop : ts.drop (ts.length - (us.length + 1)) = t :: us := drop_of_suffix h
  rw [← List.head?_drop, hdrop]
  rfl

/-- In front of a declaration there are the words that set its linkage, or none. -/
theorem linked_declarationTokens (h : us <:+ ts) (hopening : ∀ rest, linkage? us ≠ some (true, rest)) :
    Piece.Linked ts (ts.length - us.length) (ts.length - (declarationTokens us).length) := by
  cases hlinkage : linkage? us with
  | none =>
    rw [declarationTokens_of_none hlinkage]
    exact Or.inl rfl
  | some found =>
    obtain ⟨opens, rest⟩ := found
    cases opens with
    | true => exact absurd hlinkage (hopening rest)
    | false =>
      rw [declarationTokens_of_linkage hlinkage]
      obtain ⟨a, b, rfl, hwords⟩ := linkage?_words hlinkage
      have hle : (a :: b :: rest).length ≤ ts.length := h.length_le
      simp only [List.length_cons] at hle ⊢
      have hb : ts[ts.length - (rest.length + 1)]? = some b :=
        getElem?_of_suffix ((List.suffix_cons a (b :: rest)).trans h)
      refine Or.inr ⟨by omega, a, b, getElem?_of_suffix h, ?_, hwords⟩
      rw [show ts.length - (rest.length + 1 + 1) + 1 = ts.length - (rest.length + 1) by omega]
      exact hb

end Numbers

namespace HeaderText

variable {h : HeaderText} {s s' : HeaderState} {text : String}

/-- What is skipped behind the words that set the linkage is accounted for. -/
theorem accounts_declarationTokens (htext : h.text = text.toList)
    (hlast : h.start.lastLine =
      ((tokenize text).getLast?.map fun t => h.start.lines.lineOf t.start).getD 0)
    {us : List Token} (hsuffix : us <:+ tokenize text) (hne : us ≠ [])
    (hopening : ∀ rest, linkage? us ≠ some (true, rest)) :
    Accounts h (tokenize text) ⟨(tokenize text).length - (declarationTokens us).length,
      (tokenize text).length - (afterStatement 0 (declarationTokens us)).length⟩
      (h.skipped (declarationTokens us)) := by
  by_cases hnil : declarationTokens us = []
  · -- only the words that set the linkage leave nothing
    obtain ⟨a, b, rfl, ha, hb⟩ : ∃ a b : Token, us = [a, b] ∧ a.kind = .ident "extern" ∧
        (b.kind = .str "\"C\"" ∨ b.kind = .str "\"C++\"") := by
      cases hlinkage : linkage? us with
      | none => exact absurd (by rwa [declarationTokens_of_none hlinkage] at hnil) hne
      | some found =>
        obtain ⟨opens, rest⟩ := found
        cases opens with
        | true => exact absurd hlinkage (hopening rest)
        | false =>
          rw [declarationTokens_of_linkage hlinkage] at hnil
          subst hnil
          exact linkage?_words hlinkage
    rw [hnil]
    refine .linkage rfl hsuffix ha hb ?_ rfl
    obtain ⟨before, hbefore⟩ := hsuffix
    show h.start.lastLine = _
    rw [hlast, ← hbefore, List.getLast?_append]
    rfl
  · exact accounts_skipped htext ((declarationTokens_suffix us).trans hsuffix) hnil

/-- **A turn makes one piece of the tokens that it passes**, and its entry is what it adds to the
report. -/
theorem Turn.exists_piece (hturn : h.Turn s s') (hs : s.Idle) (htext : h.text = text.toList)
    (hlast : h.start.lastLine =
      ((tokenize text).getLast?.map fun t => h.start.lines.lineOf t.start).getD 0)
    (hsuffix : s.stage.rest <:+ tokenize text) :
    ∃ p : Piece, p.Of h (tokenize text) s s' ∧
      s'.report.unparsed = s.report.unparsed ++ p.unparsed?.toList := by
  have hle := hsuffix.length_le
  have hpasses : (tokenize text).length - s.stage.rest.length <
      (tokenize text).length - s'.stage.rest.length := by
    have hlt := hturn.length_lt
    omega
  have hahead : declarationTokens s.stage.rest <:+ tokenize text :=
    (declarationTokens_suffix _).trans hsuffix
  have hdrop : (tokenize text).drop
      ((tokenize text).length - (declarationTokens s.stage.rest).length) =
        declarationTokens s.stage.rest := drop_of_suffix hahead
  -- it is the place of the declaration unless a semicolon or a block comes first
  let place := (tokenize text).length - (declarationTokens s.stage.rest).length
  cases hturn with
  | @semicolon t rest htokens hsemi hnext =>
    subst hnext
    refine ⟨⟨_, (tokenize text).length - s.stage.rest.length, _, .semicolon⟩,
      ⟨rfl, rfl, hpasses, Or.inl rfl, rfl, ?_, ?_⟩, (List.append_nil _).symm⟩
    · show (tokenize text).length - rest.length = _
      rw [htokens] at hle ⊢
      simp only [List.length_cons] at hle ⊢
      omega
    · rw [htokens] at hsuffix ⊢
      show (tokenize text)[(tokenize text).length - (rest.length + 1)]?.map _ = _
      rw [getElem?_of_suffix hsuffix, ← hsemi]
      rfl
  | @opened rest hlinkage hnext =>
    subst hnext
    obtain ⟨a, b, v, htokens, ha, hb, hv⟩ := linkage?_block hlinkage
    rw [htokens] at hle hsuffix
    have hb' : b :: v :: rest <:+ tokenize text := (List.suffix_cons a _).trans hsuffix
    have hv' : v :: rest <:+ tokenize text := (List.suffix_cons b _).trans hb'
    simp only [List.length_cons] at hle
    have hstart : (tokenize text).length - (rest.length + 1) =
        (tokenize text).length - s.stage.rest.length + 2 := by
      rw [htokens]
      simp only [List.length_cons]
      omega
    refine ⟨⟨_, (tokenize text).length - (rest.length + 1), _, .opening⟩,
      ⟨rfl, rfl, hpasses, Or.inr ⟨hstart, a, b, ?_, ?_, ha, hb⟩, hstart, ?_, ?_⟩,
      (List.append_nil _).symm⟩
    · rw [htokens]
      exact getElem?_of_suffix hsuffix
    · have hplace : (tokenize text).length - s.stage.rest.length + 1 =
          (tokenize text).length - ((v :: rest).length + 1) := by
        rw [htokens]
        simp only [List.length_cons]
        omega
      rw [hplace]
      exact getElem?_of_suffix hb'
    · show (tokenize text).length - rest.length = (tokenize text).length - (rest.length + 1) + 1
      omega
    · show (tokenize text)[(tokenize text).length - (rest.length + 1)]?.map _ = _
      rw [getElem?_of_suffix hv', ← hv]
      rfl
  | @closed t rest hopening htokens hbrace hblocks hnext =>
    subst hnext
    refine ⟨⟨_, place, _, .closing⟩,
      ⟨rfl, rfl, hpasses, linked_declarationTokens hsuffix hopening, hblocks, ?_, ?_⟩,
      (List.append_nil _).symm⟩
    · show (tokenize text).length - rest.length = place + 1
      have hle' := hahead.length_le
      rw [htokens] at hle'
      simp only [place, htokens, List.length_cons] at hle' ⊢
      omega
    · show (tokenize text)[place]?.map _ = _
      simp only [place]
      rw [htokens] at hahead ⊢
      rw [List.length_cons, getElem?_of_suffix hahead, ← hbrace]
      rfl
  | @matched t hat hrun hnext =>
    subst hnext
    have hrest : (h.commit s.ahead t).stage.rest = t.rest := commit_rest h _ t
    have hbehind : t.rest <:+ tokenize text := by
      have hforward : t.rest <:+ s.ahead.stage.rest := forward_declaration.suffix hrun
      exact hforward.trans hahead
    refine ⟨⟨_, place, _, .declaration⟩,
      ⟨rfl, rfl, hpasses, linked_declarationTokens hsuffix hat.opening, t, ?_, ?_⟩, ?_⟩
    · rw [hs.ahead_stage] at hrun
      rw [← hrun, ← hdrop]
    · rw [hrest]
      exact (drop_of_suffix hbehind).symm
    · rw [commit_eq (s := s.ahead) hs]
      split <;> exact (List.append_nil _).symm
  | @skipped e hat hrun hnext =>
    subst hnext
    have hbehind : afterStatement 0 (declarationTokens s.stage.rest) <:+ tokenize text :=
      (afterStatement_suffix 0 _).trans hahead
    refine ⟨⟨_, place, _, .skipped (h.skipped (declarationTokens s.stage.rest))⟩,
      ⟨rfl, rfl, hpasses, linked_declarationTokens hsuffix hat.opening, ⟨e, ?_⟩, ?_, ?_⟩, rfl⟩
    · rw [hs.ahead_stage] at hrun
      rw [← hrun, ← hdrop]
    · show (tokenize text).drop (_ - (afterStatement 0 (declarationTokens s.stage.rest)).length) = _
      rw [drop_of_suffix hbehind]
      exact congrArg (afterStatement 0) hdrop.symm
    · exact accounts_declarationTokens htext hlast hsuffix hat.more hat.opening

end HeaderText

/-! ### The loop over a header -/

/-- The first `n` turns have made these pieces of the tokens that they have passed. -/
structure Pieces (h : HeaderText) (ts : List Token) (s : HeaderState) (n : Nat) (ps : List Piece) :
    Prop where
  tiles : Tiles 0 (ts.length - (h.run n s).stage.rest.length) (ps.map Piece.range)
  entries : (h.run n s).report.unparsed = ps.filterMap Piece.unparsed?
  turns : ∀ (m : Nat) (p : Piece), ps[m]? = some p → p.Of h ts (h.run m s) (h.run (m + 1) s)
  /-- There is one piece for each turn, up to the end of the tokens. -/
  length : ps.length = n ∨ ps.length ≤ n ∧ (h.run ps.length s).stage.rest = []

namespace Pieces

variable {h : HeaderText} {ts : List Token} {s : HeaderState} {n : Nat} {ps : List Piece}

/-- At the end of the tokens nothing is added. -/
theorem stay (hps : Pieces h ts s n ps) (hnil : (h.run n s).stage.rest = [])
    (hstay : h.run (n + 1) s = h.run n s) : Pieces h ts s (n + 1) ps := by
  refine ⟨?_, ?_, hps.turns, Or.inr ?_⟩
  · rw [hstay]
    exact hps.tiles
  · rw [hstay]
    exact hps.entries
  · rcases hps.length with hlength | ⟨hle, hend⟩
    · rw [hlength]
      exact ⟨Nat.le_succ n, hnil⟩
    · exact ⟨Nat.le_succ_of_le hle, hend⟩

/-- Before the end of the tokens a turn adds its piece. -/
theorem next (hps : Pieces h ts s n ps) (hs : s.Idle) (hmore : (h.run n s).stage.rest ≠ [])
    {p : Piece} (hp : p.Of h ts (h.run n s) (h.run (n + 1) s))
    (hentry : (h.run (n + 1) s).report.unparsed =
      (h.run n s).report.unparsed ++ p.unparsed?.toList) :
    Pieces h ts s (n + 1) (ps ++ [p]) := by
  -- the tokens have not ended, so all turns before have their pieces
  have hlength : ps.length = n := by
    refine hps.length.resolve_right fun hend => hmore ?_
    have hbefore := HeaderText.run_suffix (h := h) hs hend.1
    rw [hend.2] at hbefore
    exact List.suffix_nil.1 hbefore
  refine ⟨?_, ?_, fun m q hq => ?_, Or.inl ?_⟩
  · rw [List.map_append, List.map_singleton, Piece.range, hp.first, hp.stop]
    have hpasses := hp.passes
    rw [hp.first, hp.stop] at hpasses
    exact hps.tiles.concat hpasses
  · rw [hentry, hps.entries, List.filterMap_append]
    cases hkind : p.unparsed? <;> simp [hkind]
  · rcases Nat.lt_or_ge m ps.length with hlt | hge
    · rw [List.getElem?_append_left hlt] at hq
      exact hps.turns m q hq
    · rw [List.getElem?_append_right hge] at hq
      have hm : m - ps.length = 0 := by
        have hlt := (List.getElem?_eq_some_iff.1 hq).1
        rw [List.length_singleton] at hlt
        omega
      rw [hm] at hq
      obtain rfl : p = q := Option.some.inj hq
      obtain rfl : m = n := by omega
      exact hp
  · rw [List.length_append, hlength]
    rfl

end Pieces

/-- The turns make pieces of the tokens, by induction on their number. -/
theorem exists_pieces (g : Grammar) (registry : Registry) (file : String) (packing : PackingLog)
    (text : String) (n : Nat) :
    ∃ ps, Pieces (g.header registry file packing text) (tokenize text) (.start registry text) n ps := by
  have hs := idle_start registry text
  induction n with
  | zero =>
    refine ⟨[], (Nat.sub_self _).symm, rfl, fun m p hp => ?_, Or.inl rfl⟩
    cases hp
  | succ n ih =>
    obtain ⟨ps, hps⟩ := ih
    rcases HeaderText.turn_run _ n _ with ⟨hnil, hstay⟩ | ⟨hmore, hturn⟩
    · exact ⟨ps, hps.stay hnil hstay⟩
    · obtain ⟨p, hp, hentry⟩ := hturn.exists_piece (HeaderText.idle_run hs n) rfl rfl
        (HeaderText.run_suffix hs n.zero_le)
      exact ⟨ps ++ [p], hps.next hs hmore hp hentry⟩

/-- **The reading of a header ends, and accounts for what it skips.** Every turn that has tokens before
it passes one of them at least, so that as many turns as there are tokens leave none. Each turn makes
one piece of the tokens that it passes. The pieces come one behind the other and hold every token
once: a semicolon, the opening or closing of a linkage block, a declaration, or a statement with which
no declaration begins, and then the report has one entry for it. There are no other entries, and they
are in the order of the text. -/
theorem parseFile_accounts (g : Grammar) (registry : Registry) (file : String)
    (packing : PackingLog) (text : String) :
    let h := g.header registry file packing text
    let ts := tokenize text
    let state (n : Nat) := h.run n (.start registry text)
    let last := state ts.length
    g.parseFile registry file packing text = (last.registry, last.report) ∧
      (∀ n, (state n).stage.rest ≠ [] → (state (n + 1)).stage.rest <:+ (state n).stage.rest ∧
        (state (n + 1)).stage.rest.length < (state n).stage.rest.length) ∧
      last.stage.rest = [] ∧
      ∃ pieces : List Piece, Tiles 0 ts.length (pieces.map Piece.range) ∧
        pieces.Pairwise (fun p q => p.stop ≤ q.first) ∧
        last.report.unparsed = pieces.filterMap Piece.unparsed? ∧
        ∀ n, (state n).stage.rest = [] ∧ pieces[n]? = none ∨
          ∃ p, pieces[n]? = some p ∧ p.Of h ts (state n) (state (n + 1)) := by
  intro h ts state last
  have hs : (HeaderState.start registry text).Idle := idle_start registry text
  have hend : last.stage.rest = [] := h.rest_run (.start registry text)
  refine ⟨rfl, fun n hmore => ?_, hend, ?_⟩
  · rcases h.turn_run n (.start registry text) with ⟨hnil, -⟩ | ⟨-, hturn⟩
    · exact absurd hnil hmore
    · exact ⟨hturn.suffix (HeaderText.idle_run hs n), hturn.length_lt⟩
  · obtain ⟨pieces, hpieces⟩ := exists_pieces g registry file packing text ts.length
    have htiles : Tiles 0 ts.length (pieces.map Piece.range) := by
      have hall := hpieces.tiles
      rwa [show ((g.header registry file packing text).run ts.length _).stage.rest = [] from hend]
        at hall
    refine ⟨pieces, htiles, List.pairwise_map.1 htiles.pairwise, hpieces.entries, fun n => ?_⟩
    cases hn : pieces[n]? with
    | some p => exact Or.inr ⟨p, rfl, hpieces.turns n p hn⟩
    | none =>
      refine Or.inl ⟨?_, rfl⟩
      have hbehind : (state n).stage.rest <:+ (state pieces.length).stage.rest :=
        HeaderText.run_suffix hs (List.getElem?_eq_none_iff.1 hn)
      have hnil : (state pieces.length).stage.rest = [] := by
        rcases hpieces.length with hall | ⟨-, hnil⟩
        · rw [hall]
          exact hend
        · exact hnil
      rw [hnil] at hbehind
      exact List.suffix_nil.1 hbehind

end CInterface
