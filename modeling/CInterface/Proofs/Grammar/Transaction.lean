import CInterface.Proofs.Grammar.DeclarationScript
import CInterface.Proofs.Grammar.Turns
/-!
# Declarations are transactions

A header is read declaration by declaration, and each of them changes the registry by all that it
defines or not at all. A declaration is run as a script, so that its journal shows what it finds on
all the ways that it tries, and what it sees there.

* `Source.reading` — a declaration, run as a script.
* `Source.ReadsAs` — what the reading of a declaration gives, and what it sees on the way.
* `Iteration` — what one turn of the loop over a header does to the registry and the report.
* `HeaderText.Turn.iteration` — one turn.
* `parseFile_transactional` — every turn of every reading of a header.
-/

namespace CInterface

/-- The script of a declaration, run from some tokens with nothing staged. -/
def Source.reading (src : Source) (ts : List Token) : Outcome Unit :=
  src.declarationScript.machine ⟨ts, [], []⟩

/-- From these tokens a declaration is read with the outcome: it is what the production gives. What
the journal keeps is staged at the end, and nothing else; and whatever is looked up on the way, the
ways that are given up included, is looked up among what was found on the way to that point. -/
structure Source.ReadsAs (src : Source) (ts : List Token) (o : Outcome Unit) : Prop where
  outcome : src.reading ts = o
  gives : src.declaration ⟨ts, [], []⟩ = o.result.map fun a => (a, o.stage)
  staged : o.stage = stageOf o.stage.rest o.journal.kept
  sees : o.journal.Sees []

/-- The reading of a declaration is what its production gives. -/
theorem Source.readsAs_reading (src : Source) (ts : List Token) :
    src.ReadsAs ts (src.reading ts) := by
  have hfaithful := src.declarationScript.machine_faithful ⟨ts, [], []⟩
  rw [src.run_declarationScript] at hfaithful
  have hstart : (⟨ts, [], []⟩ : Stage) = stageOf ts [] := rfl
  exact ⟨rfl, hfaithful.run, hfaithful.stage_eq hstart, hfaithful.sees [] hstart⟩

/-- Where the declaration matches, what it stages is what the journal keeps. -/
theorem Source.ReadsAs.run {src : Source} {ts : List Token} {o : Outcome Unit}
    (h : src.ReadsAs ts o) (hmatches : o.result = .ok ()) :
    src.declaration ⟨ts, [], []⟩ = .ok ((), stageOf o.stage.rest o.journal.kept) := by
  rw [h.gives, hmatches, ← h.staged]
  rfl

/-- What comes of a declaration that is read from the tokens `ts` with an outcome. The registry is
changed only where the declaration matches without an error, and then by what was found on the way
that matched. -/
inductive Settled (h : HeaderText) (s s' : HeaderState) (ts : List Token) (o : Outcome Unit) : Prop
  where
  /-- It matches without an error: what it defines is put into the registry, in order. -/
  | committed (hmatches : o.result = .ok ()) (herrors : errorsOf o.journal.kept = [])
      (hnext : s' = ⟨⟨o.stage.rest, [], []⟩,
        s.registry.insertAll h.file (definitionsOf o.journal.kept), s.blocks, s.report⟩)
  /-- It matches with errors: it is dropped, and its errors are reported. -/
  | rejected (hmatches : o.result = .ok ()) (herrors : errorsOf o.journal.kept ≠ [])
      (hnext : s' = ⟨⟨o.stage.rest, [], []⟩, s.registry, s.blocks,
        { s.report with errors := s.report.errors ++ errorsOf o.journal.kept }⟩)
  /-- It does not match: a statement is skipped and reported, and nothing that was found is left. -/
  | skipped {e : ParseError} (hfails : o.result = .error e)
      (hnext : s' = ⟨⟨afterStatement 0 ts, [], []⟩, s.registry, s.blocks,
        { s.report with unparsed := s.report.unparsed ++ [h.skipped ts] }⟩)

/-- What one turn of the loop over a header does, by the tokens before it. -/
inductive Iteration (h : HeaderText) (s s' : HeaderState) : Prop where
  /-- A semicolon is passed. -/
  | semicolon {t : Token} {rest : List Token} (htokens : s.stage.rest = t :: rest)
      (hsemi : t.kind = .punct .semi) (hnext : s' = s.moveTo rest)
  /-- A linkage block is opened. -/
  | opened {rest : List Token} (hlinkage : linkage? s.stage.rest = some (true, rest))
      (hnext : s' = { s.moveTo rest with blocks := s.blocks + 1 })
  /-- The brace that closes a linkage block is passed. -/
  | closed {t : Token} {rest : List Token} (hlinkage : ∀ rest, linkage? s.stage.rest ≠ some (true, rest))
      (htokens : declarationTokens s.stage.rest = t :: rest) (hbrace : t.kind = .punct .rbrace)
      (hblocks : 0 < s.blocks) (hnext : s' = { s.moveTo rest with blocks := s.blocks - 1 })
  /-- Everything else is read as a declaration. -/
  | declared {o : Outcome Unit} (hat : s.AtDeclaration)
      (hreads : (h.source s.registry).ReadsAs (declarationTokens s.stage.rest) o)
      (hsettled : Settled h s s' (declarationTokens s.stage.rest) o)

namespace HeaderText

variable {h : HeaderText} {s s' : HeaderState}

/-- A declaration that matches is taken over, or dropped for its errors. -/
theorem settled_commit (hs : s.Idle) {ts : List Token} {o : Outcome Unit}
    (hreads : (h.source s.registry).ReadsAs ts o) {t : Stage}
    (hrun : (h.source s.registry).declaration ⟨ts, [], []⟩ = .ok ((), t)) :
    Settled h s (h.commit (s.moveTo ts) t) ts o := by
  have hgives := hreads.gives.symm.trans hrun
  obtain ⟨j, e | ⟨⟩, u⟩ := o
  · cases hgives
  · obtain rfl : u = t := congrArg Prod.snd (Except.ok.inj hgives)
    have hstaged : u = stageOf u.rest j.kept := hreads.staged
    have hdefinitions : u.staged.reverse = definitionsOf j.kept := by
      rw [hstaged]
      exact List.reverse_reverse _
    have herrors : u.errors.reverse = errorsOf j.kept := by
      rw [hstaged]
      exact List.reverse_reverse _
    rw [commit_eq (hs.moveTo ts), hdefinitions, herrors]
    by_cases hnone : u.errors = []
    · rw [if_pos hnone]
      refine .committed rfl ?_ rfl
      show errorsOf j.kept = []
      rw [← herrors, hnone]
      rfl
    · rw [if_neg hnone]
      refine .rejected rfl ?_ rfl
      show errorsOf j.kept ≠ []
      rw [← herrors]
      exact mt List.reverse_eq_nil_iff.1 hnone

/-- **One turn of the loop.** -/
theorem Turn.iteration (hturn : h.Turn s s') (hs : s.Idle) : Iteration h s s' := by
  have hstage := hs.ahead_stage
  have hreads := (h.source s.registry).readsAs_reading (declarationTokens s.stage.rest)
  cases hturn with
  | semicolon htokens hsemi hnext => exact .semicolon htokens hsemi hnext
  | opened hlinkage hnext => exact .opened hlinkage hnext
  | closed hlinkage htokens hbrace hblocks hnext =>
    exact .closed hlinkage htokens hbrace hblocks hnext
  | matched hat hrun hnext =>
    rw [hstage] at hrun
    rw [hnext]
    exact .declared hat hreads (settled_commit hs hreads hrun)
  | @skipped e hat hrun hnext =>
    rw [hstage] at hrun
    have hgives := hreads.gives.symm.trans hrun
    have hfails : ((h.source s.registry).reading (declarationTokens s.stage.rest)).result =
        .error e := by
      cases hresult : ((h.source s.registry).reading (declarationTokens s.stage.rest)).result with
      | error f =>
        rw [hresult] at hgives
        cases hgives
        rfl
      | ok a =>
        rw [hresult] at hgives
        cases hgives
    refine .declared hat hreads (.skipped hfails ?_)
    rw [hnext]
    exact skip_eq (s := s.ahead) hs

end HeaderText

/-- **Each declaration of a header is a transaction.** A header is read turn by turn. Before every
turn nothing is staged, and each turn but those behind the end of the text is an `Iteration`, by the
tokens before it: punctuation is passed, and a declaration that is read puts into the registry, in
order, what was found on the way that matched, if that is without an error, and leaves the registry
alone otherwise. What it has found on the ways that were given up is nowhere, and was not seen by
anything that came behind it. -/
theorem parseFile_transactional (g : Grammar) (registry : Registry) (file : String)
    (packing : PackingLog) (text : String) :
    let h := g.header registry file packing text
    let state (n : Nat) := h.run n (.start registry text)
    let last := state (tokenize text).length
    g.parseFile registry file packing text = (last.registry, last.report) ∧
      ∀ n, (state n).Idle ∧
        ((state n).stage.rest = [] ∧ state (n + 1) = state n ∨
          (state n).stage.rest ≠ [] ∧ Iteration h (state n) (state (n + 1))) := by
  intro h state last
  refine ⟨rfl, fun n => ?_⟩
  have hidle : (state n).Idle := HeaderText.idle_run (idle_start registry text) n
  refine ⟨hidle, ?_⟩
  rcases h.turn_run n (.start registry text) with hend | ⟨hmore, hturn⟩
  · exact Or.inl hend
  · exact Or.inr ⟨hmore, hturn.iteration hidle⟩

end CInterface
