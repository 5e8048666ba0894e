import CInterface.Proofs.Session.Views
/-!
# Calls that fail

A session is processed once, by a call that processes its headers or one that restores it from a
blob. A call that is turned down, because the session was processed already or because the blob is
refused, leaves the session alone. A header without a text is met in the middle of the processing:
what the headers before it gave stays, and the session counts as processed.

* `Session.Call`, `Session.run` — the calls, with the session and the failure that they end in.
* `Session.processFiles_eq_missing` — where the processing of headers stops.
* `Session.LeftBehind` — what a failed call may leave behind.
* `Session.leftBehind_of_run` — it leaves no more than that.
* `Session.not_unchanged_of_run` — a header without a text behind one that defines a macro.
-/

namespace CInterface

namespace Session

/-! ### Headers without a text -/

/-- Processing stops at the first header without a text, behind what the headers before it give. -/
theorem processFiles_eq_missing {s t : Session} {files : List String} {e : SessionError}
    (h : s.processFiles files = (t, some e)) :
    ∃ n file, files[n]? = some file ∧ s.text? file = none ∧
      (∀ f ∈ files.take n, s.text? f ≠ none) ∧ e = .missingHeader file ∧
      s.processFiles (files.take n) = (t, none) := by
  induction files generalizing s with
  | nil => cases h
  | cons file rest ih =>
    cases htext : s.text? file with
    | none =>
      rw [processFiles_missing rest htext] at h
      cases h
      exact ⟨0, file, rfl, htext, nofun, rfl, rfl⟩
    | some text =>
      rw [processFiles_text rest htext] at h
      obtain ⟨n, missing, hn, hnone, hbefore, he, hprocess⟩ := ih h
      refine ⟨n + 1, missing, hn, hnone, ?_, he, ?_⟩
      · -- a header that is processed leaves the texts as they are
        intro f hf
        rcases List.mem_cons.1 hf with rfl | hf
        · rw [htext]
          exact nofun
        · exact hbefore f hf
      · rw [List.take_succ_cons, processFiles_text _ htext]
        exact hprocess

/-- Processing headers leaves it open whether the session counts as processed. -/
theorem processed_processFiles (s : Session) (files : List String) :
    (s.processFiles files).1.processed = s.processed := by
  induction files generalizing s with
  | nil => rfl
  | cons file rest ih =>
    cases htext : s.text? file with
    | none => rw [processFiles_missing rest htext]
    | some text =>
      rw [processFiles_text rest htext]
      exact ih (s.processText file text)

/-! ### Calls -/

/-- The calls that bring definitions into a session. -/
inductive Call where
  /-- All headers are processed. -/
  | process
  /-- A blob is taken over if it is valid, and otherwise all headers are processed. -/
  | processCached (blob : Option String)
  /-- A blob is taken over, if need be whether it is valid or not. -/
  | load (blob : String) (check : Bool)

/-- Why a call fails. -/
inductive Failure where
  | error (e : SessionError)
  /-- The blob is refused. -/
  | refused

/-- The session behind a call, and the failure if the call fails. -/
def run (s : Session) : Call → Session × Option Failure
  | .process => (s.process.1, s.process.2.map .error)
  | .processCached blob =>
    match s.processCached blob with
    | (t, .ok _) => (t, none)
    | (t, .error e) => (t, some (.error e))
  | .load blob check =>
    match s.load blob check with
    | some t => (t, none)
    | none => (s, some .refused)

/-- What a failed call leaves behind. A header without a text is the first of its kind, and stands
behind the headers that were processed. -/
def LeftBehind (s t : Session) : Failure → Prop
  | .refused | .error .alreadyProcessed => t = s
  | .error (.missingHeader file) =>
    s.processed = false ∧ t.processed = true ∧
      ∃ n, s.options.files[n]? = some file ∧ s.text? file = none ∧
        (∀ f ∈ s.options.files.take n, s.text? f ≠ none) ∧ t = s.after n
  | .error _ => False

theorem leftBehind_of_process {s t : Session} {e : SessionError} (h : s.process = (t, some e)) :
    s.LeftBehind t (.error e) := by
  rw [process] at h
  cases hp : s.processed with
  | true =>
    rw [hp, if_pos rfl] at h
    cases h
    rfl
  | false =>
    rw [hp, if_neg Bool.false_ne_true] at h
    obtain ⟨n, file, hn, hnone, hbefore, rfl, hprocess⟩ := processFiles_eq_missing h
    have ht : t = s.after n := (congrArg Prod.fst hprocess).symm
    have hmarked : t.processed = true := by
      rw [ht, after, processed_processFiles]
    exact ⟨hp, hmarked, n, hn, hnone, hbefore, ht⟩

theorem leftBehind_of_processCached {s t : Session} {blob : Option String} {e : SessionError}
    (h : s.processCached blob = (t, .error e)) : s.LeftBehind t (.error e) := by
  rw [processCached] at h
  split at h
  · cases h
    rfl
  · split at h
    · cases h
    · split at h
      · cases h
      · rename_i hprocess
        cases h
        exact leftBehind_of_process hprocess

/-- **A call that is turned down changes nothing**, in a session in any state and with any rules:
neither a second processing nor a blob that is refused leaves a trace. A call that meets a header
without a text leaves the session as it is after the headers before that, and processed; other errors
there are none. -/
theorem leftBehind_of_run {s t : Session} {c : Call} {failure : Failure}
    (h : s.run c = (t, some failure)) : s.LeftBehind t failure := by
  cases c with
  | process =>
    rw [run, Prod.mk.injEq, Option.map_eq_some_iff] at h
    obtain ⟨ht, e, he, rfl⟩ := h
    exact leftBehind_of_process (Prod.ext ht he)
  | processCached blob =>
    rw [run] at h
    split at h
    · cases h
    · rename_i hcached
      cases h
      exact leftBehind_of_processCached hcached
  | load blob check =>
    rw [run] at h
    split at h
    · cases h
    · cases h
      rfl

end Session

/-- Three headers, the second of which has no text. -/
def gappedSetup : SessionSetup :=
  { headers := .ofList [("a.h", ⟨some "#define A 1", 0⟩), ("gone.h", ⟨none, 0⟩),
      ("b.h", ⟨some "#define B 2", 0⟩)] }

namespace Session

theorem leftBehind_gappedSetup :
    ∃ t, gappedSetup.plainSession.run (.processCached none) =
        (t, some (.error (.missingHeader "gone.h"))) ∧
      gappedSetup.plainSession.LeftBehind t (.error (.missingHeader "gone.h")) ∧
      t.run .process = (t, some (.error .alreadyProcessed)) ∧
      t.LeftBehind t (.error .alreadyProcessed) := by
  have hrun : gappedSetup.plainSession.run (.processCached none) =
      (gappedSetup.plainSession.after 1, some (.error (.missingHeader "gone.h"))) := rfl
  have hagain : (gappedSetup.plainSession.after 1).run .process =
      (gappedSetup.plainSession.after 1, some (.error .alreadyProcessed)) := rfl
  exact ⟨_, hrun, leftBehind_of_run hrun, hagain, leftBehind_of_run hagain⟩

/-- A call that fails may leave definitions behind, and the session counts as processed. -/
theorem not_unchanged_of_run :
    ∃ t, gappedSetup.buildWith .words = .ok gappedSetup.plainSession ∧
      gappedSetup.plainSession.run .process = (t, some (.error (.missingHeader "gone.h"))) ∧
      t.processed ≠ gappedSetup.plainSession.processed ∧
      t.registry.flat.names .macros ≠ gappedSetup.plainSession.registry.flat.names .macros := by
  refine ⟨gappedSetup.plainSession.after 1, rfl, rfl, nofun, ?_⟩
  have hline : Directive.ofLine? "#define A 1".toList = some ⟨.define, " A 1".toList⟩ := by
    decide
  have hread : MacroDefinition.ofText? " A 1".toList = some (.object "A" "1") := by decide
  have hpreprocess := preprocess_defineObject (by decide +kernel) hline hread
    gappedSetup.start "a.h"
  have hprocessed := Session.registry_processText
    (s := { gappedSetup.plainSession with processed := true }) rfl hpreprocess
  have hafter : (gappedSetup.plainSession.after 1).registry.flat.names .macros = ["A"] := by
    show (Session.processText _ "a.h" "#define A 1").registry.flat.macros.keys = ["A"]
    rw [hprocessed, Grammar.parseFile_empty, Registry.macros_defineObject]
    decide
  have hbefore : gappedSetup.plainSession.registry.flat.names .macros = [] := rfl
  rw [hafter, hbefore]
  exact List.cons_ne_nil "A" []

end Session

end CInterface
