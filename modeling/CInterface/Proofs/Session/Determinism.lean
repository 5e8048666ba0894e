import CInterface.Proofs.Preprocess.DefiningLines
import CInterface.Session.Processing
/-!
# What a session depends on

A cache blob stands in for the headers of a session as long as the two agree on everything that the
registry is made from. The options of a session are recorded for that. They are not all of it: the
grammar and the registries that a session starts from are not among them. The library of regular
expressions is the same for all sessions of a program, and may be any.

* `RegexEngine.words` — a library that knows words.
* `SessionSetup.SameTexts` — setups whose headers have the same texts.
* `SessionSetup.outcome_eq` — of one grammar, with the same imports and the same seeds, two setups
  with equal options and the same texts come to the same registry, and a blob of the one that is
  valid for the other holds what the other would have found itself.
* `SessionSetup.not_outcome_eq` — with other imports they do not, and the blob is valid even so.
-/

namespace CInterface

/-! ### Headers of a session -/

/-- In a text without tokens nothing is read. -/
theorem Grammar.parseFile_of_no_tokens {text : String} (h : tokenize text = []) (g : Grammar)
    (r : Registry) (file : String) (packing : PackingLog) :
    g.parseFile r file packing text = (r, .clean) := by
  rw [parseFile, h]
  rfl

theorem Grammar.parseFile_empty (g : Grammar) (r : Registry) (file : String)
    (packing : PackingLog) : g.parseFile r file packing "" = (r, .clean) :=
  g.parseFile_of_no_tokens (by decide +kernel) r file packing

namespace Session

/-- The text of a header. -/
def text? (s : Session) (file : String) : Option String :=
  (s.headers.get? file).bind HeaderSource.text

/-- The session with other headers. -/
def withHeaders (s : Session) (headers : OrderedMap HeaderSource) : Session := { s with headers }

variable {s : Session} {headers : OrderedMap HeaderSource}

/-- A header without text ends the processing. -/
theorem processFiles_missing {file : String} (rest : List String) (h : s.text? file = none) :
    s.processFiles (file :: rest) = (s, some (.missingHeader file)) := by
  have htext : (s.headers.get? file).bind HeaderSource.text = none := h
  rw [processFiles, htext]

/-- A header with a text is processed, and then the headers behind it. -/
theorem processFiles_text {file text : String} (rest : List String) (h : s.text? file = some text) :
    s.processFiles (file :: rest) = (s.processText file text).processFiles rest := by
  have htext : (s.headers.get? file).bind HeaderSource.text = some text := h
  rw [processFiles, htext]

/-- A session without rules reads a header as it is. -/
theorem registry_processText (h : s.rules = []) {file text : String} {registry : Registry}
    {out : Preprocessed} (hout : preprocess s.registry file text = (registry, out)) :
    (s.processText file text).registry =
      (s.grammar.parseFile registry file out.packing out.text).1 := by
  have hedit : s.edit file text = text := by
    rw [edit, h]
    rfl
  rw [processText, hedit, hout]

/-- A session with a single header is processed as that. -/
theorem process_single {file text : String} (hnew : s.processed = false)
    (hfiles : s.options.files = [file]) (h : s.text? file = some text) :
    s.process = (Session.processText { s with processed := true } file text, none) := by
  have hmarked : Session.text? { s with processed := true } file = some text := h
  rw [process, hnew, hfiles, if_neg Bool.false_ne_true, processFiles_text [] hmarked]
  rfl

/-- Processing leaves the options as they are. -/
theorem options_processFiles (files : List String) :
    (s.processFiles files).1.options = s.options := by
  induction files generalizing s with
  | nil => rfl
  | cons file rest ih =>
    cases htext : s.text? file with
    | none => rw [processFiles_missing rest htext]
    | some text =>
      rw [processFiles_text rest htext]
      exact ih

theorem options_process (s : Session) : s.process.1.options = s.options := by
  rw [process]
  by_cases hp : s.processed = true
  · rw [if_pos hp]
  · rw [if_neg hp]
    exact options_processFiles s.options.files

/-- Processing goes by the texts of the headers. With other headers of the same texts a session
comes to the same, up to these headers. -/
theorem processFiles_withHeaders (files : List String)
    (h : ∀ file, (s.withHeaders headers).text? file = s.text? file) :
    (s.withHeaders headers).processFiles files =
      ((s.processFiles files).1.withHeaders headers, (s.processFiles files).2) := by
  induction files generalizing s with
  | nil => rfl
  | cons file rest ih =>
    cases htext : s.text? file with
    | none =>
      rw [processFiles_missing rest htext, processFiles_missing rest ((h file).trans htext)]
    | some text =>
      rw [processFiles_text rest htext, processFiles_text rest ((h file).trans htext)]
      -- the texts of the headers are the same as before the header was processed
      have hnext : ∀ f, ((s.processText file text).withHeaders headers).text? f =
          (s.processText file text).text? f := fun f => h f
      exact ih hnext

theorem process_withHeaders (h : ∀ file, (s.withHeaders headers).text? file = s.text? file) :
    (s.withHeaders headers).process = (s.process.1.withHeaders headers, s.process.2) := by
  by_cases hp : s.processed = true
  · have hp' : (s.withHeaders headers).processed = true := hp
    rw [process, process, if_pos hp, if_pos hp']
  · have hp' : ¬ (s.withHeaders headers).processed = true := hp
    rw [process, process, if_neg hp, if_neg hp']
    have hmarked : ∀ file, (Session.withHeaders { s with processed := true } headers).text? file =
        Session.text? { s with processed := true } file := h
    exact processFiles_withHeaders s.options.files hmarked

end Session

/-! ### A library of words -/

namespace RegexEngine

/-- A text with each occurrence of a needle replaced; `skip` characters still belong to the last of
them. -/
def replaceWord (needle replacement : List Char) (skip : Nat) : List Char → List Char
  | [] => []
  | c :: r =>
    match skip with
    | skip + 1 => replaceWord needle replacement skip r
    | 0 =>
      if needle.isPrefixOf (c :: r) then
        replacement ++ replaceWord needle replacement (needle.length - 1) r
      else c :: replaceWord needle replacement 0 r

/-- Words are patterns that stand for themselves. This library knows no others, and no references in
replacements. -/
def words : RegexEngine where
  compile pattern :=
    if pattern.toList ≠ [] ∧ pattern.toList.all Text.isWordTail then
      some fun text replacement =>
        String.ofList (replaceWord pattern.toList replacement.toList 0 text.toList)
    else none

end RegexEngine

/-! ### Setups -/

namespace SessionSetup

variable {engine : RegexEngine} {s t : SessionSetup}

/-- The text of a header. -/
def text? (s : SessionSetup) (file : String) : Option String :=
  (s.headers.get? file).bind HeaderSource.text

/-- The headers of two setups have the same texts; they may be of different times. -/
def SameTexts (s t : SessionSetup) : Prop := ∀ file, s.text? file = t.text? file

/-- What comes of a setup: the registry of its session after processing and the error of that, or
the error for which there is no session. -/
def outcome (engine : RegexEngine) (s : SessionSetup) :
    Except SessionError (Registry × Option SessionError) :=
  (s.buildWith engine).map fun session => (session.process.1.registry, session.process.2)

/-- Options that compare equal are equal but for the seeds, which are compared as definitions. -/
theorem options_parts (h : (s.options == t.options) = true) :
    s.headers.keys = t.headers.keys ∧ s.replacements = t.replacements ∧ s.macros = t.macros := by
  have hbeq : (s.headers.keys == t.headers.keys && s.replacements == t.replacements &&
      s.macros == t.macros && s.seeds == t.seeds) = true := h
  simp only [Bool.and_eq_true, beq_iff_eq] at hbeq
  exact ⟨hbeq.1.1.1, hbeq.1.1.2, hbeq.1.2⟩

/-- The session of a setup goes by its headers, its options, its grammar and its imports. -/
theorem buildWith_eq (hoptions : (s.options == t.options) = true) (hseeds : s.seeds = t.seeds)
    (hgrammar : s.grammar = t.grammar) (himports : s.imports = t.imports) :
    t.buildWith engine = (s.buildWith engine).map (·.withHeaders t.headers) := by
  obtain ⟨hfiles, hreplacements, hmacros⟩ := options_parts hoptions
  have hsame : s.options = t.options := by
    rw [options, options, hfiles, hreplacements, hmacros, hseeds]
  have hstart : s.start = t.start := by
    rw [start, start, himports, hseeds, hmacros]
  rw [buildWith, buildWith, hgrammar, hreplacements, hsame, hstart]
  cases t.replacements.mapM (rule engine) with
  | error e => rfl
  | ok rules => rfl

/-- A session is made of its setup, with something that the rules do. -/
theorem exists_rules_of_build {a : Session} (h : s.buildWith engine = .ok a) :
    ∃ rules, a = { grammar := s.grammar, options := s.options, headers := s.headers,
                   rules := rules, registry := s.start } := by
  rw [buildWith] at h
  cases hrules : s.replacements.mapM (rule engine) with
  | error e =>
    rw [hrules] at h
    cases h
  | ok rules =>
    rw [hrules] at h
    cases h
    exact ⟨rules, rfl⟩

theorem headers_of_build {a : Session} (h : s.buildWith engine = .ok a) :
    a.headers = s.headers ∧ a.options = s.options := by
  obtain ⟨rules, rfl⟩ := exists_rules_of_build h
  exact ⟨rfl, rfl⟩

/-- The session of a setup with the same texts, and what it comes to. -/
theorem buildWith_process (hoptions : (s.options == t.options) = true) (hseeds : s.seeds = t.seeds)
    (hgrammar : s.grammar = t.grammar) (himports : s.imports = t.imports) (htexts : s.SameTexts t)
    {a : Session} (ha : s.buildWith engine = .ok a) :
    ∃ b, t.buildWith engine = .ok b ∧ b.process = (a.process.1.withHeaders t.headers, a.process.2) := by
  refine ⟨a.withHeaders t.headers, ?_, ?_⟩
  · rw [buildWith_eq hoptions hseeds hgrammar himports, ha]
    rfl
  · refine Session.process_withHeaders fun file => ?_
    show t.text? file = (a.headers.get? file).bind HeaderSource.text
    rw [(headers_of_build ha).1]
    exact (htexts file).symm

/-- **What a session gives is determined by the options, the texts, the grammar, the imports and the
seeds.** For two setups with one grammar, the same imports, the same seeds and the same texts,
options that compare equal mean the same outcome; and the blob of the one holds what the other would
have found itself, if it is valid for the other. This is so for every library of regular
expressions. -/
theorem outcome_eq (engine : RegexEngine) (s t : SessionSetup) (hgrammar : s.grammar = t.grammar)
    (himports : s.imports = t.imports) (hseeds : s.seeds = t.seeds) (htexts : s.SameTexts t) :
    ((s.options == t.options) = true → s.outcome engine = t.outcome engine) ∧
    ∀ a b time, s.buildWith engine = .ok a → t.buildWith engine = .ok b →
      (a.process.1.cache time).isValidFor b.options b.newest = true →
      (a.process.1.cache time).registry = b.process.1.registry := by
  refine ⟨?_, ?_⟩
  · intro hoptions
    rw [outcome, outcome]
    cases ha : s.buildWith engine with
    | error e =>
      have hb : t.buildWith engine = .error e := by
        rw [buildWith_eq hoptions hseeds hgrammar himports, ha]
        rfl
      rw [hb]
    | ok a =>
      obtain ⟨b, hb, hprocess⟩ := buildWith_process hoptions hseeds hgrammar himports htexts ha
      rw [hb]
      show Except.ok (a.process.1.registry, a.process.2) =
        Except.ok (b.process.1.registry, b.process.2)
      rw [hprocess]
      rfl
  · intro a b time ha hb hvalid
    -- a blob records the options of its session, and a session those of its setup
    have hrecorded : a.process.1.options = a.options := Session.options_process a
    have hoptions : (s.options == t.options) = true := by
      rw [CacheBlob.isValidFor, Bool.and_eq_true] at hvalid
      have hblob : (a.process.1.options == b.options) = true := hvalid.1
      rwa [hrecorded, (headers_of_build ha).2, (headers_of_build hb).2] at hblob
    obtain ⟨b', hb', hprocess⟩ := buildWith_process hoptions hseeds hgrammar himports htexts ha
    cases hb.symm.trans hb'
    show a.process.1.registry = b.process.1.registry
    rw [hprocess]
    rfl

/-- A header, a macro and a rule, set up twice: the file of the second was touched later. -/
def sampleSetup (modified : Nat) : SessionSetup :=
  { headers := .ofList [("a.h", ⟨some "SIZE", modified⟩)]
    replacements := [⟨none, "SIZE", "int x[N];"⟩]
    macros := [("N", "4")] }

theorem outcome_sampleSetup :
    (sampleSetup 0).grammar = (sampleSetup 9).grammar ∧
      (sampleSetup 0).imports = (sampleSetup 9).imports ∧
      (sampleSetup 0).seeds = (sampleSetup 9).seeds ∧ (sampleSetup 0).SameTexts (sampleSetup 9) ∧
      (sampleSetup 0).outcome .words = (sampleSetup 9).outcome .words ∧
      ∃ r, (sampleSetup 9).outcome .words = .ok (r, none) := by
  have htexts : (sampleSetup 0).SameTexts (sampleSetup 9) := by
    intro file
    by_cases h : "a.h" = file
    · subst h
      rfl
    · simp [text?, sampleSetup, OrderedMap.ofList, OrderedMap.get?, OrderedMap.insert,
        OrderedMap.put, OrderedMap.empty, OrderedMap.find?, h]
  have hsame := (outcome_eq .words (sampleSetup 0) (sampleSetup 9) rfl rfl rfl htexts).1 (by decide)
  exact ⟨rfl, rfl, rfl, htexts, hsame, _, rfl⟩

/-- The session of a setup without rules. -/
def plainSession (s : SessionSetup) : Session :=
  { grammar := s.grammar, options := s.options, headers := s.headers, rules := [],
    registry := s.start }

/-- A single header without anything in it leaves the registry that the session starts from. -/
theorem registry_process_of_empty {s : SessionSetup} {file : String}
    (hfiles : s.options.files = [file]) (h : s.text? file = some "") :
    s.plainSession.process.1.registry = s.start := by
  have htext : s.plainSession.text? file = some "" := h
  rw [Session.process_single rfl hfiles htext,
    Session.registry_processText rfl (preprocess_empty _ file), Grammar.parseFile_empty]
  rfl

/-- A header without anything in it. -/
def plainSetup : SessionSetup := { headers := .ofList [("a.h", ⟨some "", 0⟩)] }

/-- The same, but started from a registry that defines a type. -/
def importingSetup : SessionSetup :=
  { plainSetup with
    imports := [Registry.empty.insert (some "t.h") "word_t" ⟨.types, .named "int"⟩] }

/-- Equal options and texts do not determine the registry: what is imported is not recorded. The
blob of the one session is valid for the other, which would have found another registry. -/
theorem not_outcome_eq :
    (plainSetup.options == importingSetup.options) = true ∧ plainSetup.SameTexts importingSetup ∧
    ∃ a b, plainSetup.buildWith .words = .ok a ∧ importingSetup.buildWith .words = .ok b ∧
      (a.process.1.registry == b.process.1.registry) = false ∧
      (a.process.1.cache 0).isValidFor b.options b.newest = true ∧
      ((a.process.1.cache 0).registry == b.process.1.registry) = false := by
  have hplain : plainSetup.plainSession.process.1.registry = plainSetup.start :=
    registry_process_of_empty (show plainSetup.options.files = ["a.h"] from rfl) rfl
  have himporting : importingSetup.plainSession.process.1.registry = importingSetup.start :=
    registry_process_of_empty (show importingSetup.options.files = ["a.h"] from rfl) rfl
  have hdiffer : (plainSetup.start == importingSetup.start) = false := by decide
  refine ⟨by decide, fun _ => rfl, plainSetup.plainSession, importingSetup.plainSession, rfl, rfl,
    ?_, by decide, ?_⟩
  · rw [hplain, himporting, hdiffer]
  · rw [himporting]
    exact (congrArg (· == importingSetup.start) hplain).trans hdiffer

end SessionSetup

end CInterface
