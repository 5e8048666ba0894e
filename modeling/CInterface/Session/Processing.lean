import CInterface.CType.Resolve
import CInterface.Grammar.Header
import CInterface.Preprocess
import CInterface.Session.Cache
import CInterface.Text.LineTable
/-!
# Sessions

A session makes one registry of some headers: their texts are edited by rules, preprocessed and
read, one after the other. The rules have regular expressions. Which texts are patterns, and what
they match, is up to the library that a session is made with.

* `RegexEngine` — a library of regular expressions.
* `SessionSetup` — what a session is made from; `SessionSetup.buildWith` makes it.
* `Session.process` — processes the headers, once.
* `Session.load`, `Session.processCached`, `Session.cache` — the same by way of a cache blob.
* `Session.resolveType`, `Session.findText` — questions about types and texts.
* `SessionError` — why a session does not answer.

Faults in a header never stop a session. They are in the report of the header.
-/

namespace CInterface

/-- What a regular expression does: it makes a text with all matches replaced of a text and a
replacement. -/
abbrev Replacer := String → String → String

/-- A library of regular expressions, as far as sessions use it. -/
structure RegexEngine where
  /-- What a pattern does, unless it is no regular expression. -/
  compile : String → Option Replacer

/-- A header as it is given to a session. -/
structure HeaderSource where
  /-- The text, if it could be had. -/
  text : Option String
  /-- The time of the last change, in seconds since the start of 1970. -/
  modified : Nat

/-- What a session is made from. -/
structure SessionSetup where
  grammar : Grammar := .standard
  /-- The headers, in the order in which they are processed. -/
  headers : OrderedMap HeaderSource := .empty
  replacements : List Replacement := []
  /-- The object macros that are defined beforehand, with their bodies. -/
  macros : List (String × String) := []
  /-- The definitions that are given beforehand. -/
  seeds : List (String × Definition) := []
  /-- The registries that the session starts from. -/
  imports : List Registry := []

/-- Why a session does not answer. -/
inductive SessionError where
  /-- A header has no text. -/
  | missingHeader (name : String)
  /-- A rule has a pattern that is no regular expression. -/
  | invalidReplacement (pattern : String)
  /-- The headers can be processed only once. -/
  | alreadyProcessed
  | type (e : TypeError)
  | parse (e : ParseError)
  | registry (e : RegistryError)

/-- The text of a session error. -/
def SessionError.message : SessionError → String
  | missingHeader name => "no content was supplied for header '" ++ name ++ "'"
  | invalidReplacement pattern => "invalid replacement pattern '" ++ pattern ++ "'"
  | alreadyProcessed => "session headers were already processed"
  | type e => e.message
  | parse e => e.message
  | registry e => e.message

/-- What went wrong with a header. -/
structure FileReport where
  diagnostics : List Diagnostic
  parse : ParseReport

/-- Nothing went wrong. -/
def FileReport.isClean (r : FileReport) : Bool := r.diagnostics.isEmpty && r.parse.isClean

/-- Headers with the registry that is made of them. -/
structure Session where
  grammar : Grammar
  options : SessionOptions
  headers : OrderedMap HeaderSource
  /-- The rules with what their patterns do, in the order in which they apply. -/
  rules : List (Replacement × Replacer)
  registry : Registry
  processed : Bool := false
  /-- The preprocessed texts of the headers that were processed. -/
  preprocessed : OrderedMap String := .empty
  /-- The reports of the headers that were processed. -/
  reports : OrderedMap FileReport := .empty

/-! ### Setting up -/

namespace SessionSetup

/-- The options of the session. -/
def options (s : SessionSetup) : SessionOptions :=
  ⟨s.headers.keys, s.replacements, s.macros, s.seeds⟩

/-- A rule with what its pattern does. -/
def rule (engine : RegexEngine) (r : Replacement) : Except SessionError (Replacement × Replacer) :=
  match engine.compile r.pattern with
  | some f => .ok (r, f)
  | none => .error (.invalidReplacement r.pattern)

/-- The registry before any header: what is imported, then what is given, then the macros. -/
def start (s : SessionSetup) : Registry :=
  let imported := s.imports.foldl Registry.union .empty
  let seeded := s.seeds.foldl (fun r e => r.insert none e.1 e.2) imported
  s.macros.foldl (fun r e => (predefine r e.1 e.2).1) seeded

/-- The session, unless one of the patterns is no regular expression. -/
def buildWith (engine : RegexEngine) (s : SessionSetup) : Except SessionError Session := do
  let rules ← s.replacements.mapM (rule engine)
  return { grammar := s.grammar, options := s.options, headers := s.headers, rules,
           registry := s.start }

end SessionSetup

namespace Session

/-! ### Processing -/

/-- The text of a header after the rules that are for it, one after the other. -/
def edit (s : Session) (file text : String) : String :=
  (s.rules.filter (·.1.appliesTo file)).foldl
    (fun text rule => rule.2 text rule.1.replacement) text

/-- Processes a header with the given text. -/
def processText (s : Session) (file text : String) : Session :=
  let (registry, out) := preprocess s.registry file (s.edit file text)
  let (registry, parse) := s.grammar.parseFile registry file out.packing out.text
  { s with
    registry
    preprocessed := s.preprocessed.insert file out.text
    reports := s.reports.insert file ⟨out.diagnostics, parse⟩ }

/-- Processes headers up to the first that has no text, which is the error. -/
def processFiles (s : Session) : List String → Session × Option SessionError
  | [] => (s, none)
  | file :: rest =>
    match (s.headers.get? file).bind HeaderSource.text with
    | none => (s, some (.missingHeader file))
    | some text => (s.processText file text).processFiles rest

/-- Processes all headers. A session that fails keeps what the headers before gave, and counts as
processed. -/
def process (s : Session) : Session × Option SessionError :=
  if s.processed then (s, some .alreadyProcessed)
  else { s with processed := true }.processFiles s.options.files

/-! ### Caching -/

/-- The time of the last change of any header. -/
def newest (s : Session) : Nat := s.headers.values.foldl (fun n h => max n h.modified) 0

/-- The session with the registry of a blob, unless the blob is refused. If it is to be checked, it
has to be valid for the session. -/
def load (s : Session) (blob : String) (check : Bool) : Option Session := do
  let b ← CacheBlob.ofText? blob
  if b.isSupported && (!check || b.isValidFor s.options s.newest) then
    some { s with registry := b.registry, processed := true }
  else none

/-- Takes over the registry of a blob if it is valid, and otherwise processes all headers. The answer
says whether the blob was used. -/
def processCached (s : Session) (blob : Option String) : Session × Except SessionError Bool :=
  if s.processed then (s, .error .alreadyProcessed)
  else match blob.bind (s.load · true) with
    | some s => (s, .ok true)
    | none =>
      match s.process with
      | (s, none) => (s, .ok false)
      | (s, some e) => (s, .error e)

/-- The blob of a session, written at a time. -/
def cache (s : Session) (createdAt : Nat) : CacheBlob :=
  ⟨CacheBlob.currentVersion, s.options, createdAt, s.registry⟩

/-! ### Questions -/

/-- The fundamental type that a declaration or a type name in a text comes to. -/
def resolveType (s : Session) (text : String) : Except SessionError CType := do
  let (_, t) ← (s.grammar.parseType text).mapError .parse
  (t.resolve s.registry.flat.types s.grammar.vocabulary).mapError .type

/-- The definition of a name in the category of a name. -/
def lookup? (s : Session) (category name : String) : Except SessionError (Option Definition) := do
  let c ← (Category.named category).mapError .registry
  return s.registry.flat.get? c name

/-- A line of a header that holds a text. -/
structure TextMatch where
  file : String
  line : Nat
  text : String
  deriving DecidableEq, Repr

/-- The numbers of the lines on which a needle occurs, with their texts. -/
def linesWith (needle text : List Char) : List (Nat × List Char) :=
  let table := Text.LineTable.ofText text
  let hits := ((Text.occurrences needle text).map table.lineOf).eraseReps
  let lines := Text.lines text
  hits.map fun n => (n, lines[n]?.getD [])

/-- The lines of the headers, as they were given, that hold a text. -/
def findText (s : Session) (needle : String) : List TextMatch :=
  s.headers.entries.flatMap fun (file, header) =>
    match header.text with
    | none => []
    | some text => (linesWith needle.toList text.toList).map fun (line, cs) =>
      ⟨file, line, String.ofList cs⟩

end Session

end CInterface
