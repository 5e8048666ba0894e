import CInterface.Grammar.Declaration
/-!
# Reading headers

A header is read declaration by declaration. One that matches the grammar without an error gives the
registry its definitions; one with an error gives none and is reported; a text that matches nothing
is skipped and reported.

* `ParseReport` — what was skipped and what was in error.
* `HeaderText.step` — one declaration, or one piece of what may stand between them.
* `Grammar.parseFile` — a whole header.
-/

namespace CInterface

/-- A text that the grammar did not match. -/
structure Unparsed where
  /-- The line of its first token. -/
  line : Nat
  text : String
  deriving DecidableEq, Repr

/-- What went wrong in the reading of a header. -/
structure ParseReport where
  unparsed : List Unparsed
  errors : List DefinitionError

namespace ParseReport

/-- The report of a header without faults. -/
def clean : ParseReport := ⟨[], []⟩

/-- Nothing went wrong. -/
def isClean (r : ParseReport) : Bool := r.unparsed.isEmpty && r.errors.isEmpty

end ParseReport

/-- A header that is being read, with what does not change. -/
structure HeaderText where
  file : String
  text : List Char
  /-- What the first declaration depends on. -/
  start : Source

/-- Where the reading of a header stands. -/
structure HeaderState where
  /-- The tokens to come, and what is staged. -/
  stage : Stage
  registry : Registry
  /-- The number of linkage blocks that are open. -/
  blocks : Nat
  report : ParseReport

/-- The state at other tokens. -/
def HeaderState.moveTo (s : HeaderState) (rest : List Token) : HeaderState :=
  { s with stage := { s.stage with rest } }

namespace HeaderText

/-- What the reading of the next declaration depends on. -/
def source (h : HeaderText) (registry : Registry) : Source := { h.start with registry }

/-- The text from the first to the last of some tokens. -/
def textOf (h : HeaderText) (tokens : List Token) : String :=
  match tokens.head?, tokens.getLast? with
  | some first, some last => String.ofList (Text.slice first.start last.stop h.text)
  | _, _ => ""

/-- Takes over what a declaration has staged. If it has errors, it is dropped, and they are
reported. -/
def commit (h : HeaderText) (s : HeaderState) (stage : Stage) : HeaderState :=
  let found := stage.errors.take (stage.errors.length - s.stage.errors.length)
  if found.isEmpty then
    { s with
      stage := { stage with staged := [] }
      registry := stage.staged.reverse.foldl (fun r d => r.insert (some h.file) d.1 d.2)
        s.registry }
  else
    { s.moveTo stage.rest with
      report := { s.report with errors := s.report.errors ++ found.reverse } }

/-- Skips a statement that the grammar does not match. -/
def skip (h : HeaderText) (s : HeaderState) (src : Source) : HeaderState :=
  let rest := afterStatement 0 s.stage.rest
  let skipped := s.stage.rest.take (s.stage.rest.length - rest.length)
  { s.moveTo rest with
    report := { s.report with
      unparsed := s.report.unparsed ++ [⟨src.lineAt s.stage.rest, h.textOf skipped⟩] } }

/-- Reads a declaration, or skips it. What a declaration has staged before it fails is gone. -/
def declaration (h : HeaderText) (s : HeaderState) : HeaderState :=
  let src := h.source s.registry
  match src.declaration s.stage with
  | .ok (_, stage) => h.commit s stage
  | .error _ => h.skip s src

/-- Reads a declaration behind the words that set its linkage, if there are any. The brace that
closes a linkage block stands by itself. -/
def linked (h : HeaderText) (s : HeaderState) : HeaderState :=
  match s.stage.rest with
  | t :: rest =>
    if 0 < s.blocks && t.kind = .punct .rbrace then
      { s.moveTo rest with blocks := s.blocks - 1 }
    else h.declaration s
  | [] => h.declaration s

/-- Reads one piece of a header: a semicolon, the opening or closing of a linkage block, or a
declaration. -/
def step (h : HeaderText) (s : HeaderState) : HeaderState :=
  match s.stage.rest with
  | t :: rest =>
    if t.kind = .punct .semi then s.moveTo rest
    else match linkage? s.stage.rest with
      | some (true, rest) => { s.moveTo rest with blocks := s.blocks + 1 }
      | some (false, rest) => h.linked (s.moveTo rest)
      | none => h.linked s
  | [] => s

/-- Reads pieces of a header until its end. Each takes at least one token, so as many as there are
tokens suffice. -/
def run (h : HeaderText) : Nat → HeaderState → HeaderState
  | 0, s => s
  | fuel + 1, s => if s.stage.rest.isEmpty then s else h.run fuel (h.step s)

end HeaderText

/-- The registry with the definitions of a header, and the report of its reading. The text is read
as it is, without preprocessing. -/
def Grammar.parseFile (g : Grammar) (registry : Registry) (file : String) (packing : PackingLog)
    (text : String) : Registry × ParseReport :=
  let tokens := tokenize text
  let h : HeaderText :=
    ⟨file, text.toList, Source.ofTokens g registry packing text.toList tokens⟩
  let s := h.run tokens.length ⟨⟨tokens, [], []⟩, registry, 0, .clean⟩
  (s.registry, s.report)

end CInterface
