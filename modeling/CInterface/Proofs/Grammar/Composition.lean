import CInterface.Proofs.Grammar.Lockstep
import CInterface.Proofs.Text.Offsets
import CInterface.Proofs.Token.Joining
import CInterface.Proofs.Token.Places
/-!
# Composition of headers

A text whose brackets are nested and that is read without a fault is read alike wherever it stands:
in front of another text, and within a linkage block.

* `Within` — where a text stands within another one.
* `Within.run_inside` — a text that is followed by others.
* `Within.run_last` — a text at the end of another one.
* `parseFile_append` — one text behind another.
* `parseFile_linkage` — a text within a linkage block.
-/

namespace CInterface

open Text

theorem ParseReport.eq_clean {r : ParseReport} (h : r.isClean = true) : r = .clean := by
  obtain ⟨unparsed, errors⟩ := r
  simp only [isClean, Bool.and_eq_true, List.isEmpty_iff] at h
  rw [h.1, h.2]
  rfl

/-- The reading of a header is a run over as many turns as it has tokens. -/
theorem parseFile_eq_run (g : Grammar) (registry : Registry) (file : String) (packing : PackingLog)
    (text : String) :
    let last := (g.header registry file packing text).run (tokenize text).length
      (.start registry text)
    g.parseFile registry file packing text = (last.registry, last.report) := rfl

/-- The line of the last token of a text. -/
def lastTokenLine (text : String) : Nat :=
  ((tokenize text).getLast?.map fun t => (LineTable.ofText text.toList).lineOf t.start).getD 0

/-- A text stands within another one: in front of the tokens `tail`, or at the end. -/
structure Within (text whole : String) where
  /-- The number of bytes in front of the text. -/
  moved : Nat
  /-- The number of lines in front of it. -/
  shift : Nat
  tail : Option (List Token)
  length_le : (tokenize text).length ≤ (tokenize whole).length
  line : ∀ t ∈ tokenize text, (LineTable.ofText whole.toList).lineOf (moved + t.start) =
    (LineTable.ofText text.toList).lineOf t.start + shift
  lastLine : tail = none → lastTokenLine whole = lastTokenLine text + shift
  slice : tail = none → ∀ start stop,
    slice (moved + start) (moved + stop) whole.toList = slice start stop text.toList

namespace Within

variable {text whole : String} {g : Grammar} {R R' : Registry} {file : String} {packing : PackingLog}

/-- The pairing of the text with itself as a part of the other. -/
def pairing (W : Within text whole) (g : Grammar) (R : Registry) (packing : PackingLog)
    (hpacking : ∀ line, packing.packAt (line + W.shift) = packing.packAt line) : Pairing where
  source := Source.ofTokens g R packing text.toList (tokenize text)
  lines := LineTable.ofText whole.toList
  packing := packing
  lastLine := lastTokenLine whole
  fuel := 8 * ((tokenize whole).length + 1)
  move := Token.later W.moved
  shift := W.shift
  tail := W.tail
  size := (tokenize text).length
  kind_move _ := rfl
  packAt_shift := hpacking
  lastLine_shift := W.lastLine
  size_le_source := Nat.le_refl _
  size_le_fuel := Nat.mul_le_mul_left 8 (Nat.succ_le_succ W.length_le)

variable (W : Within text whole)

theorem pairs (hpacking : ∀ line, packing.packAt (line + W.shift) = packing.packAt line)
    (R' : Registry) {e : Nat} (he : W.tail = none → e = 0) :
    (W.pairing g R packing hpacking).Pairs e (g.header R file packing text)
      (g.header R' file packing whole) where
  source _ := rfl
  other _ := rfl
  file := rfl
  text htail ts := by
    rw [HeaderText.textOf, HeaderText.textOf, List.head?_map, List.getLast?_map]
    cases ts.head? with
    | none => rfl
    | some first =>
      cases ts.getLast? with
      | none => rfl
      | some last => exact congrArg String.ofList (W.slice htail first.start last.stop)
  blocks := he

/-- The end of a header that is read without a fault is the end of a statement. -/
theorem ends_of_clean (hclean : (g.parseFile R file packing text).2.isClean = true) {t : Token}
    (ht : (tokenize text).getLast? = some t) : t.kind.endsStatement = true := by
  let h := g.header R file packing text
  have hs : (HeaderState.start R text).Idle := idle_start R text
  have hskip : (h.run (tokenize text).length (.start R text)).report.unparsed = [] :=
    congrArg ParseReport.unparsed (ParseReport.eq_clean hclean)
  have hrest : (h.run (tokenize text).length (.start R text)).stage.rest = [] :=
    h.rest_run (.start R text)
  rcases HeaderText.ends_run hs _ hskip with hnil | ⟨u, hu, before, hbefore⟩
  · have hnone : tokenize text = [] := hnil.symm.trans hrest
    rw [hnone] at ht
    cases ht
  · rw [hrest] at hbefore
    rw [show tokenize text = before ++ [u] from hbefore.symm, List.getLast?_append] at ht
    cases ht
    exact hu

/-- **A nested text that is read without a fault is read alike in front of other tokens**, and leaves
all of them. -/
theorem run_inside (hpacking : ∀ line, packing.packAt (line + W.shift) = packing.packAt line)
    (htail : W.tail ≠ none) (hnested : Nested text)
    (hclean : (g.parseFile R file packing text).2.isClean = true) (e : Nat) :
    ∃ m ≤ (tokenize text).length, (g.header R' file packing whole).run m
      ⟨⟨(tokenize text).map (Token.later W.moved) ++ W.tail.getD [], [], []⟩, R, e, .clean⟩ =
        ⟨⟨W.tail.getD [], [], []⟩, (g.parseFile R file packing text).1, e, .clean⟩ := by
  let K := W.pairing g R packing hpacking
  let h := g.header R file packing text
  let n := (tokenize text).length
  have hs : (HeaderState.start R text).Idle := idle_start R text
  have hreport : (h.run n (.start R text)).report = .clean := ParseReport.eq_clean hclean
  have hready : K.Ready (Pairing.blockEnds (.start R text)) (tokenize text) :=
    ⟨W.line, Nat.le_refl _, fun _ => hnested, fun _ t ht => ends_of_clean hclean ht⟩
  obtain ⟨⟨m, hm, hrun⟩, hready'⟩ := Pairing.run_paired
    (W.pairs hpacking R' fun hnone => absurd hnone htail) hs hready n (by rw [hreport]; rfl)
  have hrest : (h.run n (.start R text)).stage.rest = [] := h.rest_run (.start R text)
  have hlast : K.header e (h.run n (.start R text)) =
      ⟨⟨W.tail.getD [], [], []⟩, (h.run n (.start R text)).registry, e,
        (h.run n (.start R text)).report.shift W.shift⟩ :=
    Pairing.header_of_nil (HeaderText.idle_run hs n) hready' htail hrest
  have hfirst : K.header e (.start R text) =
      ⟨⟨(tokenize text).map (Token.later W.moved) ++ W.tail.getD [], [], []⟩, R, e, .clean⟩ := by
    show (⟨_, R, 0 + e, _⟩ : HeaderState) = _
    rw [Nat.zero_add]
    rfl
  refine ⟨m, hm, ?_⟩
  rw [hfirst, hlast, hreport] at hrun
  exact hrun

/-- **A text at the end of another is read alike**, on its lines of the other. -/
theorem run_last (hpacking : ∀ line, packing.packAt (line + W.shift) = packing.packAt line)
    (htail : W.tail = none) :
    let n := (tokenize text).length
    let after := (g.header R' file packing whole).run n
      ⟨⟨(tokenize text).map (Token.later W.moved), [], []⟩, R, 0, .clean⟩
    after.stage.rest = [] ∧ after.registry = (g.parseFile R file packing text).1 ∧
      after.report = (g.parseFile R file packing text).2.shift W.shift := by
  intro n after
  let K := W.pairing g R packing hpacking
  let h := g.header R file packing text
  have hs : (HeaderState.start R text).Idle := idle_start R text
  have hready : K.Ready (Pairing.blockEnds (.start R text)) (tokenize text) :=
    ⟨W.line, Nat.le_refl _, fun hne => absurd htail hne, fun hne => absurd htail hne⟩
  obtain ⟨hrun, -⟩ := Pairing.run_shifted (W.pairs hpacking R' fun _ => rfl) htail hready n
  have hfirst : K.header 0 (.start R text) =
      ⟨⟨(tokenize text).map (Token.later W.moved), [], []⟩, R, 0, .clean⟩ := by
    show (⟨⟨(tokenize text).map (Token.later W.moved) ++ W.tail.getD [], [], []⟩, R, 0, .clean⟩ :
      HeaderState) = _
    rw [htail, Option.getD_none, List.append_nil]
  rw [hfirst] at hrun
  have hrest : (h.run n (.start R text)).stage.rest = [] := h.rest_run (.start R text)
  have hafter : after = K.header 0 (h.run n (.start R text)) := hrun
  rw [hafter]
  refine ⟨?_, rfl, rfl⟩
  show K.tokens (h.run n (.start R text)).stage.rest = []
  rw [hrest, Pairing.tokens_nil htail]

end Within

/-! ### One text behind another -/

section Append

variable (a b : String)

theorem toList_newline : (a ++ "\n" ++ b).toList = a.toList ++ '\n' :: b.toList := by
  rw [String.toList_append, String.toList_append, List.append_assoc]
  rfl

theorem Token.later_zero (t : Token) : t.later 0 = t := by
  rw [later, Nat.zero_add, Nat.zero_add]

theorem start_le_byteLength {text : String} {t : Token} (ht : t ∈ tokenize text) :
    t.start ≤ byteLength text.toList := by
  obtain ⟨pre, c, post, htext, hstart, -⟩ := mem_tokensFrom ht
  rw [htext, hstart, byteLength_append]
  omega

theorem packAt_initial (line : Nat) : PackingLog.initial.packAt line = none := by
  simp [PackingLog.packAt, PackingLog.initial]

/-- The first of two texts with a newline between them. -/
def Within.first : Within a (a ++ "\n" ++ b) where
  moved := 0
  shift := 0
  tail := some ((tokenize b).map (Token.later (byteLength a.toList + 1)))
  length_le := by rw [tokenize_newline, List.length_append]; exact Nat.le_add_right _ _
  line t ht := by
    rw [Nat.zero_add, toList_newline, LineTable.lineOf_newline (start_le_byteLength ht)]
    rfl
  lastLine h := by cases h
  slice h := by cases h

/-- A text at the end of another has the bytes and the lines of the other before it. -/
theorem lineOf_second (t : Token) :
    (LineTable.ofText (a ++ "\n" ++ b).toList).lineOf (byteLength a.toList + 1 + t.start) =
      (LineTable.ofText b.toList).lineOf t.start + (LineTable.ofText a.toList).count := by
  have hsplit : (a ++ "\n" ++ b).toList = (a.toList ++ ['\n']) ++ b.toList := by
    rw [String.toList_append, String.toList_append]
    rfl
  have hlength : byteLength (a.toList ++ ['\n']) = byteLength a.toList + 1 := byteLength_append _ _
  have hlines : (lineStartsFrom 0 (a.toList ++ ['\n'])).length = (LineTable.ofText a.toList).count := by
    rw [lineStartsFrom_append, List.length_append]
    rfl
  rw [hsplit, ← hlength, LineTable.lineOf_append, hlines]

/-- The second of two texts with a newline between them, if it has tokens. -/
def Within.second (hb : tokenize b ≠ []) : Within b (a ++ "\n" ++ b) where
  moved := byteLength a.toList + 1
  shift := (LineTable.ofText a.toList).count
  tail := none
  length_le := by
    rw [tokenize_newline, List.length_append, List.length_map]
    exact Nat.le_add_left _ _
  line t _ := lineOf_second a b t
  lastLine _ := by
    obtain ⟨t, ht⟩ := Option.ne_none_iff_exists'.1 (mt List.getLast?_eq_none_iff.1 hb)
    rw [lastTokenLine, lastTokenLine, tokenize_newline, List.getLast?_append, List.getLast?_map, ht]
    exact lineOf_second a b t
  slice _ start stop := by
    have hsplit : (a ++ "\n" ++ b).toList = (a.toList ++ ['\n']) ++ b.toList := by
      rw [String.toList_append, String.toList_append]
      rfl
    have hlength : byteLength (a.toList ++ ['\n']) = byteLength a.toList + 1 := byteLength_append _ _
    rw [hsplit, ← hlength, slice_append]

/-- **Headers compose at the ends of declarations.** A text whose brackets are nested and that is read
without a fault, a newline and another text are read as one file like the two texts one after the
other. What is reported for the second text is reported on its lines of the file. -/
theorem parseFile_append (g : Grammar) (registry : Registry) (file : String) (hnested : Nested a)
    (hclean : (g.parseFile registry file .initial a).2.isClean = true) :
    let first := g.parseFile registry file .initial a
    let second := g.parseFile first.1 file .initial b
    g.parseFile registry file .initial (a ++ "\n" ++ b) =
      (second.1, second.2.shift (LineTable.ofText a.toList).count) := by
  intro first second
  let whole := a ++ "\n" ++ b
  let h := g.header registry file .initial whole
  let behind : HeaderState :=
    ⟨⟨(tokenize b).map (Token.later (byteLength a.toList + 1)), [], []⟩, first.1, 0, .clean⟩
  obtain ⟨m, hm, hfirst⟩ : ∃ m ≤ (tokenize a).length, h.run m (.start registry whole) = behind := by
    obtain ⟨m, hm, hrun⟩ := (Within.first a b).run_inside (fun _ => rfl) (Option.some_ne_none _)
      hnested hclean 0
    refine ⟨m, hm, ?_⟩
    rw [List.map_congr_left (fun t _ => t.later_zero), List.map_id'] at hrun
    rw [HeaderState.start, tokenize_newline]
    exact hrun
  have hlength : (tokenize whole).length = m + ((tokenize whole).length - m) := by
    rw [tokenize_newline, List.length_append, List.length_map]
    omega
  have hrun : h.run (tokenize whole).length (.start registry whole) =
      h.run ((tokenize whole).length - m) behind := by
    rw [hlength, HeaderText.run_add, hfirst, ← hlength]
  rw [parseFile_eq_run, hrun]
  by_cases hb : tokenize b = []
  · have hrest : behind.stage.rest = [] := by
      show (tokenize b).map _ = []
      rw [hb]
      rfl
    have hsecond : second = (first.1, .clean) := by
      show g.parseFile first.1 file .initial b = _
      rw [Grammar.parseFile, hb]
      rfl
    rw [HeaderText.run_of_nil hrest, hsecond]
    rfl
  · have hlast : (h.run (tokenize b).length behind).stage.rest = [] ∧
        (h.run (tokenize b).length behind).registry = second.1 ∧
        (h.run (tokenize b).length behind).report =
          second.2.shift (LineTable.ofText a.toList).count :=
      (Within.second a b hb).run_last
        (fun line => (packAt_initial _).trans (packAt_initial line).symm) rfl
    obtain ⟨hrest, hregistry, hreport⟩ := hlast
    have hle : (tokenize b).length ≤ (tokenize whole).length - m := by
      rw [tokenize_newline, List.length_append, List.length_map]
      omega
    rw [HeaderText.run_of_le hle hrest]
    exact Prod.ext hregistry hreport

/-- A point and where it starts, with a linkage block. -/
def pointText : String := "struct point \x7b int x, y; \x7d;\nextern \"C\" \x7b int seen; \x7d"

/-- What uses the point, and a text that nothing matches. -/
def originText : String := "struct point origin(void);\n\nint (;"

theorem parseFile_append_point :
    let first := Grammar.standard.parseFile .empty "point.h" .initial pointText
    let second := Grammar.standard.parseFile first.1 "point.h" .initial originText
    Nested pointText ∧ first.2.isClean = true ∧
      Grammar.standard.parseFile .empty "point.h" .initial (pointText ++ "\n" ++ originText) =
        (second.1, second.2.shift 2) :=
  ⟨by decide +kernel, by decide +kernel,
    parseFile_append pointText originText .standard .empty "point.h" (by decide +kernel)
      (by decide +kernel)⟩

end Append

/-! ### A text within a linkage block -/

section Linkage

variable (text : String)

/-- A text within a linkage block. -/
def linkageBlock (text : String) : String := "extern \"C\" \x7b" ++ text ++ "\n\x7d"

/-- The tokens that open a linkage block. -/
def linkageOpening : List Token :=
  [⟨.ident "extern", 0, 6⟩, ⟨.str "\"C\"", 7, 10⟩, ⟨.punct .lbrace, 11, 12⟩]

/-- The brace that closes the linkage block of a text. -/
def linkageClosing (text : String) : Token :=
  ⟨.punct .rbrace, 12 + byteLength text.toList + 1, 12 + byteLength text.toList + 1 + 1⟩

theorem toList_linkageBlock : (linkageBlock text).toList =
    "extern \"C\" \x7b".toList ++ (text.toList ++ '\n' :: ['\x7d']) := by
  rw [linkageBlock, String.toList_append, String.toList_append, List.append_assoc]
  rfl

theorem tokensFrom_linkageOpening (cs : List Char) :
    tokensFrom 0 ("extern \"C\" \x7b".toList ++ cs) = linkageOpening ++ tokensFrom 12 cs := by
  have htext : "extern \"C\" \x7b".toList ++ cs = 'e' :: 'x' :: 't' :: 'e' :: 'r' :: 'n' :: ' ' ::
      '"' :: 'C' :: '"' :: ' ' :: '\x7b' :: cs := rfl
  have hword : nextToken 'e' ('x' :: 't' :: 'e' :: 'r' :: 'n' :: ' ' :: '"' :: 'C' :: '"' :: ' ' ::
      '\x7b' :: cs) = (.ident "extern", 5) := rfl
  have hlanguage : nextToken '"' ('C' :: '"' :: ' ' :: '\x7b' :: cs) = (.str "\"C\"", 2) := rfl
  have hbrace : nextToken '\x7b' cs = (.punct .lbrace, 0) := rfl
  rw [htext, tokensFrom_token 0 (by decide) hword]
  simp only [List.take, List.drop]
  rw [tokensFrom_space _ (by decide), tokensFrom_token _ (by decide) hlanguage]
  simp only [List.take, List.drop]
  rw [tokensFrom_space _ (by decide), tokensFrom_token _ (by decide) hbrace]
  rfl

theorem tokenize_linkageBlock : tokenize (linkageBlock text) =
    linkageOpening ++ ((tokenize text).map (Token.later 12) ++ [linkageClosing text]) := by
  have hbrace : nextToken '\x7d' [] = (.punct .rbrace, 0) := rfl
  rw [tokenize, toList_linkageBlock, tokensFrom_linkageOpening, tokensFrom_newline,
    tokensFrom_add 12 0, tokensFrom_token _ (by decide) hbrace, List.drop_nil, tokensFrom]
  rfl

/-- The text within its linkage block. -/
def Within.block : Within text (linkageBlock text) where
  moved := 12
  shift := 0
  tail := some [linkageClosing text]
  length_le := by
    rw [tokenize_linkageBlock, List.length_append, List.length_append, List.length_map]
    omega
  line t ht := by
    have hopening : byteLength "extern \"C\" \x7b".toList = 12 := by decide
    have hlines : lineStartsFrom 0 "extern \"C\" \x7b".toList = [] := by decide
    rw [toList_linkageBlock, ← hopening, LineTable.lineOf_append, hlines,
      LineTable.lineOf_newline (start_le_byteLength ht)]
    rfl
  lastLine h := by cases h
  slice h := by cases h

/-- **A linkage block changes nothing.** A text whose brackets are nested and that is read without a
fault gives the same definitions within a linkage block, without a fault. -/
theorem parseFile_linkage (g : Grammar) (registry : Registry) (file : String) (packing : PackingLog)
    (hnested : Nested text) (hclean : (g.parseFile registry file packing text).2.isClean = true) :
    g.parseFile registry file packing (linkageBlock text) =
      ((g.parseFile registry file packing text).1, .clean) := by
  let h := g.header registry file packing (linkageBlock text)
  let tokens := (tokenize text).map (Token.later 12)
  let inside : HeaderState := ⟨⟨tokens ++ [linkageClosing text], [], []⟩, registry, 1, .clean⟩
  let closing : HeaderState :=
    ⟨⟨[linkageClosing text], [], []⟩, (g.parseFile registry file packing text).1, 1, .clean⟩
  let last : HeaderState := ⟨⟨[], [], []⟩, (g.parseFile registry file packing text).1, 0, .clean⟩
  have hopen : h.run 1 (.start registry (linkageBlock text)) = inside := by
    rw [HeaderState.start, tokenize_linkageBlock]
    rfl
  obtain ⟨m, hm, hinside⟩ : ∃ m ≤ (tokenize text).length, h.run m inside = closing :=
    (Within.block text).run_inside (fun _ => rfl) (Option.some_ne_none _) hnested hclean 1
  have hclose : h.run 1 closing = last := rfl
  have hrun : h.run (1 + m + 1) (.start registry (linkageBlock text)) = last := by
    rw [HeaderText.run_add, HeaderText.run_add, hopen, hinside, hclose]
  have hle : 1 + m + 1 ≤ (tokenize (linkageBlock text)).length := by
    rw [tokenize_linkageBlock, List.length_append, List.length_append, List.length_map]
    show 1 + m + 1 ≤ 3 + ((tokenize text).length + 1)
    omega
  have hall : h.run (tokenize (linkageBlock text)).length (.start registry (linkageBlock text)) = last := by
    rw [HeaderText.run_of_le hle (by rw [hrun]), hrun]
  rw [parseFile_eq_run, hall]

theorem parseFile_linkage_point :
    let first := Grammar.standard.parseFile .empty "point.h" .initial pointText
    Nested pointText ∧ first.2.isClean = true ∧
      Grammar.standard.parseFile .empty "point.h" .initial (linkageBlock pointText) =
        (first.1, .clean) :=
  ⟨by decide +kernel, by decide +kernel,
    parseFile_linkage pointText .standard .empty "point.h" .initial (by decide +kernel)
      (by decide +kernel)⟩

end Linkage

end CInterface
