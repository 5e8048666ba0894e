import CInterface.Proofs.Text.Search
import CInterface.Proofs.Word.Ranges
/-!
# Line tables

The table of a text is exact. A line is an offset's own if it starts at or before the offset and the
next one starts behind it, so the number of the line is the number of newlines before the offset; and
the lines, cut out of the text, are the pieces between its newlines.

A text is looked at with its first line first: behind a line and its newline the table is that of the
rest, moved by the bytes of the line and one.

* `LineTable.ofText_newline` — the table of a text, first line first.
* `LineTable.lineOf_eq_count` — the line of an offset counts the newlines before it.
* `LineTable.exists_spans` — the spans of the lines hold the pieces of the text.
* `LineTable.inside_span?_iff` — the one line whose span has an offset.
* `LineTable.pairwise_starts`, `LineTable.eq_of_searchEnds` — the starts increase, and a search of them
  ends at the line or just behind it.
* `LineTable.ofText_exact` — all of it.
-/

namespace CInterface.Text

/-! ### Byte ranges -/

/-- A byte range that lies some bytes further on. -/
def later (k : Nat) (span : Nat × Nat) : Nat × Nat := (k + span.1, k + span.2)

/-- An offset lies in a byte range, if there is one. The end belongs to it. -/
def Inside (span : Option (Nat × Nat)) (offset : Nat) : Prop :=
  ∃ start stop, span = some (start, stop) ∧ start ≤ offset ∧ offset ≤ stop

section Inside

variable {span : Option (Nat × Nat)} {k offset : Nat}

theorem inside_some {start stop : Nat} :
    Inside (some (start, stop)) offset ↔ start ≤ offset ∧ offset ≤ stop := by
  constructor
  · rintro ⟨_, _, hspan, hin⟩
    cases hspan
    exact hin
  · intro hin
    exact ⟨start, stop, rfl, hin⟩

theorem not_inside_none : ¬Inside none offset := by
  rintro ⟨_, _, hspan, -⟩
  cases hspan

theorem inside_later : Inside (span.map (later k)) (k + offset) ↔ Inside span offset := by
  obtain _ | ⟨start, stop⟩ := span
  · exact iff_of_false not_inside_none not_inside_none
  · rw [Option.map_some, later, inside_some, inside_some, Nat.add_le_add_iff_left,
      Nat.add_le_add_iff_left]

theorem not_inside_later (h : offset < k) : ¬Inside (span.map (later k)) offset := by
  obtain _ | ⟨start, stop⟩ := span
  · exact not_inside_none
  · rw [Option.map_some, later, inside_some]
    omega

end Inside

/-- A byte range that cuts a part out of a text, between two of its characters. -/
def CutsOut (cs part : List Char) (span : Nat × Nat) : Prop :=
  ∃ pre post, cs = pre ++ (part ++ post) ∧
    span = (byteLength pre, byteLength pre + byteLength part)

namespace CutsOut

variable {cs part : List Char} {span : Nat × Nat}

theorem slice_eq (h : CutsOut cs part span) : slice span.1 span.2 cs = part := by
  obtain ⟨pre, post, rfl, rfl⟩ := h
  have hslice := slice_append pre (part ++ post) 0 (byteLength part)
  rwa [Nat.add_zero, slice_zero_append] at hslice

theorem isValid {text : String} (h : CutsOut text.toList part span) :
    String.Pos.Raw.IsValid text ⟨span.1⟩ ∧ String.Pos.Raw.IsValid text ⟨span.2⟩ := by
  obtain ⟨pre, post, htext, rfl⟩ := h
  refine ⟨isValid_byteLength htext, ?_⟩
  rw [← byteLength_append]
  exact isValid_byteLength (htext.trans (List.append_assoc _ _ _).symm)

/-- A text in front moves a range by its bytes. -/
theorem append (h : CutsOut cs part span) (front : List Char) :
    CutsOut (front ++ cs) part (later (byteLength front) span) := by
  obtain ⟨pre, post, rfl, rfl⟩ := h
  refine ⟨front ++ pre, post, (List.append_assoc _ _ _).symm, ?_⟩
  rw [later, byteLength_append, Nat.add_assoc]

/-- The beginning of a text. -/
theorem first (part post : List Char) : CutsOut (part ++ post) part (0, byteLength part) :=
  ⟨[], post, rfl, by rw [byteLength_nil, Nat.zero_add]⟩

end CutsOut

/-! ### Increasing numbers -/

/-- Where a search of increasing numbers may end: at the number, or at the place between the smaller
and the greater ones. -/
def SearchEnds (xs : List Nat) (x : Nat) : Except Nat Nat → Prop
  | .ok i => xs[i]? = some x
  | .error i => i ≤ xs.length ∧ (∀ y ∈ xs.take i, y < x) ∧ ∀ y ∈ xs.drop i, x < y

/-- Of increasing numbers those up to a bound come first. -/
theorem length_takeWhile_append {a b : List Nat} {x : Nat} (ha : ∀ y ∈ a, y ≤ x)
    (hb : ∀ y ∈ b, x < y) : ((a ++ b).takeWhile (· ≤ x)).length = a.length := by
  have hnone : b.takeWhile (· ≤ x) = [] := by
    cases b with
    | nil => rfl
    | cons y b =>
      rw [List.takeWhile_cons_of_neg]
      rw [decide_eq_true_eq, Nat.not_le]
      exact hb y List.mem_cons_self
  rw [List.takeWhile_append_of_pos (by simpa using ha), hnone, List.append_nil]

namespace LineTable

variable {p : List Char}

/-! ### First line first -/

theorem ofText_of_not_mem (h : '\n' ∉ p) : ofText p = ⟨[0], byteLength p⟩ := by
  rw [ofText, lineStartsFrom_of_not_mem h]

/-- Behind the first line the table of the rest goes on. -/
theorem ofText_newline (h : '\n' ∉ p) (r : List Char) :
    ofText (p ++ '\n' :: r) = ⟨0 :: (ofText r).starts.map (byteLength p + 1 + ·),
      byteLength p + 1 + (ofText r).length⟩ := by
  have hsize : ('\n').utf8Size = 1 := by decide
  have hstarts : lineStartsFrom 0 (p ++ '\n' :: r) =
      (byteLength p + 1) :: (lineStartsFrom 0 r).map (byteLength p + 1 + ·) := by
    rw [lineStartsFrom_append, lineStartsFrom_of_not_mem h, List.nil_append, lineStartsFrom,
      if_pos rfl, Nat.zero_add, hsize, ← lineStartsFrom_add, Nat.add_zero]
  rw [ofText, hstarts, byteLength_append, byteLength_cons, hsize, ← Nat.add_assoc]
  rfl

theorem count_newline (h : '\n' ∉ p) (r : List Char) :
    (ofText (p ++ '\n' :: r)).count = (ofText r).count + 1 := by
  rw [count, ofText_newline h, List.length_cons, List.length_map, count]

theorem span?_of_not_mem (h : '\n' ∉ p) (line : Nat) :
    (ofText p).span? line = if line = 0 then some (0, byteLength p) else none := by
  rw [ofText_of_not_mem h]
  cases line <;> rfl

/-- The first line ends before its newline. -/
theorem span?_zero_newline (h : '\n' ∉ p) (r : List Char) :
    (ofText (p ++ '\n' :: r)).span? 0 = some (0, byteLength p) := by
  rw [ofText_newline h]
  rfl

theorem lt_of_mem_lineStartsFrom {offset start : Nat} {cs : List Char}
    (h : start ∈ lineStartsFrom offset cs) : offset < start := by
  induction cs generalizing offset with
  | nil => cases h
  | cons c cs ih =>
    have hc := c.utf8Size_pos
    rw [lineStartsFrom] at h
    split at h
    · rcases List.mem_cons.1 h with rfl | h
      · exact Nat.lt_add_of_pos_right hc
      · exact Nat.lt_of_le_of_lt (Nat.le_add_right _ _) (ih h)
    · exact Nat.lt_of_le_of_lt (Nat.le_add_right _ _) (ih h)

/-- The other lines are those of the rest. -/
theorem span?_succ_newline (h : '\n' ∉ p) (r : List Char) (line : Nat) :
    (ofText (p ++ '\n' :: r)).span? (line + 1) =
      ((ofText r).span? line).map (later (byteLength p + 1)) := by
  rw [ofText_newline h]
  simp only [span?, List.getElem?_cons_succ, List.getElem?_map, Option.bind_eq_bind]
  cases hstart : (ofText r).starts[line]? with
  | none => rfl
  | some start =>
    cases hnext : (ofText r).starts[line + 1]? with
    | none => rfl
    | some next =>
      -- a line behind another starts behind a newline, so there is a byte to take away
      have hpos : 0 < next := lt_of_mem_lineStartsFrom (List.mem_of_getElem? hnext)
      simp only [Option.map_some, Option.bind_some, pure, Nat.add_sub_assoc hpos, later]

/-! ### The lines of offsets -/

/-- No newline is among the bytes of other characters. -/
theorem not_mem_utf8Bytes (h : '\n' ∉ p) : (10 : UInt8) ∉ utf8Bytes p := by
  intro hmem
  obtain ⟨c, hc, hbyte⟩ := List.mem_flatMap.1 hmem
  have hnewline : ('\n').toNat < 0x80 := by decide
  have hten : isByteOf (· = '\n') 10 = true := by decide
  obtain ⟨b, bs, hb⟩ := exists_encodes c
  rw [hb.bytes] at hbyte
  rcases List.mem_cons.1 hbyte with rfl | htail
  · rw [hb.head_eq hnewline, decide_eq_true_eq] at hten
    exact h (hten ▸ hc)
  · rw [hb.tail _ _ htail] at hten
    cases hten

/-- **The line of an offset is the number of newlines before it.** -/
theorem lineOf_eq_count (cs : List Char) (offset : Nat) :
    (ofText cs).lineOf offset = ((utf8Bytes cs).take offset).count 10 := by
  induction cs using line_induction generalizing offset with
  | hlast p hp =>
    rw [lineOf_of_not_mem hp, eq_comm, List.count_eq_zero]
    exact fun hmem => not_mem_utf8Bytes hp (List.mem_of_mem_take hmem)
  | hnewline p r hp ih =>
    have hbytes : utf8Bytes (p ++ '\n' :: r) = utf8Bytes p ++ 10 :: utf8Bytes r := by
      rw [utf8Bytes, List.flatMap_append, List.flatMap_cons]
      rfl
    have hnone : ∀ n, ((utf8Bytes p).take n).count 10 = 0 := fun n =>
      List.count_eq_zero.2 fun hmem => not_mem_utf8Bytes hp (List.mem_of_mem_take hmem)
    rw [hbytes]
    by_cases hle : offset ≤ byteLength p
    · rw [lineOf_newline hle, lineOf_of_not_mem hp,
        List.take_append_of_le_length (by rwa [length_utf8Bytes]), hnone]
    · obtain ⟨o, rfl⟩ : ∃ o, offset = byteLength p + 1 + o := ⟨offset - byteLength p - 1, by omega⟩
      rw [lineOf_below hp, ih, Nat.add_assoc, ← length_utf8Bytes, List.take_length_add_append,
        Nat.add_comm 1 o, List.take_succ_cons, List.count_append, List.count_cons_self,
        List.count_eq_zero.2 (not_mem_utf8Bytes hp), Nat.zero_add]

/-- An offset is in the span of its line and in no other. -/
theorem inside_span?_iff (cs : List Char) {offset : Nat} (h : offset ≤ byteLength cs) (line : Nat) :
    Inside ((ofText cs).span? line) offset ↔ line = (ofText cs).lineOf offset := by
  induction cs using line_induction generalizing offset line with
  | hlast p hp =>
    rw [lineOf_of_not_mem hp, span?_of_not_mem hp]
    by_cases hline : line = 0
    · rw [if_pos hline, inside_some]
      exact iff_of_true ⟨Nat.zero_le _, h⟩ hline
    · rw [if_neg hline]
      exact iff_of_false not_inside_none hline
  | hnewline p r hp ih =>
    have hsize : ('\n').utf8Size = 1 := by decide
    rw [byteLength_append, byteLength_cons, hsize] at h
    by_cases hle : offset ≤ byteLength p
    · rw [lineOf_newline hle, lineOf_of_not_mem hp]
      cases line with
      | zero =>
        rw [span?_zero_newline hp, inside_some]
        exact iff_of_true ⟨Nat.zero_le _, hle⟩ rfl
      | succ line =>
        rw [span?_succ_newline hp]
        exact iff_of_false (not_inside_later (Nat.lt_succ_of_le hle)) (Nat.succ_ne_zero _)
    · obtain ⟨o, rfl⟩ : ∃ o, offset = byteLength p + 1 + o := ⟨offset - byteLength p - 1, by omega⟩
      rw [lineOf_below hp]
      cases line with
      | zero =>
        rw [span?_zero_newline hp, inside_some]
        exact iff_of_false (fun hin => hle hin.2) (Nat.succ_ne_zero _).symm
      | succ line =>
        rw [span?_succ_newline hp, inside_later, ih (by omega), Nat.add_right_cancel_iff]

/-! ### The lines themselves -/

/-- The spans of the lines cut the pieces between the newlines out of the text, in order. -/
theorem exists_spans (cs : List Char) :
    ∃ spans, (List.range (ofText cs).count).map (ofText cs).span? = spans.map some ∧
      List.Forall₂ (CutsOut cs) (splitAt '\n' cs) spans := by
  induction cs using line_induction with
  | hlast p hp =>
    refine ⟨[(0, byteLength p)], ?_, ?_⟩
    · rw [ofText_of_not_mem hp]
      rfl
    · rw [splitAt_of_not_mem hp]
      have hfirst := CutsOut.first p []
      rw [List.append_nil] at hfirst
      exact .cons hfirst .nil
  | hnewline p r hp ih =>
    obtain ⟨spans, hspans, hcut⟩ := ih
    have hfront : byteLength (p ++ ['\n']) = byteLength p + 1 := byteLength_append _ _
    have hlater : (ofText (p ++ '\n' :: r)).span? ∘ Nat.succ =
        Option.map (later (byteLength p + 1)) ∘ (ofText r).span? :=
      funext (span?_succ_newline hp r)
    refine ⟨(0, byteLength p) :: spans.map (later (byteLength p + 1)), ?_, ?_⟩
    · rw [count_newline hp, List.range_succ_eq_map, List.map_cons, span?_zero_newline hp,
        List.map_map, hlater, ← List.map_map, hspans, List.map_map, List.map_cons, List.map_map]
      rfl
    · rw [splitAt_append hp, List.forall₂_cons, List.forall₂_map_right_iff]
      refine ⟨.first p ('\n' :: r), hcut.imp fun part span hspan => ?_⟩
      have hmoved := hspan.append (p ++ ['\n'])
      rwa [hfront, List.append_assoc, List.singleton_append] at hmoved

theorem span?_eq_none (cs : List Char) {line : Nat} (h : (ofText cs).count ≤ line) :
    (ofText cs).span? line = none := by
  rw [span?, List.getElem?_eq_none h]
  rfl

/-! ### Searching the line starts -/

/-- The lines start one behind the other. -/
theorem pairwise_starts (cs : List Char) : (ofText cs).starts.Pairwise (· < ·) := by
  have hbehind : ∀ offset, (lineStartsFrom offset cs).Pairwise (· < ·) := by
    induction cs with
    | nil => exact fun _ => .nil
    | cons c cs ih =>
      intro offset
      rw [lineStartsFrom]
      split
      · exact .cons (fun start hstart => lt_of_mem_lineStartsFrom hstart) (ih _)
      · exact ih _
  exact .cons (fun start hstart => lt_of_mem_lineStartsFrom hstart) (hbehind 0)

/-- The line of an offset starts at it, or the next line is the first that starts behind it. -/
theorem eq_of_searchEnds {cs : List Char} {offset : Nat} {found : Except Nat Nat}
    (h : SearchEnds (ofText cs).starts offset found) :
    found = .ok ((ofText cs).lineOf offset) ∨ found = .error ((ofText cs).lineOf offset + 1) := by
  have hincreasing := pairwise_starts cs
  cases found with
  | ok line =>
    obtain ⟨hlt, hat⟩ := List.getElem?_eq_some_iff.1 h
    have hsplit := List.take_append_drop line (ofText cs).starts
    rw [List.drop_eq_getElem_cons hlt, hat] at hsplit
    rw [← hsplit, List.pairwise_append, List.pairwise_cons] at hincreasing
    obtain ⟨-, ⟨hafter, -⟩, hbefore⟩ := hincreasing
    have hupTo : ∀ start ∈ (ofText cs).starts.take line ++ [offset], start ≤ offset := by
      intro start hstart
      rcases List.mem_append.1 hstart with hstart | hstart
      · exact Nat.le_of_lt (hbefore start hstart offset List.mem_cons_self)
      · exact Nat.le_of_eq (List.mem_singleton.1 hstart)
    have hlength := length_takeWhile_append hupTo hafter
    rw [List.append_assoc, List.singleton_append, hsplit, List.length_append, List.length_take,
      Nat.min_eq_left (Nat.le_of_lt hlt)] at hlength
    rw [lineOf, hlength]
    exact Or.inl rfl
  | error next =>
    obtain ⟨hle, hbefore, hafter⟩ := h
    have hlength := length_takeWhile_append
      (fun start hstart => Nat.le_of_lt (hbefore start hstart)) hafter
    rw [List.take_append_drop, List.length_take, Nat.min_eq_left hle] at hlength
    -- the first line starts with the text, so no search ends before it
    have hpos : next ≠ 0 := by
      rintro rfl
      exact absurd (hafter 0 List.mem_cons_self) (Nat.not_lt_zero _)
    rw [lineOf, hlength, Nat.sub_add_cancel (Nat.pos_of_ne_zero hpos)]
    exact Or.inr rfl

/-! ### Texts -/

/-- **A line table is exact.** The line of an offset is the number of newlines of the text before it,
and a search of the line starts ends there. The spans of the lines lie between characters, and what they
cut out of the text, joined with newlines, is the text; there are no further spans. An offset up to the
length of the text lies in the span of its line and in no other. -/
theorem ofText_exact (text : String) :
    let table := ofText text.toList
    let bytes := text.toUTF8.data.toList
    (∀ offset, table.lineOf offset = (bytes.take (min offset text.utf8ByteSize)).count 10) ∧
      (table.starts.Pairwise (· < ·) ∧ ∀ offset found, SearchEnds table.starts offset found →
        found = .ok (table.lineOf offset) ∨ found = .error (table.lineOf offset + 1)) ∧
      (∃ spans : List (Nat × Nat), (List.range table.count).map table.span? = spans.map some ∧
        (∀ span ∈ spans, String.Pos.Raw.IsValid text ⟨span.1⟩ ∧
          String.Pos.Raw.IsValid text ⟨span.2⟩) ∧
        joinWith ['\n'] (spans.map fun span => slice span.1 span.2 text.toList) = text.toList) ∧
      (∀ line, table.count ≤ line → table.span? line = none) ∧
      ∀ offset ≤ text.utf8ByteSize, ∀ line,
        (∃ start stop, table.span? line = some (start, stop) ∧ start ≤ offset ∧ offset ≤ stop) ↔
          line = table.lineOf offset := by
  intro table bytes
  obtain ⟨spans, hspans, hcut⟩ := exists_spans text.toList
  refine ⟨fun offset => ?_, ⟨pairwise_starts text.toList, fun offset found => eq_of_searchEnds⟩,
    ⟨spans, hspans, fun span hspan => ?_, ?_⟩, fun line => span?_eq_none text.toList,
    fun offset hoffset => ?_⟩
  · have hbytes : bytes = utf8Bytes text.toList := toList_toUTF8 text
    have hlength : bytes.length = text.utf8ByteSize := by
      rw [hbytes, length_utf8Bytes, utf8ByteSize_eq]
    rw [← hlength, ← List.take_eq_take_min, hbytes]
    exact lineOf_eq_count text.toList offset
  · obtain ⟨i, hi, rfl⟩ := List.getElem_of_mem hspan
    exact (hcut.get (hcut.length_eq ▸ hi) hi).isValid
  · have hpieces : List.Forall₂ (· = ·) (splitAt '\n' text.toList)
        (spans.map fun span => slice span.1 span.2 text.toList) :=
      List.forall₂_map_right_iff.2 (hcut.imp fun _ _ hspan => hspan.slice_eq.symm)
    rw [List.forall₂_eq_eq_eq] at hpieces
    rw [← hpieces, joinWith_splitAt]
  · rw [utf8ByteSize_eq] at hoffset
    exact inside_span?_iff text.toList hoffset

/-- Empty lines, a character of two bytes, offsets within it and behind the end, and a text that ends
with a newline. -/
theorem ofText_exact_emptyLines :
    let text := "é\n\nab\n"
    let table := ofText text.toList
    table.lineOf 1 = 0 ∧ table.lineOf 3 = 1 ∧ table.lineOf 100 = 3 ∧
      (SearchEnds table.starts 5 (.error 3) ∧ table.lineOf 5 = 2) ∧ table.span? 3 = some (7, 7) ∧
      table.span? 4 = none ∧
      (∃ start stop, table.span? 2 = some (start, stop) ∧ start ≤ 6 ∧ 6 ≤ stop) := by
  intro text table
  obtain ⟨hline, ⟨-, hsearch⟩, -, hnone, hheld⟩ := ofText_exact text
  have hsize : text.utf8ByteSize = 7 := by decide
  have hends : SearchEnds table.starts 5 (.error 3) := ⟨by decide, by decide, by decide⟩
  have hfound : table.lineOf 5 = 2 := by
    rcases hsearch 5 (.error 3) hends with h | h
    · cases h
    · exact (Nat.succ.inj (Except.error.inj h)).symm
  refine ⟨?_, ?_, ?_, ⟨hends, hfound⟩, by decide, hnone 4 (by decide),
    (hheld 6 (by rw [hsize]; decide) 2).2 ?_⟩
  · exact (hline 1).trans (by decide)
  · exact (hline 3).trans (by decide)
  · exact (hline 100).trans (by decide)
  · exact ((hline 6).trans (by decide)).symm

end LineTable

end CInterface.Text
