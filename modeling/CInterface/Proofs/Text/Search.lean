import Mathlib.Data.List.Infix
import CInterface.Proofs.Text.Lines
import CInterface.Proofs.Text.Offsets
/-!
# Lines with a text

Three things have to agree where lines are searched for a text: the lines of the text, in which a
return before the newline does not count, the table that gives the line of an offset, and the
occurrences, of which none overlaps another. A needle without line endings occurs within lines only,
and an occurrence that is passed over since it overlaps another is on the line of that one.

* `Text.lines_newline` — the lines of a text, first line first.
* `Text.occurrencesFrom_newline` — so are the occurrences of a needle.
* `Text.occurrencesFrom_eq_nil_iff` — a text has an occurrence if it holds the needle.
* `Text.linesOf_newline` — the lines of the occurrences.
-/

namespace CInterface.Text

variable {needle p : List Char}

/-- A text is a line without a newline, or begins with one that a newline ends. -/
theorem line_induction {P : List Char → Prop} (hlast : ∀ p, '\n' ∉ p → P p)
    (hnewline : ∀ p r, '\n' ∉ p → P r → P (p ++ '\n' :: r)) (cs : List Char) : P cs := by
  by_cases h : '\n' ∈ cs
  · obtain ⟨p, r, hcs, hp⟩ := List.eq_append_cons_of_mem h
    have hlt : r.length < cs.length := by
      rw [hcs, List.length_append, List.length_cons]
      omega
    rw [hcs]
    exact hnewline p r hp (line_induction hlast hnewline r)
  · exact hlast cs h
  termination_by cs.length

/-! ### Lines -/

theorem lines_of_not_mem (h : '\n' ∉ p) : lines p = if p = [] then [] else [p] := by
  rw [lines, splitAt_of_not_mem h]
  cases p <;> rfl

theorem lines_newline (h : '\n' ∉ p) (r : List Char) :
    lines (p ++ '\n' :: r) = dropReturn p :: lines r := by
  obtain ⟨q, qs, hq⟩ := List.exists_cons_of_ne_nil (splitAt_ne_nil '\n' r)
  rw [lines, lines, splitAt_append h, hq, List.dropLast_cons_cons, List.map_cons,
    List.getLast?_cons_cons]
  split <;> rfl

/-- A needle without returns does not see the return at the end of a line. -/
theorem infix_dropReturn_iff (h : '\r' ∉ needle) : needle <:+: dropReturn p ↔ needle <:+: p := by
  unfold dropReturn
  split
  · rename_i hlast
    obtain ⟨q, rfl⟩ := List.getLast?_eq_some_iff.1 hlast
    rw [List.dropLast_concat, List.infix_concat_iff]
    refine ⟨Or.inr, fun hor => hor.elim (fun hsuffix => ?_) id⟩
    rcases List.suffix_concat_iff.1 hsuffix with rfl | ⟨n, rfl, -⟩
    · exact List.nil_infix
    · exact absurd (List.mem_append_right n List.mem_cons_self) h
  · rfl

/-! ### Occurrences -/

/-- A needle without newlines begins a text where it begins the first line. -/
theorem isPrefixOf_newline (h : '\n' ∉ needle) (p r : List Char) :
    needle.isPrefixOf (p ++ '\n' :: r) = needle.isPrefixOf p := by
  induction needle generalizing p with
  | nil => rfl
  | cons c needle ih =>
    have hc : c ≠ '\n' := fun e => h (e ▸ List.mem_cons_self)
    cases p with
    | nil =>
      rw [List.nil_append, List.isPrefixOf_cons_cons, beq_eq_false_iff_ne.2 hc]
      rfl
    | cons d p =>
      rw [List.cons_append, List.isPrefixOf_cons_cons, List.isPrefixOf_cons_cons,
        ih fun hm => h (List.mem_cons_of_mem c hm)]

theorem occurrencesFrom_add (needle : List Char) (k offset skip : Nat) (cs : List Char) :
    occurrencesFrom needle (k + offset) skip cs =
      (occurrencesFrom needle offset skip cs).map (k + ·) := by
  induction cs generalizing offset skip with
  | nil => rfl
  | cons c cs ih =>
    cases skip with
    | succ skip => rw [occurrencesFrom, occurrencesFrom, Nat.add_assoc, ih]
    | zero =>
      rw [occurrencesFrom, occurrencesFrom, Nat.add_assoc, ih, ih]
      split <;> rfl

theorem lt_of_mem_occurrencesFrom {offset skip o : Nat} {cs : List Char}
    (h : o ∈ occurrencesFrom needle offset skip cs) : o < offset + byteLength cs := by
  induction cs generalizing offset skip with
  | nil => cases h
  | cons c cs ih =>
    have hc := c.utf8Size_pos
    rw [byteLength_cons, ← Nat.add_assoc]
    cases skip with
    | succ skip => exact ih h
    | zero =>
      rw [occurrencesFrom] at h
      split at h
      · rcases List.mem_cons.1 h with rfl | h
        · omega
        · exact ih h
      · exact ih h

/-- No occurrence goes on behind a newline. -/
theorem occurrencesFrom_newline (hne : needle ≠ []) (h : '\n' ∉ needle) {offset skip : Nat}
    (hskip : skip ≤ p.length) (r : List Char) :
    occurrencesFrom needle offset skip (p ++ '\n' :: r) = occurrencesFrom needle offset skip p ++
      occurrencesFrom needle (offset + byteLength p + 1) 0 r := by
  induction p generalizing offset skip with
  | nil =>
    obtain rfl : skip = 0 := Nat.le_zero.1 hskip
    have hnot : needle.isPrefixOf ('\n' :: r) = false := by
      rw [← List.nil_append ('\n' :: r), isPrefixOf_newline h]
      exact List.isPrefixOf_length_pos_nil (List.length_pos_iff.2 hne)
    have hpassed : occurrencesFrom needle offset 0 ('\n' :: r) =
        occurrencesFrom needle (offset + ('\n').utf8Size) 0 r := by
      rw [occurrencesFrom, hnot, if_neg Bool.false_ne_true]
    exact hpassed
  | cons c p ih =>
    rw [List.cons_append, byteLength_cons, ← Nat.add_assoc]
    cases skip with
    | succ skip => rw [occurrencesFrom, occurrencesFrom, ih (Nat.le_of_succ_le_succ hskip)]
    | zero =>
      rw [occurrencesFrom, occurrencesFrom, ← List.cons_append, isPrefixOf_newline h]
      split
      · rename_i hprefix
        have hle := (List.isPrefixOf_iff_prefix.1 hprefix).length_le
        rw [List.length_cons] at hle
        rw [ih (by omega), List.cons_append]
      · rw [ih (Nat.zero_le _)]

theorem occurrencesFrom_eq_nil_iff (hne : needle ≠ []) (offset : Nat) (cs : List Char) :
    occurrencesFrom needle offset 0 cs = [] ↔ ¬ needle <:+: cs := by
  induction cs generalizing offset with
  | nil =>
    rw [List.infix_nil]
    exact ⟨fun _ => hne, fun _ => rfl⟩
  | cons c cs ih =>
    rw [occurrencesFrom, List.infix_cons_iff, not_or, ← List.isPrefixOf_iff_prefix]
    split
    · rename_i hprefix
      exact ⟨nofun, fun hnot => absurd hprefix hnot.1⟩
    · rename_i hprefix
      rw [ih]
      exact (and_iff_right hprefix).symm

/-! ### Lines of occurrences -/

theorem lineStartsFrom_of_not_mem (h : '\n' ∉ p) (offset : Nat) : lineStartsFrom offset p = [] := by
  induction p generalizing offset with
  | nil => rfl
  | cons c p ih =>
    rw [lineStartsFrom, if_neg fun hc : c = '\n' => h (hc ▸ List.mem_cons_self)]
    exact ih (fun hm => h (List.mem_cons_of_mem c hm)) _

theorem lineOf_of_not_mem (h : '\n' ∉ p) (offset : Nat) :
    (LineTable.ofText p).lineOf offset = 0 := by
  rw [LineTable.ofText, lineStartsFrom_of_not_mem h, LineTable.lineOf,
    List.takeWhile_cons_of_pos (by simp)]
  rfl

/-- An offset behind the newline of the first line is a line further down than it is in the rest. -/
theorem lineOf_below (h : '\n' ∉ p) (r : List Char) (offset : Nat) :
    (LineTable.ofText (p ++ '\n' :: r)).lineOf (byteLength p + 1 + offset) =
      (LineTable.ofText r).lineOf offset + 1 := by
  have hshift := LineTable.lineOf_append offset (p ++ ['\n']) r
  rw [byteLength_append, List.append_assoc, List.singleton_append, lineStartsFrom_append,
    lineStartsFrom_of_not_mem h] at hshift
  exact hshift

/-- The line of each occurrence of a needle. -/
def linesOf (needle cs : List Char) : List Nat :=
  (occurrences needle cs).map (LineTable.ofText cs).lineOf

theorem occurrences_eq (hne : needle ≠ []) (cs : List Char) :
    occurrences needle cs = occurrencesFrom needle 0 0 cs := by
  rw [occurrences, List.isEmpty_eq_false_iff.2 hne, if_neg Bool.false_ne_true]

theorem linesOf_of_not_mem (h : '\n' ∉ p) :
    linesOf needle p = List.replicate (occurrences needle p).length 0 := by
  rw [linesOf, List.map_congr_left fun o _ => lineOf_of_not_mem h o, List.map_const']

/-- The occurrences on the first line come first, and the others are a line further down. -/
theorem linesOf_newline (hne : needle ≠ []) (hneedle : '\n' ∉ needle) (h : '\n' ∉ p)
    (r : List Char) : linesOf needle (p ++ '\n' :: r) =
      List.replicate (occurrences needle p).length 0 ++ (linesOf needle r).map (· + 1) := by
  have hfirst : ∀ o ∈ occurrencesFrom needle 0 0 p,
      (LineTable.ofText (p ++ '\n' :: r)).lineOf o = 0 := by
    intro o ho
    have hlt := lt_of_mem_occurrencesFrom ho
    rw [LineTable.lineOf_newline (by omega), lineOf_of_not_mem h]
  have hrest : occurrencesFrom needle (0 + byteLength p + 1) 0 r =
      (occurrencesFrom needle 0 0 r).map (byteLength p + 1 + ·) := by
    rw [Nat.zero_add, ← occurrencesFrom_add, Nat.add_zero]
  rw [linesOf, linesOf, occurrences_eq hne, occurrences_eq hne, occurrences_eq hne,
    occurrencesFrom_newline hne hneedle (Nat.zero_le _), hrest, List.map_append,
    List.map_congr_left hfirst, List.map_const', List.map_map, List.map_map]
  congr 1
  exact List.map_congr_left fun o _ => lineOf_below h r o

end CInterface.Text
