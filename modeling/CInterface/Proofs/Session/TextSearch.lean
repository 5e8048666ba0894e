import CInterface.Proofs.Session.Determinism
import CInterface.Proofs.Text.Search
/-!
# Searching the headers

Searching the headers for a text lists the lines that hold it, each once, in the order of the
headers and of their lines.

* `eraseReps_replicate` — of the occurrences on one line one counts.
* `Session.linesWith_eq` — the lines of a text with a needle.
* `Session.findText_eq` — the lines of all headers with a needle.
-/

namespace CInterface

open Text

/-! ### Repetitions -/

section Repetitions

theorem eraseRepsBy_loop {α : Type} (r : α → α → Bool) (a : α) (l acc : List α) :
    List.eraseRepsBy.loop r a l acc = acc.reverse ++ List.eraseRepsBy.loop r a l [] := by
  induction l generalizing a acc with
  | nil => simp [List.eraseRepsBy.loop]
  | cons b l ih =>
    rw [List.eraseRepsBy.loop, List.eraseRepsBy.loop]
    cases r a b with
    | true => exact ih a acc
    | false =>
      dsimp only
      rw [ih b (a :: acc), ih b [a], List.reverse_cons, List.append_assoc]
      rfl

variable {α β : Type} [BEq α] [LawfulBEq α] [BEq β] [LawfulBEq β]

theorem eraseReps_cons_self (a : α) (l : List α) :
    (a :: a :: l).eraseReps = (a :: l).eraseReps := by
  rw [List.eraseReps, List.eraseReps, List.eraseRepsBy, List.eraseRepsBy, List.eraseRepsBy.loop,
    beq_self_eq_true]

theorem eraseReps_cons_of_ne {a b : α} (h : a ≠ b) (l : List α) :
    (a :: b :: l).eraseReps = a :: (b :: l).eraseReps := by
  rw [List.eraseReps, List.eraseReps, List.eraseRepsBy, List.eraseRepsBy, List.eraseRepsBy.loop,
    beq_eq_false_iff_ne.2 h]
  exact eraseRepsBy_loop _ b l [a]

theorem eraseReps_map {f : α → β} (hf : f.Injective) (l : List α) :
    (l.map f).eraseReps = l.eraseReps.map f := by
  match l with
  | [] => rfl
  | [a] => rfl
  | a :: b :: l =>
    have ih := eraseReps_map hf (b :: l)
    by_cases hab : a = b
    · subst hab
      rw [List.map_cons, List.map_cons, eraseReps_cons_self, eraseReps_cons_self]
      exact ih
    · rw [List.map_cons, List.map_cons, eraseReps_cons_of_ne hab,
        eraseReps_cons_of_ne fun h => hab (hf h), List.map_cons]
      exact congrArg _ ih

/-- A repeated entry in front of others counts once. -/
theorem eraseReps_replicate (k : Nat) {a : α} {l : List α} (h : a ∉ l) :
    (List.replicate (k + 1) a ++ l).eraseReps = a :: l.eraseReps := by
  induction k with
  | zero =>
    cases l with
    | nil => rfl
    | cons b l => exact eraseReps_cons_of_ne (fun e : a = b => h (e ▸ List.mem_cons_self)) l
  | succ k ih =>
    rw [List.replicate_succ, List.replicate_succ, List.cons_append, List.cons_append,
      eraseReps_cons_self, ← List.cons_append, ← List.replicate_succ, ih]

end Repetitions

namespace Session

variable {needle : List Char}

/-- The lines of a text that hold a needle, with their numbers. -/
def linesHolding (needle text : List Char) : List (Nat × List Char) :=
  ((lines text).zipIdx.filter fun l => needle <:+: l.1).map Prod.swap

theorem linesWith_of_not_mem (hne : needle ≠ []) {p : List Char} (h : '\n' ∉ p) :
    linesWith needle p = if needle <:+: p then [(0, p)] else [] := by
  have hnil := occurrencesFrom_eq_nil_iff hne 0 p
  rw [← occurrences_eq hne] at hnil
  change (linesOf needle p).eraseReps.map (fun n => (n, (lines p)[n]?.getD [])) = _
  rw [linesOf_of_not_mem h]
  split
  · rename_i hin
    obtain ⟨o, os, hos⟩ := List.exists_cons_of_ne_nil fun hno => hnil.1 hno hin
    have hlines : lines p = [p] := by
      rw [lines_of_not_mem h, if_neg]
      rintro rfl
      exact hne (List.infix_nil.1 hin)
    have honce := eraseReps_replicate os.length (List.not_mem_nil (a := 0))
    rw [List.append_nil] at honce
    rw [hos, List.length_cons, honce, hlines]
    rfl
  · rename_i hnot
    rw [hnil.2 hnot]
    rfl

/-- The lines with a needle, first line first. -/
theorem linesWith_newline (hne : needle ≠ []) (hneedle : '\n' ∉ needle) {p : List Char}
    (h : '\n' ∉ p) (r : List Char) : linesWith needle (p ++ '\n' :: r) =
      (if needle <:+: p then [(0, dropReturn p)] else []) ++
        (linesWith needle r).map fun l => (l.1 + 1, l.2) := by
  have hnil := occurrencesFrom_eq_nil_iff hne 0 p
  rw [← occurrences_eq hne] at hnil
  have hbelow : ((linesOf needle r).map (· + 1)).eraseReps.map
      (fun n => (n, (lines (p ++ '\n' :: r))[n]?.getD [])) =
        (linesWith needle r).map fun l => (l.1 + 1, l.2) := by
    rw [eraseReps_map fun _ _ => Nat.add_right_cancel, lines_newline h]
    change _ = ((linesOf needle r).eraseReps.map _).map _
    rw [List.map_map, List.map_map]
    rfl
  change (linesOf needle (p ++ '\n' :: r)).eraseReps.map _ = _
  rw [linesOf_newline hne hneedle h, ← hbelow]
  split
  · rename_i hin
    obtain ⟨o, os, hos⟩ := List.exists_cons_of_ne_nil fun hno => hnil.1 hno hin
    rw [hos, List.length_cons, eraseReps_replicate _ (by simp), List.map_cons, lines_newline h]
    rfl
  · rename_i hnot
    rw [hnil.2 hnot]
    rfl

theorem linesHolding_of_not_mem (hne : needle ≠ []) {p : List Char} (h : '\n' ∉ p) :
    linesHolding needle p = if needle <:+: p then [(0, p)] else [] := by
  rw [linesHolding, lines_of_not_mem h]
  by_cases hin : needle <:+: p
  · have hp : p ≠ [] := by
      rintro rfl
      exact hne (List.infix_nil.1 hin)
    rw [if_neg hp, if_pos hin, List.zipIdx_singleton,
      List.filter_cons_of_pos (by exact decide_eq_true hin)]
    rfl
  · rw [if_neg hin]
    split
    · rfl
    · rw [List.zipIdx_singleton, List.filter_cons_of_neg (by exact mt of_decide_eq_true hin)]
      rfl

theorem linesHolding_newline (hneedle : '\r' ∉ needle) {p : List Char} (h : '\n' ∉ p)
    (r : List Char) : linesHolding needle (p ++ '\n' :: r) =
      (if needle <:+: p then [(0, dropReturn p)] else []) ++
        (linesHolding needle r).map fun l => (l.1 + 1, l.2) := by
  have hbelow : (((lines r).zipIdx 1).filter fun l => needle <:+: l.1).map Prod.swap =
      (linesHolding needle r).map fun l => (l.1 + 1, l.2) := by
    rw [linesHolding, List.zipIdx_succ, List.filter_map, List.map_map, List.map_map]
    rfl
  have hfirst := infix_dropReturn_iff (p := p) hneedle
  rw [linesHolding, lines_newline h, List.zipIdx_cons, ← hbelow]
  split
  · rename_i hin
    rw [List.filter_cons_of_pos (by exact decide_eq_true (hfirst.2 hin))]
    rfl
  · rename_i hnot
    rw [List.filter_cons_of_neg (by exact mt of_decide_eq_true (mt hfirst.1 hnot))]
    rfl

/-- The lines of the occurrences of a needle are the lines that hold it. -/
theorem linesWith_eq (hne : needle ≠ []) (hnewline : '\n' ∉ needle) (hreturn : '\r' ∉ needle)
    (text : List Char) : linesWith needle text = linesHolding needle text := by
  induction text using line_induction with
  | hlast p hp => rw [linesWith_of_not_mem hne hp, linesHolding_of_not_mem hne hp]
  | hnewline p r hp ih =>
    rw [linesWith_newline hne hnewline hp, linesHolding_newline hreturn hp, ih]

/-- **Searching the headers lists the lines that hold the text.** -/
theorem findText_eq (s : Session) {needle : String} (hne : needle ≠ "")
    (hnewline : '\n' ∉ needle.toList) (hreturn : '\r' ∉ needle.toList) :
    s.findText needle = s.headers.entries.flatMap fun (file, header) =>
      match header.text with
      | none => []
      | some text =>
        ((lines text.toList).zipIdx.filter fun (line, _) => needle.toList <:+: line).map
          fun (line, number) => ⟨file, number, String.ofList line⟩ := by
  have hne' : needle.toList ≠ [] := by
    rw [ne_eq, String.toList_eq_nil_iff]
    exact hne
  rw [findText]
  congr 1
  funext ⟨file, header⟩
  dsimp only
  cases htext : header.text with
  | none => rfl
  | some text =>
    dsimp only
    rw [linesWith_eq hne' hnewline hreturn, linesHolding, List.map_map]
    rfl

/-- Headers with both line endings, one of them without a text. -/
def searchedSetup : SessionSetup where
  headers := .ofList [("a.h", ⟨some "aaa aa\r\nb\n\nbaa\r", 0⟩), ("b.h", ⟨none, 0⟩),
    ("c.h", ⟨some "aa\n", 0⟩)]

/-- Occurrences that overlap, a line with two of them, a return before a newline, and one that ends
the text. -/
theorem findText_eq_searchedSetup :
    ∃ s, searchedSetup.buildWith .words = .ok s ∧ "aa" ≠ "" ∧ '\n' ∉ "aa".toList ∧ '\r' ∉ "aa".toList ∧
      s.findText "aa" = [⟨"a.h", 0, "aaa aa"⟩, ⟨"a.h", 3, "baa\r"⟩, ⟨"c.h", 0, "aa"⟩] := by
  refine ⟨_, rfl, by decide, by decide, by decide, ?_⟩
  rw [findText_eq _ (by decide) (by decide) (by decide)]
  decide +kernel

end Session

end CInterface
