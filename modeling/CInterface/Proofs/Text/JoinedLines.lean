import CInterface.Proofs.Text.Lines
/-!
# Where a line is joined to the next

A text that is put together from two has the lines of both, but the last line of the first and the
first of the second are one line. Where lines are continued, what becomes of that line depends on
the lines before it through the text that they hold back, and on the lines behind it through the
first joined line that these would give.

* `splitAt_append_text` — the lines of two texts.
* `openLine` — the line that a text ends in, with what is held back before it.
* `exists_joinLines_append` — joining the lines of a text comes to that line.
* `exists_joinLines_cons` — the first joined line of a text, behind what is held back.
-/

namespace CInterface.Text

section Joined

variable {sep : Char}

theorem splitAt_cons_of_splitAt {c : Char} (hc : c ≠ sep) {r p : List Char} {ps : List (List Char)}
    (h : splitAt sep r = p :: ps) : splitAt sep (c :: r) = (c :: p) :: ps := by
  rw [splitAt, if_neg hc, h]

/-- The last piece of a text and the first of the text behind it are one piece. -/
theorem splitAt_append_text {a b p q : List Char} {ps qs : List (List Char)}
    (ha : splitAt sep a = ps ++ [p]) (hb : splitAt sep b = q :: qs) :
    splitAt sep (a ++ b) = ps ++ (p ++ q) :: qs := by
  induction a generalizing ps p with
  | nil =>
    have hps : ps = [] := by
      have hlength := congrArg List.length ha
      rw [List.length_append] at hlength
      exact List.length_eq_zero_iff.1 (Nat.succ.inj hlength).symm
    subst hps
    obtain ⟨rfl, -⟩ := List.cons.inj ha
    exact hb
  | cons c a ih =>
    by_cases hc : c = sep
    · subst hc
      rw [splitAt_cons_self] at ha
      rw [List.cons_append, splitAt_cons_self]
      cases ps with
      | nil => exact absurd (List.cons.inj ha).2 (splitAt_ne_nil c a)
      | cons z ps =>
        obtain ⟨rfl, hrest⟩ := List.cons.inj ha
        rw [ih hrest]
        rfl
    · obtain ⟨x, xs, hx, hcx⟩ := splitAt_cons_of_ne hc a
      rw [hcx] at ha
      rw [List.cons_append]
      cases ps with
      | nil =>
        obtain ⟨rfl, rfl⟩ := List.cons.inj ha
        have hlast : splitAt sep a = [] ++ [x] := hx
        exact splitAt_cons_of_splitAt hc (ih hlast)
      | cons z ps =>
        obtain ⟨rfl, rfl⟩ := List.cons.inj ha
        have hlast : splitAt sep a = (x :: ps) ++ [p] := hx
        exact splitAt_cons_of_splitAt hc (ih hlast)

theorem exists_splitAt_eq (sep : Char) (a : List Char) : ∃ ps p, splitAt sep a = ps ++ [p] :=
  ⟨_, _, (List.dropLast_concat_getLast (splitAt_ne_nil sep a)).symm⟩

theorem splitAt_replicate (n : Nat) (b : List Char) :
    splitAt sep (List.replicate n sep ++ b) = List.replicate n [] ++ splitAt sep b := by
  induction n with
  | zero => rfl
  | succ n ih =>
    rw [List.replicate_succ, List.cons_append, splitAt_cons_self, ih]
    rfl

end Joined

/-- The part of the line that some lines end in: what was held before it, with the last of them. -/
def openLine (held : List Char) : List (List Char) → List Char
  | [] => held
  | [line] => held ++ line
  | line :: rest =>
    if (dropReturn line).getLast? = some '\\' then
      openLine (held ++ (dropReturn line).dropLast) rest
    else openLine [] rest

theorem openLine_cons (held line : List Char) {rest : List (List Char)} (h : rest ≠ []) :
    openLine held (line :: rest) =
      if (dropReturn line).getLast? = some '\\' then
        openLine (held ++ (dropReturn line).dropLast) rest
      else openLine [] rest := by
  cases rest with
  | nil => exact absurd rfl h
  | cons next rest => rfl

/-- Joining some lines comes to the last of them with a text held back. -/
theorem exists_joinLines_append (held : List Char) (count : Nat) (lines : List (List Char)) :
    ∃ out held' count', ∀ last,
      (∀ more, joinLines held count (lines ++ last :: more) =
          out ++ joinLines held' count' (last :: more)) ∧
        openLine held (lines ++ [last]) = held' ++ last := by
  induction lines generalizing held count with
  | nil => exact ⟨[], held, count, fun last => ⟨fun more => rfl, rfl⟩⟩
  | cons line lines ih =>
    by_cases hgoes : (dropReturn line).getLast? = some '\\'
    · obtain ⟨out, held', count', h⟩ := ih (held ++ (dropReturn line).dropLast) (count + 1)
      refine ⟨out, held', count', fun last => ⟨fun more => ?_, ?_⟩⟩
      · rw [List.cons_append, joinLines, if_pos hgoes]
        exact (h last).1 more
      · rw [List.cons_append, openLine_cons _ _ (by simp), if_pos hgoes]
        exact (h last).2
    · obtain ⟨out, held', count', h⟩ := ih [] 0
      refine ⟨(held ++ dropReturn line) :: List.replicate count [] ++ out, held', count',
        fun last => ⟨fun more => ?_, ?_⟩⟩
      · rw [List.cons_append, joinLines, if_neg hgoes, (h last).1 more, List.append_assoc]
      · rw [List.cons_append, openLine_cons _ _ (by simp), if_neg hgoes]
        exact (h last).2

/-- The first joined line goes on with what is held, and is followed by an empty line for each line
that went into it. -/
theorem exists_joinLines_cons {lines : List (List Char)} (hne : lines ≠ []) :
    ∃ first count' more, ∀ held count, joinLines held count lines =
      (held ++ first) :: (List.replicate (count + count') [] ++ more) := by
  induction lines with
  | nil => exact absurd rfl hne
  | cons line lines ih =>
    by_cases hgoes : (dropReturn line).getLast? = some '\\'
    · cases lines with
      | nil =>
        refine ⟨(dropReturn line).dropLast, 0, [], fun held count => ?_⟩
        simp only [joinLines, if_pos hgoes]
        simp
      | cons next lines =>
        obtain ⟨first, count', more, h⟩ := ih (List.cons_ne_nil _ _)
        refine ⟨(dropReturn line).dropLast ++ first, count' + 1, more, fun held count => ?_⟩
        rw [joinLines, if_pos hgoes, h, List.append_assoc, Nat.add_assoc, Nat.add_comm 1]
    · refine ⟨dropReturn line, 0, joinLines [] 0 lines, fun held count => ?_⟩
      rw [joinLines, if_neg hgoes, List.cons_append, Nat.add_zero]

theorem joinLines_replicate (n : Nat) {lines : List (List Char)} :
    joinLines [] 0 (List.replicate n [] ++ lines) =
      List.replicate n [] ++ joinLines [] 0 lines := by
  induction n with
  | zero => rfl
  | succ n ih =>
    rw [List.replicate_succ, List.cons_append, joinLines, if_neg (by decide), ih]
    rfl

section Blank

variable {line : List Char}

theorem getLast?_append_ne_nil (a : List Char) {b : List Char} (h : b ≠ []) :
    (a ++ b).getLast? = b.getLast? := by
  rw [List.getLast?_append, List.getLast?_eq_some_getLast h, Option.some_or]

/-- A line that ends with a space is neither continued nor does it end with a return. -/
theorem joinLines_blank (h : line.getLast? = some ' ') (held : List Char) (count : Nat)
    (next : List Char) (more : List (List Char)) :
    joinLines held count ((line ++ next) :: more) =
      joinLines (held ++ line) count (next :: more) := by
  have hreturn : dropReturn (line ++ next) = line ++ dropReturn next := by
    cases next with
    | nil => simp [dropReturn, h]
    | cons c next =>
      have hlast : (line ++ c :: next).getLast? = (c :: next).getLast? := by
        exact getLast?_append_ne_nil line (List.cons_ne_nil c next)
      rw [dropReturn, hlast, dropReturn, List.dropLast_append_of_ne_nil (List.cons_ne_nil c next)]
      split <;> rfl
  rw [joinLines, joinLines, hreturn]
  by_cases hnil : dropReturn next = []
  · rw [hnil, List.append_nil, h, if_neg (by decide), if_neg (by decide), List.append_nil]
  · rw [getLast?_append_ne_nil line hnil, List.dropLast_append_of_ne_nil hnil,
      List.append_assoc, List.append_assoc]

/-- Newlines between two texts, of which the first ends with a space: they part the line that the
first ends in from the first line of the second. -/
theorem exists_joinLines_newlines (a b : List Char) : ∃ out first count count' more,
    (joinLines [] 0 (splitAt '\n' b)).head? = some first ∧
      joinLines [] 0 (splitAt '\n' (a ++ [' '] ++ b)) =
        out ++ (openLine [] (splitAt '\n' (a ++ [' '])) ++ first) ::
          (List.replicate (count + count') [] ++ more) ∧
      ∀ n, joinLines [] 0 (splitAt '\n' (a ++ [' '] ++ '\n' :: (List.replicate n '\n' ++ b))) =
        out ++ openLine [] (splitAt '\n' (a ++ [' '])) ::
          (List.replicate count [] ++ (List.replicate n [] ++
            first :: (List.replicate count' [] ++ more))) := by
  obtain ⟨ps, p, ha⟩ := exists_splitAt_eq '\n' a
  obtain ⟨q, qs, hb⟩ := List.exists_cons_of_ne_nil (splitAt_ne_nil '\n' b)
  have hblank : splitAt '\n' (a ++ [' ']) = ps ++ [p ++ [' ']] := splitAt_append_text ha rfl
  have hlast : (p ++ [' ']).getLast? = some ' ' := List.getLast?_concat
  obtain ⟨out, held, count, hout⟩ := exists_joinLines_append [] 0 ps
  obtain ⟨first, count', more, hfirst⟩ := exists_joinLines_cons (List.cons_ne_nil q qs)
  refine ⟨out, first, count, count', more, ?_, ?_, fun n => ?_⟩
  · rw [hb, hfirst]
    rfl
  · rw [splitAt_append_text hblank hb, (hout _).1, joinLines_blank hlast, hfirst, hblank,
      (hout _).2]
  · have hnewline : splitAt '\n' ('\n' :: (List.replicate n '\n' ++ b)) =
        [] :: (List.replicate n [] ++ q :: qs) := by
      rw [splitAt_cons_self, splitAt_replicate, hb]
    rw [splitAt_append_text hblank hnewline, (hout _).1, joinLines_blank hlast, hblank, (hout _).2,
      joinLines, if_neg (by decide), joinLines_replicate, hfirst, Nat.zero_add]
    rw [show dropReturn [] = [] from rfl, List.append_nil, List.nil_append, List.cons_append]

end Blank

end CInterface.Text
