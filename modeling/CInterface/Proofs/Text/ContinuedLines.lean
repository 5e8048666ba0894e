import CInterface.Proofs.Text.Lines
/-!
# Continued lines, line by line

Joining goes through the lines of a text with the text that is held back and the number of lines that
it comes from. What it amounts to can be said for each line alone: a line that the one before goes on in
is left empty, and any other one takes the text of the lines that it goes on in.

* `physicalLines` — the lines of a text as they are joined.
* `logicalLine` — a line with those that it goes on in, as one.
* `joinedLine` — what stands on a line when the lines are joined.
* `joinLines_eq` — what joining gives from some line on, with or without text held back.
* `lines_joinContinuations` — what stands on each line of the joined text.
-/

namespace CInterface.Text

/-- The lines of a text, without one carriage return at the end of each. -/
def physicalLines (cs : List Char) : List (List Char) := (splitAt '\n' cs).map dropReturn

/-- The line goes on in the next one: a backslash ends it. -/
def goesOn (line : List Char) : Bool := line.getLast? = some '\\'

/-- The line without the backslash that ends it, if one does. -/
def unbroken (line : List Char) : List Char := if goesOn line then line.dropLast else line

/-- The first of some lines as it reads with those that it goes on in: one after the other, up to and
with the first that does not go on, or to the end of all. -/
def logicalLine (lines : List (List Char)) : List Char :=
  ((lines.take ((lines.takeWhile goesOn).length + 1)).map unbroken).flatten

/-- What stands on a line when the lines are joined. -/
def joinedLine (lines : List (List Char)) : Nat → List Char
  | 0 => logicalLine lines
  | k + 1 => if lines[k]?.any goesOn then [] else logicalLine (lines.drop (k + 1))

theorem logicalLine_nil : logicalLine [] = [] := rfl

theorem logicalLine_of_goesOn {line : List Char} (h : goesOn line = true)
    (rest : List (List Char)) : logicalLine (line :: rest) = line.dropLast ++ logicalLine rest := by
  rw [logicalLine, List.takeWhile_cons_of_pos h, List.length_cons, List.take_succ_cons,
    List.map_cons, List.flatten_cons, unbroken, if_pos h, logicalLine]

theorem logicalLine_of_ends {line : List Char} (h : goesOn line = false)
    (rest : List (List Char)) : logicalLine (line :: rest) = line := by
  have hnot : ¬ goesOn line = true := Bool.eq_false_iff.1 h
  rw [logicalLine, List.takeWhile_cons_of_neg hnot]
  simp [unbroken, h]

/-- What stands on some lines when they are joined, where a line before them goes on or does not. -/
def joinedBehind (continued : Bool) : List (List Char) → List (List Char)
  | [] => []
  | line :: rest =>
    (if continued then [] else logicalLine (line :: rest)) :: joinedBehind (goesOn line) rest

/-- **What joining gives from some line on.** Without text held back these are the lines as they stand;
with text of some lines held back, that text goes on with the first logical line, and an empty line
follows for each of these lines but one. -/
theorem joinLines_eq (lines : List (List Char)) :
    joinLines [] 0 lines = joinedBehind false (lines.map dropReturn) ∧
      ∀ held count, joinLines held (count + 1) lines =
        (held ++ logicalLine (lines.map dropReturn)) ::
          (List.replicate count [] ++ joinedBehind true (lines.map dropReturn)) := by
  induction lines with
  | nil =>
    refine ⟨rfl, fun held count => ?_⟩
    rw [joinLines, if_neg (Nat.succ_ne_zero count), List.map_nil, logicalLine_nil, List.append_nil,
      joinedBehind, List.append_nil, Nat.add_sub_cancel]
  | cons line rest ih =>
    obtain ⟨hfree, hheld⟩ := ih
    by_cases hgoes : goesOn (dropReturn line) = true
    · have hslash : (dropReturn line).getLast? = some '\\' := of_decide_eq_true hgoes
      simp only [joinLines, if_pos hslash, List.map_cons, logicalLine_of_goesOn hgoes, joinedBehind,
        hgoes, if_true]
      refine ⟨?_, fun held count => ?_⟩
      · rw [hheld, List.nil_append]
        rfl
      · rw [hheld, List.append_assoc, List.replicate_succ', List.append_assoc]
        rfl
    · have hslash : ¬ (dropReturn line).getLast? = some '\\' := fun h => hgoes (decide_eq_true h)
      rw [Bool.not_eq_true] at hgoes
      simp only [joinLines, if_neg hslash, List.map_cons, logicalLine_of_ends hgoes, joinedBehind,
        hgoes, hfree]
      refine ⟨rfl, fun held count => ?_⟩
      rw [List.replicate_succ', List.cons_append, List.append_assoc]
      rfl

/-- The lines behind one that is there, each by its number. -/
theorem joinedBehind_eq_map (line : List Char) (rest : List (List Char)) :
    joinedBehind (goesOn line) rest =
      (List.range rest.length).map fun k => joinedLine (line :: rest) (k + 1) := by
  induction rest generalizing line with
  | nil => rfl
  | cons next rest ih =>
    rw [joinedBehind, ih next, List.length_cons, List.range_succ_eq_map, List.map_cons, List.map_map]
    rfl

theorem joinLines_eq_map (lines : List (List Char)) :
    joinLines [] 0 lines = (List.range lines.length).map (joinedLine (lines.map dropReturn)) := by
  rw [(joinLines_eq lines).1]
  cases lines with
  | nil => rfl
  | cons line rest =>
    have hbehind := joinedBehind_eq_map (dropReturn line) (rest.map dropReturn)
    rw [List.length_map] at hbehind
    rw [List.map_cons, joinedBehind, hbehind, List.length_cons, List.range_succ_eq_map, List.map_cons,
      List.map_map]
    rfl

/-- **Joining keeps every logical line where it starts.** The joined text has as many lines as the text;
a line is empty if the one before goes on, and otherwise it is made of the line of the text, of those
that this goes on in, up to the first that does not go on, and nothing else, each without the backslash
at its end. -/
theorem lines_joinContinuations (cs : List Char) :
    (splitAt '\n' (joinContinuations cs)).length = (splitAt '\n' cs).length ∧
      splitAt '\n' (joinContinuations cs) =
        (List.range (physicalLines cs).length).map (joinedLine (physicalLines cs)) := by
  rw [splitAt_joinContinuations, length_joinLines, Nat.zero_add, physicalLines, List.length_map]
  exact ⟨rfl, joinLines_eq_map _⟩

/-- A line that two others go on, with a return and an empty line among them, and one that the end of
the text cuts off. -/
example : (physicalLines "a\\\r\n\\\nb\\\\\nc\nd\\".toList).map String.ofList =
      ["a\\", "\\", "b\\\\", "c", "d\\"] ∧
    joinContinuations "a\\\r\n\\\nb\\\\\nc\nd\\".toList = "ab\\c\n\n\n\nd".toList := by decide

end CInterface.Text
