import CInterface.Text.LineTable
/-!
# Lines of joined texts

An offset keeps its line when another text follows a newline, and a text in front moves it by as many
lines as that text has newlines.

* `lineStartsFrom_append`, `lineStartsFrom_add` — where the lines of a text start when it stands
  between others.
* `LineTable.lineOf_newline`, `LineTable.lineOf_append` — the line of an offset of a joined text.
-/

namespace CInterface.Text

theorem lineStartsFrom_append (offset : Nat) (cs ds : List Char) :
    lineStartsFrom offset (cs ++ ds) =
      lineStartsFrom offset cs ++ lineStartsFrom (offset + byteLength cs) ds := by
  induction cs generalizing offset with
  | nil => rfl
  | cons c cs ih =>
    rw [List.cons_append, lineStartsFrom, lineStartsFrom, ih, byteLength_cons, Nat.add_assoc]
    split <;> rfl

theorem lineStartsFrom_add (k offset : Nat) (cs : List Char) :
    lineStartsFrom (k + offset) cs = (lineStartsFrom offset cs).map (k + ·) := by
  induction cs generalizing offset with
  | nil => rfl
  | cons c cs ih =>
    rw [lineStartsFrom, lineStartsFrom, Nat.add_assoc, ih]
    split <;> rfl

/-- A line starts behind the newline of the line before. -/
theorem le_of_mem_lineStartsFrom {offset start : Nat} {cs : List Char}
    (h : start ∈ lineStartsFrom offset cs) : start ≤ offset + byteLength cs := by
  induction cs generalizing offset with
  | nil => cases h
  | cons c cs ih =>
    rw [lineStartsFrom] at h
    rw [byteLength_cons, ← Nat.add_assoc]
    split at h
    · rcases List.mem_cons.1 h with rfl | h
      · exact Nat.le_add_right _ _
      · exact ih h
    · exact ih h

namespace LineTable

/-- Lines behind an offset do not change its line. -/
theorem lineOf_newline {offset : Nat} {cs : List Char} (h : offset ≤ byteLength cs) (ds : List Char) :
    (ofText (cs ++ '\n' :: ds)).lineOf offset = (ofText cs).lineOf offset := by
  have hnext : ¬(0 + byteLength cs + ('\n' : Char).utf8Size ≤ offset) := by
    have hsize : ('\n' : Char).utf8Size = 1 := by decide
    omega
  have hstarts : (0 :: lineStartsFrom 0 (cs ++ '\n' :: ds)).takeWhile (· ≤ offset) =
      (0 :: lineStartsFrom 0 cs).takeWhile (· ≤ offset) := by
    rw [lineStartsFrom_append, ← List.cons_append, List.takeWhile_append]
    split
    · rw [lineStartsFrom, if_pos rfl, List.takeWhile_cons_of_neg (by simpa using hnext),
        List.append_nil]
      rename_i hall
      exact ((List.takeWhile_prefix _).eq_of_length hall).symm
    · rfl
  unfold lineOf ofText
  rw [hstarts]

/-- A text in front moves an offset by its bytes, and the line of the offset by its lines. -/
theorem lineOf_append (offset : Nat) (cs ds : List Char) :
    (ofText (cs ++ ds)).lineOf (byteLength cs + offset) =
      (ofText ds).lineOf offset + (lineStartsFrom 0 cs).length := by
  have hfront : ∀ start ∈ 0 :: lineStartsFrom 0 cs, decide (start ≤ byteLength cs + offset) = true := by
    intro start hstart
    rw [decide_eq_true_eq]
    rcases List.mem_cons.1 hstart with rfl | hstart
    · exact Nat.zero_le _
    · have hle := le_of_mem_lineStartsFrom hstart
      omega
  have hbehind : ((lineStartsFrom (byteLength cs) ds).takeWhile (· ≤ byteLength cs + offset)).length =
      ((lineStartsFrom 0 ds).takeWhile (· ≤ offset)).length := by
    have hadd := lineStartsFrom_add (byteLength cs) 0 ds
    rw [Nat.add_zero] at hadd
    rw [hadd, List.takeWhile_map, List.length_map]
    congr 2
    funext start
    exact decide_eq_decide.2 Nat.add_le_add_iff_left
  have hstarts : ((0 :: lineStartsFrom 0 (cs ++ ds)).takeWhile (· ≤ byteLength cs + offset)).length =
      1 + (lineStartsFrom 0 cs).length + ((lineStartsFrom 0 ds).takeWhile (· ≤ offset)).length := by
    rw [lineStartsFrom_append, ← List.cons_append, List.takeWhile_append_of_pos hfront,
      List.length_append, List.length_cons, Nat.zero_add, hbehind, Nat.add_comm 1]
  have hown : ((0 :: lineStartsFrom 0 ds).takeWhile (· ≤ offset)).length =
      ((lineStartsFrom 0 ds).takeWhile (· ≤ offset)).length + 1 := by
    rw [List.takeWhile_cons_of_pos (by simp), List.length_cons]
  unfold lineOf ofText
  rw [hstarts, hown]
  omega

end LineTable

end CInterface.Text
