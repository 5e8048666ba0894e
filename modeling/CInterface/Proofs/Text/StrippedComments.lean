import CInterface.Proofs.Text.Comments
/-!
# Texts without comments

What is left of a text without its comments is cut into the fragments that are left: where a comment
stood, the fragments on both sides stay what they were. So there is nothing left to take out.

* `Fragment.kept`, `fitting_kept` — the fragments that are left, and that they fit.
* `fragments_stripComments` — they are those of the text without comments.
* `LiteralState`, `opensComment` — whether a comment opens outside literals, character by character.
* `stripComments_of_not_opens` — a text in which none does stays as it is.
* `stripComments_laws` — taking comments out once is enough, and keeps the lines.
-/

namespace CInterface.Text

/-! ### The fragments that are left -/

/-- The fragments that are left of a fragment when comments are taken out. -/
def Fragment.kept : Fragment → List Fragment
  | lineComment _ => []
  | blockComment body => (' ' :: body.filter (· = '\n')).map plain
  | f => [f]

theorem flatMap_plain {g : Fragment → List Char} (hg : ∀ c, g (.plain c) = [c]) (cs : List Char) :
    (cs.map Fragment.plain).flatMap g = cs := by
  rw [List.flatMap_map]
  simp only [hg, List.flatMap_singleton']

theorem Fragment.flatMap_text_kept (f : Fragment) : f.kept.flatMap text = f.stripped := by
  cases f with
  | lineComment body => rfl
  | blockComment body => exact flatMap_plain (fun _ => rfl) _
  | plain | literal | openComment => exact List.flatMap_singleton _ _

theorem Fragment.flatMap_stripped_kept (f : Fragment) : f.kept.flatMap stripped = f.stripped := by
  cases f with
  | lineComment body => rfl
  | blockComment body => exact flatMap_plain (fun _ => rfl) _
  | plain | literal | openComment => exact List.flatMap_singleton _ _

theorem flatMap_text_flatMap_kept (fs : List Fragment) :
    (fs.flatMap Fragment.kept).flatMap Fragment.text = fs.flatMap Fragment.stripped := by
  rw [List.flatMap_assoc]
  exact congrArg (fs.flatMap ·) (funext Fragment.flatMap_text_kept)

/-- Without its comments a text begins as it did, unless it began with a comment. -/
theorem head?_flatMap_stripped (fs : List Fragment) :
    (fs.flatMap Fragment.stripped).head? = (fs.flatMap Fragment.text).head? ∨
      (fs.flatMap Fragment.text).head? = some '/' := by
  cases fs with
  | nil => exact Or.inl rfl
  | cons f fs =>
    rw [List.flatMap_cons, List.flatMap_cons]
    cases f with
    | plain | literal => exact Or.inl rfl
    | lineComment | blockComment | openComment => exact Or.inr rfl

/-- **The fragments that are left fit.** A fragment goes by the character behind it, and a comment
begins with a slash, which keeps no fragment from ending. -/
theorem fitting_kept {fs : List Fragment} (h : Fitting fs) : Fitting (fs.flatMap Fragment.kept) := by
  induction fs with
  | nil => trivial
  | cons f fs ih =>
    obtain ⟨hfits, hfs⟩ := h
    have hkept : f.Fits ((fs.flatMap Fragment.kept).flatMap Fragment.text) := by
      rw [flatMap_text_flatMap_kept]
      by_cases hne : fs.flatMap Fragment.text = []
      · cases fs with
        | nil => exact hfits
        | cons g gs =>
          rw [List.flatMap_cons, List.append_eq_nil_iff] at hne
          exact absurd hne.1 g.text_ne_nil
      · exact hfits.congr hne (head?_flatMap_stripped fs)
    rw [List.flatMap_cons]
    cases f with
    | lineComment body => exact ih hfs
    | blockComment body => exact fitting_blanks (fun c hc => eq_blank_of_mem hc) (ih hfs)
    | plain | literal | openComment => exact ⟨hkept, ih hfs⟩

/-- What is left of a text consists of the fragments that are left. -/
theorem fragments_stripComments (cs : List Char) :
    fragments (stripComments cs) = (fragments cs).flatMap Fragment.kept := by
  rw [stripComments_eq, ← flatMap_text_flatMap_kept]
  exact (fitting_kept (fitting_fragments cs)).fragments_eq

theorem stripComments_stripComments (cs : List Char) :
    stripComments (stripComments cs) = stripComments cs := by
  rw [stripComments_eq (stripComments cs), fragments_stripComments, List.flatMap_assoc,
    stripComments_eq]
  exact congrArg ((fragments cs).flatMap ·) (funext Fragment.flatMap_stripped_kept)

/-! ### Comments that open -/

/-- Where a reader of literals stands. -/
inductive LiteralState where
  | outside
  /-- In a literal that this quote opened. -/
  | inside (quote : Char)
  /-- In such a literal, behind a backslash. -/
  | escaped (quote : Char)
  deriving DecidableEq, Repr

namespace LiteralState

/-- Where the reader stands behind one more character. A literal ends with its quote or its line, and
what is behind a backslash belongs to it whatever it is. -/
def next : LiteralState → Char → LiteralState
  | outside, c => if isQuote c then inside c else outside
  | inside quote, c =>
    if c = quote || c = '\n' then outside else if c = '\\' then escaped quote else inside quote
  | escaped quote, _ => inside quote

end LiteralState

/-- A comment opens in the text outside literals: a slash with another one or a star behind it. -/
def opensComment (s : LiteralState) : List Char → Bool
  | [] => false
  | c :: r =>
    (s = .outside && c = '/' && (r.head? = some '/' || r.head? = some '*')) ||
      opensComment (s.next c) r

theorem opensComment_append {s : LiteralState} {u v : List Char}
    (h : opensComment s (u ++ v) = false) : opensComment (u.foldl LiteralState.next s) v = false := by
  induction u generalizing s with
  | nil => exact h
  | cons c u ih =>
    rw [List.cons_append, opensComment, Bool.or_eq_false_iff] at h
    exact ih h.2

/-- Behind a literal the reader is outside again, or the text is at its end. -/
theorem foldl_next_literal (quote : Char) (r : List Char) :
    r.drop (literalTail quote r) = [] ∨
      (r.take (literalTail quote r)).foldl LiteralState.next (.inside quote) = .outside := by
  fun_induction literalTail quote r with
  | case1 => exact Or.inl rfl
  | case2 c => exact Or.inl rfl
  | case3 c d r hends =>
    refine Or.inr ?_
    rw [List.take_succ_cons, List.take_zero, List.foldl_cons, LiteralState.next, if_pos hends]
    rfl
  | case4 d r hends ih =>
    have hescaped : (LiteralState.inside quote).next '\\' = .escaped quote := by
      rw [LiteralState.next, if_neg hends, if_pos rfl]
    rw [Nat.add_comm, List.drop_succ_cons, List.drop_succ_cons, List.take_succ_cons,
      List.take_succ_cons, List.foldl_cons, List.foldl_cons, hescaped]
    exact ih
  | case5 c d r hends hescape ih =>
    have hinside : (LiteralState.inside quote).next c = .inside quote := by
      rw [LiteralState.next, if_neg hends, if_neg hescape]
    rw [Nat.add_comm, List.drop_succ_cons, List.take_succ_cons, List.foldl_cons, hinside]
    exact ih

/-- **A text in which no comment opens outside literals stays as it is.** -/
theorem stripComments_of_not_opens {cs : List Char} (h : opensComment .outside cs = false) :
    stripComments cs = cs := by
  fun_induction stripComments cs with
  | case1 => rfl
  | case2 c r hquote n ih =>
    have hnext : LiteralState.outside.next c = .inside c := if_pos hquote
    rw [opensComment, Bool.or_eq_false_iff, hnext, ← List.take_append_drop n r] at h
    have hrest := opensComment_append h.2
    have hdrop : stripComments (r.drop n) = r.drop n := by
      rcases foldl_next_literal c r with hend | houtside
      · rw [show r.drop n = [] from hend, stripComments]
      · rw [houtside] at hrest
        exact ih hrest
    rw [hdrop, List.cons_append, List.take_append_drop]
  | case3 c r hquote hline n ih =>
    obtain ⟨rfl, r', rfl⟩ := exists_eq_slash hline
    cases h
  | case4 c r hquote hline hblock body rest hcut ih =>
    obtain ⟨rfl, r', rfl⟩ := exists_eq_slash hblock
    cases h
  | case5 => rfl
  | case6 c r hquote hline hblock ih =>
    have hnext : LiteralState.outside.next c = .outside := if_neg hquote
    rw [opensComment, Bool.or_eq_false_iff, hnext] at h
    rw [ih h.2]

/-- **Taking comments out of a text once is enough, and keeps its lines.** What is left has no comment
to take out, and as many newlines as the text; and a text in which no comment opens outside string and
character literals stays as it is. -/
theorem stripComments_laws (cs : List Char) :
    stripComments (stripComments cs) = stripComments cs ∧
      (stripComments cs).count '\n' = cs.count '\n' ∧
      (opensComment .outside cs = false → stripComments cs = cs) :=
  ⟨stripComments_stripComments cs, count_stripComments cs, stripComments_of_not_opens⟩

/-- Slashes and stars in literals, one of which has an escaped quote and one is cut off by its line, and
outside them, where no comment opens. -/
def literalSlashes : List Char := "a = \"/* \\\" */\" / 'x//\n* 2; c = '//'; *p / q".toList

theorem stripComments_literalSlashes :
    opensComment .outside literalSlashes = false ∧ stripComments literalSlashes = literalSlashes := by
  have hnone : opensComment .outside literalSlashes = false := by decide
  exact ⟨hnone, (stripComments_laws literalSlashes).2.2 hnone⟩

end CInterface.Text
