import CInterface.Proofs.Text.Lines
import Mathlib.Tactic.Conv
/-!
# Comments of a text

A text is cut into its comments, its literals, and the characters outside both. Taking comments out
is then done fragment by fragment.

* `Fragment`, `fragments` — the fragments of a text.
* `flatMap_text_fragments` — they make up the text.
* `stripComments_eq` — what is left of a text is what is left of its fragments.
* `Fragment.Fits` — a fragment is cut off the text that it stands before.
* `Fragment.Fits.congr` — whether it is depends on the beginning of that text alone.
* `Fitting.fragments_eq` — fragments that fit one behind the other are those of their text.
* `Fitting.replace` — a comment may give way to fragments that begin with a blank.
-/

namespace CInterface.Text

/-- A piece of a text, as far as comments go. -/
inductive Fragment where
  /-- A character outside comments and literals. -/
  | plain (c : Char)
  /-- A string or character literal: its opening quote and what follows that in the literal. -/
  | literal (quote : Char) (tail : List Char)
  /-- A comment up to the end of its line. -/
  | lineComment (body : List Char)
  /-- A comment with an end of its own. -/
  | blockComment (body : List Char)
  /-- A comment that is never closed, up to the end of the text. -/
  | openComment (body : List Char)
  deriving DecidableEq, Repr

namespace Fragment

/-- The fragment as it is written. -/
def text : Fragment → List Char
  | plain c => [c]
  | literal quote tail => quote :: tail
  | lineComment body => '/' :: '/' :: body
  | blockComment body => '/' :: '*' :: (body ++ ['*', '/'])
  | openComment body => '/' :: '*' :: body

/-- What is left of the fragment when comments are taken out. -/
def stripped : Fragment → List Char
  | lineComment _ => []
  | blockComment body => ' ' :: body.filter (· = '\n')
  | f => f.text

end Fragment

/-- A character that opens a literal. -/
def isQuote (c : Char) : Bool := c = '"' || c = '\x27'

/-- The fragments of a text. -/
def fragments (cs : List Char) : List Fragment :=
  match cs with
  | [] => []
  | c :: r =>
    if isQuote c then
      .literal c (r.take (literalTail c r)) :: fragments (r.drop (literalTail c r))
    else if c = '/' && r.head? = some '/' then
      .lineComment ((r.drop 1).takeWhile (· ≠ '\n')) :: fragments ((r.drop 1).dropWhile (· ≠ '\n'))
    else if c = '/' && r.head? = some '*' then
      match _ : cut? ['*', '/'] (r.drop 1) with
      | some (body, rest) => .blockComment body :: fragments rest
      | none => [.openComment (r.drop 1)]
    else .plain c :: fragments r
  termination_by cs.length
  decreasing_by
    · simp only [List.length_cons, List.length_drop]; omega
    · have := (List.dropWhile_sublist (p := (· ≠ '\n')) (l := r.drop 1)).length_le
      simp only [List.length_cons, List.length_drop] at this ⊢
      omega
    · rename_i h
      have := length_of_cut? h
      simp only [List.length_cons, List.length_drop] at this ⊢
      omega
    · exact Nat.lt_succ_self r.length

section Equations

variable {c : Char} {r body rest : List Char}

theorem fragments_nil : fragments [] = [] := by rw [fragments]

theorem fragments_quote (h : isQuote c = true) (r : List Char) :
    fragments (c :: r) =
      .literal c (r.take (literalTail c r)) :: fragments (r.drop (literalTail c r)) := by
  rw [fragments, if_pos h]

theorem fragments_lineComment (r : List Char) :
    fragments ('/' :: '/' :: r) =
      .lineComment (r.takeWhile (· ≠ '\n')) :: fragments (r.dropWhile (· ≠ '\n')) := by
  rw [fragments, if_neg (by decide), if_pos (by simp)]
  rfl

theorem fragments_blockComment (h : cut? ['*', '/'] r = some (body, rest)) :
    fragments ('/' :: '*' :: r) = .blockComment body :: fragments rest := by
  rw [fragments, if_neg (by decide), if_neg (by simp), if_pos (by simp)]
  split
  · rename_i hcut
    rw [List.drop_succ_cons, List.drop_zero, h] at hcut
    cases hcut
    rfl
  · rename_i hcut
    rw [List.drop_succ_cons, List.drop_zero, h] at hcut
    cases hcut

theorem fragments_openComment (h : cut? ['*', '/'] r = none) :
    fragments ('/' :: '*' :: r) = [.openComment r] := by
  rw [fragments, if_neg (by decide), if_neg (by simp), if_pos (by simp)]
  split
  · rename_i hcut
    rw [List.drop_succ_cons, List.drop_zero, h] at hcut
    cases hcut
  · rfl

theorem fragments_plain (hquote : isQuote c = false)
    (hslash : c = '/' → r.head? ≠ some '/' ∧ r.head? ≠ some '*') :
    fragments (c :: r) = .plain c :: fragments r := by
  rw [fragments, if_neg (Bool.eq_false_iff.1 hquote), if_neg, if_neg]
  · simp only [Bool.and_eq_true, decide_eq_true_eq]
    exact fun h => (hslash h.1).2 h.2
  · simp only [Bool.and_eq_true, decide_eq_true_eq]
    exact fun h => (hslash h.1).1 h.2

end Equations

/-! ### Ends of literals and comments -/

theorem literalTail_le (quote : Char) (cs : List Char) : literalTail quote cs ≤ cs.length := by
  fun_induction literalTail quote cs <;>
    simp only [List.length_cons, List.length_nil] at * <;> omega

section Literals

variable {quote c : Char}

theorem literalTail_of_ends (h : (c = quote || c = '\n') = true) (r : List Char) :
    literalTail quote (c :: r) = 1 := by
  cases r with
  | nil => rfl
  | cons d r => rw [literalTail, if_pos h]

theorem literalTail_of_plain (h : (c = quote || c = '\n') = false) (hc : c ≠ '\\') (r : List Char) :
    literalTail quote (c :: r) = 1 + literalTail quote r := by
  cases r with
  | nil => rfl
  | cons d r => rw [literalTail, if_neg (Bool.eq_false_iff.1 h), if_neg hc]

theorem literalTail_of_escape (h : ('\\' = quote || '\\' = '\n') = false) (d : Char)
    (r : List Char) :
    literalTail quote ('\\' :: d :: r) = 2 + literalTail quote r := by
  rw [literalTail, if_neg (Bool.eq_false_iff.1 h), if_pos rfl]

theorem literalTail_pos (quote c : Char) (r : List Char) : 0 < literalTail quote (c :: r) := by
  cases r with
  | nil => exact Nat.one_pos
  | cons d r =>
    rw [literalTail]
    split
    · exact Nat.one_pos
    · split <;> omega

theorem eq_nil_of_literalTail {cs : List Char} (h : literalTail quote cs = 0) : cs = [] := by
  cases cs with
  | nil => rfl
  | cons c r => exact absurd h (Nat.ne_of_gt (literalTail_pos quote c r))

/-- A literal ends with a character that ends it or with the text. -/
theorem ends_of_literalTail_eq_one {r : List Char} (h : literalTail quote (c :: r) = 1)
    (hr : r ≠ []) : (c = quote || c = '\n') = true := by
  obtain ⟨d, r, rfl⟩ := List.exists_cons_of_ne_nil hr
  have hpos := literalTail_pos quote d r
  rw [literalTail] at h
  split at h
  · assumption
  · split at h <;> omega

/-- A literal before other text ends with its own last character, so that it is the same before any
other text. -/
theorem literalTail_append {tail rest : List Char} (hne : rest ≠ [])
    (h : literalTail quote (tail ++ rest) = tail.length) (other : List Char) :
    literalTail quote (tail ++ other) = tail.length := by
  fun_induction literalTail quote tail with
  | case1 => exact absurd (eq_nil_of_literalTail h) hne
  | case2 c => exact literalTail_of_ends (ends_of_literalTail_eq_one h hne) other
  | case3 c d tail hends =>
    rw [List.cons_append, literalTail_of_ends hends, List.length_cons, List.length_cons] at h
    omega
  | case4 d tail hends ih =>
    rw [List.cons_append, List.cons_append, literalTail_of_escape (Bool.eq_false_iff.2 hends),
      List.length_cons, List.length_cons] at h ⊢
    rw [ih (by omega)]
    omega
  | case5 c d tail hends hescape ih =>
    rw [List.cons_append, literalTail_of_plain (Bool.eq_false_iff.2 hends) hescape,
      List.length_cons] at h ⊢
    rw [ih (by omega)]
    omega

end Literals

/-- The end of a comment is a star with a slash behind it. -/
theorem afterHead?_end (c : Char) (r : List Char) : afterHead? ['*', '/'] (c :: r) =
    if c = '*' ∧ r.head? = some '/' then some r.tail else none := by
  cases r with
  | nil => simp [afterHead?, List.isPrefixOf]
  | cons d r => simp [afterHead?, List.isPrefixOf, eq_comm (a := '*'), eq_comm (a := '/')]

/-- A comment is closed where it is closed, whatever stands behind it. -/
theorem cut?_append {body rest : List Char}
    (h : cut? ['*', '/'] (body ++ ['*', '/'] ++ rest) = some (body, rest)) (other : List Char) :
    cut? ['*', '/'] (body ++ ['*', '/'] ++ other) = some (body, other) := by
  induction body with
  | nil => rfl
  | cons c body ih =>
    have hhead : ∀ after : List Char,
        (body ++ ['*', '/'] ++ after).head? = (body ++ ['*', '/']).head? := by
      intro after
      cases body <;> rfl
    rw [List.cons_append, List.cons_append, cut?, afterHead?_end, hhead] at h
    rw [List.cons_append, List.cons_append, cut?, afterHead?_end, hhead]
    split at h
    · cases h
    · rename_i hnone
      split at hnone
      · cases hnone
      · rename_i hopen
        obtain ⟨⟨before, after⟩, hcut, heq⟩ := Option.map_eq_some_iff.1 h
        cases heq
        rw [if_neg hopen, ih hcut]
        rfl

/-! ### A fragment and the text behind it -/

/-- The fragment ends where it does, and not later, before the text `rest`. -/
def Fragment.Fits : Fragment → List Char → Prop
  | plain c, rest => isQuote c = false ∧ (c = '/' → rest.head? ≠ some '/' ∧ rest.head? ≠ some '*')
  | literal quote tail, rest =>
    isQuote quote = true ∧ literalTail quote (tail ++ rest) = tail.length
  | lineComment body, rest => '\n' ∉ body ∧ ∀ c ∈ rest.head?, c = '\n'
  | blockComment body, rest => cut? ['*', '/'] (body ++ ['*', '/'] ++ rest) = some (body, rest)
  | openComment body, rest => cut? ['*', '/'] body = none ∧ rest = []

theorem Fragment.Fits.fragments_append {f : Fragment} {rest : List Char} (h : f.Fits rest) :
    fragments (f.text ++ rest) = f :: fragments rest := by
  cases f with
  | plain c => exact fragments_plain h.1 h.2
  | literal quote tail =>
    rw [text, List.cons_append, fragments_quote h.1, h.2, List.take_left, List.drop_left]
  | lineComment body =>
    have hbody : ∀ c ∈ body, decide (c ≠ '\n') = true := by
      intro c hc
      rw [decide_eq_true_eq]
      rintro rfl
      exact h.1 hc
    rw [text, List.cons_append, List.cons_append, fragments_lineComment,
      List.takeWhile_append_of_pos hbody, List.dropWhile_append_of_pos hbody]
    cases rest with
    | nil => rw [List.takeWhile_nil, List.dropWhile_nil, List.append_nil]
    | cons c r =>
      have hc : c = '\n' := h.2 c rfl
      rw [hc, List.takeWhile_cons_of_neg (by decide), List.dropWhile_cons_of_neg (by decide),
        List.append_nil]
  | blockComment body =>
    have h : cut? ['*', '/'] (body ++ ['*', '/'] ++ rest) = some (body, rest) := h
    rw [text, List.cons_append, List.cons_append, fragments_blockComment h]
  | openComment body =>
    obtain ⟨hopen, rfl⟩ := h
    rw [text, List.append_nil, fragments_openComment hopen, fragments_nil]

/-- Whether a fragment fits goes by the next character. Where that is a slash, anything may stand there
as well. -/
theorem Fragment.Fits.congr {f : Fragment} {rest other : List Char} (h : f.Fits rest)
    (hne : rest ≠ []) (hhead : other.head? = rest.head? ∨ rest.head? = some '/') :
    f.Fits other := by
  cases f with
  | plain c =>
    refine ⟨h.1, fun hc => ?_⟩
    rcases hhead with hhead | hslash
    · rw [hhead]
      exact h.2 hc
    · exact absurd hslash (h.2 hc).1
  | literal quote tail => exact ⟨h.1, literalTail_append hne h.2 other⟩
  | lineComment body =>
    refine ⟨h.1, ?_⟩
    rcases hhead with hhead | hslash
    · rw [hhead]
      exact h.2
    · exact absurd (h.2 '/' hslash) (by decide)
  | blockComment body => exact cut?_append h other
  | openComment body => exact absurd h.2 hne

/-! ### Texts and their fragments -/

theorem dropWhile_eq_drop (p : Char → Bool) (cs : List Char) :
    cs.dropWhile p = cs.drop (cs.takeWhile p).length := by
  conv_rhs => rw [← List.takeWhile_append_dropWhile (p := p) (l := cs)]
  rw [List.drop_left' (by simp)]

/-- The beginning of a comment, as the reader looks for it. -/
theorem exists_eq_slash {c x : Char} {r : List Char}
    (h : (decide (c = '/') && decide (r.head? = some x)) = true) : c = '/' ∧ ∃ r', r = x :: r' := by
  rw [Bool.and_eq_true, decide_eq_true_eq, decide_eq_true_eq] at h
  exact ⟨h.1, List.head?_eq_some_iff.1 h.2⟩

/-- The first fragment stands before the text of the others. -/
theorem exists_of_fragments {cs : List Char} {f : Fragment} {fs : List Fragment}
    (h : fragments cs = f :: fs) :
    ∃ rest, cs = f.text ++ rest ∧ f.Fits rest ∧ fs = fragments rest := by
  revert h
  fun_cases fragments cs with
  | case1 => exact nofun
  | case2 c r hquote =>
    rintro ⟨⟩
    refine ⟨_, by rw [Fragment.text, List.cons_append, List.take_append_drop], ⟨hquote, ?_⟩, rfl⟩
    rw [List.take_append_drop, List.length_take_of_le (literalTail_le c r)]
  | case3 c r hquote hline =>
    rintro ⟨⟩
    obtain ⟨rfl, r', rfl⟩ := exists_eq_slash hline
    refine ⟨_, by rw [Fragment.text, List.cons_append, List.cons_append,
      List.takeWhile_append_dropWhile, List.drop_succ_cons, List.drop_zero], ⟨?_, ?_⟩, rfl⟩
    · exact List.count_eq_zero.1 (count_takeWhile_ne '\n' r')
    · intro c hc
      have hhead := List.head?_dropWhile_not (fun x => decide (x ≠ '\n')) r'
      rw [show (r'.dropWhile fun x => decide (x ≠ '\n')).head? = some c from hc] at hhead
      simpa using hhead
  | case4 c r hquote hline hblock body rest hcut =>
    rintro ⟨⟩
    obtain ⟨rfl, r', rfl⟩ := exists_eq_slash hblock
    have hall : body ++ ['*', '/'] ++ rest = r' := cut?_eq_append hcut
    refine ⟨rest, by rw [← hall]; rfl, ?_, rfl⟩
    show cut? ['*', '/'] (body ++ ['*', '/'] ++ rest) = some (body, rest)
    rw [hall]
    exact hcut
  | case5 c r hquote hline hblock hcut =>
    rintro ⟨⟩
    obtain ⟨rfl, r', rfl⟩ := exists_eq_slash hblock
    exact ⟨[], by simp [Fragment.text], ⟨hcut, rfl⟩, fragments_nil.symm⟩
  | case6 c r hquote hline hblock =>
    rintro ⟨⟩
    refine ⟨r, rfl, ⟨Bool.eq_false_iff.2 hquote, ?_⟩, rfl⟩
    rintro rfl
    simpa using And.intro hline hblock

theorem eq_nil_of_fragments {cs : List Char} (h : fragments cs = []) : cs = [] := by
  revert h
  fun_cases fragments cs <;> simp

/-- The fragments make up the text. -/
theorem flatMap_text_fragments (cs : List Char) : (fragments cs).flatMap Fragment.text = cs := by
  generalize hfs : fragments cs = fs
  induction fs generalizing cs with
  | nil => rw [eq_nil_of_fragments hfs, List.flatMap_nil]
  | cons f fs ih =>
    obtain ⟨rest, rfl, -, rfl⟩ := exists_of_fragments hfs
    rw [List.flatMap_cons, ih rest rfl]

/-- What is left of a text is what is left of its fragments. -/
theorem stripComments_eq (cs : List Char) :
    stripComments cs = (fragments cs).flatMap Fragment.stripped := by
  fun_induction stripComments cs with
  | case1 =>
    rw [fragments_nil]
    rfl
  | case2 c r hquote n ih =>
    rw [fragments_quote hquote, List.flatMap_cons, ih]
    rfl
  | case3 c r hquote hline n ih =>
    obtain ⟨rfl, r', rfl⟩ := exists_eq_slash hline
    rw [fragments_lineComment, List.flatMap_cons, ih, dropWhile_eq_drop]
    rfl
  | case4 c r hquote hline hblock body rest hcut ih =>
    obtain ⟨rfl, r', rfl⟩ := exists_eq_slash hblock
    have hcut : cut? ['*', '/'] r' = some (body, rest) := hcut
    rw [fragments_blockComment hcut, List.flatMap_cons, ih]
    rfl
  | case5 c r hquote hline hblock hcut =>
    obtain ⟨rfl, r', rfl⟩ := exists_eq_slash hblock
    have hcut : cut? ['*', '/'] r' = none := hcut
    rw [fragments_openComment hcut, List.flatMap_singleton]
    rfl
  | case6 c r hquote hline hblock ih =>
    rw [fragments_plain, List.flatMap_cons, ih]
    · rfl
    · exact Bool.eq_false_iff.2 hquote
    · rintro rfl
      simpa using And.intro hline hblock

/-- Every fragment fits before the text of those behind it. -/
def Fitting : List Fragment → Prop
  | [] => True
  | f :: fs => f.Fits (fs.flatMap Fragment.text) ∧ Fitting fs

theorem fitting_fragments (cs : List Char) : Fitting (fragments cs) := by
  generalize hfs : fragments cs = fs
  induction fs generalizing cs with
  | nil => trivial
  | cons f fs ih =>
    obtain ⟨rest, rfl, hfits, rfl⟩ := exists_of_fragments hfs
    refine ⟨?_, ih rest rfl⟩
    rw [flatMap_text_fragments]
    exact hfits

theorem fitting_append {before after : List Fragment} (h : Fitting (before ++ after)) :
    Fitting after := by
  induction before with
  | nil => exact h
  | cons f before ih => exact ih h.2

theorem fitting_blanks {blanks : List Char} (hblanks : ∀ c ∈ blanks, c = ' ' ∨ c = '\n')
    {after : List Fragment} (h : Fitting after) : Fitting (blanks.map Fragment.plain ++ after) := by
  induction blanks with
  | nil => exact h
  | cons c blanks ih =>
    refine ⟨?_, ih fun x hx => hblanks x (List.mem_cons_of_mem c hx)⟩
    rcases hblanks c List.mem_cons_self with rfl | rfl
    · exact ⟨by decide, fun hslash => absurd hslash (by decide)⟩
    · exact ⟨by decide, fun hslash => absurd hslash (by decide)⟩

/-- A block comment leaves blanks. -/
theorem eq_blank_of_mem {body : List Char} {c : Char} (hc : c ∈ ' ' :: body.filter (· = '\n')) :
    c = ' ' ∨ c = '\n' := by
  refine (List.mem_cons.1 hc).imp_right fun hc => ?_
  exact of_decide_eq_true (List.mem_filter.1 hc).2

/-- Fragments that fit are those of their text. -/
theorem Fitting.fragments_eq {fs : List Fragment} (h : Fitting fs) :
    fragments (fs.flatMap Fragment.text) = fs := by
  induction fs with
  | nil => exact fragments_nil
  | cons f fs ih => rw [List.flatMap_cons, h.1.fragments_append, ih h.2]

theorem Fragment.text_ne_nil (f : Fragment) : f.text ≠ [] := by
  cases f <;> exact List.cons_ne_nil _ _

/-- A block comment may be replaced by anything that fits there and starts with a blank. -/
theorem Fitting.replace {before after other : List Fragment} {body : List Char}
    (h : Fitting (before ++ .blockComment body :: after)) (hother : Fitting (.plain ' ' :: other)) :
    Fitting (before ++ .plain ' ' :: other) := by
  induction before with
  | nil => exact hother
  | cons f before ih =>
    have hfits : f.Fits ((before ++ .blockComment body :: after).flatMap Fragment.text) := h.1
    have hrest : f.Fits ((before ++ .plain ' ' :: other).flatMap Fragment.text) := by
      refine hfits.congr ?_ ?_
      · simp [Fragment.text_ne_nil]
      · cases before with
        | nil => exact Or.inr rfl
        | cons g before =>
          obtain ⟨c, r, hg⟩ := List.exists_cons_of_ne_nil g.text_ne_nil
          rw [List.cons_append, List.cons_append, List.flatMap_cons, List.flatMap_cons, hg]
          exact Or.inl rfl
    exact ⟨hrest, ih h.2⟩

theorem stripComments_append {f : Fragment} {rest : List Char} (h : f.Fits rest) :
    stripComments (f.text ++ rest) = f.stripped ++ stripComments rest := by
  rw [stripComments_eq, h.fragments_append, List.flatMap_cons, ← stripComments_eq]

theorem stripComments_cons {c : Char} (hquote : isQuote c = false) (hslash : c ≠ '/')
    (r : List Char) : stripComments (c :: r) = c :: stripComments r :=
  stripComments_append (f := .plain c) ⟨hquote, fun h => absurd h hslash⟩

end CInterface.Text
