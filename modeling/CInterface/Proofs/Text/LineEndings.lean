import CInterface.Proofs.Text.Comments
import Mathlib.Tactic.ByContra
/-!
# Line endings

A text may end its lines by a newline alone, or by a carriage return and a newline. Making a text
normal drops the returns, so that both come to the same; but comments are taken out before that, and
a return is a character for the reader of literals, which a backslash takes along in place of the
newline. So a literal that a backslash continues on the next line ends early.

* `withReturns` — a text with a return before each newline.
* `Returned` — a text with a return before some newlines.
* `Returned.joinContinuations_eq` — joining lines makes up for that.
* `Fragment.withinLine` — a literal that does not go on behind the end of its line.
* `returned_stripComments` — taking comments out of a text with returns leaves returns.
* `normalize_withReturns` — both styles have one normal text, if literals stay within their lines.
* `not_normalize_withReturns` — a literal that does not.
-/

namespace CInterface.Text

/-- The text with a carriage return before each newline. -/
def withReturns (cs : List Char) : List Char :=
  cs.flatMap fun c => if c = '\n' then ['\r', '\n'] else [c]

@[simp] theorem withReturns_nil : withReturns [] = [] := rfl

@[simp] theorem withReturns_newline (r : List Char) :
    withReturns ('\n' :: r) = '\r' :: '\n' :: withReturns r := rfl

theorem withReturns_cons_of_ne {c : Char} (h : c ≠ '\n') (r : List Char) :
    withReturns (c :: r) = c :: withReturns r := by
  rw [withReturns, List.flatMap_cons, if_neg h]
  rfl

@[simp] theorem withReturns_append (a b : List Char) :
    withReturns (a ++ b) = withReturns a ++ withReturns b := List.flatMap_append

theorem withReturns_of_not_mem {cs : List Char} (h : '\n' ∉ cs) : withReturns cs = cs := by
  induction cs with
  | nil => rfl
  | cons c r ih =>
    have hc : c ≠ '\n' := fun e => h (e ▸ List.mem_cons_self)
    rw [withReturns_cons_of_ne hc, ih fun hm => h (List.mem_cons_of_mem c hm)]

/-! ### Returns before some newlines -/

/-- `Returned a b` — the text `b` is `a` with a carriage return before some of its newlines. -/
inductive Returned : List Char → List Char → Prop where
  | nil : Returned [] []
  | cons {a b : List Char} (c : Char) (h : Returned a b) : Returned (c :: a) (c :: b)
  | newline {a b : List Char} (h : Returned a b) : Returned ('\n' :: a) ('\r' :: '\n' :: b)

namespace Returned

variable {a b c d : List Char}

theorem refl (cs : List Char) : Returned cs cs := by
  induction cs with
  | nil => exact .nil
  | cons c r ih => exact .cons c ih

theorem append (h : Returned a b) (h' : Returned c d) : Returned (a ++ c) (b ++ d) := by
  induction h with
  | nil => exact h'
  | cons c _ ih => exact .cons c ih
  | newline _ ih => exact .newline ih

theorem withReturns (cs : List Char) : Returned cs (withReturns cs) := by
  induction cs with
  | nil => exact .nil
  | cons c r ih =>
    by_cases hc : c = '\n'
    · subst hc
      exact .newline ih
    · rw [withReturns_cons_of_ne hc]
      exact .cons c ih

/-- Behind a newline the texts correspond as well. -/
theorem of_newline (h : Returned ('\n' :: a) ('\r' :: '\n' :: b)) : Returned a b := by
  cases h with
  | newline h => exact h

end Returned

theorem dropReturn_cons (c : Char) {p : List Char} (h : p ≠ []) :
    dropReturn (c :: p) = c :: dropReturn p := by
  obtain ⟨d, r, rfl⟩ := List.exists_cons_of_ne_nil h
  rw [dropReturn, dropReturn, List.getLast?_cons_cons]
  split <;> rfl

namespace Returned

/-- The lines are the same, up to one return at their ends. -/
theorem map_dropReturn_splitAt {a b : List Char} (h : Returned a b) (hreturn : '\r' ∉ a) :
    (splitAt '\n' b).map dropReturn = splitAt '\n' a := by
  induction h with
  | nil => rfl
  | @cons a b c _ ih =>
    have ih := ih fun hm => hreturn (List.mem_cons_of_mem c hm)
    by_cases hc : c = '\n'
    · subst hc
      rw [splitAt_cons_self, splitAt_cons_self, List.map_cons, ih]
      rfl
    · obtain ⟨p, ps, hp, hcp⟩ := splitAt_cons_of_ne hc a
      obtain ⟨q, qs, hq, hcq⟩ := splitAt_cons_of_ne hc b
      rw [hp, hq, List.map_cons] at ih
      obtain ⟨rfl, rfl⟩ := List.cons.inj ih
      rw [hcp, hcq, List.map_cons]
      congr 1
      by_cases hq : q = []
      · subst hq
        have hr : c ≠ '\r' := fun e => hreturn (e ▸ List.mem_cons_self)
        rw [dropReturn, if_neg]
        · rfl
        · exact fun e => hr (Option.some.inj e)
      · exact dropReturn_cons c hq
  | @newline a b _ ih =>
    have ih := ih fun hm => hreturn (List.mem_cons_of_mem _ hm)
    have hreturned : splitAt '\n' ('\r' :: '\n' :: b) = ['\r'] :: splitAt '\n' b :=
      splitAt_append (p := ['\r']) (by decide) b
    rw [hreturned, splitAt_cons_self, List.map_cons, ih]
    rfl

end Returned

/-- Joining goes by the lines without their returns. -/
theorem joinLines_congr {held : List Char} {count : Nat} {lines lines' : List (List Char)}
    (h : lines.map dropReturn = lines'.map dropReturn) :
    joinLines held count lines = joinLines held count lines' := by
  induction lines generalizing held count lines' with
  | nil =>
    rw [List.map_nil, eq_comm, List.map_eq_nil_iff] at h
    rw [h]
  | cons line rest ih =>
    cases lines' with
    | nil => cases h
    | cons line' rest' =>
      rw [List.map_cons, List.map_cons] at h
      obtain ⟨hline, hrest⟩ := List.cons.inj h
      simp only [joinLines, hline]
      rw [ih hrest, ih hrest]

theorem Returned.joinContinuations_eq {a b : List Char} (h : Returned a b) (hreturn : '\r' ∉ a) :
    joinContinuations b = joinContinuations a := by
  have hlines : (splitAt '\n' b).map dropReturn = (splitAt '\n' a).map dropReturn := by
    rw [h.map_dropReturn_splitAt hreturn, (Returned.refl a).map_dropReturn_splitAt hreturn]
  rw [joinContinuations, joinContinuations, joinLines_congr hlines]

/-! ### Taking comments out -/

/-- A literal that does not go on behind the end of its line, or no literal. -/
def Fragment.withinLine : Fragment → Bool
  | literal _ tail => '\n' ∉ tail.dropLast
  | _ => true

theorem not_mem_dropLast_of_cons {x c : Char} {cs : List Char} (h : x ∉ (c :: cs).dropLast) :
    x ∉ cs.dropLast := by
  cases cs with
  | nil => exact List.not_mem_nil
  | cons d r => exact fun hm => h (List.mem_cons_of_mem c hm)

/-- A literal ends where it did, as long as no backslash takes a newline along that it could take a
return for. -/
theorem literalTail_withReturns {quote : Char} (hquote : isQuote quote = true)
    {tail rest : List Char} (h : literalTail quote (tail ++ rest) = tail.length)
    (hline : '\n' ∉ tail.dropLast) :
    literalTail quote (withReturns (tail ++ rest)) = (withReturns tail).length := by
  have hreturn : ('\r' = quote || '\r' = '\n') = false := by
    simp only [isQuote, Bool.or_eq_true, decide_eq_true_eq] at hquote
    rcases hquote with rfl | rfl <;> decide
  fun_induction literalTail quote tail with
  | case1 =>
    rw [eq_nil_of_literalTail h]
    rfl
  | case2 c =>
    by_cases hnewline : c = '\n'
    · subst hnewline
      rw [List.cons_append, withReturns_newline, literalTail_of_plain hreturn (by decide),
        literalTail_of_ends (by simp)]
      rfl
    · have htail : withReturns [c] = [c] := withReturns_cons_of_ne hnewline []
      rw [withReturns_append, htail]
      by_cases hrest : rest = []
      · rw [hrest]
        rfl
      · exact literalTail_of_ends (ends_of_literalTail_eq_one h hrest) _
  | case3 c d tail hends =>
    rw [List.cons_append, literalTail_of_ends hends, List.length_cons, List.length_cons] at h
    omega
  | case4 d tail hends ih =>
    have hends := Bool.eq_false_iff.2 hends
    rw [List.cons_append, List.cons_append, literalTail_of_escape hends, List.length_cons,
      List.length_cons] at h
    have hrest : literalTail quote (tail ++ rest) = tail.length := by omega
    rw [List.cons_append, List.cons_append, withReturns_cons_of_ne (by decide)]
    by_cases hnewline : d = '\n'
    · -- a newline that a backslash takes along is the last character of the text
      subst hnewline
      have htail : tail = [] := by
        by_contra htail
        obtain ⟨x, tail, rfl⟩ := List.exists_cons_of_ne_nil htail
        exact hline (by simp)
      subst htail
      have hrest : rest = [] := eq_nil_of_literalTail hrest
      rw [hrest, List.append_nil, withReturns_newline,
        literalTail_of_escape hends, literalTail_of_ends (by simp)]
      rfl
    · have htail := not_mem_dropLast_of_cons (not_mem_dropLast_of_cons hline)
      rw [withReturns_cons_of_ne hnewline, literalTail_of_escape hends, ih hrest htail,
        withReturns_cons_of_ne (by decide), withReturns_cons_of_ne hnewline, List.length_cons,
        List.length_cons]
      omega
  | case5 c d tail hends hescape ih =>
    have hends := Bool.eq_false_iff.2 hends
    have hnewline : c ≠ '\n' := by
      rintro rfl
      simp at hends
    rw [List.cons_append, literalTail_of_plain hends hescape, List.length_cons] at h
    rw [List.cons_append, withReturns_cons_of_ne hnewline, withReturns_cons_of_ne hnewline,
      literalTail_of_plain hends hescape, ih (by omega) (not_mem_dropLast_of_cons hline),
      List.length_cons]
    omega

theorem filter_withReturns (cs : List Char) :
    (withReturns cs).filter (· = '\n') = cs.filter (· = '\n') := by
  induction cs with
  | nil => rfl
  | cons c r ih =>
    by_cases hc : c = '\n'
    · subst hc
      rw [withReturns_newline, List.filter_cons_of_neg (by decide), List.filter_cons_of_pos rfl, ih,
        List.filter_cons_of_pos rfl]
    · rw [withReturns_cons_of_ne hc, List.filter_cons, List.filter_cons, ih]

theorem head?_withReturns {c : Char} (h : c ≠ '\r') (cs : List Char) :
    (withReturns cs).head? = some c → cs.head? = some c := by
  cases cs with
  | nil => exact id
  | cons d r =>
    by_cases hd : d = '\n'
    · subst hd
      exact fun heq => absurd (Option.some.inj heq).symm h
    · rw [withReturns_cons_of_ne hd]
      exact id

/-- The end of a comment has no newline in it. -/
theorem cut?_withReturns (cs : List Char) : cut? ['*', '/'] (withReturns cs) =
    (cut? ['*', '/'] cs).map fun p => (withReturns p.1, withReturns p.2) := by
  induction cs with
  | nil => rfl
  | cons c r ih =>
    by_cases hc : c = '\n'
    · subst hc
      rw [withReturns_newline, cut?, afterHead?_end, if_neg (fun h => by cases h.1), cut?,
        afterHead?_end, if_neg (fun h => by cases h.1), cut?, afterHead?_end,
        if_neg (fun h => by cases h.1), ih]
      cases cut? ['*', '/'] r <;> rfl
    · rw [withReturns_cons_of_ne hc, cut?, afterHead?_end, cut?, afterHead?_end]
      by_cases hend : c = '*' ∧ r.head? = some '/'
      · obtain ⟨rfl, hslash⟩ := hend
        obtain ⟨r', rfl⟩ := List.head?_eq_some_iff.1 hslash
        rfl
      · rw [if_neg hend, if_neg fun h => hend ⟨h.1, head?_withReturns (by decide) r h.2⟩, ih]
        cases cut? ['*', '/'] r with
        | none => rfl
        | some p => exact congrArg some (Prod.ext (withReturns_cons_of_ne hc p.1).symm rfl)

theorem stripComments_withReturns_newline (r : List Char) :
    stripComments (withReturns ('\n' :: r)) = '\r' :: '\n' :: stripComments (withReturns r) := by
  rw [withReturns_newline, stripComments_cons (by decide) (by decide),
    stripComments_cons (by decide) (by decide)]

/-- A fragment of a text with returns, the line comments aside, leaves what it left, with returns.
-/
theorem exists_stripComments_withReturns {f : Fragment} {rest : List Char} (hfits : f.Fits rest)
    (hline : f.withinLine = true) (hcomment : ∀ body, f ≠ .lineComment body) :
    ∃ left, Returned f.stripped left ∧
      stripComments (withReturns (f.text ++ rest)) = left ++ stripComments (withReturns rest) := by
  cases f with
  | plain c =>
    by_cases hc : c = '\n'
    · subst hc
      exact ⟨_, .newline .nil, stripComments_withReturns_newline rest⟩
    · have hfits' : (Fragment.plain c).Fits (withReturns rest) := by
        refine ⟨hfits.1, fun hslash => ?_⟩
        exact ⟨fun hhead => (hfits.2 hslash).1 (head?_withReturns (by decide) rest hhead),
          fun hhead => (hfits.2 hslash).2 (head?_withReturns (by decide) rest hhead)⟩
      refine ⟨[c], .refl _, ?_⟩
      rw [withReturns_append, show withReturns (Fragment.text (.plain c)) = Fragment.text (.plain c)
        from withReturns_cons_of_ne hc [], stripComments_append hfits']
      rfl
  | literal quote tail =>
    have hquote : quote ≠ '\n' := by
      rintro rfl
      exact absurd hfits.1 (by decide)
    have hfits' : (Fragment.literal quote (withReturns tail)).Fits (withReturns rest) := by
      refine ⟨hfits.1, ?_⟩
      rw [← withReturns_append]
      exact literalTail_withReturns hfits.1 hfits.2 (of_decide_eq_true hline)
    refine ⟨withReturns (quote :: tail), .withReturns _, ?_⟩
    rw [withReturns_append, Fragment.text, withReturns_cons_of_ne hquote]
    exact stripComments_append hfits'
  | lineComment body => exact absurd rfl (hcomment body)
  | blockComment body =>
    have hfits' : (Fragment.blockComment (withReturns body)).Fits (withReturns rest) := by
      show cut? ['*', '/'] (withReturns body ++ withReturns ['*', '/'] ++ withReturns rest) = _
      rw [← withReturns_append, ← withReturns_append, cut?_withReturns,
        show cut? ['*', '/'] (body ++ ['*', '/'] ++ rest) = some (body, rest) from hfits]
      rfl
    have htext : withReturns (Fragment.blockComment body).text =
        (Fragment.blockComment (withReturns body)).text := by
      rw [Fragment.text, withReturns_cons_of_ne (by decide), withReturns_cons_of_ne (by decide),
        withReturns_append]
      rfl
    refine ⟨_, .refl _, ?_⟩
    rw [withReturns_append, htext, stripComments_append hfits', Fragment.stripped,
      Fragment.stripped, filter_withReturns]
  | openComment body =>
    obtain ⟨hopen, rfl⟩ := hfits
    have hfits' : (Fragment.openComment (withReturns body)).Fits [] := by
      refine ⟨?_, rfl⟩
      rw [cut?_withReturns, hopen]
      rfl
    have htext : withReturns (Fragment.openComment body).text =
        (Fragment.openComment (withReturns body)).text := by
      rw [Fragment.text, withReturns_cons_of_ne (by decide), withReturns_cons_of_ne (by decide)]
      rfl
    refine ⟨withReturns (Fragment.openComment body).text, .withReturns _, ?_⟩
    rw [withReturns_append, htext, withReturns_nil, stripComments_append hfits']
    rfl

/-- A line comment takes the return before its newline along. -/
theorem stripComments_withReturns_lineComment {body : List Char} (h : '\n' ∉ body)
    (r : List Char) :
    stripComments (withReturns ((Fragment.lineComment body).text ++ '\n' :: r)) =
      '\n' :: stripComments (withReturns r) := by
  have hfits : (Fragment.lineComment (body ++ ['\r'])).Fits ('\n' :: withReturns r) := by
    refine ⟨?_, fun c hc => (Option.some.inj hc).symm⟩
    rw [List.mem_append, List.mem_singleton]
    exact not_or.2 ⟨h, by decide⟩
  have htext : withReturns ((Fragment.lineComment body).text ++ '\n' :: r) =
      (Fragment.lineComment (body ++ ['\r'])).text ++ '\n' :: withReturns r := by
    rw [withReturns_append, withReturns_newline, Fragment.text, withReturns_cons_of_ne (by decide),
      withReturns_cons_of_ne (by decide), withReturns_of_not_mem h, Fragment.text]
    simp
  rw [htext, stripComments_append hfits, stripComments_cons (by decide) (by decide)]
  rfl

/-- Taking comments out of a text with returns leaves some of the returns. -/
theorem returned_stripComments {cs : List Char}
    (h : (fragments cs).all Fragment.withinLine = true) :
    Returned (stripComments cs) (stripComments (withReturns cs)) := by
  generalize hfs : fragments cs = fs at h
  induction fs generalizing cs with
  | nil =>
    rw [eq_nil_of_fragments hfs]
    exact .refl _
  | cons f fs ih =>
    obtain ⟨rest, rfl, hfits, rfl⟩ := exists_of_fragments hfs
    rw [List.all_cons, Bool.and_eq_true] at h
    obtain ⟨hline, hlines⟩ := h
    have ih := ih rfl hlines
    rw [stripComments_append hfits]
    by_cases hcomment : ∃ body, f = .lineComment body
    · obtain ⟨body, rfl⟩ := hcomment
      cases rest with
      | nil =>
        have htext : withReturns (Fragment.lineComment body).text =
            (Fragment.lineComment body).text := by
          rw [Fragment.text, withReturns_cons_of_ne (by decide), withReturns_cons_of_ne (by decide),
            withReturns_of_not_mem hfits.1]
        rw [withReturns_append, htext, withReturns_nil, stripComments_append hfits]
        exact .refl _
      | cons c r =>
        have hc : c = '\n' := hfits.2 c rfl
        subst hc
        rw [stripComments_withReturns_newline, stripComments_cons (by decide) (by decide)] at ih
        rw [stripComments_withReturns_lineComment hfits.1,
          stripComments_cons (by decide) (by decide)]
        exact .cons '\n' ih.of_newline
    · obtain ⟨left, hleft, hstrip⟩ := exists_stripComments_withReturns hfits hline
        fun body hf => hcomment ⟨body, hf⟩
      rw [hstrip]
      exact hleft.append ih

theorem mem_of_mem_stripComments {x : Char} {cs : List Char} (h : x ∈ stripComments cs) :
    x ∈ cs ∨ x = ' ' := by
  rw [stripComments_eq, List.mem_flatMap] at h
  obtain ⟨f, hf, hx⟩ := h
  have htext : x ∈ f.text → x ∈ cs := by
    intro hx
    rw [← flatMap_text_fragments cs]
    exact List.mem_flatMap.2 ⟨f, hf, hx⟩
  cases f with
  | plain c => exact Or.inl (htext hx)
  | literal quote tail => exact Or.inl (htext hx)
  | lineComment body => cases hx
  | blockComment body =>
    rcases List.mem_cons.1 hx with rfl | hx
    · exact Or.inr rfl
    · exact Or.inl (htext (by simp [Fragment.text, (List.mem_filter.1 hx).1]))
  | openComment body => exact Or.inl (htext hx)

/-- **The style of line endings does not matter**, where no literal goes on behind the end of its
line: a text without carriage returns has the same normal text with a return before each newline. -/
theorem normalize_withReturns {cs : List Char} (hreturn : '\r' ∉ cs)
    (hlines : (fragments cs).all Fragment.withinLine = true) :
    normalize (withReturns cs) = normalize cs := by
  have hstripped : '\r' ∉ stripComments cs := by
    intro hm
    rcases mem_of_mem_stripComments hm with hm | hblank
    · exact hreturn hm
    · cases hblank
  exact (returned_stripComments hlines).joinContinuations_eq hstripped

/-- Continued lines, comments of both kinds and a literal that its line cuts off. -/
def mixedText : List Char := "x \\\n= '\\'' // a\\\n+ /* b\nc */ \"d\ne".toList

theorem normalize_withReturns_mixedText :
    '\r' ∉ mixedText ∧ (fragments mixedText).all Fragment.withinLine = true ∧
      normalize (withReturns mixedText) = normalize mixedText := by
  have hreturn : '\r' ∉ mixedText := by decide
  have hlines : (fragments mixedText).all Fragment.withinLine = true := by decide +kernel
  exact ⟨hreturn, hlines, normalize_withReturns hreturn hlines⟩

/-- A literal that a backslash continues on the next line, where it goes on with two slashes. With
returns the slashes open a comment. -/
theorem not_normalize_withReturns :
    '\r' ∉ "\"\\\n//\"".toList ∧
      normalize "\"\\\n//\"".toList = "\"//\"\n".toList ∧
      normalize (withReturns "\"\\\n//\"".toList) = "\"\n".toList := by
  refine ⟨by decide, ?_, ?_⟩
  · decide +kernel
  · decide +kernel

end CInterface.Text
