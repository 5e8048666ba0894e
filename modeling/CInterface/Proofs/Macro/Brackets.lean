import CInterface.Word
import Mathlib.Tactic.SplitIfs
/-!
# Parentheses and literals of a text

Whether a parenthesis of a text counts depends on the literals before it. Here both are followed
character by character, independently of how the word scanner cuts the text, so that a text can be
put together from pieces or taken apart anywhere.

* `walk` — the place and the number of open parentheses behind a text.
* `Clear` — no literal of the text is cut off by a newline.
* `Matched` — the parentheses of the text pair up, and its literals are closed.
* `matched_nextSegment` — the segments of a clear text are matched, but for parentheses and the last.
-/

namespace CInterface

open Text

/-! ### Following a text -/

/-- The two quotes. -/
inductive Quote where
  | single
  | double
  deriving DecidableEq

/-- The character of a quote. -/
def Quote.char : Quote → Char
  | single => '\x27'
  | double => '"'

/-- Where in a text a character stands. -/
inductive Place where
  | outside
  | literal (quote : Quote)
  /-- Behind a backslash in a literal. -/
  | escape (quote : Quote)
  deriving DecidableEq

/-- The place and the number of open parentheses behind one more character. Nothing where a newline
cuts off a literal. -/
def advance : Place × Nat → Char → Option (Place × Nat)
  | (.outside, d), c =>
    if c = '"' then some (.literal .double, d)
    else if c = '\x27' then some (.literal .single, d)
    else if c = '(' then some (.outside, d + 1)
    else if c = ')' then some (.outside, d - 1)
    else some (.outside, d)
  | (.literal q, d), c =>
    if c = '\\' then some (.escape q, d)
    else if c = '\n' then none
    else if c = q.char then some (.outside, d)
    else some (.literal q, d)
  | (.escape q, d), _ => some (.literal q, d)

/-- The place and the number of open parentheses behind a text. -/
def walk (s : Place × Nat) : List Char → Option (Place × Nat)
  | [] => some s
  | c :: r => (advance s c).bind (walk · r)

theorem walk_append (s : Place × Nat) (u v : List Char) :
    walk s (u ++ v) = (walk s u).bind (walk · v) := by
  induction u generalizing s with
  | nil => rfl
  | cons c u ih =>
    rw [List.cons_append, walk, walk]
    cases advance s c with
    | none => rfl
    | some s' => exact ih s'

/-- Whether a literal is cut off does not depend on the open parentheses. -/
theorem walk_isSome_depth (p : Place) (d e : Nat) (u : List Char) :
    (walk (p, d) u).isSome = (walk (p, e) u).isSome := by
  induction u generalizing p d e with
  | nil => rfl
  | cons c u ih =>
    rw [walk, walk]
    cases p with
    | outside =>
      simp only [advance]
      split_ifs <;> exact ih _ _ _
    | literal q =>
      simp only [advance]
      split_ifs
      · exact ih _ _ _
      · rfl
      · exact ih _ _ _
      · exact ih _ _ _
    | escape q => exact ih _ _ _

/-- No literal of the text is cut off by a newline. -/
def Clear (u : List Char) : Prop := (walk (.outside, 0) u).isSome = true

/-- The parentheses of the text pair up, and its literals are closed. -/
def Matched (u : List Char) : Prop := ∀ d, walk (.outside, d) u = some (.outside, d)

theorem Matched.nil : Matched [] := fun _ => rfl

theorem Matched.append {u v : List Char} (hu : Matched u) (hv : Matched v) : Matched (u ++ v) := by
  intro d
  rw [walk_append, hu d]
  exact hv d

/-- A matched beginning can be left out. -/
theorem Matched.walk_append {u : List Char} (hu : Matched u) (v : List Char) (d : Nat) :
    walk (.outside, d) (u ++ v) = walk (.outside, d) v := by
  rw [CInterface.walk_append, hu d]
  rfl

theorem Matched.clear {u : List Char} (hu : Matched u) : Clear u := by
  rw [Clear, hu 0]
  rfl

/-- What follows a piece behind which the walk is outside literals is clear with the whole. -/
theorem Clear.of_append {u v : List Char} {d e : Nat} (h : Clear (u ++ v))
    (hu : walk (.outside, d) u = some (.outside, e)) : Clear v := by
  have hd : (walk (.outside, d) (u ++ v)).isSome = true :=
    (walk_isSome_depth .outside d 0 _).trans h
  rw [walk_append, hu] at hd
  exact (walk_isSome_depth .outside 0 e v).trans hd

/-- A text without newlines is clear. -/
theorem clear_of_no_newline {u : List Char} (h : '\n' ∉ u) : Clear u := by
  suffices ∀ s, (walk s u).isSome = true from this _
  induction u with
  | nil => intro s; rfl
  | cons c u ih =>
    rintro ⟨p, d⟩
    have hc : c ≠ '\n' := fun e => h (e ▸ List.mem_cons_self)
    have hu := ih fun e => h (List.mem_cons_of_mem _ e)
    rw [walk]
    cases p with
    | outside => simp only [advance]; split_ifs <;> exact hu _
    | literal q => simp only [advance, hc, if_false]; split_ifs <;> exact hu _
    | escape q => exact hu _

/-- A character that is neither a quote nor a parenthesis. -/
def Plain (c : Char) : Prop := c ≠ '"' ∧ c ≠ '\x27' ∧ c ≠ '(' ∧ c ≠ ')'

theorem matched_of_plain {u : List Char} (h : ∀ c ∈ u, Plain c) : Matched u := by
  intro d
  induction u with
  | nil => rfl
  | cons c u ih =>
    obtain ⟨h₁, h₂, h₃, h₄⟩ := h c List.mem_cons_self
    rw [walk]
    simp only [advance, h₁, h₂, h₃, h₄, if_false]
    exact ih fun x hx => h x (List.mem_cons_of_mem _ hx)

/-! ### Blanks -/

theorem plain_of_isBlank {c : Char} (h : isBlank c = true) : Plain c := by
  refine ⟨?_, ?_, ?_, ?_⟩ <;> rintro rfl <;> exact absurd h (by decide)

/-- A blank leaves a place only where a newline cuts off a literal. -/
theorem advance_blank {c : Char} {p : Place} {d e : Nat} (h : isBlank c = true)
    (ha : advance (p, d) c = some (.outside, e)) : p = .outside ∧ d = e := by
  obtain ⟨h₁, h₂, h₃, h₄⟩ := plain_of_isBlank h
  cases p with
  | outside =>
    simp only [advance, h₁, h₂, h₃, h₄, if_false, Option.some.injEq, Prod.mk.injEq, true_and] at ha
    exact ⟨rfl, ha⟩
  | literal q =>
    have hq : c ≠ q.char := by cases q <;> assumption
    simp only [advance, hq, if_false] at ha
    split_ifs at ha <;> simp at ha
  | escape q => simp [advance] at ha

theorem walk_of_append_blanks {u w : List Char} {s : Place × Nat} {e : Nat}
    (hw : ∀ c ∈ w, isBlank c = true) (h : walk s (u ++ w) = some (.outside, e)) :
    walk s u = some (.outside, e) := by
  rw [walk_append] at h
  obtain ⟨⟨p, d⟩, hu, hpd⟩ := Option.bind_eq_some_iff.1 h
  suffices p = .outside ∧ d = e by rw [hu, this.1, this.2]
  clear h hu
  induction w generalizing p d with
  | nil =>
    obtain ⟨rfl, rfl⟩ := Prod.mk.inj (Option.some.inj hpd)
    exact ⟨rfl, rfl⟩
  | cons c w ih =>
    rw [walk] at hpd
    obtain ⟨⟨p', d'⟩, ha, hw'⟩ := Option.bind_eq_some_iff.1 hpd
    obtain ⟨rfl, rfl⟩ := ih (fun x hx => hw x (List.mem_cons_of_mem _ hx)) p' d' hw'
    exact advance_blank (hw c List.mem_cons_self) ha

theorem exists_trimStart (u : List Char) : ∃ w, (∀ c ∈ w, isBlank c = true) ∧ u = w ++ trimStart u :=
  ⟨u.takeWhile isBlank, fun c hc => List.all_eq_true.1 List.all_takeWhile c hc,
    List.takeWhile_append_dropWhile.symm⟩

theorem exists_trimEnd (u : List Char) : ∃ w, (∀ c ∈ w, isBlank c = true) ∧ u = trimEnd u ++ w := by
  obtain ⟨w, hw, h⟩ := exists_trimStart u.reverse
  refine ⟨w.reverse, fun c hc => hw c (List.mem_reverse.1 hc), ?_⟩
  have := congrArg List.reverse h
  rwa [List.reverse_reverse, List.reverse_append] at this

theorem Matched.trim {u : List Char} (h : Matched u) : Matched (trim u) := by
  intro d
  obtain ⟨v, hv, hu⟩ := exists_trimStart u
  obtain ⟨w, hw, he⟩ := exists_trimEnd (trimStart u)
  have hs : walk (.outside, d) (trimStart u) = some (.outside, d) := by
    rw [← (matched_of_plain fun c hc => plain_of_isBlank (hv c hc)).walk_append, ← hu]
    exact h d
  rw [he] at hs
  exact walk_of_append_blanks hw hs

/-! ### Segments -/

theorem nextSegment_opening (r : List Char) : nextSegment '(' r = (.other, 0) := rfl

theorem nextSegment_closing (r : List Char) : nextSegment ')' r = (.other, 0) := rfl

theorem nextSegment_comma (r : List Char) : nextSegment ',' r = (.other, 0) := rfl

theorem plain_of_isWordTail {c : Char} (h : isWordTail c = true) : Plain c := by
  refine ⟨?_, ?_, ?_, ?_⟩ <;> rintro rfl <;> exact absurd h (by decide)

theorem plain_of_isWordSpace {c : Char} (h : isWordSpace c = true) : Plain c := by
  refine ⟨?_, ?_, ?_, ?_⟩ <;> rintro rfl <;> exact absurd h (by decide)

theorem plain_of_numberTail (hex : Bool) (b : Char) (r : List Char) :
    ∀ c ∈ r.take (numberTail hex b r), Plain c := by
  induction r generalizing b with
  | nil => simp
  | cons x r ih =>
    rw [numberTail]
    split
    · rename_i hx
      intro c hc
      rw [Nat.add_comm, List.take_succ_cons, List.mem_cons] at hc
      rcases hc with rfl | hc
      · refine ⟨?_, ?_, ?_, ?_⟩ <;> rintro rfl <;> exact absurd hx (by simp; decide)
      · exact ih x c hc
    · simp

theorem getLast?_cons_of_some {α : Type} {l : List α} {x : α} (c : α) (h : l.getLast? = some x) :
    (c :: l).getLast? = some x := by
  rw [List.getLast?_cons, h]
  rfl

/-- A literal ends with its quote, goes on to the end of the text, or is cut off. -/
theorem quotedTail_cases (q : Quote) (r : List Char) :
    ((∀ d, walk (.literal q, d) (r.take (quotedTail q.char r)) = some (.outside, d)) ∧
        (r.take (quotedTail q.char r)).getLast? = some q.char) ∨
      (r.drop (quotedTail q.char r) = [] ∧ ∀ d e, walk (.literal q, d) r ≠ some (.outside, e)) ∨
      ((r.drop (quotedTail q.char r)).head? = some '\n' ∧ ∀ d, walk (.literal q, d) r = none) := by
  have hqb : q.char ≠ '\\' := by cases q <;> decide
  have hqn : q.char ≠ '\n' := by cases q <;> decide
  fun_induction quotedTail q.char r with
  | case1 => simp [walk]
  | case2 => simp [walk, advance]
  | case3 c hn =>
    by_cases hb : c = '\\'
    · simp [walk, advance, hb]
    · by_cases hq : c = q.char
      · simp [walk, advance, hqb, hqn, hq]
      · simp [walk, advance, hb, hn, hq]
  | case4 x r ih =>
    have hw : ∀ d u, walk (.literal q, d) ('\\' :: x :: u) = walk (.literal q, d) u := fun _ _ => rfl
    simp only [Nat.add_comm 2, List.take_succ_cons, List.drop_succ_cons, hw]
    rcases ih with ⟨h₁, h₂⟩ | h | h
    · exact .inl ⟨h₁, getLast?_cons_of_some _ (getLast?_cons_of_some x h₂)⟩
    · exact .inr (.inl h)
    · exact .inr (.inr h)
  | case5 x r => simp [walk, advance]
  | case6 x r => simp [walk, advance, hqb, hqn]
  | case7 c x r hb hn hq ih =>
    have hw : ∀ d u, walk (.literal q, d) (c :: u) = walk (.literal q, d) u := by
      intro d u
      simp [walk, advance, hb, hn, hq]
    simp only [Nat.add_comm 1, List.take_succ_cons, List.drop_succ_cons, hw]
    rcases ih with ⟨h₁, h₂⟩ | h | h
    · exact .inl ⟨h₁, getLast?_cons_of_some c h₂⟩
    · exact .inr (.inl h)
    · exact .inr (.inr h)

theorem holds_of_mem_take_run {p : Char → Bool} {l : List Char} {x : Char}
    (h : x ∈ l.take (l.takeWhile p).length) : p x = true := by
  rw [← List.prefix_iff_eq_take.1 (List.takeWhile_prefix p)] at h
  exact List.all_eq_true.1 List.all_takeWhile x h

/-- Outside quotes and parentheses a segment is plain. -/
theorem plain_of_nextSegment {c : Char} {r : List Char} (hq : (nextSegment c r).1 ≠ .quoted)
    (ho : c ≠ '(') (hc : c ≠ ')') : ∀ x ∈ c :: r.take (nextSegment c r).2, Plain x := by
  unfold nextSegment at hq ⊢
  split_ifs at hq ⊢ with h₁ h₂ h₃ h₄
  · exact absurd rfl hq
  all_goals
    intro x hx
    rcases List.mem_cons.1 hx with rfl | hx
    · simp only [Bool.or_eq_true, decide_eq_true_eq, not_or] at h₁
      exact ⟨h₁.1, h₁.2, ho, hc⟩
  · exact plain_of_isWordTail (holds_of_mem_take_run hx)
  · exact plain_of_numberTail _ _ _ x hx
  · exact plain_of_isWordSpace (holds_of_mem_take_run hx)
  · simp at hx

/-- A literal is the quoted segment of its quote. -/
theorem exists_quote {c : Char} {r : List Char} (h : (nextSegment c r).1 = .quoted) :
    ∃ q : Quote, c = q.char ∧ (nextSegment c r).2 = quotedTail q.char r ∧
      ∀ d u, walk (.outside, d) (c :: u) = walk (.literal q, d) u := by
  unfold nextSegment at h ⊢
  split_ifs at h ⊢ with h₁
  simp only [Bool.or_eq_true, decide_eq_true_eq] at h₁
  rcases h₁ with rfl | rfl
  · exact ⟨.double, rfl, rfl, fun _ _ => rfl⟩
  · exact ⟨.single, rfl, rfl, fun _ _ => rfl⟩

/-- In a clear text a segment that is no parenthesis is matched, or it is the last. -/
theorem matched_nextSegment {c : Char} {r : List Char} (h : Clear (c :: r)) (ho : c ≠ '(')
    (hc : c ≠ ')') :
    Matched (c :: r.take (nextSegment c r).2) ∨ r.drop (nextSegment c r).2 = [] := by
  by_cases hq : (nextSegment c r).1 = .quoted
  · obtain ⟨q, -, hn, hw⟩ := exists_quote hq
    rw [Clear, hw] at h
    rw [hn]
    rcases quotedTail_cases q r with ⟨hd, -⟩ | ⟨hd, -⟩ | ⟨-, hd⟩
    · exact .inl fun d => (hw d _).trans (hd d)
    · exact .inr hd
    · rw [hd] at h
      exact absurd h (by decide)
  · exact .inl (matched_of_plain (plain_of_nextSegment hq ho hc))

theorem clear_drop_nextSegment {c : Char} {r : List Char} (h : Clear (c :: r)) :
    Clear (r.drop (nextSegment c r).2) := by
  have hs : c :: r = (c :: r.take (nextSegment c r).2) ++ r.drop (nextSegment c r).2 := by
    rw [List.cons_append, List.take_append_drop]
  by_cases ho : c = '('
  · subst ho
    rw [nextSegment_opening] at hs ⊢
    rw [hs] at h
    exact h.of_append (show walk (.outside, 0) ['('] = some (.outside, 1) from rfl)
  · by_cases hc : c = ')'
    · subst hc
      rw [nextSegment_closing] at hs ⊢
      rw [hs] at h
      exact h.of_append (show walk (.outside, 0) [')'] = some (.outside, 0) from rfl)
    · rcases matched_nextSegment h ho hc with hm | he
      · rw [hs] at h
        exact h.of_append (hm 0)
      · rw [he]
        exact Matched.nil.clear

end CInterface
