import CInterface.Proofs.Macro.Brackets
import CInterface.Macro.Call
/-!
# Segments and calls in a closing text

A replacement is followed by whatever follows the macro. If it ends with the parenthesis that closes
all that are open, nothing that begins in it goes on behind it.

* `ClosingAt` — the text ends with the parenthesis that closes all that are open.
* `nextSegment_append` — a segment that ends inside a text, as all segments of a closing text do.
* `callArguments?_split` — the arguments of a call are matched, and so is the call.
* `callArguments?_append` — a call in a closing text.
-/

namespace CInterface

open Text

/-! ### Closing texts -/

/-- Where `d` parentheses are open, the text ends with the one that closes them all. The end of such
a text is one, too; so it may be empty. -/
def ClosingAt (d : Nat) (u : List Char) : Prop :=
  walk (.outside, d) u = some (.outside, 0) ∧ ∀ c ∈ u.getLast?, c = ')'

theorem ClosingAt.of_append {d e : Nat} {u v : List Char} (h : ClosingAt d (u ++ v))
    (hu : walk (.outside, d) u = some (.outside, e)) : ClosingAt e v := by
  obtain ⟨hd, hl⟩ := h
  refine ⟨?_, fun c hc => hl c ?_⟩
  · rwa [walk_append, hu] at hd
  · rw [List.getLast?_append, Option.mem_def.1 hc]
    rfl

theorem ClosingAt.clear {d : Nat} {u : List Char} (h : ClosingAt d u) : Clear u := by
  rw [Clear, walk_isSome_depth .outside 0 d, h.1]
  rfl

theorem ClosingAt.closing_mem {d : Nat} {c : Char} {r : List Char} (h : ClosingAt d (c :: r))
    (hc : c ≠ ')') : ')' ∈ r := by
  have hr : r ≠ [] := by
    rintro rfl
    exact hc (h.2 c rfl)
  have hl : r.getLast hr = ')' := by
    apply h.2
    rw [List.getLast?_cons, List.getLast?_eq_some_getLast hr]
    rfl
  exact hl ▸ List.getLast_mem hr

theorem length_takeWhile_lt {p : Char → Bool} {l : List Char} {x : Char} (hx : x ∈ l)
    (hp : p x = false) : (l.takeWhile p).length < l.length := by
  refine Nat.lt_of_le_of_ne (List.takeWhile_prefix p).length_le fun he => ?_
  have := List.all_eq_true.1 (List.all_takeWhile (p := p) (l := l)) x
  rw [(List.takeWhile_prefix p).eq_of_length he] at this
  exact absurd (this hx) (by simp [hp])

theorem numberTail_lt (hex : Bool) (b : Char) {r : List Char} (h : ')' ∈ r) :
    numberTail hex b r < r.length := by
  induction r generalizing b with
  | nil => simp at h
  | cons x r ih =>
    rw [numberTail]
    split
    · rename_i hx
      rcases List.mem_cons.1 h with rfl | h
      · exact absurd hx (by simp; decide)
      · have := ih x h
        rw [List.length_cons]
        omega
    · exact Nat.zero_lt_succ _

/-- No segment reaches the end of a closing text, except the last parenthesis itself. -/
theorem ClosingAt.nextSegment_lt {d : Nat} {c : Char} {r : List Char} (h : ClosingAt d (c :: r))
    (hc : c ≠ ')') : (nextSegment c r).2 < r.length := by
  have hm := h.closing_mem hc
  by_cases hq : (nextSegment c r).1 = .quoted
  · obtain ⟨q, rfl, hn, hw⟩ := exists_quote hq
    obtain ⟨hd, hl⟩ := h
    rw [hw] at hd
    rw [hn]
    refine Nat.lt_of_not_le fun hge => ?_
    have ht : r.take (quotedTail q.char r) = r := List.take_of_length_le hge
    rcases quotedTail_cases q r with ⟨-, hq⟩ | ⟨-, hne⟩ | ⟨-, hnone⟩
    · -- the closing quote would be the last character
      rw [ht] at hq
      have := hl q.char (getLast?_cons_of_some _ hq)
      cases q <;> exact absurd this (by decide)
    · exact hne d 0 hd
    · rw [hnone d] at hd
      exact absurd hd (by simp)
  · unfold nextSegment at hq ⊢
    split_ifs at hq ⊢ with h₁ h₂ h₃ h₄
    · exact absurd rfl hq
    · exact length_takeWhile_lt hm (by decide)
    · exact numberTail_lt _ _ hm
    · exact length_takeWhile_lt hm (by decide)
    · exact List.length_pos_of_mem hm

theorem takeWhile_append_of_lt {p : Char → Bool} {l : List Char} (rest : List Char)
    (h : (l.takeWhile p).length < l.length) : (l ++ rest).takeWhile p = l.takeWhile p := by
  rw [List.takeWhile_append, if_neg (Nat.ne_of_lt h)]

theorem numberTail_append {hex : Bool} {b : Char} {r : List Char} (rest : List Char)
    (h : numberTail hex b r < r.length) :
    numberTail hex b (r ++ rest) = numberTail hex b r := by
  induction r generalizing b with
  | nil => simp at h
  | cons x r ih =>
    rw [List.cons_append, numberTail, numberTail]
    rw [numberTail] at h
    split_ifs at h ⊢ with hx
    · rw [ih]
      rw [List.length_cons] at h
      omega
    · rfl

theorem quotedTail_append {q : Char} {r : List Char} (rest : List Char)
    (h : quotedTail q r < r.length) : quotedTail q (r ++ rest) = quotedTail q r := by
  fun_induction quotedTail q r with
  | case1 => simp at h
  | case2 => cases rest <;> simp [quotedTail]
  | case3 => simp at h
  | case4 x r ih =>
    rw [List.cons_append, List.cons_append, quotedTail, if_pos rfl, ih]
    simp only [List.length_cons] at h
    omega
  | case5 x r => simp [quotedTail]
  | case6 x r => simp_all [quotedTail]
  | case7 c x r hb hn hq ih =>
    rw [List.cons_append, List.cons_append, quotedTail, if_neg hb, if_neg hn, if_neg hq,
      ← List.cons_append, ih]
    rw [List.length_cons] at h
    omega

/-- A segment that ends inside a text is the same whatever follows the text. -/
theorem nextSegment_append {c : Char} {r : List Char} (rest : List Char)
    (h : (nextSegment c r).2 < r.length) : nextSegment c (r ++ rest) = nextSegment c r := by
  have hh : (r ++ rest).head? = r.head? := by
    cases r with
    | nil => simp at h
    | cons x r => rfl
  unfold nextSegment at h ⊢
  rw [startsNumber, startsHex, hh, ← startsNumber, ← startsHex]
  split_ifs at h ⊢
  · rw [quotedTail_append rest h]
  · rw [takeWhile_append_of_lt rest h]
  · rw [numberTail_append rest h]
  · rw [takeWhile_append_of_lt rest h]
  · rfl

/-! ### Calls -/

theorem argumentsFrom_nil (depth : Nat) (arg : List Char) : argumentsFrom depth arg [] = none := by
  rw [argumentsFrom]

theorem argumentsFrom_opening (depth : Nat) (arg r : List Char) :
    argumentsFrom depth arg ('(' :: r) = argumentsFrom (depth + 1) ('(' :: arg) r := by
  rw [argumentsFrom.eq_def]
  dsimp only
  rw [nextSegment_opening]
  rfl

theorem argumentsFrom_closing_zero (arg r : List Char) :
    argumentsFrom 0 arg (')' :: r) = some ([trim arg.reverse], r) := by
  rw [argumentsFrom.eq_def]
  dsimp only
  rw [nextSegment_closing]
  rfl

theorem argumentsFrom_closing_succ (depth : Nat) (arg r : List Char) :
    argumentsFrom (depth + 1) arg (')' :: r) = argumentsFrom depth (')' :: arg) r := by
  rw [argumentsFrom.eq_def]
  dsimp only
  rw [nextSegment_closing]
  rfl

theorem argumentsFrom_comma (arg r : List Char) :
    argumentsFrom 0 arg (',' :: r) =
      (argumentsFrom 0 [] r).map fun p => (trim arg.reverse :: p.1, p.2) := by
  rw [argumentsFrom.eq_def]
  dsimp only
  rw [nextSegment_comma]
  rfl

/-- Any other segment belongs to the present argument. -/
theorem argumentsFrom_word {depth : Nat} {c : Char} {r : List Char} (ho : c ≠ '(') (hcl : c ≠ ')')
    (hk : (nextSegment c r).1 ≠ .other ∨ ¬(c = ',' ∧ depth = 0)) (arg : List Char) :
    argumentsFrom depth arg (c :: r) =
      argumentsFrom depth ((c :: r.take (nextSegment c r).2).reverse ++ arg)
        (r.drop (nextSegment c r).2) := by
  rw [argumentsFrom.eq_def]
  rcases hs : nextSegment c r with ⟨kind, n⟩
  rw [hs] at hk
  dsimp only at hk ⊢
  rw [hs]
  dsimp only
  split_ifs with h hcomma
  · rfl
  · simp only [Bool.and_eq_true, decide_eq_true_eq] at hcomma
    rcases hk with hk | hk
    · exact absurd hk h
    · exact absurd hcomma hk
  · rfl

/-- What `argumentsFrom_split` says of a text. -/
def ListSplit (args : List (List Char)) (depth : Nat) (cs after : List Char) : Prop :=
  (∀ a ∈ args, Matched a) ∧
    ∃ u, cs = u ++ after ∧ ∀ d, walk (.outside, d + depth + 1) u = some (.outside, d)

theorem ListSplit.word {args : List (List Char)} {depth : Nat} {arg r after : List Char} {c : Char}
    (ho : c ≠ '(') (hcl : c ≠ ')') (hc : Clear (c :: r))
    (ha : ∀ d, walk (.outside, d) arg.reverse = some (.outside, d + depth))
    (h : argumentsFrom depth ((c :: r.take (nextSegment c r).2).reverse ++ arg)
      (r.drop (nextSegment c r).2) = some (args, after))
    (ih : Clear (r.drop (nextSegment c r).2) →
      (∀ d, walk (.outside, d) ((c :: r.take (nextSegment c r).2).reverse ++ arg).reverse =
        some (.outside, d + depth)) → ListSplit args depth (r.drop (nextSegment c r).2) after) :
    ListSplit args depth (c :: r) after := by
  rcases matched_nextSegment hc ho hcl with hm | he
  · have hw : ∀ d, walk (.outside, d) ((c :: r.take (nextSegment c r).2).reverse ++ arg).reverse =
        some (.outside, d + depth) := by
      intro d
      rw [List.reverse_append, List.reverse_reverse, walk_append, ha]
      exact hm _
    obtain ⟨hargs, u, hu, hwu⟩ := ih (clear_drop_nextSegment hc) hw
    refine ⟨hargs, (c :: r.take (nextSegment c r).2) ++ u, ?_,
      fun d => (hm.walk_append u _).trans (hwu d)⟩
    rw [List.append_assoc, ← hu, List.cons_append, List.take_append_drop]
  · rw [he, argumentsFrom_nil] at h
    simp at h

/-- The arguments of a list are matched, and so is the list up to its parenthesis. `depth` inner
parentheses stand open in the present argument. -/
theorem argumentsFrom_split {depth : Nat} {arg cs after : List Char} {args : List (List Char)}
    (h : argumentsFrom depth arg cs = some (args, after)) (hc : Clear cs)
    (ha : ∀ d, walk (.outside, d) arg.reverse = some (.outside, d + depth)) :
    ListSplit args depth cs after := by
  fun_induction argumentsFrom depth arg cs generalizing args with
  | case1 => simp at h
  | case2 depth arg c r kind n hn hk ih =>
    have ho : c ≠ '(' := by
      rintro rfl
      rw [nextSegment_opening] at hn
      exact hk (Prod.mk.inj hn).1.symm
    have hcl : c ≠ ')' := by
      rintro rfl
      rw [nextSegment_closing] at hn
      exact hk (Prod.mk.inj hn).1.symm
    obtain rfl : (nextSegment c r).2 = n := congrArg Prod.snd hn
    exact .word ho hcl hc ha h (ih h)
  | case3 depth arg r kind n hk hn ih =>
    have hw : ∀ d, walk (.outside, d) ('(' :: arg).reverse = some (.outside, d + (depth + 1)) := by
      intro d
      rw [List.reverse_cons, walk_append, ha]
      rfl
    have hd : Clear r := hc.of_append (show walk (.outside, 0) ['('] = some (.outside, 1) from rfl)
    obtain ⟨hargs, u, hu, hwu⟩ := ih h hd hw
    exact ⟨hargs, '(' :: u, by rw [hu, List.cons_append], fun d => hwu d⟩
  | case4 arg r kind n hk hn ho =>
    obtain ⟨rfl, rfl⟩ := Prod.mk.inj (Option.some.inj h)
    refine ⟨fun a h => ?_, [')'], rfl, fun d => rfl⟩
    rw [List.mem_singleton.1 h]
    exact Matched.trim ha
  | case5 arg r kind n hk depth hn ho ih =>
    have hw : ∀ d, walk (.outside, d) (')' :: arg).reverse = some (.outside, d + depth) := by
      intro d
      rw [List.reverse_cons, walk_append, ha]
      rfl
    have hd : Clear r := hc.of_append (show walk (.outside, 0) [')'] = some (.outside, 0) from rfl)
    obtain ⟨hargs, u, hu, hwu⟩ := ih h hd hw
    exact ⟨hargs, ')' :: u, by rw [hu, List.cons_append], fun d => hwu d⟩
  | case6 depth arg c r kind n hn hk ho hcl hcomma ih =>
    obtain ⟨⟨as, rest⟩, has, he⟩ := Option.map_eq_some_iff.1 h
    obtain ⟨rfl, rfl⟩ := Prod.mk.inj he
    simp only [Bool.and_eq_true, decide_eq_true_eq] at hcomma
    obtain ⟨rfl, rfl⟩ := hcomma
    have hd : Clear r := hc.of_append (show walk (.outside, 0) [','] = some (.outside, 0) from rfl)
    obtain ⟨hargs, u, hu, hwu⟩ := ih has hd fun _ => rfl
    refine ⟨fun a h => ?_, ',' :: u, by rw [hu, List.cons_append], fun d => hwu d⟩
    rcases List.mem_cons.1 h with rfl | h
    · exact Matched.trim ha
    · exact hargs a h
  | case7 depth arg c r kind n hn hk ho hcl hcomma ih =>
    obtain rfl : (nextSegment c r).2 = n := congrArg Prod.snd hn
    exact .word ho hcl hc ha h (ih h)

theorem nextSegment_word {c : Char} {r : List Char} (h : (nextSegment c r).1 ≠ .other) :
    c ≠ '(' ∧ c ≠ ')' := by
  constructor <;> rintro rfl
  · exact h (by rw [nextSegment_opening])
  · exact h (by rw [nextSegment_closing])

/-- A segment of a closing text that is no parenthesis ends inside it, and a closing text
remains. -/
theorem ClosingAt.word {d : Nat} {c : Char} {r : List Char} (h : ClosingAt d (c :: r)) (ho : c ≠ '(')
    (hcl : c ≠ ')') :
    (nextSegment c r).2 < r.length ∧ ClosingAt d (r.drop (nextSegment c r).2) := by
  have hlt := h.nextSegment_lt hcl
  refine ⟨hlt, ?_⟩
  rcases matched_nextSegment h.clear ho hcl with hm | he
  · refine ClosingAt.of_append ?_ (hm d)
    rwa [List.cons_append, List.take_append_drop]
  · have := List.drop_eq_nil_iff.1 he
    omega

theorem argumentsFrom_word_append {d depth : Nat} {arg r : List Char} {c : Char} (rest : List Char)
    (h : ClosingAt d (c :: r)) (ho : c ≠ '(') (hcl : c ≠ ')')
    (hk : (nextSegment c r).1 ≠ .other ∨ ¬(c = ',' ∧ depth = 0)) :
    argumentsFrom depth arg (c :: r ++ rest) =
      argumentsFrom depth ((c :: r.take (nextSegment c r).2).reverse ++ arg)
        (r.drop (nextSegment c r).2 ++ rest) := by
  obtain ⟨hlt, -⟩ := h.word ho hcl
  have hn := nextSegment_append rest hlt
  rw [List.cons_append, argumentsFrom_word ho hcl (by rwa [hn]), hn,
    List.take_append_of_le_length (Nat.le_of_lt hlt),
    List.drop_append_of_le_length (Nat.le_of_lt hlt)]

/-- An argument list that a closing text opens is closed in it, since the walk has to come down
from the depth of the list. -/
theorem argumentsFrom_append {depth k : Nat} {arg cs : List Char} (rest : List Char)
    (h : ClosingAt (k + depth + 1) cs) :
    ∃ args after, argumentsFrom depth arg cs = some (args, after) ∧
      argumentsFrom depth arg (cs ++ rest) = some (args, after ++ rest) := by
  fun_induction argumentsFrom depth arg cs with
  | case1 depth arg =>
    have := (Prod.mk.inj (Option.some.inj h.1)).2
    omega
  | case2 depth arg c r kind n hn hk ih =>
    obtain ⟨ho, hcl⟩ := nextSegment_word (c := c) (r := r) (by rwa [hn])
    have hw := h.word ho hcl
    rw [argumentsFrom_word_append rest h ho hcl (.inl (by rwa [hn]))]
    rw [hn] at hw ⊢
    exact ih hw.2
  | case3 depth arg r kind n hk hn ih =>
    rw [List.cons_append, argumentsFrom_opening]
    exact ih (h.of_append (show walk _ ['('] = _ from rfl))
  | case4 arg r kind n hk hn ho =>
    exact ⟨_, r, rfl, argumentsFrom_closing_zero arg (r ++ rest)⟩
  | case5 arg r kind n hk depth hn ho ih =>
    rw [List.cons_append, argumentsFrom_closing_succ]
    exact ih (h.of_append (show walk _ [')'] = _ from rfl))
  | case6 depth arg c r kind n hn hk ho hcl hcomma ih =>
    simp only [Bool.and_eq_true, decide_eq_true_eq] at hcomma
    obtain ⟨rfl, rfl⟩ := hcomma
    obtain ⟨args, after, h₁, h₂⟩ := ih (h.of_append (show walk _ [','] = _ from rfl))
    rw [List.cons_append, argumentsFrom_comma, h₁, h₂]
    exact ⟨_, after, rfl, rfl⟩
  | case7 depth arg c r kind n hn hk ho hcl hcomma ih =>
    simp only [Bool.and_eq_true, decide_eq_true_eq] at hcomma
    have hw := h.word ho hcl
    rw [argumentsFrom_word_append rest h ho hcl (.inr hcomma)]
    rw [hn] at hw ⊢
    exact ih hw.2

/-- The arguments of a call in a clear text are matched, and so is the call behind its name. -/
theorem callArguments?_split {cs after : List Char} {args : List (List Char)}
    (h : callArguments? cs = some (.ok (args, after))) (hc : Clear cs) :
    (∀ a ∈ args, Matched a) ∧ ∃ u, cs = u ++ after ∧ Matched u := by
  obtain ⟨w, hw, hcs⟩ := exists_trimStart cs
  have hm : Matched w := matched_of_plain fun c hc => plain_of_isBlank (hw c hc)
  unfold callArguments? at h
  split at h
  · rename_i list hl
    rw [hcs, hl] at hc
    have hlist : Clear list := (hc.of_append (hm 0)).of_append
      (show walk (.outside, 0) ['('] = some (.outside, 1) from rfl)
    split at h
    · rename_i found hf
      obtain rfl : found = (args, after) := by simpa using h
      obtain ⟨hargs, u, hu, hwu⟩ := argumentsFrom_split hf hlist fun _ => rfl
      refine ⟨hargs, w ++ '(' :: u, ?_, hm.append hwu⟩
      rw [hcs, hl, hu, List.append_assoc, List.cons_append]
    · simp at h
  · simp at h

theorem callArguments?_of_call {cs list : List Char} (h : trimStart cs = '(' :: list) :
    callArguments? cs = some (match argumentsFrom 0 [] list with
      | some found => .ok found
      | none => .error .unbalancedArguments) := by
  rw [callArguments?, h]
  rfl

theorem callArguments?_of_ne {cs list : List Char} {c : Char} (h : trimStart cs = c :: list)
    (hc : c ≠ '(') : callArguments? cs = none := by
  rw [callArguments?, h]
  split
  · rename_i he
    exact absurd (List.cons.inj he).1 hc
  · rfl

theorem ClosingAt.exists_trimStart {d : Nat} {cs : List Char} (h : ClosingAt d cs) (hne : cs ≠ []) :
    ∃ c list, trimStart cs = c :: list ∧ ClosingAt d (c :: list) := by
  obtain ⟨w, hw, hcs⟩ := CInterface.exists_trimStart cs
  have ht : ClosingAt d (trimStart cs) := by
    rw [hcs] at h
    exact h.of_append (matched_of_plain (fun c hc => plain_of_isBlank (hw c hc)) d)
  cases hs : trimStart cs with
  | nil =>
    -- the text would consist of blanks, but it ends with a parenthesis
    rw [hs, List.append_nil] at hcs
    subst hcs
    have hl := h.2 _ (List.getLast?_eq_some_getLast hne)
    have hb := hw _ (List.getLast_mem hne)
    rw [hl] at hb
    exact absurd hb (by decide)
  | cons c list => exact ⟨c, list, rfl, hs ▸ ht⟩

/-- A call in a closing text is the same whatever follows the text. -/
theorem callArguments?_append {d : Nat} {cs : List Char} (rest : List Char) (h : ClosingAt d cs)
    (hne : cs ≠ []) :
    (callArguments? cs = none ∧ callArguments? (cs ++ rest) = none) ∨
      ∃ args after, callArguments? cs = some (.ok (args, after)) ∧
        callArguments? (cs ++ rest) = some (.ok (args, after ++ rest)) := by
  obtain ⟨c, list, hs, hcl⟩ := h.exists_trimStart hne
  have hs' : trimStart (cs ++ rest) = c :: (list ++ rest) := by
    rw [trimStart, List.dropWhile_append, ← trimStart, hs]
    rfl
  by_cases hc : c = '('
  · subst hc
    have hlist : ClosingAt (d + 0 + 1) list :=
      hcl.of_append (show walk (.outside, d) ['('] = some (.outside, d + 1) from rfl)
    obtain ⟨args, after, h₁, h₂⟩ : ∃ args after, argumentsFrom 0 [] list = some (args, after) ∧
        argumentsFrom 0 [] (list ++ rest) = some (args, after ++ rest) :=
      argumentsFrom_append (k := d) rest hlist
    refine .inr ⟨args, after, ?_, ?_⟩
    · rw [callArguments?_of_call hs, h₁]
    · rw [callArguments?_of_call hs', h₂]
  · exact .inl ⟨callArguments?_of_ne hs hc, callArguments?_of_ne hs' hc⟩

end CInterface
