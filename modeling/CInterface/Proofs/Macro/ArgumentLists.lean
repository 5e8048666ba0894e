import CInterface.Proofs.Macro.Bodies
import CInterface.Proofs.Macro.Gaps
/-!
# Writing argument lists and reading them

Arguments are written with commas between them and parentheses around them. Texts that hold their
own commas and parentheses in pairs are read back as they were written.

* `oneArgument` — parentheses pair up in a text, and commas stand between them only.
* `IsArgument` — a trimmed text of that kind with its literals closed.
* `argumentsFrom_intercalate` — texts with commas between them are cut at these commas.
* `callArguments?_join` — the arguments of a call that is written from arguments are these.
-/

namespace CInterface

open Text

/-! ### Arguments -/

/-- With `depth` parentheses open before the segments, all are closed behind them, none is closed
that is not open, and no comma stands where none is open. -/
def oneArgument (depth : Nat) : List Segment → Bool
  | [] => depth = 0
  | s :: rest =>
    if s = ⟨.other, ['(']⟩ then oneArgument (depth + 1) rest
    else if s = ⟨.other, [')']⟩ then depth ≠ 0 && oneArgument (depth - 1) rest
    else if s = ⟨.other, [',']⟩ then depth ≠ 0 && oneArgument depth rest
    else oneArgument depth rest

/-- A text that can be written as an argument of a call. -/
structure IsArgument (arg : List Char) : Prop where
  trimmed : trim arg = arg
  /-- Each literal ends with its quote. -/
  closed : literalsClosed arg = true
  /-- Outside literals the parentheses pair up, and commas stand inside them only. -/
  single : oneArgument 0 (segments arg) = true

/-! ### Segments before a comma or a parenthesis -/

/-- A closed literal is the same whatever follows it. -/
theorem quotedTail_of_closed {quote : Char} {w : List Char}
    (h : quotedTail quote (w ++ [' ']) = w.length) (v : List Char) :
    quotedTail quote (w ++ v) = w.length := by
  fun_induction quotedTail quote w with
  | case1 => exact absurd h (by simp [quotedTail])
  | case2 => exact absurd h (by simp [quotedTail])
  | case3 a hnewline =>
    have hquote : a ≠ '\\' ∧ a = quote := by
      rw [List.singleton_append, quotedTail, List.length_singleton] at h
      split_ifs at h with hescape hquote
      · omega
      · exact ⟨hescape, hquote⟩
      · exact absurd h (by simp [quotedTail])
    cases v with
    | nil => rw [List.append_nil, quotedTail, if_neg hnewline, List.length_singleton]
    | cons d v =>
      rw [List.singleton_append, quotedTail, if_neg hquote.1, if_neg hnewline, if_pos hquote.2,
        List.length_singleton]
  | case4 b w ih =>
    rw [List.cons_append, List.cons_append, quotedTail, if_pos rfl, List.length_cons,
      List.length_cons] at h ⊢
    rw [ih (by omega)]
    omega
  | case5 b w => exact absurd h (by simp [quotedTail])
  | case6 b w hescape hnewline =>
    rw [List.cons_append, List.cons_append, quotedTail, if_neg hescape, if_neg hnewline,
      if_pos rfl] at h
    exact absurd h (by simp)
  | case7 a b w hescape hnewline hquote ih =>
    rw [List.cons_append, List.cons_append, quotedTail, if_neg hescape, if_neg hnewline,
      if_neg hquote, ← List.cons_append, List.length_cons] at h ⊢
    rw [ih (by omega), Nat.add_comm]

variable {t : Char} {kind : SegmentKind} {word : List Char}

theorem numberTail_append_stop (ht : t = ',' ∨ t = ')') {hex : Bool} {before : Char}
    {w : List Char} (h : numberTail hex before w = w.length) (rest : List Char) :
    numberTail hex before (w ++ t :: rest) = w.length := by
  induction w generalizing before with
  | nil => rcases ht with rfl | rfl <;> rfl
  | cons d w ih =>
    rw [numberTail] at h
    rw [List.cons_append, numberTail]
    split at h
    · rename_i hd
      rw [List.length_cons] at h
      rw [if_pos hd, ih (by omega), List.length_cons, Nat.add_comm]
    · cases h

/-- A comma or a parenthesis ends the segment before it, unless that is an open literal. -/
theorem FirstSegment.append_stop (ht : t = ',' ∨ t = ')') (h : FirstSegment kind word [])
    (hclosed : Segment.closed ⟨kind, word⟩ = true) (rest : List Char) :
    FirstSegment kind word (t :: rest) := by
  obtain ⟨c, w, rfl, hn⟩ := h
  refine ⟨c, w, rfl, ?_⟩
  have hany : ∀ p : Char → Bool, p ',' = false → p ')' = false →
      (t :: rest).head?.any p = false := by
    intro p hcomma hparen
    rcases ht with rfl | rfl
    · exact hcomma
    · exact hparen
  have hrun : ∀ p : Char → Bool, p ',' = false → p ')' = false →
      (w.takeWhile p).length = w.length →
        ((w ++ t :: rest).takeWhile p).length = w.length := by
    intro p hcomma hparen hw
    have hall := (length_takeWhile_append_eq (v := [])).1 (by rwa [List.append_nil])
    exact length_takeWhile_append_eq.2 ⟨hall.1, hany p hcomma hparen⟩
  have hhead : ∀ p : Char → Bool, p ',' = false → p ')' = false →
      (w ++ t :: rest).head?.any p = w.head?.any p := by
    intro p hcomma hparen
    cases w with
    | nil => exact hany p hcomma hparen
    | cons d w => rfl
  rw [List.append_nil] at hn
  unfold nextSegment at hn ⊢
  rw [startsNumber, startsHex, hhead _ (by decide) (by decide), hhead _ (by decide) (by decide),
    ← startsNumber, ← startsHex]
  split_ifs at hn ⊢ with hquote hword hnumber hspace
  · obtain ⟨rfl, -⟩ := Prod.mk.inj hn
    have hclosed : quotedTail c (w ++ [' ']) = w.length := by simpa [Segment.closed] using hclosed
    rw [quotedTail_of_closed hclosed]
  · obtain ⟨rfl, hlength⟩ := Prod.mk.inj hn
    rw [hrun _ (by decide) (by decide) hlength]
  · obtain ⟨rfl, hlength⟩ := Prod.mk.inj hn
    rw [numberTail_append_stop ht hlength]
  · obtain ⟨rfl, hlength⟩ := Prod.mk.inj hn
    rw [hrun _ (by decide) (by decide) hlength]
  · exact hn

/-! ### Reading -/

/-- A parenthesis and a comma are segments of their own. -/
theorem FirstSegment.kind_of_single {c : Char} {rest : List Char}
    (h : FirstSegment kind [c] rest) (hc : ∀ r, nextSegment c r = (.other, 0)) : kind = .other := by
  obtain ⟨d, w, he, hn⟩ := h
  obtain ⟨rfl, -⟩ := List.cons.inj he
  rw [hc] at hn
  exact (Prod.mk.inj hn).1.symm

/-- What can be one argument is read up to its end. -/
theorem argumentsFrom_oneArgument (ht : t = ',' ∨ t = ')') (rest : List Char) (a : List Char) :
    literalsClosed a = true → ∀ depth arg, oneArgument depth (segments a) = true →
      argumentsFrom depth arg (a ++ t :: rest) = argumentsFrom 0 (a.reverse ++ arg) (t :: rest) := by
  induction a using firstSegment_induction with
  | hnil =>
    intro _ depth arg h
    rw [segments, oneArgument, decide_eq_true_eq] at h
    rw [h]
    rfl
  | hsegment kind word v h ih =>
    intro hclosed depth arg hone
    rw [literalsClosed, segments_append h, List.all_cons, Bool.and_eq_true] at hclosed
    rw [segments_append h, oneArgument] at hone
    have hfirst : FirstSegment kind word (v ++ t :: rest) := by
      cases v with
      | nil => exact h.append_stop ht hclosed.1 rest
      | cons c v => exact h.beginsLike (.inr (.inl rfl))
    have hword : ∀ depth, oneArgument depth (segments v) = true →
        argumentsFrom depth (word.reverse ++ arg) (v ++ t :: rest) =
          argumentsFrom 0 ((word ++ v).reverse ++ arg) (t :: rest) := by
      intro depth hdepth
      rw [ih hclosed.2 depth _ hdepth, List.reverse_append, List.append_assoc]
    rw [List.append_assoc]
    split_ifs at hone with hopen hclose hcomma
    · obtain ⟨rfl, rfl⟩ := Segment.mk.inj hopen
      exact (argumentsFrom_opening depth arg _).trans (hword _ hone)
    · obtain ⟨rfl, rfl⟩ := Segment.mk.inj hclose
      rw [Bool.and_eq_true, decide_eq_true_eq] at hone
      obtain ⟨outer, rfl⟩ := Nat.exists_eq_succ_of_ne_zero hone.1
      exact (argumentsFrom_closing_succ outer arg _).trans (hword _ hone.2)
    · rw [Bool.and_eq_true, decide_eq_true_eq] at hone
      obtain ⟨rfl, rfl⟩ := Segment.mk.inj hcomma
      exact (argumentsFrom_segment hfirst (by decide) (by decide) (fun hand => hone.1 hand.2)
        arg).trans (hword _ hone.2)
    · have hkind : ∀ c, (∀ r, nextSegment c r = (.other, 0)) →
          (⟨kind, word⟩ : Segment) ≠ ⟨.other, [c]⟩ → word ≠ [c] := by
        rintro c hc hne rfl
        exact hne (by rw [hfirst.kind_of_single hc])
      exact (argumentsFrom_segment hfirst (hkind _ nextSegment_opening hopen)
        (hkind _ nextSegment_closing hclose)
        (fun hand => hkind _ nextSegment_comma hcomma hand.1) arg).trans (hword _ hone)

/-- Texts with commas between them are cut at these commas, and trimmed. -/
theorem argumentsFrom_intercalate {pieces : List (List Char)} (hne : pieces ≠ [])
    (hpieces : ∀ p ∈ pieces, literalsClosed p = true ∧ oneArgument 0 (segments p) = true)
    (rest : List Char) :
    argumentsFrom 0 [] ([','].intercalate pieces ++ ')' :: rest) =
      some (pieces.map trim, rest) := by
  induction pieces with
  | nil => exact absurd rfl hne
  | cons p pieces ih =>
    obtain ⟨hclosed, hone⟩ := hpieces p List.mem_cons_self
    cases pieces with
    | nil =>
      rw [List.intercalate_singleton, argumentsFrom_oneArgument (.inr rfl) rest p hclosed 0 [] hone,
        argumentsFrom_closing_zero, List.append_nil, List.reverse_reverse]
      rfl
    | cons q pieces =>
      rw [List.intercalate_cons_cons, List.append_assoc, List.append_assoc, List.singleton_append,
        argumentsFrom_oneArgument (.inl rfl) _ p hclosed 0 [] hone, argumentsFrom_comma,
        ih (List.cons_ne_nil _ _) fun r hr => hpieces r (List.mem_cons_of_mem p hr),
        List.append_nil, List.reverse_reverse]
      rfl

/-! ### Writing -/

theorem intercalate_comma_space (a : List Char) (args : List (List Char)) :
    [',', ' '].intercalate (a :: args) = [','].intercalate (a :: args.map (' ' :: ·)) := by
  induction args generalizing a with
  | nil => rfl
  | cons b args ih =>
    rw [List.map_cons, List.intercalate_cons_cons, List.intercalate_cons_cons, ih]
    cases args <;> simp

theorem trim_cons_of_isBlank {c : Char} (hc : isBlank c = true) (r : List Char) :
    trim (c :: r) = trim r := by
  rw [trim, trim, trimStart, trimStart, List.dropWhile_cons_of_pos hc]

/-- A trimmed text does not begin with a blank. -/
theorem isBlank_head_of_trim {c : Char} {r : List Char} (h : trim (c :: r) = c :: r) :
    isBlank c = false := by
  rw [Bool.eq_false_iff]
  intro hc
  rw [trim_cons_of_isBlank hc] at h
  have hlength := length_trim_le r
  rw [h, List.length_cons] at hlength
  omega

/-- A space before a trimmed text is a segment of its own. -/
theorem segments_space {a : List Char} (h : trim a = a) :
    segments (' ' :: a) = ⟨.other, [' ']⟩ :: segments a := by
  have hfirst : FirstSegment .other [' '] a := by
    refine ⟨' ', [], rfl, ?_⟩
    rw [List.nil_append, nextSegment_of_isBlank (by decide), if_pos (by decide)]
    cases a with
    | nil => rfl
    | cons c r =>
      have hc : ¬ isWordSpace c = true := fun hspace => by
        have hblank := isBlank_head_of_trim h
        rw [isBlank_of_isWordSpace hspace] at hblank
        cases hblank
      rw [List.takeWhile_cons_of_neg hc]
  exact segments_append hfirst

/-- A space before an argument is trimmed away again, and changes nothing else. -/
theorem IsArgument.space {a : List Char} (h : IsArgument a) :
    trim (' ' :: a) = a ∧ literalsClosed (' ' :: a) = true ∧
      oneArgument 0 (segments (' ' :: a)) = true := by
  have hspace := segments_space h.trimmed
  refine ⟨(trim_cons_of_isBlank (by decide) a).trans h.trimmed, ?_, ?_⟩
  · rw [literalsClosed, hspace]
    exact h.closed
  · rw [hspace]
    exact h.single

/-- **The arguments of a call are read back as they were written**, with a comma and a space between
any two, and whatever blanks stand before their parenthesis. What is left is the text behind the
call. -/
theorem callArguments?_join {args : List (List Char)} (hne : args ≠ [])
    (hargs : ∀ a ∈ args, IsArgument a) {blanks : List Char}
    (hblanks : ∀ c ∈ blanks, isBlank c = true) (rest : List Char) :
    callArguments? (blanks ++ '(' :: ([',', ' '].intercalate args ++ ')' :: rest)) =
      some (.ok (args, rest)) := by
  have hcall : trimStart (blanks ++ '(' :: ([',', ' '].intercalate args ++ ')' :: rest)) =
      '(' :: ([',', ' '].intercalate args ++ ')' :: rest) := by
    rw [trimStart, List.dropWhile_append_of_pos hblanks]
    rfl
  rw [callArguments?_of_call hcall]
  cases args with
  | nil => exact absurd rfl hne
  | cons a args =>
    have ha := hargs a List.mem_cons_self
    have hspaces : ∀ b ∈ args, IsArgument b := fun b hb => hargs b (List.mem_cons_of_mem a hb)
    have hpieces : ∀ p ∈ a :: args.map (' ' :: ·),
        literalsClosed p = true ∧ oneArgument 0 (segments p) = true := by
      intro p hp
      rcases List.mem_cons.1 hp with rfl | hp
      · exact ⟨ha.closed, ha.single⟩
      · obtain ⟨b, hb, rfl⟩ := List.mem_map.1 hp
        exact (hspaces b hb).space.2
    have htrim : (a :: args.map (' ' :: ·)).map trim = a :: args := by
      rw [List.map_cons, ha.trimmed, List.map_map]
      congr 1
      exact (List.map_congr_left fun b hb => (hspaces b hb).space.1).trans (List.map_id args)
    rw [intercalate_comma_space,
      argumentsFrom_intercalate (List.cons_ne_nil _ _) hpieces rest, htrim]

/-- A nested call with a comma and parentheses in a literal, and an empty argument. -/
theorem callArguments?_join_nested :
    (∀ a ∈ ["f(a, \"),(\")".toList, [], "é + 1e".toList], IsArgument a) ∧
      callArguments? "\t (f(a, \"),(\"), , é + 1e)-2".toList =
        some (.ok (["f(a, \"),(\")".toList, [], "é + 1e".toList], "-2".toList)) := by
  have hargs : ∀ a ∈ ["f(a, \"),(\")".toList, [], "é + 1e".toList], IsArgument a := by
    intro a ha
    simp only [List.mem_cons, List.not_mem_nil, or_false] at ha
    rcases ha with rfl | rfl | rfl <;>
      exact ⟨by decide +kernel, by decide +kernel, by decide +kernel⟩
  have hblanks : ∀ c ∈ ['\t', ' '], isBlank c = true := by
    intro c hc
    simp only [List.mem_cons, List.not_mem_nil, or_false] at hc
    rcases hc with rfl | rfl <;> decide
  exact ⟨hargs, callArguments?_join (by simp) hargs hblanks ['-', '2']⟩

end CInterface
