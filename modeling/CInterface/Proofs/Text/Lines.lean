import CInterface.Text.Normal
/-!
# The lines of a text

A text and its lines, the pieces between its newlines, determine each other, and making a text normal
keeps the number of its lines.

* `Text.joinWith_splitAt`, `Text.splitAt_joinWith` — the pieces of a text make the text, and pieces
  that are joined come apart again.
* `Text.count_stripComments` — a comment leaves its newlines behind.
* `Text.length_joinLines` — a joined line is followed by an empty one for each line that went into it.
* `Text.splitAt_joinContinuations` — the lines of the joined text.
* `Text.count_normalize` — so a normal text has the newlines of the text.
-/

namespace CInterface.Text

/-! ### Pieces -/

section Pieces

variable {sep : Char}

theorem splitAt_ne_nil (sep : Char) (cs : List Char) : splitAt sep cs ≠ [] := by
  cases cs with
  | nil => simp [splitAt]
  | cons c r =>
    rw [splitAt]
    split
    · simp
    · split <;> simp

theorem splitAt_cons_self (sep : Char) (r : List Char) :
    splitAt sep (sep :: r) = [] :: splitAt sep r := by
  rw [splitAt, if_pos rfl]

/-- A character that does not separate goes to the first piece. -/
theorem splitAt_cons_of_ne {c : Char} (h : c ≠ sep) (r : List Char) :
    ∃ p ps, splitAt sep r = p :: ps ∧ splitAt sep (c :: r) = (c :: p) :: ps := by
  obtain ⟨p, ps, hp⟩ := List.exists_cons_of_ne_nil (splitAt_ne_nil sep r)
  refine ⟨p, ps, hp, ?_⟩
  rw [splitAt, if_neg h, hp]

theorem length_splitAt (sep : Char) (cs : List Char) :
    (splitAt sep cs).length = cs.count sep + 1 := by
  induction cs with
  | nil => rfl
  | cons c r ih =>
    by_cases h : c = sep
    · subst h
      rw [splitAt_cons_self, List.length_cons, ih, List.count_cons_self]
    · obtain ⟨p, ps, hp, hc⟩ := splitAt_cons_of_ne h r
      rw [hp] at ih
      rw [hc, List.count_cons_of_ne h]
      exact ih

theorem not_mem_of_mem_splitAt {cs p : List Char} (h : p ∈ splitAt sep cs) : sep ∉ p := by
  induction cs generalizing p with
  | nil =>
    rw [List.mem_singleton.1 h]
    exact List.not_mem_nil
  | cons c r ih =>
    by_cases hc : c = sep
    · subst hc
      rw [splitAt_cons_self] at h
      rcases List.mem_cons.1 h with rfl | h
      · exact List.not_mem_nil
      · exact ih h
    · obtain ⟨q, qs, hq, hs⟩ := splitAt_cons_of_ne hc r
      rw [hq] at ih
      rw [hs] at h
      rcases List.mem_cons.1 h with rfl | h
      · have hnot : sep ∉ q := ih List.mem_cons_self
        simp [Ne.symm hc, hnot]
      · exact ih (List.mem_cons_of_mem _ h)

theorem joinWith_cons (s p : List Char) {ps : List (List Char)} (h : ps ≠ []) :
    joinWith s (p :: ps) = p ++ s ++ joinWith s ps := by
  obtain ⟨q, qs, rfl⟩ := List.exists_cons_of_ne_nil h
  exact List.intercalate_cons_cons

/-- Nothing of a text is lost. -/
theorem joinWith_splitAt (sep : Char) (cs : List Char) : joinWith [sep] (splitAt sep cs) = cs := by
  induction cs with
  | nil => rfl
  | cons c r ih =>
    by_cases h : c = sep
    · subst h
      rw [splitAt_cons_self, joinWith_cons _ _ (splitAt_ne_nil c r), ih]
      rfl
    · obtain ⟨p, ps, hp, hc⟩ := splitAt_cons_of_ne h r
      rw [hp] at ih
      rw [hc]
      cases ps with
      | nil =>
        have hone : p = r := by simpa [joinWith] using ih
        simp [joinWith, hone]
      | cons q qs =>
        rw [joinWith_cons _ _ (List.cons_ne_nil q qs)] at ih ⊢
        rw [← ih]
        rfl

theorem splitAt_append {p : List Char} (h : sep ∉ p) (r : List Char) :
    splitAt sep (p ++ sep :: r) = p :: splitAt sep r := by
  induction p with
  | nil => exact splitAt_cons_self sep r
  | cons c p ih =>
    have hne : c ≠ sep := fun e => h (e ▸ List.mem_cons_self)
    obtain ⟨q, qs, hq, hc⟩ := splitAt_cons_of_ne hne (p ++ sep :: r)
    rw [ih fun hm => h (List.mem_cons_of_mem _ hm)] at hq
    obtain ⟨rfl, rfl⟩ := List.cons.inj hq
    exact hc

theorem splitAt_of_not_mem {p : List Char} (h : sep ∉ p) : splitAt sep p = [p] := by
  induction p with
  | nil => rfl
  | cons c p ih =>
    have hne : c ≠ sep := fun e => h (e ▸ List.mem_cons_self)
    obtain ⟨q, qs, hq, hc⟩ := splitAt_cons_of_ne hne p
    rw [ih fun hm => h (List.mem_cons_of_mem _ hm)] at hq
    obtain ⟨rfl, rfl⟩ := List.cons.inj hq
    exact hc

/-- Pieces without the separator come apart as they were joined. -/
theorem splitAt_joinWith {pieces : List (List Char)} (hne : pieces ≠ [])
    (h : ∀ p ∈ pieces, sep ∉ p) : splitAt sep (joinWith [sep] pieces) = pieces := by
  induction pieces with
  | nil => exact absurd rfl hne
  | cons p ps ih =>
    have hp : sep ∉ p := h p List.mem_cons_self
    cases ps with
    | nil =>
      have hone : joinWith [sep] [p] = p := by simp [joinWith]
      rw [hone]
      exact splitAt_of_not_mem hp
    | cons q qs =>
      rw [joinWith_cons _ _ (List.cons_ne_nil q qs), List.append_assoc, List.singleton_append,
        splitAt_append hp, ih (List.cons_ne_nil q qs) fun x hx => h x (List.mem_cons_of_mem _ hx)]

/-- Joined pieces have one separator less than there are pieces. -/
theorem count_joinWith {pieces : List (List Char)} (hne : pieces ≠ [])
    (h : ∀ p ∈ pieces, sep ∉ p) : (joinWith [sep] pieces).count sep + 1 = pieces.length := by
  rw [← length_splitAt, splitAt_joinWith hne h]

end Pieces

/-! ### Comments -/

theorem count_takeWhile_ne (x : Char) (cs : List Char) :
    (cs.takeWhile (· ≠ x)).count x = 0 := by
  rw [List.count_eq_zero]
  intro h
  have hall : ∀ y ∈ cs.takeWhile (· ≠ x), decide (y ≠ x) = true := List.all_eq_true.1 List.all_takeWhile
  exact of_decide_eq_true (hall x h) rfl

/-- A line comment ends before its newline, and a block comment leaves its newlines behind. -/
theorem count_stripComments (cs : List Char) : (stripComments cs).count '\n' = cs.count '\n' := by
  fun_induction stripComments cs with
  | case1 => rfl
  | case2 c r hquote n ih =>
    rw [List.cons_append, List.count_cons, List.count_append, ih, ← List.count_append,
      List.take_append_drop, List.count_cons]
  | case3 c r hquote hline n ih =>
    have hslash : c ≠ '\n' := by
      rintro rfl
      simp at hline
    have hdropped := count_takeWhile_ne '\n' r
    rw [ih, List.count_cons_of_ne hslash]
    calc (r.drop n).count '\n' = (r.takeWhile (· ≠ '\n')).count '\n' + (r.drop n).count '\n' := by
          rw [hdropped, Nat.zero_add]
      _ = r.count '\n' := by
          have htake : r.take n = r.takeWhile (· ≠ '\n') :=
            (List.prefix_iff_eq_take.1 (List.takeWhile_prefix _)).symm
          rw [← htake, ← List.count_append, List.take_append_drop]
  | case4 c r hquote hline hblock comment rest hcut ih =>
    simp only [Bool.and_eq_true, decide_eq_true_eq] at hblock
    obtain ⟨rfl, hstar⟩ := hblock
    obtain ⟨r', rfl⟩ : ∃ r', r = '*' :: r' := by
      cases r with
      | nil => simp at hstar
      | cons x r' => exact ⟨r', by rw [Option.some.inj hstar]⟩
    have hall : comment ++ ['*', '/'] ++ rest = r' := cut?_eq_append hcut
    have hkept : (comment.filter (· = '\n')).count '\n' = comment.count '\n' :=
      List.count_filter (by simp)
    have hends : (['*', '/'] : List Char).count '\n' = 0 := by decide
    rw [← hall, List.cons_append, List.count_cons_of_ne (by decide),
      List.count_cons_of_ne (by decide), List.count_cons_of_ne (by decide), List.count_append, ih,
      hkept, List.count_append, List.count_append, hends, Nat.add_zero]
  | case5 => rfl
  | case6 c r hquote hline hblock ih => rw [List.count_cons, List.count_cons, ih]

/-! ### Continued lines -/

theorem not_mem_dropReturn {x : Char} {cs : List Char} (h : x ∉ cs) : x ∉ dropReturn cs := by
  unfold dropReturn
  split
  · exact fun hm => h ((List.dropLast_sublist cs).subset hm)
  · exact h

theorem length_joinLines (held : List Char) (count : Nat) (lines : List (List Char)) :
    (joinLines held count lines).length = count + lines.length := by
  induction lines generalizing held count with
  | nil =>
    rw [joinLines]
    by_cases h : count = 0
    · rw [if_pos h, h]
      rfl
    · rw [if_neg h, List.length_cons, List.length_replicate, List.length_nil]
      omega
  | cons line rest ih =>
    simp only [joinLines]
    split
    · rw [ih, List.length_cons]
      omega
    · rw [List.cons_append, List.length_cons, List.length_append, List.length_replicate, ih,
        List.length_cons]
      omega

/-- Lines are joined of what was in the lines. -/
theorem not_mem_joinLines {x : Char} {held : List Char} {count : Nat} {lines : List (List Char)}
    (hheld : x ∉ held) (h : ∀ l ∈ lines, x ∉ l) : ∀ l ∈ joinLines held count lines, x ∉ l := by
  induction lines generalizing held count with
  | nil =>
    intro l hl
    rw [joinLines] at hl
    split at hl
    · exact absurd hl List.not_mem_nil
    · rcases List.mem_cons.1 hl with rfl | hl
      · exact hheld
      · rw [List.eq_of_mem_replicate hl]
        exact List.not_mem_nil
  | cons line rest ih =>
    have hrest : ∀ l ∈ rest, x ∉ l := fun l hl => h l (List.mem_cons_of_mem _ hl)
    have hbody : x ∉ dropReturn line := not_mem_dropReturn (h line List.mem_cons_self)
    intro l hl
    simp only [joinLines] at hl
    split at hl
    · refine ih ?_ hrest l hl
      rw [List.mem_append, not_or]
      exact ⟨hheld, fun hm => hbody ((List.dropLast_sublist _).subset hm)⟩
    · rw [List.cons_append] at hl
      rcases List.mem_cons.1 hl with rfl | hl
      · rw [List.mem_append, not_or]
        exact ⟨hheld, hbody⟩
      · rcases List.mem_append.1 hl with hl | hl
        · rw [List.eq_of_mem_replicate hl]
          exact List.not_mem_nil
        · exact ih List.not_mem_nil hrest l hl

/-- The lines of the joined text are the joined lines. -/
theorem splitAt_joinContinuations (cs : List Char) :
    splitAt '\n' (joinContinuations cs) = joinLines [] 0 (splitAt '\n' cs) := by
  have hne : joinLines [] 0 (splitAt '\n' cs) ≠ [] := by
    rw [← List.length_pos_iff, length_joinLines, length_splitAt]
    omega
  exact splitAt_joinWith hne
    (not_mem_joinLines List.not_mem_nil fun _ hl => not_mem_of_mem_splitAt hl)

theorem count_joinContinuations (cs : List Char) :
    (joinContinuations cs).count '\n' = cs.count '\n' := by
  have hlength := congrArg List.length (splitAt_joinContinuations cs)
  rw [length_joinLines, length_splitAt, length_splitAt] at hlength
  omega

/-- A normal text has as many newlines as the text that it is made of. -/
theorem count_normalize (cs : List Char) : (normalize cs).count '\n' = cs.count '\n' := by
  rw [normalize, count_joinContinuations, count_stripComments]

end CInterface.Text
