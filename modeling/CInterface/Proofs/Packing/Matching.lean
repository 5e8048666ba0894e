import CInterface.Proofs.Packing.Log
/-!
# Matched pushes and pops

A push and the pop that belongs to it enclose some pragmas. Whatever these do with the packing and with
saves of their own, the saves below stay as they are as long as that of the push does, and the pop finds
it again once nothing above it is in the way.

* `PackState.run` — the state after some pragmas, of which some may fail.
* `PackState.saved_suffix_after` — a pragma that leaves enough saves keeps the lowest of them.
* `PackState.saved_suffix_run` — so do pragmas one after the other.
* `PackState.target_of_above` — what a pop brings back where only other saves are above it.
* `PackState.apply_matchedPop` — a pop undoes its push.
-/

namespace CInterface

namespace PackState

/-- The state after some pragmas. One that fails is passed over. -/
def run (s : PackState) (ps : List PackPragma) : PackState := ps.foldl after s

/-- The saves above the lowest ones, of which there are `depth`. -/
def above (s : PackState) (depth : Nat) : List (Option UInt32 × Option String) :=
  s.saved.take (s.saved.length - depth)

theorem above_of_append {s : PackState} {upper lower : List (Option UInt32 × Option String)}
    (h : s.saved = upper ++ lower) : s.above lower.length = upper := by
  rw [above, h, List.length_append, Nat.add_sub_cancel, List.take_left]

/-- A pragma changes the saves at their upper end: it puts one on top of them, takes some off, or leaves
them as they are. -/
theorem saved_after_cases (s : PackState) (p : PackPragma) :
    (s.after p).saved <:+ s.saved ∨ s.saved <:+ (s.after p).saved := by
  cases h : s.apply p with
  | error e =>
    have hsame : s.after p = s := by rw [after, h]; rfl
    rw [hsame]
    exact Or.inl (List.suffix_refl _)
  | ok t =>
    have hnext : s.after p = t := by rw [after, h]; rfl
    rw [hnext]
    unfold apply at h
    cases haction : p.action with
    | «show» | set =>
      rw [haction] at h
      cases h
      exact Or.inl (List.suffix_refl _)
    | push =>
      rw [haction] at h
      cases h
      exact Or.inr (List.suffix_cons _ _)
    | pop =>
      rw [haction] at h
      dsimp only at h
      have htarget := s.target_suffix p.id
      split at h
      · cases h
      · rename_i save rest hsave
        cases h
        rw [hsave] at htarget
        exact Or.inl ((List.suffix_cons _ _).trans htarget)

variable {s t : PackState} {lower : List (Option UInt32 × Option String)}

/-- **A pragma that leaves enough saves keeps the lowest of them.** -/
theorem saved_suffix_after (h : lower <:+ s.saved) {p : PackPragma}
    (hlength : lower.length ≤ (s.after p).saved.length) : lower <:+ (s.after p).saved := by
  rcases s.saved_after_cases p with hless | hmore
  · exact List.suffix_of_suffix_length_le h hless hlength
  · exact h.trans hmore

/-- **So do pragmas one after the other**, if each of them leaves enough. -/
theorem saved_suffix_run (h : lower <:+ s.saved) {ps : List PackPragma}
    (hlength : ∀ n ≤ ps.length, lower.length ≤ (s.run (ps.take n)).saved.length) :
    lower <:+ (s.run ps).saved := by
  induction ps generalizing s with
  | nil => exact h
  | cons p ps ih =>
    have hfirst := hlength 1 (Nat.succ_le_succ (Nat.zero_le _))
    refine ih (saved_suffix_after h hfirst) fun n hn => ?_
    exact hlength (n + 1) (Nat.succ_le_succ hn)

/-- A pop without a name brings back the save on top, and one with a name the first from above that has
this name. -/
theorem target_of_above {save : Option UInt32 × Option String}
    (h : save :: lower <:+ s.saved)
    (habove : ∀ other ∈ s.above (lower.length + 1), save.2 ≠ none ∧ other.2 ≠ save.2) :
    s.target save.2 = save :: lower := by
  obtain ⟨upper, hsaved⟩ := h
  rw [← List.length_cons (a := save), above_of_append hsaved.symm] at habove
  cases hid : save.2 with
  | none =>
    have hupper : upper = [] :=
      List.eq_nil_iff_forall_not_mem.2 fun other hother => (habove other hother).1 hid
    rw [target, ← hsaved, hupper, List.nil_append]
  | some name =>
    have hskip : ∀ other ∈ upper, decide (other.2 ≠ some name) = true := by
      intro other hother
      rw [decide_eq_true_eq, ← hid]
      exact (habove other hother).2
    rw [target, ← hsaved, List.dropWhile_append_of_pos hskip, List.dropWhile_cons_of_neg]
    simp [hid]

/-- **A pop undoes its push.** Between the two stand pragmas of which none pops the save of the push, so
that after each there are more saves than before the push; and in the end no save above it has the name
of the push, or, if the push has none, there is no save above it. Then the pop of that name, or without
one, brings back the packing and all the saves from before the push. A pragma that fails, which only a
pop does, leaves the packings as they are, and their log. -/
theorem apply_matchedPop :
    (∀ (s pushed : PackState) (id : Option String) (value : Option UInt32) (ps : List PackPragma),
      s.apply { action := .push, id, value } = .ok pushed →
      (∀ n ≤ ps.length, s.saved.length < (pushed.run (ps.take n)).saved.length) →
      (∀ save ∈ (pushed.run ps).above (s.saved.length + 1), id ≠ none ∧ save.2 ≠ id) →
        (pushed.run ps).apply { action := .pop, id } = .ok s) ∧
      ∀ (t : PreprocessState) (number : Nat) (rest : List Char) (p : PackPragma) (e : PackIssue),
        PackPragma.ofText? rest = some (.ok p) → t.pack.apply p = .error e →
          p.action = .pop ∧ (t.pragma number rest).pack = t.pack ∧
            (t.pragma number rest).packing = t.packing := by
  constructor
  · intro s pushed id value ps hpush hkept habove
    have hsaved : pushed.saved = (s.current, id) :: s.saved := by
      cases hpush
      rfl
    have hlower : (s.current, id) :: s.saved <:+ (pushed.run ps).saved := by
      have hstart : (s.current, id) :: s.saved <:+ pushed.saved := hsaved ▸ List.suffix_rfl
      exact saved_suffix_run hstart hkept
    have htarget : (pushed.run ps).target id = (s.current, id) :: s.saved :=
      target_of_above hlower habove
    rw [apply]
    dsimp only
    rw [htarget]
    rfl
  · intro t number rest p e htext hfails
    have hpackings : (t.pragma number rest).packings =
        t.packingsAfter number ((PackPragma.ofText? rest).bind Except.toOption) :=
      t.packings_pragma rest
    have hsame : t.packingsAfter number (some p) = t.packings := by
      rw [PreprocessState.packingsAfter, Option.bind_some, hfails]
      rfl
    rw [htext, Option.bind_some, Except.toOption, hsame] at hpackings
    exact ⟨(apply_eq_error.1 hfails).2.1, congrArg Prod.fst hpackings, congrArg Prod.snd hpackings⟩

/-- A state with a save, and pragmas inside a push under the name `inner`: saves without a name and under
another one, of which one is left, a new packing, and a pop that fails. -/
def nestedPragmas : List PackPragma :=
  [{ action := .push, value := some 2 }, { action := .pop, id := some "lost" },
    { action := .pop, value := some 16 }, { action := .set, value := some 1 },
    { action := .push, id := some "other" }]

theorem apply_matchedPop_nestedPragmas :
    let s : PackState := ⟨some 8, [(none, some "inner")]⟩
    let pushed : PackState := ⟨some 4, [(some 8, some "inner"), (none, some "inner")]⟩
    (pushed.run nestedPragmas).saved.length = 3 ∧
      (pushed.run nestedPragmas).apply { action := .pop, id := some "inner" } = .ok s ∧
      (PreprocessState.pragma { registry := .empty } 3 "pack(pop)".toList).pack = {} := by
  obtain ⟨hmatched, hfails⟩ := apply_matchedPop
  refine ⟨by decide, ?_, ?_⟩
  · exact hmatched ⟨some 8, [(none, some "inner")]⟩ _ (some "inner") (some 4) nestedPragmas rfl
      (by decide) (by decide)
  · exact (hfails { registry := .empty } 3 "pack(pop)".toList { action := .pop } .underflow
      (by decide) rfl).2.1

end PackState

end CInterface
