import CInterface.Proofs.Macro.Gaps
import CInterface.Proofs.Preprocess.TrailingBlanks
/-!
# Operands of `defined`

What becomes of `defined` and its operand in a condition, whatever text follows. The operand is read
off the text, while the rest of the condition is read segment by segment; so no segment may reach
from the operand into what follows it, however the word scanner cuts the name.

* `OperandText` — the text behind a `defined`: a name, alone or in parentheses.
* `endsOperand` — the characters that may follow an operand.
* `Compact`, `resolveSegments_compact` — texts at whose end a segment ends, and how they are passed.
* `resolveDefined_operand` — `defined` with its operand becomes one digit.
* `resolveDefined_gap`, `resolveDefined_mark` — white space and marks stay.
-/

namespace CInterface

open Text

/-- The text behind a `defined` that asks for a name: the name with white space before it, or the
name in parentheses. -/
inductive OperandText (name : String) : List Char → Prop where
  | bare {g : List Char} (hg : g.all isLexSpace = true) (hne : g ≠ []) :
      OperandText name (g ++ name.toList)
  | group {g₁ g₂ g₃ : List Char} (hg₁ : g₁.all isLexSpace = true) (hg₂ : g₂.all isLexSpace = true)
      (hg₃ : g₃.all isLexSpace = true) :
      OperandText name (g₁ ++ '(' :: (g₂ ++ (name.toList ++ (g₃ ++ [')']))))

/-- The characters that may follow an operand: white space, a parenthesis that closes a group, and
the operators between conditions. -/
def operandEnds : List Char := [' ', '\t', '\r', '\n', '\x0c', '\x0b', ')', '&', '|']

/-- A character that may follow an operand. -/
def endsOperand (c : Char) : Bool := operandEnds.contains c

variable {c : Char} {g r u w : List Char} {name : String}

/-- A class with none of the characters that end an operand. -/
theorem eq_false_of_endsOperand (hc : endsOperand c = true) (p : Char → Bool)
    (hp : operandEnds.all (fun d => !p d) = true) : p c = false := by
  have hmem : c ∈ operandEnds := List.contains_iff_mem.1 hc
  simpa using List.all_eq_true.1 hp c hmem

/-- A class with all white space. -/
theorem eq_true_of_isLexSpace (hc : isLexSpace c = true) {p : Char → Bool}
    (hp : [' ', '\t', '\r', '\n', '\x0c', '\x0b'].all p = true) : p c = true := by
  simp only [isLexSpace, Bool.or_eq_true, decide_eq_true_eq] at hc
  refine List.all_eq_true.1 hp c ?_
  rcases hc with ((((rfl | rfl) | rfl) | rfl) | rfl) | rfl <;> decide

/-- None of the characters behind an operand is in a class that has none of them. -/
theorem head?_any_of_endsOperand (hr : r.head?.all endsOperand = true) (p : Char → Bool)
    (hp : operandEnds.all (fun d => !p d) = true) : r.head?.any p = false := by
  cases r with
  | nil => rfl
  | cons c r => exact eq_false_of_endsOperand hr p hp

/-! ### Gaps and names at the head of a text -/

/-- A class with all white space and the first character of a text has the first character behind
white space before the text. -/
theorem head?_all_gap {p : Char → Bool} (hg : g.all isLexSpace = true)
    (hp : [' ', '\t', '\r', '\n', '\x0c', '\x0b'].all p = true) (hr : r.head?.all p = true) :
    (g ++ r).head?.all p = true := by
  cases g with
  | nil => exact hr
  | cons c g => exact eq_true_of_isLexSpace (Bool.and_eq_true_iff.1 hg).1 hp

/-- A run of a class is cut off where a text goes on with another class. -/
theorem takeWhile_append_eq {p : Char → Bool} (hw : w.all p = true) (hr : r.head?.any p = false) :
    (w ++ r).takeWhile p = w ∧ (w ++ r).dropWhile p = r := by
  have hlength := length_takeWhile_append_eq.2 ⟨hw, hr⟩
  have hrun : (w ++ r).takeWhile p = w :=
    (List.prefix_of_prefix_length_le (List.takeWhile_prefix p) (List.prefix_append w r)
      (Nat.le_of_eq hlength)).eq_of_length hlength
  have hwhole := List.takeWhile_append_dropWhile (p := p) (l := w ++ r)
  rw [hrun] at hwhole
  exact ⟨hrun, List.append_cancel_left hwhole⟩

theorem trimStart_gap (hg : g.all isLexSpace = true) (hc : isBlank c = false) (r : List Char) :
    trimStart (g ++ c :: r) = c :: r := by
  have hblank : ∀ x ∈ g, isBlank x = true := fun x hx =>
    isBlank_of_isLexSpace (List.all_eq_true.1 hg x hx)
  rw [trimStart, List.dropWhile_append_of_pos hblank]
  exact List.dropWhile_cons_of_neg (by rw [hc]; exact Bool.false_ne_true)

theorem isBlank_of_isIdentHead (h : isIdentHead c = true) : isBlank c = false := by
  rw [isIdentHead, Bool.or_eq_true, decide_eq_true_eq] at h
  rcases h with h | rfl
  · exact isBlank_of_isWordTail (isWordTail_of_isWordHead h)
  · decide

theorem trimStart_name (hg : g.all isLexSpace = true) (hw : isIdentifier w = true) (r : List Char) :
    trimStart (g ++ (w ++ r)) = w ++ r := by
  cases w with
  | nil => cases hw
  | cons c w => exact trimStart_gap hg (isBlank_of_isIdentHead (Bool.and_eq_true_iff.1 hw).1) _

theorem identifierAt?_append (hw : isIdentifier w = true) (hr : r.head?.any isIdentTail = false) :
    identifierAt? (w ++ r) = some (w, r) := by
  cases w with
  | nil => cases hw
  | cons c w =>
    obtain ⟨hhead, htail⟩ := Bool.and_eq_true_iff.1 hw
    obtain ⟨hrun, hrest⟩ := takeWhile_append_eq htail hr
    rw [List.cons_append, identifierAt?, if_pos hhead, hrun, hrest]

/-- An operand is found, whatever follows it. -/
theorem OperandText.definedOperand?_append (h : OperandText name u)
    (hname : isIdentifier name.toList = true) (hr : r.head?.all endsOperand = true) :
    definedOperand? (u ++ r) = some (name.toList, u.length) := by
  have hlength : (u ++ r).length - r.length = u.length := by
    rw [List.length_append, Nat.add_sub_cancel]
  cases h with
  | @bare g hg hne =>
    rw [List.append_assoc] at hlength ⊢
    have htrim := trimStart_name hg hname r
    have hbare : ¬ ∃ inner, trimStart (g ++ (name.toList ++ r)) = '(' :: inner := by
      rw [htrim]
      rintro ⟨inner, heq⟩
      cases hw : name.toList with
      | nil =>
        rw [hw] at hname
        cases hname
      | cons c w =>
        rw [hw] at hname heq
        have hhead := (Bool.and_eq_true_iff.1 hname).1
        obtain ⟨rfl, -⟩ := List.cons.inj heq
        exact absurd hhead (by decide)
    rw [definedOperand?_of_name hbare, htrim,
      identifierAt?_append hname (head?_any_of_endsOperand hr isIdentTail (by decide)),
      Option.map_some, hlength]
  | @group g₁ g₂ g₃ hg₁ hg₂ hg₃ =>
    simp only [List.append_assoc, List.cons_append, List.nil_append] at hlength ⊢
    have hends : (g₃ ++ ')' :: r).head?.any isIdentTail = false :=
      head?_any_of_endsOperand
        (head?_all_gap hg₃ (by decide) rfl) isIdentTail (by decide)
    rw [definedOperand?_of_opening (trimStart_gap hg₁ (by decide) _), trimStart_name hg₂ hname,
      identifierAt?_append hname hends]
    dsimp only [Option.bind_some]
    rw [trimStart_gap hg₃ (by decide) r]
    have hclose : afterHead? [')'] (')' :: r) = some r := rfl
    rw [hclose, Option.map_some, hlength]

/-! ### Texts at whose end a segment ends -/

/-- No literal begins in the text, and white space does not end it. So the last segment that begins
in it ends with it, unless what follows goes on with a word or a number. -/
structure Compact (u : List Char) : Prop where
  noQuote : ∀ c ∈ u, c ≠ '"' ∧ c ≠ '\x27'
  last : ∀ c ∈ u.getLast?, isWordSpace c = false

theorem Compact.drop (h : Compact u) (n : Nat) : Compact (u.drop n) where
  noQuote c hc := h.noQuote c (List.mem_of_mem_drop hc)
  last c hc := by
    rw [List.getLast?_drop] at hc
    split at hc
    · cases hc
    · exact h.last c hc

theorem length_takeWhile_append_le {p : Char → Bool} (h : r.head?.any p = false) (w : List Char) :
    ((w ++ r).takeWhile p).length ≤ w.length := by
  induction w with
  | nil =>
    cases r with
    | nil => exact Nat.le_refl 0
    | cons c r =>
      have hc : p c = false := h
      simp [hc]
  | cons c w ih =>
    rw [List.cons_append, List.takeWhile_cons]
    split
    · exact Nat.succ_le_succ ih
    · exact Nat.zero_le _

theorem numberTail_append_le (hr : r.head?.all endsOperand = true) (hex : Bool) (before : Char)
    (w : List Char) : numberTail hex before (w ++ r) ≤ w.length := by
  induction w generalizing before with
  | nil =>
    cases r with
    | nil => exact Nat.le_refl 0
    | cons c r =>
      have hc : endsOperand c = true := hr
      have hstop := eq_false_of_endsOperand hc
        (fun d => isWordTail d || d = '.' || d = '+' || d = '-') (by decide)
      simp only [Bool.or_eq_false_iff] at hstop
      obtain ⟨⟨⟨htail, hpoint⟩, hplus⟩, hminus⟩ := hstop
      simp [numberTail, htail, hpoint, hplus, hminus]
  | cons c w ih =>
    have ih := ih c
    rw [List.cons_append, numberTail, List.length_cons]
    split <;> omega

/-- A segment that begins in a compact text ends in it. -/
theorem Compact.nextSegment_le (h : Compact (c :: w)) (hr : r.head?.all endsOperand = true) :
    (nextSegment c (w ++ r)).2 ≤ w.length := by
  obtain ⟨hdouble, hsingle⟩ := h.noQuote c List.mem_cons_self
  unfold nextSegment
  split_ifs with hquote _ _ hspace
  · rw [Bool.or_eq_true, decide_eq_true_eq, decide_eq_true_eq] at hquote
    exact absurd hquote (not_or.2 ⟨hdouble, hsingle⟩)
  · exact length_takeWhile_append_le (head?_any_of_endsOperand hr isWordTail (by decide)) w
  · exact numberTail_append_le hr _ c w
  · -- a run of white space stops before the last character of the text
    have hnot : (w.takeWhile isWordSpace).length ≠ w.length := by
      intro hall
      have hspaces : ∀ x ∈ c :: w, isWordSpace x = true := by
        have hw := List.takeWhile_eq_self_iff.1
          ((List.takeWhile_prefix isWordSpace).eq_of_length hall)
        exact List.forall_mem_cons.2 ⟨hspace, hw⟩
      have hlast := h.last _ (List.getLast?_eq_some_getLast (List.cons_ne_nil c w))
      rw [hspaces _ (List.getLast_mem _)] at hlast
      cases hlast
    rw [List.takeWhile_append, if_neg hnot]
    exact (List.takeWhile_prefix isWordSpace).length_le
  · exact Nat.zero_le _

theorem isIdentTail_of_mem (hw : isIdentifier w = true) (hc : c ∈ w) : isIdentTail c = true := by
  cases w with
  | nil => cases hc
  | cons d w =>
    obtain ⟨hhead, htail⟩ := Bool.and_eq_true_iff.1 hw
    rcases List.mem_cons.1 hc with rfl | hc
    · exact isIdentTail_of_isIdentHead hhead
    · exact List.all_eq_true.1 htail c hc

theorem isWordSpace_of_isIdentTail (h : isIdentTail c = true) : isWordSpace c = false := by
  rw [Bool.eq_false_iff]
  intro hspace
  simp only [isWordSpace, Bool.or_eq_true, decide_eq_true_eq] at hspace
  rcases hspace with (((rfl | rfl) | rfl) | rfl) | rfl <;> exact absurd h (by decide)

theorem ne_quotes_of_class {p : Char → Bool} (hc : p c = true) (hdouble : p '"' = false)
    (hsingle : p '\x27' = false) : c ≠ '"' ∧ c ≠ '\x27' :=
  ⟨ne_of_class hc hdouble, ne_of_class hc hsingle⟩

theorem OperandText.compact (h : OperandText name u) (hname : isIdentifier name.toList = true) :
    Compact u := by
  have hspaces : ∀ {g : List Char}, g.all isLexSpace = true → ∀ c ∈ g, c ≠ '"' ∧ c ≠ '\x27' :=
    fun hg c hc => ne_quotes_of_class (List.all_eq_true.1 hg c hc) (by decide) (by decide)
  have hchars : ∀ c ∈ name.toList, c ≠ '"' ∧ c ≠ '\x27' :=
    fun c hc => ne_quotes_of_class (isIdentTail_of_mem hname hc) (by decide) (by decide)
  cases h with
  | @bare g hg hne =>
    refine ⟨fun c hc => (List.mem_append.1 hc).elim (hspaces hg c) (hchars c), fun c hc => ?_⟩
    have hne : name.toList ≠ [] := by
      intro hnil
      rw [hnil] at hname
      cases hname
    rw [List.getLast?_append_of_ne_nil _ hne] at hc
    exact isWordSpace_of_isIdentTail (isIdentTail_of_mem hname (List.mem_of_getLast? hc))
  | @group g₁ g₂ g₃ hg₁ hg₂ hg₃ =>
    refine ⟨fun c hc => ?_, fun c hc => ?_⟩
    · simp only [List.mem_append, List.mem_cons, List.not_mem_nil, or_false] at hc
      rcases hc with hc | rfl | hc | hc | hc | rfl
      · exact hspaces hg₁ c hc
      · decide
      · exact hspaces hg₂ c hc
      · exact hchars c hc
      · exact hspaces hg₃ c hc
      · decide
    · have hlast : (g₁ ++ '(' :: (g₂ ++ (name.toList ++ (g₃ ++ [')'])))).getLast? = some ')' := by
        simp [List.getLast?_append, List.getLast?_cons]
      obtain rfl := Option.some.inj (hlast.symm.trans hc)
      decide

/-! ### Resolving piece by piece -/

section Resolving

variable (isDefined : String → Bool)

/-- A compact text that belongs to an operand is passed. -/
theorem resolveSegments_compact {u : List Char} (h : Compact u)
    (hr : r.head?.all endsOperand = true) :
    resolveSegments isDefined u.length (segments (u ++ r)) = resolveDefined isDefined r := by
  match u with
  | [] => rfl
  | c :: w =>
    have hle := h.nextSegment_le hr
    have hpos : 0 < (c :: w).length := Nat.succ_pos _
    have hlength : (c :: w).length - (c :: w.take (nextSegment c (w ++ r)).2).length
        = (w.drop (nextSegment c (w ++ r)).2).length := by
      simp only [List.length_cons, List.length_take, List.length_drop]
      omega
    have hpassed : (c :: w.take (nextSegment c (w ++ r)).2).drop (c :: w).length = [] := by
      refine List.drop_eq_nil_iff.2 ?_
      simp only [List.length_cons, List.length_take]
      omega
    rw [List.cons_append, segments_cons, resolveSegments_skip isDefined hpos,
      List.take_append_of_le_length hle, List.drop_append_of_le_length hle, hpassed, hlength,
      List.nil_append]
    exact resolveSegments_compact (h.drop ((nextSegment c (w ++ r)).2 + 1)) hr
  termination_by u.length
  decreasing_by exact length_drop_lt c w _

/-- A segment that is no word stays. -/
theorem resolveDefined_cons (h : (nextSegment c r).1 ≠ .ident) :
    resolveDefined isDefined (c :: r) = c :: (r.take (nextSegment c r).2 ++
      resolveDefined isDefined (r.drop (nextSegment c r).2)) := by
  rw [resolveDefined, segments_cons, resolveSegments_other isDefined h]
  rfl

/-- A character of white space stays, whether or not a run of it goes on. -/
theorem resolveDefined_space (hc : isLexSpace c = true) (r : List Char) :
    resolveDefined isDefined (c :: r) = c :: resolveDefined isDefined r := by
  have hother : (nextSegment c r).1 ≠ .ident := by
    rw [nextSegment_blank hc]
    decide
  rw [resolveDefined_cons isDefined hother, nextSegment_of_isBlank (isBlank_of_isLexSpace hc)]
  split
  · cases r with
    | nil => rw [List.take_nil, List.drop_nil, List.nil_append]
    | cons d r =>
      by_cases hd : isWordSpace d = true
      · have hblank : isBlank d = true := isBlank_of_isWordSpace hd
        have hnext := nextSegment_of_isBlank hblank r
        rw [if_pos hd] at hnext
        rw [List.takeWhile_cons_of_pos hd, List.length_cons, List.take_succ_cons,
          List.drop_succ_cons, resolveDefined_cons isDefined (by rw [hnext]; exact nofun), hnext,
          List.cons_append]
      · rw [List.takeWhile_cons_of_neg hd]
        rfl
  · rfl

/-- White space before a text stays. -/
theorem resolveDefined_gap (hg : g.all isLexSpace = true) (r : List Char) :
    resolveDefined isDefined (g ++ r) = g ++ resolveDefined isDefined r := by
  induction g with
  | nil => rfl
  | cons c g ih =>
    rw [List.all_cons, Bool.and_eq_true] at hg
    rw [List.cons_append, resolveDefined_space isDefined hg.1, ih hg.2, List.cons_append]

/-- The parentheses and the characters of the operators of conditions stay. -/
theorem resolveDefined_mark (hc : c ∈ ['(', ')', '!', '&', '|']) (r : List Char) :
    resolveDefined isDefined (c :: r) = c :: resolveDefined isDefined r := by
  have hnext : nextSegment c r = (.other, 0) := by
    simp only [List.mem_cons, List.not_mem_nil, or_false] at hc
    rcases hc with rfl | rfl | rfl | rfl | rfl <;> rfl
  rw [resolveDefined_cons isDefined (by rw [hnext]; decide), hnext]
  rfl

/-- An operand begins behind the word `defined`. -/
theorem OperandText.head?_any (h : OperandText name u) (r : List Char) :
    (u ++ r).head?.any isWordTail = false := by
  cases h with
  | @bare g hg hne =>
    obtain ⟨c, g, rfl⟩ := List.exists_cons_of_ne_nil hne
    rw [List.all_cons, Bool.and_eq_true] at hg
    exact eq_false_of_isLexSpace hg.1 isWordTail (by decide)
  | @group g₁ g₂ g₃ hg₁ =>
    cases g₁ with
    | nil => rfl
    | cons c g₁ =>
      rw [List.all_cons, Bool.and_eq_true] at hg₁
      exact eq_false_of_isLexSpace hg₁.1 isWordTail (by decide)

/-- **`defined` with its operand becomes one digit**, and what follows is resolved as if it stood
alone. -/
theorem resolveDefined_operand (h : OperandText name u) (hname : isIdentifier name.toList = true)
    (hr : r.head?.all endsOperand = true) :
    resolveDefined isDefined ("defined".toList ++ (u ++ r)) =
      (if isDefined name then '1' else '0') :: resolveDefined isDefined r := by
  have hword : FirstSegment .ident "defined".toList (u ++ r) :=
    firstSegment_ident.2 ⟨by decide, h.head?_any r⟩
  rw [resolveDefined, segments_append hword, resolveSegments_zero, flatten_segments,
    h.definedOperand?_append hname hr]
  simp only [decide_true, Bool.and_self, if_true, String.ofList_toList]
  rw [resolveSegments_compact isDefined (h.compact hname) hr]

end Resolving

end CInterface
