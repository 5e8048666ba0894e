import CInterface.Preprocess
import CInterface.Proofs.Macro.TrailingBlanks
/-!
# Directives with blanks behind them

Blanks at the end of a line do not change what a directive says: the macro that it defines or
undefines, or the truth of its condition.

* `Directive.ofLine?_append_blanks` — the directive that a line is.
* `MacroDefinition.ofText?_append_blanks`, `leadingName?_append_blanks` — definitions.
* `Registry.condition_append_blanks` — conditions.
-/

namespace CInterface

open Text

variable {w : List Char}

/-! ### Texts -/

section Texts

theorem trimEnd_append_blanks (hw : w.all isLexSpace = true) (cs : List Char) :
    trimEnd (cs ++ w) = trimEnd cs := by
  have hblank : ∀ c ∈ w.reverse, isBlank c = true := fun c hc =>
    isBlank_of_isLexSpace (List.all_eq_true.1 hw c (List.mem_reverse.1 hc))
  rw [trimEnd, dropEndWhile, List.reverse_append, List.dropWhile_append_of_pos hblank]
  rfl

theorem trim_append_blanks (hw : w.all isLexSpace = true) (cs : List Char) :
    trim (cs ++ w) = trim cs := by
  rw [trim, trim, trimStart_append_blanks hw]
  split
  · rename_i hnil
    rw [hnil]
  · exact trimEnd_append_blanks hw _

variable {head : List Char}

theorem afterHead?_append_blanks (hhead : head.all (fun c => !isLexSpace c) = true)
    (hw : w.all isLexSpace = true) (cs : List Char) :
    afterHead? head (cs ++ w) = (afterHead? head cs).map (· ++ w) := by
  have hprefix : head.isPrefixOf (cs ++ w) = head.isPrefixOf cs := by
    refine append_blanks (fun x cs ds hx => isPrefixOf_append_cons ?_ ds) hw cs
    intro hmem
    have := List.all_eq_true.1 hhead x hmem
    rw [hx] at this
    cases this
  rw [afterHead?, afterHead?, hprefix]
  split
  · rename_i h
    have hle := (List.isPrefixOf_iff_prefix.1 h).length_le
    rw [List.drop_append_of_le_length hle]
    rfl
  · rfl

theorem cut?_append_blanks (hhead : head.all (fun c => !isLexSpace c) = true) (hne : head ≠ [])
    (hw : w.all isLexSpace = true) (cs : List Char) :
    cut? head (cs ++ w) = (cut? head cs).map fun p => (p.1, p.2 ++ w) := by
  have hnil : afterHead? head [] = none := by
    cases head with
    | nil => exact absurd rfl hne
    | cons c head => rfl
  induction cs with
  | nil =>
    have hnone : cut? head [] = none := by rw [cut?, if_neg (by simpa using hne)]
    rw [List.nil_append, hnone]
    induction w with
    | nil => exact hnone
    | cons x w ih =>
      have hx := afterHead?_append_blanks hhead hw []
      rw [List.nil_append, hnil] at hx
      rw [List.all_cons, Bool.and_eq_true] at hw
      rw [cut?, hx, ih hw.2]
      rfl
  | cons c r ih =>
    rw [List.cons_append, cut?, ← List.cons_append, afterHead?_append_blanks hhead hw, cut?, ih]
    cases afterHead? head (c :: r) with
    | some rest => rfl
    | none =>
      dsimp only [Option.map_none]
      rw [Option.map_map, Option.map_map]
      rfl

theorem dropWhile_append_blanks {p : Char → Bool} (hp : ∀ x, isLexSpace x = true → p x = false)
    (hw : w.all isLexSpace = true) (r : List Char) : (r ++ w).dropWhile p = r.dropWhile p ++ w := by
  induction r with
  | cons c r ih =>
    rw [List.cons_append, List.dropWhile_cons, List.dropWhile_cons, ih]
    split <;> rfl
  | nil =>
    cases w with
    | nil => rfl
    | cons x w =>
      rw [List.all_cons, Bool.and_eq_true] at hw
      exact List.dropWhile_cons_of_neg (Bool.eq_false_iff.1 (hp x hw.1))

theorem identifierAt?_append_blanks (hw : w.all isLexSpace = true) (cs : List Char) :
    identifierAt? (cs ++ w) = (identifierAt? cs).map fun p => (p.1, p.2 ++ w) := by
  have htail : ∀ x, isLexSpace x = true → isIdentTail x = false :=
    fun x hx => eq_false_of_isLexSpace hx isIdentTail (by decide)
  cases cs with
  | nil =>
    cases w with
    | nil => rfl
    | cons x w =>
      rw [List.all_cons, Bool.and_eq_true] at hw
      have hhead := eq_false_of_isLexSpace hw.1 isIdentHead (by decide)
      simp [identifierAt?, hhead]
  | cons c r =>
    rw [List.cons_append, identifierAt?, identifierAt?, takeWhile_append_blanks htail hw,
      dropWhile_append_blanks htail hw]
    split <;> rfl

/-- What a reader finds at the head of a text it finds behind the blanks there. -/
theorem trimStart_then_append_blanks {α : Type} {f : List Char → Option α} {g : α → α}
    (hf : ∀ cs, f (cs ++ w) = (f cs).map g) (hnil : f [] = none) (hw : w.all isLexSpace = true)
    (cs : List Char) : f (trimStart (cs ++ w)) = (f (trimStart cs)).map g := by
  rw [trimStart_append_blanks hw]
  split
  · rename_i h
    rw [h, hnil]
    rfl
  · exact hf _

theorem leadingName?_append_blanks (hw : w.all isLexSpace = true) (cs : List Char) :
    leadingName? (cs ++ w) = leadingName? cs := by
  rw [leadingName?, leadingName?,
    trimStart_then_append_blanks (identifierAt?_append_blanks hw) rfl hw, Option.map_map]
  rfl

end Texts

/-! ### Directives -/

/-- The directive that a line is, has the blanks in the text behind its keyword, or drops them. -/
theorem Directive.ofLine?_append_blanks (hw : w.all isLexSpace = true) {line : List Char}
    {d : Directive} (h : Directive.ofLine? line = some d) :
    Directive.ofLine? (line ++ w) = some d ∨
      Directive.ofLine? (line ++ w) = some ⟨d.keyword, d.rest ++ w⟩ := by
  have halpha : ∀ x, isLexSpace x = true → x.isAlpha = false :=
    fun x hx => eq_false_of_isLexSpace hx Char.isAlpha (by decide)
  have hhash := trimStart_then_append_blanks (f := afterHead? ['#'])
    (afterHead?_append_blanks (by decide) hw) rfl hw line
  rw [ofLine?] at h
  obtain ⟨behind, hbehind, hd⟩ := Option.bind_eq_some_iff.1 h
  rw [ofLine?, hhash, hbehind]
  obtain rfl := Option.some.inj hd
  show some _ = _ ∨ some _ = _
  rw [trimStart_append_blanks hw]
  split
  · rename_i hnil
    rw [hnil]
    exact Or.inl rfl
  · have hle := (List.takeWhile_prefix (l := trimStart behind) Char.isAlpha).length_le
    rw [takeWhile_append_blanks halpha hw, List.drop_append_of_le_length hle]
    exact Or.inr rfl

theorem MacroDefinition.ofText?_append_blanks (hw : w.all isLexSpace = true) (rest : List Char) :
    MacroDefinition.ofText? (rest ++ w) = MacroDefinition.ofText? rest := by
  rw [ofText?, ofText?, trimStart_then_append_blanks (identifierAt?_append_blanks hw) rfl hw]
  cases identifierAt? (trimStart rest) with
  | none => rfl
  | some p =>
    obtain ⟨ident, after⟩ := p
    by_cases hlist : ∃ list, after = '(' :: list
    · obtain ⟨list, rfl⟩ := hlist
      simp only [Option.map_some, Option.bind_eq_bind, Option.bind_some, List.cons_append]
      rw [cut?_append_blanks (by decide) (by decide) hw]
      cases cut? [')'] list with
      | none => rfl
      | some q =>
        simp only [Option.map_some, Option.bind_some, trim_append_blanks hw]
    · have hother : ¬ ∃ list, after ++ w = '(' :: list := by
        rintro ⟨list, heq⟩
        cases after with
        | cons c r =>
          obtain ⟨rfl, -⟩ := List.cons.inj heq
          exact hlist ⟨r, rfl⟩
        | nil =>
          rw [List.nil_append] at heq
          have hmem : '(' ∈ w := by
            rw [heq]
            exact List.mem_cons_self
          exact not_mem_blanks (by decide) hw hmem
      simp only [Option.map_some, Option.bind_eq_bind, Option.bind_some]
      split
      · rename_i list heq
        exact absurd ⟨list, heq⟩ hother
      · split
        · rename_i list _
          exact absurd ⟨list, rfl⟩ hlist
        · rw [trim_append_blanks hw]

/-! ### Conditions -/

section Operands

variable {cs : List Char}

theorem definedOperand?_of_opening {inner : List Char} (h : trimStart cs = '(' :: inner) :
    definedOperand? cs = (identifierAt? (trimStart inner)).bind fun p =>
      (afterHead? [')'] (trimStart p.2)).map fun rest => (p.1, cs.length - rest.length) := by
  unfold definedOperand?
  dsimp only
  rw [h]
  refine Option.bind_congr fun p _ => ?_
  cases afterHead? [')'] (trimStart p.2) <;> rfl

theorem definedOperand?_of_name (h : ¬ ∃ inner, trimStart cs = '(' :: inner) :
    definedOperand? cs =
      (identifierAt? (trimStart cs)).map fun p => (p.1, cs.length - p.2.length) := by
  unfold definedOperand?
  dsimp only
  split
  · rename_i inner heq
    exact absurd ⟨inner, heq⟩ h
  · cases identifierAt? (trimStart cs) <;> rfl

theorem definedOperand?_append_blanks (hw : w.all isLexSpace = true) (cs : List Char) :
    definedOperand? (cs ++ w) = definedOperand? cs := by
  have hlength : ∀ rest : List Char,
      (cs ++ w).length - (rest ++ w).length = cs.length - rest.length := by
    intro rest
    rw [List.length_append, List.length_append]
    omega
  have htrim := trimStart_append_blanks hw cs
  by_cases hopen : ∃ inner, trimStart cs = '(' :: inner
  · obtain ⟨inner, hinner⟩ := hopen
    rw [hinner, if_neg (List.cons_ne_nil _ _), List.cons_append] at htrim
    rw [definedOperand?_of_opening hinner, definedOperand?_of_opening htrim,
      trimStart_then_append_blanks (identifierAt?_append_blanks hw) rfl hw]
    cases identifierAt? (trimStart inner) with
    | none => rfl
    | some p =>
      simp only [Option.map_some, Option.bind_some]
      rw [trimStart_then_append_blanks (afterHead?_append_blanks (by decide) hw) rfl hw,
        Option.map_map]
      refine Option.map_congr fun rest _ => ?_
      rw [Function.comp_apply, hlength]
  · have hopen' : ¬ ∃ inner, trimStart (cs ++ w) = '(' :: inner := by
      rw [htrim]
      split
      · rintro ⟨inner, heq⟩
        cases heq
      · rename_i hne
        obtain ⟨c, r, hcs⟩ := List.exists_cons_of_ne_nil hne
        rintro ⟨inner, heq⟩
        rw [hcs, List.cons_append] at heq
        exact hopen ⟨r, by rw [hcs, (List.cons.inj heq).1]⟩
    rw [definedOperand?_of_name hopen, definedOperand?_of_name hopen',
      trimStart_then_append_blanks (identifierAt?_append_blanks hw) rfl hw, Option.map_map]
    refine Option.map_congr fun p _ => ?_
    rw [Function.comp_apply, hlength]

theorem definedOperand?_le {name : List Char} {n : Nat} (h : definedOperand? cs = some (name, n)) :
    n ≤ cs.length := by
  by_cases hopen : ∃ inner, trimStart cs = '(' :: inner
  · obtain ⟨inner, hinner⟩ := hopen
    rw [definedOperand?_of_opening hinner] at h
    obtain ⟨p, -, h⟩ := Option.bind_eq_some_iff.1 h
    obtain ⟨rest, -, h⟩ := Option.map_eq_some_iff.1 h
    rw [← (Prod.mk.inj h).2]
    exact Nat.sub_le _ _
  · rw [definedOperand?_of_name hopen] at h
    obtain ⟨p, -, h⟩ := Option.map_eq_some_iff.1 h
    rw [← (Prod.mk.inj h).2]
    exact Nat.sub_le _ _

end Operands

section Segments

variable (isDefined : String → Bool)

theorem segments_cons (c : Char) (r : List Char) : segments (c :: r) =
    ⟨(nextSegment c r).1, c :: r.take (nextSegment c r).2⟩ ::
      segments (r.drop (nextSegment c r).2) := by
  rw [segments]

theorem resolveSegments_zero (s : Segment) (rest : List Segment) :
    resolveSegments isDefined 0 (s :: rest) =
      match (if s.kind = .ident && s.text = "defined".toList then
          definedOperand? (rest.flatMap Segment.text) else none) with
      | some (name, n) =>
        (if isDefined (String.ofList name) then '1' else '0') :: resolveSegments isDefined n rest
      | none => s.text ++ resolveSegments isDefined 0 rest := by
  rw [resolveSegments]
  exact if_neg (Nat.lt_irrefl 0)

/-- A segment that is no `defined` with an operand stays. -/
theorem resolveSegments_other {s : Segment} (h : s.kind ≠ .ident) (rest : List Segment) :
    resolveSegments isDefined 0 (s :: rest) = s.text ++ resolveSegments isDefined 0 rest := by
  simp [resolveSegments, h]

theorem resolveSegments_skip {s : Segment} {skip : Nat} (h : 0 < skip) (rest : List Segment) :
    resolveSegments isDefined skip (s :: rest) =
      s.text.drop skip ++ resolveSegments isDefined (skip - s.text.length) rest := by
  rw [resolveSegments, if_pos h]

theorem resolveSegments_blanks {v : List Char} (hv : v.all isLexSpace = true) :
    resolveSegments isDefined 0 (segments v) = v := by
  match v with
  | [] =>
    rw [segments]
    rfl
  | x :: v =>
    rw [List.all_cons, Bool.and_eq_true] at hv
    have hk : (nextSegment x v).1 ≠ .ident := by
      rw [nextSegment_blank hv.1]
      decide
    rw [segments_cons, resolveSegments_other isDefined hk, resolveSegments_blanks (all_drop hv.2 _),
      List.cons_append, List.take_append_drop]
  termination_by v.length
  decreasing_by exact length_drop_lt x v _

/-- Where a text ends with a segment that blanks go on with, they stay. -/
theorem resolveSegments_last {v : List Char} (hv : v.all isLexSpace = true) {kind : SegmentKind}
    (hk : kind ≠ .ident) {text : List Char} {skip : Nat} (hskip : skip ≤ text.length)
    (u : List Char) : resolveSegments isDefined skip (⟨kind, text ++ u⟩ :: segments v) =
      resolveSegments isDefined skip [⟨kind, text⟩] ++ (u ++ v) := by
  by_cases hzero : skip = 0
  · subst hzero
    rw [resolveSegments_other isDefined hk, resolveSegments_other isDefined hk,
      resolveSegments_blanks isDefined hv, resolveSegments, List.append_nil, List.append_assoc]
  · have hpos : 0 < skip := Nat.pos_of_ne_zero hzero
    have hnone : skip - (text ++ u).length = 0 := by
      rw [List.length_append]
      omega
    rw [resolveSegments_skip isDefined hpos, resolveSegments_skip isDefined hpos]
    dsimp only
    rw [hnone, resolveSegments_blanks isDefined hv, resolveSegments, List.append_nil,
      List.drop_append_of_le_length hskip, List.append_assoc]

theorem resolveSegments_append_blanks (hw : w.all isLexSpace = true) {skip : Nat} {cs : List Char}
    (hskip : skip ≤ cs.length) : resolveSegments isDefined skip (segments (cs ++ w)) =
      resolveSegments isDefined skip (segments cs) ++ w := by
  match cs with
  | [] =>
    obtain rfl : skip = 0 := Nat.le_zero.1 hskip
    rw [List.nil_append, resolveSegments_blanks isDefined hw, segments]
    rfl
  | c :: r =>
    rcases nextSegment_append_blanks hw c r with ⟨hsame, hle⟩ | ⟨hkind, hident, hend, hend'⟩
    · have hdrop := length_drop_lt c r (nextSegment c r).2
      have hrest : ∀ skip' ≤ (r.drop (nextSegment c r).2).length,
          resolveSegments isDefined skip' (segments (r.drop (nextSegment c r).2 ++ w)) =
            resolveSegments isDefined skip' (segments (r.drop (nextSegment c r).2)) ++ w :=
        fun _ => resolveSegments_append_blanks hw
      rw [List.cons_append, segments_cons, segments_cons, hsame, List.take_append_of_le_length hle,
        List.drop_append_of_le_length hle]
      by_cases hzero : skip = 0
      · subst hzero
        rw [resolveSegments_zero, resolveSegments_zero, flatten_segments, flatten_segments,
          definedOperand?_append_blanks hw]
        split
        · rename_i name n hoperand
          have hn : n ≤ (r.drop (nextSegment c r).2).length := by
            split at hoperand
            · exact definedOperand?_le hoperand
            · cases hoperand
          rw [hrest n hn, List.cons_append]
        · rw [hrest 0 (Nat.zero_le _), List.append_assoc]
      · have hpos : 0 < skip := Nat.pos_of_ne_zero hzero
        rw [resolveSegments_skip isDefined hpos, resolveSegments_skip isDefined hpos, hrest,
          List.append_assoc]
        simp only [List.length_cons, List.length_take, List.length_drop] at hskip ⊢
        omega
    · have hlast : (r ++ w).take (nextSegment c (r ++ w)).2 =
          r ++ w.take ((nextSegment c (r ++ w)).2 - r.length) := by
        rw [List.take_append, List.take_of_length_le hend']
      rw [List.cons_append, segments_cons, hkind, hlast, drop_append_of_length_le hend',
        segments_cons, List.drop_eq_nil_of_le hend, List.take_of_length_le hend,
        ← List.cons_append, resolveSegments_last isDefined (all_drop hw _) hident hskip,
        List.take_append_drop, segments]
  termination_by cs.length

end Segments

theorem resolveDefined_append_blanks (hw : w.all isLexSpace = true) (isDefined : String → Bool)
    (cs : List Char) : resolveDefined isDefined (cs ++ w) = resolveDefined isDefined cs ++ w :=
  resolveSegments_append_blanks isDefined hw (Nat.zero_le _)

theorem Registry.fst_condition (r : Registry) (line : Nat) (text : List Char) :
    (r.condition line text).1 = match evalText (fun _ => some (.int 0)) (String.ofList
        (r.macroTable.expand [] (resolveDefined r.isMacro text)).text) with
      | .ok v => v.isTruthy
      | .error _ => false := by
  rw [condition, expandText]
  dsimp only
  cases evalText (fun _ => some (.int 0)) (String.ofList
      (r.macroTable.expand [] (resolveDefined r.isMacro text)).text) with
  | ok v => rfl
  | error e => rfl

/-- **Blanks behind a condition do not change its truth.** -/
theorem Registry.condition_append_blanks (hw : w.all isLexSpace = true) (r : Registry)
    (line line' : Nat) (text : List Char) :
    (r.condition line (text ++ w)).1 = (r.condition line' text).1 := by
  have hvalue := evalText_append_blanks hw (fun _ => some (.int 0))
    (r.macroTable.expand [] (resolveDefined r.isMacro text)).text
  rw [fst_condition, fst_condition, resolveDefined_append_blanks hw,
    MacroTable.expand_append_blanks hw, Expansion.followedBy]
  dsimp only
  cases hbare : evalText (fun _ => some (.int 0)) (String.ofList
      (r.macroTable.expand [] (resolveDefined r.isMacro text)).text) with
  | ok v => rw [(hvalue v).2 hbare]
  | error e =>
    split
    · rename_i v hblanks
      rw [(hvalue v).1 hblanks] at hbare
      cases hbare
    · rfl

end CInterface
