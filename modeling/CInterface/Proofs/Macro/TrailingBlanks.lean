import CInterface.Proofs.Macro.Boundaries
import CInterface.Proofs.Macro.Scan
import CInterface.Proofs.Token.TrailingBlanks
import Mathlib.Data.List.Forall2
import Mathlib.Data.List.TakeWhile
/-!
# Expanding a text with blanks behind it

Blanks behind a text are no part of a macro call in it. The expansion of the text stands before
them.

* `nextSegment_append_blanks` — the first segment of the text is the same, or it is the last and
  blanks go on with it.
* `callArguments?_append_blanks` — a call ends before the blanks.
* `Shifted` — hidden macros, and the same where more characters are to come.
* `MacroTable.expand_append_blanks` — the expansion.
-/

namespace CInterface

open Text

section Blanks

variable {w : List Char}

theorem isBlank_of_isLexSpace {x : Char} (hx : isLexSpace x = true) : isBlank x = true := by
  have := eq_false_of_isLexSpace hx (fun c => !isBlank c) (by decide)
  simpa using this

theorem all_drop {p : Char → Bool} (h : w.all p = true) (n : Nat) : (w.drop n).all p = true :=
  List.all_eq_true.2 fun c hc => List.all_eq_true.1 h c (List.mem_of_mem_drop hc)

theorem drop_append_of_length_le {r : List Char} {n : Nat} (h : r.length ≤ n) (w : List Char) :
    (r ++ w).drop n = w.drop (n - r.length) := by
  rw [List.drop_append, List.drop_eq_nil_of_le h, List.nil_append]

theorem head?_any_append_blanks {p : Char → Bool} (hp : ∀ x, isLexSpace x = true → p x = false)
    (hw : w.all isLexSpace = true) (r : List Char) : (r ++ w).head?.any p = r.head?.any p := by
  refine append_blanks (f := fun r => r.head?.any p) (fun x cs ds hx => ?_) hw r
  cases cs with
  | nil => exact hp x hx
  | cons c cs => rfl

theorem takeWhile_append_blanks {p : Char → Bool} (hp : ∀ x, isLexSpace x = true → p x = false)
    (hw : w.all isLexSpace = true) (r : List Char) : (r ++ w).takeWhile p = r.takeWhile p := by
  refine append_blanks (fun x cs ds hx => ?_) hw r
  induction cs with
  | nil => exact List.takeWhile_cons_of_neg (Bool.eq_false_iff.1 (hp x hx))
  | cons c cs ih => rw [List.cons_append, List.takeWhile_cons, List.takeWhile_cons, ih]

/-! ### Segments -/

theorem numberTail_append_blanks (hw : w.all isLexSpace = true) (hex : Bool) (before : Char)
    (r : List Char) : numberTail hex before (r ++ w) = numberTail hex before r := by
  refine append_blanks (fun x cs ds hx => ?_) hw r
  induction cs generalizing before with
  | nil =>
    have htail := eq_false_of_isLexSpace hx
      (fun c => isWordTail c || c = '.' || c = '+' || c = '-') (by decide)
    simp only [Bool.or_eq_false_iff, decide_eq_false_iff_not] at htail
    simp [numberTail, htail]
  | cons c cs ih => rw [List.cons_append, numberTail, numberTail, ih]

/-- A literal that goes on to the end of a text goes on behind it. -/
theorem le_quotedTail_append {quote : Char} {r : List Char} (h : r.length ≤ quotedTail quote r)
    (w : List Char) : r.length ≤ quotedTail quote (r ++ w) := by
  fun_induction quotedTail quote r with
  | case1 => exact Nat.zero_le _
  | case2 => simp at h
  | case3 c hnewline =>
    rw [List.singleton_append, List.length_singleton]
    cases w with
    | nil => rw [quotedTail, if_neg hnewline]
    | cons d w =>
      rw [quotedTail, if_neg hnewline]
      split
      · omega
      · split <;> omega
  | case4 d r ih =>
    rw [List.cons_append, List.cons_append, quotedTail, if_pos rfl]
    simp only [List.length_cons] at h ⊢
    have := ih (by omega)
    omega
  | case5 d r hescape => simp at h
  | case6 d r hescape hnewline => simp at h
  | case7 c d r hescape hnewline hend ih =>
    rw [List.cons_append, List.cons_append, quotedTail, if_neg hescape, if_neg hnewline,
      if_neg hend, ← List.cons_append]
    simp only [List.length_cons] at h ih ⊢
    have := ih (by omega)
    omega

/-- The first segment of a text ends before blanks behind the text, or it is no word and they go on
with it. -/
theorem nextSegment_append_blanks (hw : w.all isLexSpace = true) (c : Char) (r : List Char) :
    (nextSegment c (r ++ w) = nextSegment c r ∧ (nextSegment c r).2 ≤ r.length) ∨
      ((nextSegment c (r ++ w)).1 = (nextSegment c r).1 ∧ (nextSegment c r).1 ≠ .ident ∧
        r.length ≤ (nextSegment c r).2 ∧ r.length ≤ (nextSegment c (r ++ w)).2) := by
  have hnumber : startsNumber c (r ++ w) = startsNumber c r := by
    rw [startsNumber, startsNumber, head?_any_append_blanks _ hw]
    exact fun x hx => eq_false_of_isLexSpace hx _ (by decide)
  have hhex : startsHex c (r ++ w) = startsHex c r := by
    rw [startsHex, startsHex, head?_any_append_blanks _ hw]
    exact fun x hx => eq_false_of_isLexSpace hx (fun x => x = 'x' || x = 'X') (by decide)
  by_cases hlt : (nextSegment c r).2 < r.length
  · exact Or.inl ⟨nextSegment_append w hlt, Nat.le_of_lt hlt⟩
  · unfold nextSegment at hlt ⊢
    rw [hnumber, hhex]
    split_ifs at hlt ⊢ with hquote hhead hdigit hspace
    · have hle := Nat.le_of_not_lt hlt
      have hkind : SegmentKind.quoted ≠ .ident := by decide
      exact Or.inr ⟨rfl, hkind, hle, le_quotedTail_append hle w⟩
    · refine Or.inl ⟨?_, (List.takeWhile_prefix _).length_le⟩
      rw [takeWhile_append_blanks _ hw]
      exact fun x hx => eq_false_of_isLexSpace hx _ (by decide)
    · rw [numberTail_append_blanks hw]
      exact Or.inl ⟨rfl, numberTail_le _ _ _⟩
    · have hle := Nat.le_of_not_lt hlt
      have hkind : SegmentKind.other ≠ .ident := by decide
      refine Or.inr ⟨rfl, hkind, hle, ?_⟩
      have hall : (r.takeWhile isWordSpace).length = r.length :=
        Nat.le_antisymm (List.takeWhile_prefix _).length_le hle
      dsimp only
      rw [List.takeWhile_append, if_pos hall, List.length_append]
      exact Nat.le_add_right _ _
    · exact Or.inl ⟨rfl, Nat.zero_le _⟩

theorem nextSegment_blank {x : Char} (hx : isLexSpace x = true) (r : List Char) :
    (nextSegment x r).1 = .other := by
  have hquote := eq_false_of_isLexSpace hx (fun c => c = '"' || c = '\x27') (by decide)
  have hhead := eq_false_of_isLexSpace hx isWordHead (by decide)
  have hdigit := eq_false_of_isLexSpace hx (fun c => c.isDigit || c = '.') (by decide)
  rw [Bool.or_eq_false_iff] at hdigit
  have hnumber : startsNumber x r = false := by rw [startsNumber, hdigit.1, hdigit.2]; rfl
  unfold nextSegment
  rw [if_neg (Bool.eq_false_iff.1 hquote), if_neg (Bool.eq_false_iff.1 hhead),
    if_neg (Bool.eq_false_iff.1 hnumber)]
  split <;> rfl

/-! ### Calls -/

theorem argumentsFrom_blanks {v : List Char} (hv : v.all isLexSpace = true) (depth : Nat)
    (arg : List Char) : argumentsFrom depth arg v = none := by
  match v with
  | [] => exact argumentsFrom_nil depth arg
  | x :: v =>
    rw [List.all_cons, Bool.and_eq_true] at hv
    have hcomma : x ≠ ',' := ne_of_class hv.1 (by decide)
    rw [argumentsFrom_word (ne_of_class hv.1 (by decide)) (ne_of_class hv.1 (by decide))
      (Or.inr fun h => hcomma h.1)]
    exact argumentsFrom_blanks (all_drop hv.2 _) depth _
  termination_by v.length
  decreasing_by exact length_drop_lt x v _

theorem argumentsFrom_word_append_blanks (hw : w.all isLexSpace = true) {depth : Nat} {c : Char}
    {r arg : List Char} (ho : c ≠ '(') (hcl : c ≠ ')')
    (hk : (nextSegment c r).1 ≠ .other ∨ ¬(c = ',' ∧ depth = 0))
    (ih : argumentsFrom depth ((c :: r.take (nextSegment c r).2).reverse ++ arg)
      (r.drop (nextSegment c r).2 ++ w) =
        (argumentsFrom depth ((c :: r.take (nextSegment c r).2).reverse ++ arg)
          (r.drop (nextSegment c r).2)).map fun p => (p.1, p.2 ++ w)) :
    argumentsFrom depth arg (c :: r ++ w) =
      (argumentsFrom depth arg (c :: r)).map fun p => (p.1, p.2 ++ w) := by
  rcases nextSegment_append_blanks hw c r with ⟨hsame, hle⟩ | ⟨hkind, -, hend, hend'⟩
  · rw [List.cons_append, argumentsFrom_word ho hcl (by rwa [hsame]), hsame,
      List.take_append_of_le_length hle, List.drop_append_of_le_length hle, ih,
      argumentsFrom_word ho hcl hk]
  · -- the last segment of the text, so that the list is not closed
    rw [List.cons_append, argumentsFrom_word ho hcl (by rwa [hkind]),
      drop_append_of_length_le hend', argumentsFrom_blanks (all_drop hw _),
      argumentsFrom_word ho hcl hk, List.drop_eq_nil_of_le hend, argumentsFrom_nil]
    rfl

/-- A list of arguments ends before blanks behind the text, or is not closed. -/
theorem argumentsFrom_append_blanks (hw : w.all isLexSpace = true) (depth : Nat)
    (arg cs : List Char) :
    argumentsFrom depth arg (cs ++ w) =
      (argumentsFrom depth arg cs).map fun p => (p.1, p.2 ++ w) := by
  fun_induction argumentsFrom depth arg cs with
  | case1 depth arg =>
    rw [List.nil_append, argumentsFrom_blanks hw]
    rfl
  | case2 depth arg c r kind n hn hk ih =>
    obtain ⟨ho, hcl⟩ := nextSegment_word (c := c) (r := r) (by rwa [hn])
    rw [argumentsFrom_word_append_blanks hw ho hcl (Or.inl (by rwa [hn])) (by rw [hn]; exact ih),
      argumentsFrom_word ho hcl (Or.inl (by rwa [hn])), hn]
  | case3 depth arg r kind n hk hn ih => rw [List.cons_append, argumentsFrom_opening, ih]
  | case4 arg r kind n hk hn ho =>
    rw [List.cons_append, argumentsFrom_closing_zero]
    rfl
  | case5 arg r kind n hk depth hn ho ih => rw [List.cons_append, argumentsFrom_closing_succ, ih]
  | case6 depth arg c r kind n hn hk ho hcl hcomma ih =>
    simp only [Bool.and_eq_true, decide_eq_true_eq] at hcomma
    obtain ⟨rfl, rfl⟩ := hcomma
    rw [List.cons_append, argumentsFrom_comma, ih, Option.map_map, Option.map_map]
    rfl
  | case7 depth arg c r kind n hn hk ho hcl hcomma ih =>
    simp only [Bool.and_eq_true, decide_eq_true_eq] at hcomma
    rw [argumentsFrom_word_append_blanks hw ho hcl (Or.inr hcomma) (by rw [hn]; exact ih),
      argumentsFrom_word ho hcl (Or.inr hcomma), hn]

theorem trimStart_append_blanks (hw : w.all isLexSpace = true) (cs : List Char) :
    trimStart (cs ++ w) = if trimStart cs = [] then [] else trimStart cs ++ w := by
  have hblank : trimStart w = [] :=
    List.dropWhile_eq_nil_iff.2 fun c hc => isBlank_of_isLexSpace (List.all_eq_true.1 hw c hc)
  rw [trimStart, List.dropWhile_append, ← trimStart, ← trimStart, hblank]
  simp only [List.isEmpty_iff]

/-- A call ends before blanks behind the text. -/
theorem callArguments?_append_blanks (hw : w.all isLexSpace = true) (cs : List Char) :
    callArguments? (cs ++ w) =
      (callArguments? cs).map (Except.map fun p => (p.1, p.2 ++ w)) := by
  have htrim := trimStart_append_blanks hw cs
  cases hcs : trimStart cs with
  | nil =>
    rw [hcs, if_pos rfl] at htrim
    rw [callArguments?, callArguments?, htrim, hcs]
    rfl
  | cons c list =>
    rw [hcs, if_neg (List.cons_ne_nil c list), List.cons_append] at htrim
    by_cases hc : c = '('
    · subst hc
      rw [callArguments?_of_call hcs, callArguments?_of_call htrim, argumentsFrom_append_blanks hw]
      cases argumentsFrom 0 [] list <;> rfl
    · rw [callArguments?_of_ne hcs hc, callArguments?_of_ne htrim hc]
      rfl

end Blanks

/-! ### The scan -/

/-- `Shifted k hidden hidden'` — the same macros are hidden where `k` more characters are to come
behind the text. A macro that is hidden up to the end of the text may be hidden among those. -/
def Shifted (k : Nat) : List HiddenMacro → List HiddenMacro → Prop :=
  List.Forall₂ fun h h' => h'.name = h.name ∧ (h'.tail = h.tail + k ∨ h.tail = 0 ∧ h'.tail ≤ k)

namespace Shifted

variable {k : Nat} {hidden hidden' : List HiddenMacro}

theorem names (h : Shifted k hidden hidden') : hidden'.map (·.name) = hidden.map (·.name) := by
  induction h with
  | nil => rfl
  | cons hx _ ih => rw [List.map_cons, List.map_cons, hx.1, ih]

theorem any (h : Shifted k hidden hidden') (name : String) :
    hidden'.any (·.name = name) = hidden.any (·.name = name) := by
  induction h with
  | nil => rfl
  | cons hx _ ih => rw [List.any_cons, List.any_cons, hx.1, ih]

/-- Before the end of the text the same macros are hidden. -/
theorem filter (h : Shifted k hidden hidden') {n : Nat} (hn : 0 < n) :
    Shifted k (hidden.filter (·.tail < n)) (hidden'.filter (·.tail < n + k)) := by
  induction h with
  | nil => exact .nil
  | @cons x x' hidden hidden' hx _ ih =>
    have htail : decide (x'.tail < n + k) = decide (x.tail < n) := decide_eq_decide.2 (by omega)
    rw [List.filter_cons, List.filter_cons, htail]
    split
    · exact .cons hx ih
    · exact ih

theorem hideMacro (h : Shifted k hidden hidden') (name : String) (n : Nat) :
    Shifted k (hideMacro hidden name n) (hideMacro hidden' name (n + k)) := by
  have hlast : Shifted k [⟨name, n⟩] [⟨name, n + k⟩] := .cons ⟨rfl, Or.inl rfl⟩ .nil
  have hmap : Shifted k (hidden.map fun x => { x with tail := min x.tail n })
      (hidden'.map fun x => { x with tail := min x.tail (n + k) }) := by
    induction h with
    | nil => exact .nil
    | cons hx _ ih =>
      refine .cons ⟨hx.1, ?_⟩ ih
      dsimp only
      omega
  exact List.rel_append hmap hlast

/-- Macros that are hidden throughout. -/
theorem throughout (k : Nat) (names : List String) :
    Shifted k (names.map (⟨·, 0⟩)) (names.map (⟨·, 0⟩)) := by
  induction names with
  | nil => exact .nil
  | cons name names ih => exact .cons ⟨rfl, Or.inr ⟨rfl, Nat.zero_le k⟩⟩ ih

end Shifted

/-- The expansion with a text behind it. -/
def Expansion.followedBy (e : Expansion) (w : List Char) : Expansion :=
  { e with text := e.text ++ w }

namespace MacroTable

variable {t : MacroTable} {w : List Char}

/-- Blanks are passed. -/
theorem scan_blanks {v : List Char} (hv : v.all isLexSpace = true) (hidden : List HiddenMacro)
    (before : List Char) (budget : Nat) (failures : List (String × MacroError)) :
    t.scan hidden before budget failures v = ⟨before.reverse ++ v, budget, failures⟩ := by
  match v with
  | [] => rw [scan_nil, List.append_nil]
  | x :: v =>
    rw [List.all_cons, Bool.and_eq_true] at hv
    have hk : (nextSegment x v).1 = .other := nextSegment_blank hv.1 v
    rw [scan_other (by rw [hk]; decide), scan_blanks (all_drop hv.2 _), List.reverse_append,
      List.reverse_reverse, List.append_assoc, List.cons_append, List.take_append_drop]
  termination_by v.length
  decreasing_by exact length_drop_lt x v _

/-- What `scan_append_blanks` says of the texts that a scan comes to from `cs` on. -/
def KeepsBlanks (t : MacroTable) (w : List Char) (budget : Nat) (cs : List Char) : Prop :=
  ∀ budget' cs', (budget' < budget ∨ budget' ≤ budget ∧ cs'.length < cs.length) →
    ∀ hidden hidden', Shifted w.length hidden hidden' → ∀ before failures,
      t.scan hidden' before budget' failures (cs' ++ w) =
        (t.scan hidden before budget' failures cs').followedBy w

/-- The scan at a name. -/
theorem scan_name_append_blanks (hw : w.all isLexSpace = true) {hidden hidden' : List HiddenMacro}
    (h : Shifted w.length hidden hidden') {budget : Nat} (hb : budget ≠ 0) {c : Char}
    {r : List Char} (hk : (nextSegment c r).1 = .ident)
    (hsame : nextSegment c (r ++ w) = nextSegment c r)
    (hle : (nextSegment c r).2 ≤ r.length) (ih : t.KeepsBlanks w budget (c :: r))
    (before : List Char) (failures : List (String × MacroError)) :
    t.scan hidden' before budget failures (c :: r ++ w) =
      (t.scan hidden before budget failures (c :: r)).followedBy w := by
  have htake : (r ++ w).take (nextSegment c r).2 = r.take (nextSegment c r).2 :=
    List.take_append_of_le_length hle
  have hdrop : (r ++ w).drop (nextSegment c r).2 = r.drop (nextSegment c r).2 ++ w :=
    List.drop_append_of_le_length hle
  have hlength : (c :: (r ++ w)).length = (c :: r).length + w.length := by
    rw [← List.cons_append, List.length_append]
  have hinside := h.filter (n := (c :: r).length) (Nat.succ_pos _)
  have hshorter : (r.drop (nextSegment c r).2).length < (c :: r).length := length_drop_lt c r _
  rw [List.cons_append, scan_name (by rwa [hsame]) hb, scan_name hk hb, hsame, htake, hdrop,
    hlength]
  generalize hidden'.filter (·.tail < (c :: r).length + w.length) = inside' at hinside ⊢
  generalize hidden.filter (·.tail < (c :: r).length) = inside at hinside ⊢
  generalize String.ofList (c :: r.take (nextSegment c r).2) = name
  generalize (c :: r.take (nextSegment c r).2).reverse ++ before = passed
  generalize hrest : r.drop (nextSegment c r).2 = rest at hshorter ⊢
  dsimp only
  have hpassed : ∀ budget' ≤ budget, ∀ failures,
      t.scan inside' passed budget' failures (rest ++ w) =
        (t.scan inside passed budget' failures rest).followedBy w := fun budget' hle failures =>
    ih budget' rest (Or.inr ⟨hle, hshorter⟩) inside inside' hinside passed failures
  rw [hinside.any, callArguments?_append_blanks hw, hinside.names]
  split
  · exact hpassed budget (Nat.le_refl _) failures
  · cases t.objects.get? name with
    | some body =>
      dsimp only
      rw [List.length_append, ← List.append_assoc]
      exact ih (budget - 1) (body.toList ++ rest) (Or.inl (by omega)) _ _
        (hinside.hideMacro name rest.length) before failures
    | none =>
      cases t.functions.get? name with
      | none => exact hpassed budget (Nat.le_refl _) failures
      | some m =>
        rcases callArguments? rest with _ | (e | ⟨args, after⟩)
        · exact hpassed budget (Nat.le_refl _) failures
        · exact hpassed budget (Nat.le_refl _) ((name, e) :: failures)
        · dsimp only [Option.map, Except.map]
          have hleft := Nat.min_le_right
            (t.scanAll (inside.map (·.name)) budget failures args).budget budget
          cases m.substitute (t.scanAll (inside.map (·.name)) budget failures args).texts with
          | error e => exact hpassed _ hleft _
          | ok text =>
            dsimp only
            split
            · rw [Expansion.followedBy, List.append_assoc, List.cons_append]
            · rw [List.length_append, ← List.append_assoc]
              exact ih _ (text.toList ++ after) (Or.inl (by omega)) _ _
                (hinside.hideMacro name after.length) before _

/-- The scan of a text with blanks behind it. -/
theorem scan_append_blanks (hw : w.all isLexSpace = true) {hidden hidden' : List HiddenMacro}
    (h : Shifted w.length hidden hidden') (before : List Char) (budget : Nat)
    (failures : List (String × MacroError)) (cs : List Char) :
    t.scan hidden' before budget failures (cs ++ w) =
      (t.scan hidden before budget failures cs).followedBy w := by
  match cs with
  | [] =>
    rw [List.nil_append, scan_blanks hw, scan_nil]
    rfl
  | c :: r =>
    rcases nextSegment_append_blanks hw c r with ⟨hsame, hle⟩ | ⟨hkind, hident, hend, hend'⟩
    · by_cases hk : (nextSegment c r).1 = .ident
      · by_cases hb : budget = 0
        · subst hb
          rw [List.cons_append, scan_of_budget_zero (by rwa [hsame]), scan_of_budget_zero hk,
            Expansion.followedBy, List.append_assoc, List.cons_append]
        · exact scan_name_append_blanks hw h hb hk hsame hle
            (fun budget' cs' hlt _ _ hs before failures =>
              scan_append_blanks hw hs before budget' failures cs') before failures
      · rw [List.cons_append, scan_other (by rwa [hsame]), scan_other hk, hsame,
          List.take_append_of_le_length hle, List.drop_append_of_le_length hle]
        exact scan_append_blanks hw h _ budget failures _
    · -- the last segment of the text, which the blanks may go on with
      have hall : ((r ++ w).drop (nextSegment c (r ++ w)).2).all isLexSpace = true := by
        rw [drop_append_of_length_le hend']
        exact all_drop hw _
      rw [List.cons_append, scan_other (by rwa [hkind]), scan_other hident,
        List.drop_eq_nil_of_le hend, scan_nil, scan_blanks hall, List.take_of_length_le hend,
        Expansion.followedBy, List.reverse_append, List.reverse_reverse, List.append_assoc,
        List.cons_append, List.take_append_drop]
      simp
  termination_by (budget, cs.length)
  decreasing_by
    · rcases hlt with hlt | ⟨hle, hlt⟩
      · exact Prod.Lex.left _ _ hlt
      · exact lex_of_le_of_lt hle hlt
    · exact Prod.Lex.right _ (length_drop_lt c r _)

/-- **Blanks behind a text stand behind its expansion.** -/
theorem expand_append_blanks (hw : w.all isLexSpace = true) (t : MacroTable) (hidden : List String)
    (text : List Char) : t.expand hidden (text ++ w) = (t.expand hidden text).followedBy w :=
  scan_append_blanks hw (Shifted.throughout w.length hidden) [] expansionLimit [] text

end MacroTable

end CInterface
