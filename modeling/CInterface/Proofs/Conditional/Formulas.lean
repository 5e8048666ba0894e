import CInterface.Proofs.Conditional.Nesting
import CInterface.Proofs.Expr.Precedence
import CInterface.Proofs.Preprocess.DefinedOperands
import CInterface.Proofs.Value.Writing
/-!
# Conditions over `defined`

Formulas whose atoms ask whether a name is a macro. Where such a formula is the condition of a
group, only the names of the macros matter: neither their bodies nor their kinds are looked at, and
nothing goes wrong.

* `Formula`, `Formula.holds` — a formula, and its truth for some macros.
* `Formula.Written` — the texts that are a formula, with any white space, where the texts of the
  atoms are given.
* `Formula.Written.resolve` — resolving `defined` turns the text of a formula into a text of the
  same formula with digits for atoms.
* `Formula.Written.exists_settles` — the tokens of this text spell a tree whose value is the truth
  of the formula.
* `Registry.condition_formula` — the truth of the condition is that of the formula.
* `Opening`, `line_opening`, `lines_opening` — the line that opens a group with a formula, and the
  lines of the group.
-/

namespace CInterface

open Text

theorem Value.isTruthy_ofBool (b : Bool) : (Value.ofBool b).isTruthy = b := by
  cases b <;> rfl

/-- A condition over the names of macros. -/
inductive Formula where
  | defined (name : String)
  | not (f : Formula)
  | and (f g : Formula)
  | or (f g : Formula)
  deriving DecidableEq, Repr

namespace Formula

/-- The truth of a formula, where some names are macros. -/
def holds (isMacro : String → Bool) : Formula → Bool
  | defined name => isMacro name
  | not f => !f.holds isMacro
  | and f g => f.holds isMacro && g.holds isMacro
  | or f g => f.holds isMacro || g.holds isMacro

/-- The text is the formula at a level, where `Atom` gives the texts of atoms: zero is the level of
`||`, one that of `&&`, and two that of `!`, of atoms and of groups. Operators group to the left,
and white space may stand around each of them. -/
inductive Written (Atom : String → List Char → Prop) : Nat → Formula → List Char → Prop where
  | atom {name : String} {cs : List Char} (h : Atom name cs) : Written Atom 2 (defined name) cs
  | group {f : Formula} {cs g₁ g₂ : List Char} (hg₁ : g₁.all isLexSpace = true)
      (hg₂ : g₂.all isLexSpace = true) (h : Written Atom 0 f cs) :
      Written Atom 2 f ('(' :: (g₁ ++ (cs ++ (g₂ ++ [')']))))
  | not {f : Formula} {cs g : List Char} (hg : g.all isLexSpace = true) (h : Written Atom 2 f cs) :
      Written Atom 2 (not f) ('!' :: (g ++ cs))
  | and {f f' : Formula} {cs cs' g₁ g₂ : List Char} (hg₁ : g₁.all isLexSpace = true)
      (hg₂ : g₂.all isLexSpace = true) (hf : Written Atom 1 f cs) (hf' : Written Atom 2 f' cs') :
      Written Atom 1 (and f f') (cs ++ (g₁ ++ '&' :: '&' :: (g₂ ++ cs')))
  | or {f f' : Formula} {cs cs' g₁ g₂ : List Char} (hg₁ : g₁.all isLexSpace = true)
      (hg₂ : g₂.all isLexSpace = true) (hf : Written Atom 0 f cs) (hf' : Written Atom 1 f' cs') :
      Written Atom 0 (or f f') (cs ++ (g₁ ++ '|' :: '|' :: (g₂ ++ cs')))
  /-- What stands at a level stands at the looser ones. -/
  | weaken {k : Nat} {f : Formula} {cs : List Char} (hk : k < 2) (h : Written Atom (k + 1) f cs) :
      Written Atom k f cs

/-- The text asks whether a name is a macro. -/
def DefinedText (name : String) (cs : List Char) : Prop :=
  isIdentifier name.toList = true ∧ ∃ u, OperandText name u ∧ cs = "defined".toList ++ u

/-- The text is the digit that stands for the answer. -/
def DigitText (isMacro : String → Bool) (name : String) (cs : List Char) : Prop :=
  cs = [if isMacro name then '1' else '0']

/-! ### Resolving a formula -/

/-- Resolving `defined` turns the text `cs` into `ds`, whatever follows it. -/
def ResolvesTo (isMacro : String → Bool) (cs ds : List Char) : Prop :=
  ∀ r : List Char, r.head?.all endsOperand = true →
    resolveDefined isMacro (cs ++ r) = ds ++ resolveDefined isMacro r

variable {isMacro : String → Bool} {k : Nat} {f : Formula} {cs cs' ds ds' g₁ g₂ : List Char}

theorem head?_all_endsOperand {g r : List Char} (hg : g.all isLexSpace = true)
    (hr : r.head?.all endsOperand = true) : (g ++ r).head?.all endsOperand = true :=
  head?_all_gap hg (by decide) hr

theorem head?_all_endsOperand_gap {g : List Char} (hg : g.all isLexSpace = true) :
    g.head?.all endsOperand = true := by
  have h := head?_all_endsOperand hg (r := []) rfl
  rwa [List.append_nil] at h

/-- Two texts with an operator of two equal characters between them. -/
theorem ResolvesTo.join {c : Char} (hc : c ∈ ['&', '|']) (hg₁ : g₁.all isLexSpace = true)
    (hg₂ : g₂.all isLexSpace = true) (h : ResolvesTo isMacro cs ds)
    (h' : ResolvesTo isMacro cs' ds') :
    ResolvesTo isMacro (cs ++ (g₁ ++ c :: c :: (g₂ ++ cs')))
      (ds ++ (g₁ ++ c :: c :: (g₂ ++ ds'))) := by
  intro r hr
  have hmark : c ∈ ['(', ')', '!', '&', '|'] := List.mem_cons_of_mem _ (.tail _ (.tail _ hc))
  have hends : (c :: c :: (g₂ ++ (cs' ++ r))).head?.all endsOperand = true := by
    rcases List.mem_pair.1 hc with rfl | rfl <;> rfl
  simp only [List.cons_append, List.append_assoc]
  rw [h _ (head?_all_endsOperand hg₁ hends), resolveDefined_gap isMacro hg₁,
    resolveDefined_mark isMacro hmark, resolveDefined_mark isMacro hmark,
    resolveDefined_gap isMacro hg₂, h' r hr]

/-- Resolving `defined` makes the text of a formula one of the same formula, with digits for the
atoms. -/
theorem Written.resolve (isMacro : String → Bool) (h : Written DefinedText k f cs) :
    ∃ ds, Written (DigitText isMacro) k f ds ∧ ResolvesTo isMacro cs ds := by
  induction h with
  | @atom name cs h =>
    obtain ⟨hname, u, hu, rfl⟩ := h
    refine ⟨_, .atom rfl, fun r hr => ?_⟩
    rw [List.append_assoc, resolveDefined_operand isMacro hu hname hr]
    rfl
  | @group f cs g₁ g₂ hg₁ hg₂ h ih =>
    obtain ⟨ds, hds, hresolve⟩ := ih
    refine ⟨_, .group hg₁ hg₂ hds, fun r hr => ?_⟩
    simp only [List.cons_append, List.append_assoc, List.nil_append]
    rw [resolveDefined_mark isMacro (by decide), resolveDefined_gap isMacro hg₁,
      hresolve _ (head?_all_endsOperand hg₂ rfl), resolveDefined_gap isMacro hg₂,
      resolveDefined_mark isMacro (by decide)]
  | @not f cs g hg h ih =>
    obtain ⟨ds, hds, hresolve⟩ := ih
    refine ⟨_, .not hg hds, fun r hr => ?_⟩
    simp only [List.cons_append, List.append_assoc]
    rw [resolveDefined_mark isMacro (by decide), resolveDefined_gap isMacro hg, hresolve r hr]
  | and hg₁ hg₂ hf hf' ih ih' =>
    obtain ⟨ds, hds, hresolve⟩ := ih
    obtain ⟨ds', hds', hresolve'⟩ := ih'
    exact ⟨_, .and hg₁ hg₂ hds hds', hresolve.join (by decide) hg₁ hg₂ hresolve'⟩
  | or hg₁ hg₂ hf hf' ih ih' =>
    obtain ⟨ds, hds, hresolve⟩ := ih
    obtain ⟨ds', hds', hresolve'⟩ := ih'
    exact ⟨_, .or hg₁ hg₂ hds hds', hresolve.join (by decide) hg₁ hg₂ hresolve'⟩
  | weaken hk h ih =>
    obtain ⟨ds, hds, hresolve⟩ := ih
    exact ⟨ds, .weaken hk hds, hresolve⟩

/-! ### Formulas with digits for atoms -/

theorem all_not_isWordHead_gap {g : List Char} (hg : g.all isLexSpace = true) :
    g.all (fun c => !isWordHead c) = true :=
  List.all_eq_true.2 fun c hc =>
    eq_true_of_isLexSpace (p := fun c => !isWordHead c) (List.all_eq_true.1 hg c hc) (by decide)

/-- A formula with digits for atoms holds no words. -/
theorem Written.all_not_isWordHead (h : Written (DigitText isMacro) k f cs) :
    cs.all (fun c => !isWordHead c) = true := by
  induction h with
  | @atom name cs h =>
    rw [show cs = _ from h]
    split <;> rfl
  | group hg₁ hg₂ _ ih =>
    simp only [List.all_cons, List.all_append, all_not_isWordHead_gap hg₁,
      all_not_isWordHead_gap hg₂, ih]
    decide
  | not hg _ ih =>
    simp only [List.all_cons, List.all_append, all_not_isWordHead_gap hg, ih]
    decide
  | and hg₁ hg₂ _ _ ih ih' =>
    simp only [List.all_cons, List.all_append, all_not_isWordHead_gap hg₁,
      all_not_isWordHead_gap hg₂, ih, ih']
    decide
  | or hg₁ hg₂ _ _ ih ih' =>
    simp only [List.all_cons, List.all_append, all_not_isWordHead_gap hg₁,
      all_not_isWordHead_gap hg₂, ih, ih']
    decide
  | weaken _ _ ih => exact ih

/-- The characters that may follow a parenthesis that opens a group, or an operator. -/
def operandStarts : List Char := [' ', '\t', '\r', '\n', '\x0c', '\x0b', '(', '!', '0', '1']

/-- A formula begins with a digit, a parenthesis or a negation. -/
theorem Written.head?_all (h : Written (DigitText isMacro) k f cs) (r : List Char) :
    (cs ++ r).head?.all operandStarts.contains = true := by
  induction h generalizing r with
  | @atom name cs h =>
    rw [show cs = _ from h]
    split <;> rfl
  | group => rfl
  | not => rfl
  | and _ _ _ _ ih =>
    rw [List.append_assoc]
    exact ih _
  | or _ _ _ _ ih =>
    rw [List.append_assoc]
    exact ih _
  | weaken _ _ ih => exact ih r

/-- The text `cs` is read as the tokens `ks`, whatever follows it. -/
def ReadsTo (cs : List Char) (ks : List TokenKind) : Prop :=
  ∀ r : List Char, r.head?.all endsOperand = true → kindsOf (cs ++ r) = ks ++ kindsOf r

theorem kindsOf_gap {g : List Char} (hg : g.all isLexSpace = true) (r : List Char) :
    kindsOf (g ++ r) = kindsOf r := by
  induction g with
  | nil => rfl
  | cons c g ih =>
    rw [List.all_cons, Bool.and_eq_true] at hg
    rw [List.cons_append, kindsOf_space hg.1, ih hg.2]

/-- A parenthesis that opens a group, or an operator, with white space and a formula behind it. -/
theorem Written.kindsOf_before (h : Written (DigitText isMacro) k f cs) {g : List Char}
    (hg : g.all isLexSpace = true) {p : Punct} (hp : p ∈ [Punct.lparen, .bang, .ampAmp, .pipePipe])
    (r : List Char) :
    kindsOf (p.text.toList ++ (g ++ (cs ++ r))) = .punct p :: kindsOf (cs ++ r) := by
  have hends : ∀ p ∈ [Punct.lparen, .bang, .ampAmp, .pipePipe],
      operandStarts.all p.endsBefore = true := by decide
  have hhead := head?_all_gap hg (by decide) (h.head?_all r)
  have hbefore : (g ++ (cs ++ r)).head?.all p.endsBefore = true := by
    cases hcs : (g ++ (cs ++ r)).head? with
    | none => rfl
    | some c =>
      rw [hcs] at hhead
      exact List.all_eq_true.1 (hends p hp) c (List.contains_iff_mem.1 hhead)
  rw [kindsOf_punct hbefore, kindsOf_gap hg]

/-- Two texts with an operator between them, the second of which is a formula. -/
theorem ReadsTo.join {p : Punct} (hp : p ∈ [Punct.ampAmp, .pipePipe])
    (hg₁ : g₁.all isLexSpace = true) (hg₂ : g₂.all isLexSpace = true) {ks ks' : List TokenKind}
    (h : ReadsTo cs ks) (hcs' : Written (DigitText isMacro) k f cs') (h' : ReadsTo cs' ks') :
    ReadsTo (cs ++ (g₁ ++ (p.text.toList ++ (g₂ ++ cs')))) (ks ++ .punct p :: ks') := by
  intro r hr
  have hends : (p.text.toList ++ (g₂ ++ (cs' ++ r))).head?.all endsOperand = true := by
    rcases List.mem_pair.1 hp with rfl | rfl <;> rfl
  have hop := hcs'.kindsOf_before hg₂ (p := p) (.tail _ (.tail _ hp)) r
  simp only [List.cons_append, List.append_assoc]
  rw [h _ (head?_all_endsOperand hg₁ hends), kindsOf_gap hg₁, hop, h' r hr]

/-- A parenthesis that closes a group, behind white space. -/
theorem kindsOf_close {g r : List Char} (hg : g.all isLexSpace = true)
    (hr : r.head?.all endsOperand = true) :
    kindsOf (g ++ ')' :: r) = .punct .rparen :: kindsOf r := by
  have hends : operandEnds.all Punct.rparen.endsBefore = true := by decide
  have hbefore : r.head?.all Punct.rparen.endsBefore = true := by
    cases hr' : r.head? with
    | none => rfl
    | some c =>
      rw [hr'] at hr
      exact List.all_eq_true.1 hends c (List.contains_iff_mem.1 hr)
  rw [kindsOf_gap hg]
  exact kindsOf_punct (p := .rparen) hbefore

theorem readsTo_digit (b : Bool) :
    ReadsTo [if b then '1' else '0'] [.integer (if b then "1" else "0")] := by
  intro r hr
  have hword : r.head?.all endsWord = true := by
    cases r with
    | nil => rfl
    | cons c r =>
      have hnot := eq_false_of_endsOperand hr (fun d => !endsWord d) (by decide)
      simpa using hnot
  cases b
  · exact kindsOf_digits (w := ['0']) rfl (by decide) (fun _ => rfl) hword
  · exact kindsOf_digits (w := ['1']) rfl (by decide) (fun _ => rfl) hword

/-- The level of expressions at which a formula stands. -/
def exprLevel (k : Nat) : Nat := if k < 2 then k + 1 else Expr.tightest

theorem exprLevel_le (hk : k < 2) :
    exprLevel k ≤ exprLevel (k + 1) ∧ exprLevel (k + 1) ≤ Expr.tightest := by
  obtain rfl | rfl : k = 0 ∨ k = 1 := by omega
  · decide
  · decide

/-- A token of a formula: a number, or a punctuator other than a star. -/
def isFormulaToken : TokenKind → Bool
  | .integer _ => true
  | .punct p => p ≠ .star
  | _ => false

theorem isCastWord_of_isFormulaToken {t : TokenKind} (h : isFormulaToken t = true) :
    Expr.isCastWord t = false := by
  cases t with
  | integer text => rfl
  | punct p => cases p <;> first | rfl | cases h
  | _ => cases h

/-- The tokens `ks` spell a tree, at a level, that has a truth value in any environment. -/
structure Settles (level : Nat) (ks : List TokenKind) (b : Bool) : Prop where
  formula : ks.all isFormulaToken = true
  denotes : ∃ e, Expr.Denotes level ks e ∧ ∀ env, e.eval env = .ok (.ofBool b)

namespace Settles

variable {level : Nat} {ks ks' : List TokenKind} {b b' : Bool}

theorem digit (b : Bool) : Settles Expr.tightest [.integer (if b then "1" else "0")] b := by
  refine ⟨rfl, .literal (.ofBool b), ?_, fun _ => rfl⟩
  cases b
  · exact .integer (by decide)
  · exact .integer (by decide)

theorem of_le {m : Nat} (h : Settles level ks b) (hm : m ≤ level) (hlevel : level ≤ Expr.tightest) :
    Settles m ks b := by
  obtain ⟨hks, e, he, heval⟩ := h
  exact ⟨hks, e, he.of_le hm hlevel, heval⟩

theorem group (h : Settles 0 ks b) : Settles Expr.tightest (Expr.inParens ks) b := by
  obtain ⟨hks, e, he, heval⟩ := h
  refine ⟨?_, e, .parens he, heval⟩
  rw [Expr.inParens, List.all_cons, List.all_append, hks]
  rfl

theorem not (h : Settles Expr.tightest ks b) :
    Settles Expr.tightest (.punct .bang :: ks) (!b) := by
  obtain ⟨hks, e, he, heval⟩ := h
  have hdenotes : Expr.Denotes Expr.tightest (.punct UnaryOp.not.punct :: ks) (.unary .not e) :=
    .unary he
  refine ⟨by rw [List.all_cons, hks]; rfl, .unary .not e, hdenotes, fun env => ?_⟩
  rw [Expr.eval_unary, heval]
  show Except.ok (Value.ofBool !(Value.ofBool b).isTruthy) = _
  rw [Value.isTruthy_ofBool]

/-- An operator that its left operand can settle. -/
theorem join {op : BinaryOp} {c : Bool} (hop : op.settledBy = some c)
    (h : Settles (op.rank + 1) ks b) (h' : Settles (op.rank + 2) ks' b') :
    Settles (op.rank + 1) (ks ++ .punct op.punct :: ks') (if b = c then c else b') := by
  obtain ⟨hks, e, he, heval⟩ := h
  obtain ⟨hks', e', he', heval'⟩ := h'
  refine ⟨?_, .binary op e e', .binary he he', fun env => ?_⟩
  · rw [List.all_append, List.all_cons, hks, hks']
    cases op <;> first | rfl | cases hop
  · rw [Expr.eval_binary_of_some hop, heval, heval']
    show (if (Value.ofBool b).isTruthy = c then Except.ok (Value.ofBool c)
      else .ok (.ofBool (Value.ofBool b').isTruthy)) = _
    rw [Value.isTruthy_ofBool, Value.isTruthy_ofBool]
    split <;> rfl

end Settles

/-- A formula with digits for atoms is read as tokens that settle its truth. -/
theorem Written.exists_settles (h : Written (DigitText isMacro) k f cs) :
    ∃ ks, ReadsTo cs ks ∧ Settles (exprLevel k) ks (f.holds isMacro) := by
  induction h with
  | @atom name cs h =>
    rw [show cs = _ from h]
    exact ⟨_, readsTo_digit _, .digit _⟩
  | @group f cs g₁ g₂ hg₁ hg₂ h ih =>
    obtain ⟨ks, hks, hsettles⟩ := ih
    refine ⟨_, fun r hr => ?_, (hsettles.of_le (Nat.zero_le 1) (by decide)).group⟩
    have hopen := h.kindsOf_before hg₁ (p := .lparen) (by decide) (g₂ ++ ')' :: r)
    rw [hks _ (head?_all_endsOperand hg₂ rfl), kindsOf_close hg₂ hr] at hopen
    simp only [List.cons_append, List.append_assoc, List.nil_append, Expr.inParens]
    exact hopen
  | @not f cs g hg h ih =>
    obtain ⟨ks, hks, hsettles⟩ := ih
    refine ⟨_, fun r hr => ?_, hsettles.not⟩
    have hbang := h.kindsOf_before hg (p := .bang) (by decide) r
    rw [hks r hr] at hbang
    simp only [List.cons_append, List.append_assoc]
    exact hbang
  | @and f f' cs cs' g₁ g₂ hg₁ hg₂ hf hf' ih ih' =>
    obtain ⟨ks, hks, hsettles⟩ := ih
    obtain ⟨ks', hks', hsettles'⟩ := ih'
    have hread := hks.join (p := .ampAmp) (by decide) hg₁ hg₂ hf' hks'
    have hop : BinaryOp.and.settledBy = some false := rfl
    have hjoin := Settles.join hop hsettles (hsettles'.of_le (by decide) (by decide))
    have hvalue : (if f.holds isMacro = false then false else f'.holds isMacro) =
        (Formula.and f f').holds isMacro := by
      rw [holds]
      cases f.holds isMacro <;> rfl
    rw [hvalue] at hjoin
    exact ⟨_, hread, hjoin⟩
  | @or f f' cs cs' g₁ g₂ hg₁ hg₂ hf hf' ih ih' =>
    obtain ⟨ks, hks, hsettles⟩ := ih
    obtain ⟨ks', hks', hsettles'⟩ := ih'
    have hread := hks.join (p := .pipePipe) (by decide) hg₁ hg₂ hf' hks'
    have hop : BinaryOp.or.settledBy = some true := rfl
    have hjoin := Settles.join hop hsettles hsettles'
    have hvalue : (if f.holds isMacro = true then true else f'.holds isMacro) =
        (Formula.or f f').holds isMacro := by
      rw [holds]
      cases f.holds isMacro <;> rfl
    rw [hvalue] at hjoin
    exact ⟨_, hread, hjoin⟩
  | @weaken k f cs hk h ih =>
    obtain ⟨ks, hks, hsettles⟩ := ih
    exact ⟨ks, hks, hsettles.of_le (exprLevel_le hk).1 (exprLevel_le hk).2⟩

/-- The value of a formula with digits for atoms, with white space around it. -/
theorem Written.evalText_eq (h : Written (DigitText isMacro) 0 f cs)
    (hg₁ : g₁.all isLexSpace = true) (hg₂ : g₂.all isLexSpace = true) (env : Env) :
    evalText env (String.ofList (g₁ ++ (cs ++ g₂))) = .ok (.ofBool (f.holds isMacro)) := by
  obtain ⟨ks, hks, hsettles⟩ := h.exists_settles
  obtain ⟨hformula, e, he, heval⟩ := hsettles.of_le (Nat.zero_le 1) (by decide)
  have hkinds : kindsOf (g₁ ++ (cs ++ g₂)) = ks := by
    rw [kindsOf_gap hg₁, hks g₂ (head?_all_endsOperand_gap hg₂), kindsOf_blanks hg₂,
      List.append_nil]
  have hclass : ∀ t ∈ ks, isFormulaToken t = true := List.all_eq_true.1 hformula
  have herrors : ∀ c, TokenKind.error c ∉ ks := fun c hc => by cases hclass _ hc
  have hcast : Expr.NoCastGroup ks := he.noCastGroup (List.all_eq_true.2 fun t ht => by
    rw [isCastWord_of_isFormulaToken (hclass t ht)]
    rfl)
  refine (evalText_of_kindsOf hkinds herrors).2 ?_
  rw [evalTokens, Expr.ofTokens?_of_denotes he hcast]
  exact heval env

end Formula

/-! ### Conditions -/

/-- A text without characters that begin a word is its own expansion. -/
theorem MacroTable.scan_of_no_words (t : MacroTable) (hidden : List HiddenMacro)
    (before : List Char) (budget : Nat) (failures : List (String × MacroError)) {cs : List Char}
    (h : cs.all (fun c => !isWordHead c) = true) :
    t.scan hidden before budget failures cs = ⟨before.reverse ++ cs, budget, failures⟩ := by
  match cs with
  | [] => rw [scan_nil, List.append_nil]
  | c :: r =>
    rw [List.all_cons, Bool.and_eq_true, Bool.not_eq_true'] at h
    have hother : (nextSegment c r).1 ≠ .ident := fun hident => by
      rw [isWordHead_of_ident hident] at h
      cases h.1
    rw [scan_other hother, scan_of_no_words t hidden _ budget failures (all_drop h.2 _)]
    simp only [List.reverse_append, List.reverse_reverse, List.append_assoc, List.cons_append,
      List.take_append_drop]
  termination_by cs.length
  decreasing_by exact length_drop_lt c r _

theorem Registry.expandText_of_no_words (r : Registry) (line : Nat) {cs : List Char}
    (h : cs.all (fun c => !isWordHead c) = true) : r.expandText [] line cs = (cs, []) := by
  have hexpand : r.macroTable.expand [] cs = ⟨cs, MacroTable.expansionLimit, []⟩ :=
    r.macroTable.scan_of_no_words _ _ _ _ h
  rw [expandText, hexpand]
  rfl

/-- **A formula over `defined` is a condition with its truth**, and nothing goes wrong. -/
theorem Registry.condition_formula (r : Registry) (line : Nat) {f : Formula} {cs g₁ g₂ : List Char}
    (hg₁ : g₁.all isLexSpace = true) (hg₂ : g₂.all isLexSpace = true)
    (h : f.Written Formula.DefinedText 0 cs) :
    r.condition line (g₁ ++ (cs ++ g₂)) = (f.holds r.isMacro, []) := by
  obtain ⟨ds, hds, hresolve⟩ := h.resolve r.isMacro
  have hgap : resolveDefined r.isMacro g₂ = g₂ := resolveSegments_blanks r.isMacro hg₂
  have hresolved : resolveDefined r.isMacro (g₁ ++ (cs ++ g₂)) = g₁ ++ (ds ++ g₂) := by
    rw [resolveDefined_gap r.isMacro hg₁, hresolve g₂ (Formula.head?_all_endsOperand_gap hg₂), hgap]
  have hwords : (g₁ ++ (ds ++ g₂)).all (fun c => !isWordHead c) = true := by
    rw [List.all_append, List.all_append, Formula.all_not_isWordHead_gap hg₁,
      Formula.all_not_isWordHead_gap hg₂, hds.all_not_isWordHead]
    rfl
  rw [condition, hresolved, r.expandText_of_no_words line hwords]
  dsimp only
  rw [hds.evalText_eq hg₁ hg₂]
  exact congrArg (·, []) (Value.isTruthy_ofBool _)

/-! ### Lines that open a group -/

theorem PreprocessState.report_nil (s : PreprocessState) : s.report [] = s := by
  rw [report, List.append_nil]

/-- The line opens a group with a formula as its condition: with `#if` before the formula, or with
`#ifdef` or `#ifndef` before a name. White space may stand around each word. -/
inductive Opening : Formula → List Char → Prop where
  /-- The keyword is whole: behind it stands white space, a parenthesis or a negation. -/
  | ifTrue {f : Formula} {cs g₀ g₁ g₂ g₃ : List Char} (hg₀ : g₀.all isLexSpace = true)
      (hg₁ : g₁.all isLexSpace = true) (hg₂ : g₂.all isLexSpace = true)
      (hg₃ : g₃.all isLexSpace = true) (hf : f.Written Formula.DefinedText 0 cs)
      (hends : (g₂ ++ (cs ++ g₃)).head?.any Char.isAlpha = false) :
      Opening f (g₀ ++ '#' :: (g₁ ++ ("if".toList ++ (g₂ ++ (cs ++ g₃)))))
  | ifdef {name : String} {g₀ g₁ g₂ g₃ : List Char} (hg₀ : g₀.all isLexSpace = true)
      (hg₁ : g₁.all isLexSpace = true) (hg₂ : g₂.all isLexSpace = true) (hne : g₂ ≠ [])
      (hg₃ : g₃.all isLexSpace = true) (hname : isIdentifier name.toList = true) :
      Opening (.defined name) (g₀ ++ '#' :: (g₁ ++ ("ifdef".toList ++ (g₂ ++ (name.toList ++ g₃)))))
  | ifndef {name : String} {g₀ g₁ g₂ g₃ : List Char} (hg₀ : g₀.all isLexSpace = true)
      (hg₁ : g₁.all isLexSpace = true) (hg₂ : g₂.all isLexSpace = true) (hne : g₂ ≠ [])
      (hg₃ : g₃.all isLexSpace = true) (hname : isIdentifier name.toList = true) :
      Opening (.not (.defined name))
        (g₀ ++ '#' :: (g₁ ++ ("ifndef".toList ++ (g₂ ++ (name.toList ++ g₃)))))

/-- The directive that a line with a keyword is. -/
theorem Directive.ofLine?_keyword {word : String} {g₀ g₁ r : List Char}
    (hg₀ : g₀.all isLexSpace = true) (hg₁ : g₁.all isLexSpace = true) (hne : word.toList ≠ [])
    (hword : word.toList.all Char.isAlpha = true) (hr : r.head?.any Char.isAlpha = false) :
    ofLine? (g₀ ++ '#' :: (g₁ ++ (word.toList ++ r))) = some ⟨.ofText word, r⟩ := by
  have hblank : trimStart (g₁ ++ (word.toList ++ r)) = word.toList ++ r := by
    obtain ⟨c, w, hw⟩ := List.exists_cons_of_ne_nil hne
    rw [hw, List.all_cons, Bool.and_eq_true] at hword
    have hhead : isWordHead c = true := by rw [isWordHead, hword.1, Bool.true_or]
    rw [hw, List.cons_append]
    exact trimStart_gap hg₁ (isBlank_of_isWordTail (isWordTail_of_isWordHead hhead)) _
  have hhash : afterHead? ['#'] ('#' :: (g₁ ++ (word.toList ++ r))) =
      some (g₁ ++ (word.toList ++ r)) := rfl
  rw [ofLine?, trimStart_gap hg₀ (by decide), hhash]
  dsimp only [Option.bind_eq_bind, Option.bind_some]
  rw [hblank, (takeWhile_append_eq hword hr).1, List.drop_left, String.ofList_toList]
  rfl

/-- The condition of the group that the line opens: a formula with white space around it. -/
theorem Opening.exists_lineRole {f : Formula} {text : List Char} (h : Opening f text) :
    ∃ g₁ cs g₂ : List Char, g₁.all isLexSpace = true ∧ g₂.all isLexSpace = true ∧
      f.Written Formula.DefinedText 0 cs ∧ lineRole text = .opens (g₁ ++ (cs ++ g₂)) := by
  have hparted : ∀ {g r : List Char}, g.all isLexSpace = true → g ≠ [] →
      (g ++ r).head?.any Char.isAlpha = false := by
    intro g r hg hne
    obtain ⟨c, g, rfl⟩ := List.exists_cons_of_ne_nil hne
    exact eq_false_of_isLexSpace (Bool.and_eq_true_iff.1 hg).1 Char.isAlpha (by decide)
  have hatom : ∀ {name : String} {g : List Char}, g.all isLexSpace = true →
      isIdentifier name.toList = true → (Formula.defined name).Written Formula.DefinedText 2
        ("defined".toList ++ (' ' :: g ++ name.toList)) := fun hg hname =>
    .atom ⟨hname, _, .bare (by rw [List.all_cons, hg]; rfl) (List.cons_ne_nil _ _), rfl⟩
  cases h with
  | @ifTrue _ cs g₀ g₁ g₂ g₃ hg₀ hg₁ hg₂ hg₃ hf hends =>
    refine ⟨g₂, cs, g₃, hg₂, hg₃, hf, ?_⟩
    rw [lineRole, Directive.ofLine?_keyword hg₀ hg₁ (by decide) (by decide) hends]
    rfl
  | @ifdef name g₀ g₁ g₂ g₃ hg₀ hg₁ hg₂ hne hg₃ hname =>
    refine ⟨[], _, g₃, rfl, hg₃, .weaken (by decide) (.weaken (by decide) (hatom hg₂ hname)), ?_⟩
    rw [lineRole, Directive.ofLine?_keyword hg₀ hg₁ (by decide) (by decide) (hparted hg₂ hne)]
    show LineRole.opens ("defined ".toList ++ (g₂ ++ (name.toList ++ g₃))) = _
    simp
  | @ifndef name g₀ g₁ g₂ g₃ hg₀ hg₁ hg₂ hne hg₃ hname =>
    refine ⟨[], _, g₃, rfl, hg₃,
      .weaken (by decide) (.weaken (by decide) (.not (g := []) rfl (hatom hg₂ hname))), ?_⟩
    rw [lineRole, Directive.ofLine?_keyword hg₀ hg₁ (by decide) (by decide) (hparted hg₂ hne)]
    show LineRole.opens ("!defined ".toList ++ (g₂ ++ (name.toList ++ g₃))) = _
    simp

/-- **A group that opens with a formula is decided by the names of the macros.** Where lines count,
the lines of its first branch count exactly if the formula holds of the macros in force, and nothing
but the conditional groups changes. -/
theorem line_opening {s : PreprocessState} (hs : s.conditions.isActive = true) {f : Formula}
    {text : List Char} (h : Opening f text) (file : String) (n : Nat) :
    s.line file n text =
        ({ s with conditions := s.conditions.pushIf (f.holds s.registry.isMacro) }, []) ∧
      (s.conditions.pushIf (f.holds s.registry.isMacro)).isActive = f.holds s.registry.isMacro := by
  obtain ⟨g₁, cs, g₂, hg₁, hg₂, hf, hrole⟩ := h.exists_lineRole
  have hpush : s.conditions.pushIf (f.holds s.registry.isMacro) =
      ⟨⟨f.holds s.registry.isMacro, f.holds s.registry.isMacro⟩ :: s.conditions.groups⟩ := by
    rw [ConditionStack.pushIf, ConditionStack.opensLive, hs, Bool.true_and]
  rw [PreprocessState.line_eq_of_role, hrole]
  dsimp only
  rw [PreprocessState.openGroup_of_active hs, s.registry.condition_formula n hg₁ hg₂ hf,
    PreprocessState.report_nil, hpush]
  exact ⟨rfl, rfl⟩

/-- A registry with macros whose bodies are no conditions. One is called `defined`, and the word
scanner cuts the name of another in three. -/
def oddMacros : Registry :=
  ((Registry.empty.insert none "A" ⟨.macros, "0 == (\"defined B"⟩).insert none "defined"
    ⟨.macros, "0"⟩).insert none "x$1y" ⟨.fnmacros, .ofContent [] "!" false⟩

/-- The formula `!(defined B && defined A) && defined x$1y || defined defined`. -/
def oddFormula : Formula :=
  .or (.and (.not (.and (.defined "B") (.defined "A"))) (.defined "x$1y")) (.defined "defined")

/-- The formula as a condition, with tabs and without some of the spaces. -/
def oddLine : List Char :=
  "#\tif!( defined B&&defined\t(A ))&&\tdefined x$1y||defined defined ".toList

theorem opening_oddLine : Opening oddFormula oddLine := by
  have hnone : ([] : List Char).all isLexSpace = true := rfl
  have hspace : [' '].all isLexSpace = true := rfl
  have htab : ['\t'].all isLexSpace = true := rfl
  have hbare : ∀ name : String, isIdentifier name.toList = true →
      Formula.DefinedText name ("defined".toList ++ ([' '] ++ name.toList)) :=
    fun name hname => ⟨hname, _, .bare hspace (by decide), rfl⟩
  have hgroup : Formula.DefinedText "A" "defined\t(A )".toList :=
    ⟨rfl, "\t(A )".toList, .group htab hnone hspace, rfl⟩
  have hboth := Formula.Written.and hnone hnone (.weaken (by decide) (.atom (hbare "B" rfl)))
    (.atom hgroup)
  have hnot := Formula.Written.not hnone (.group hspace hnone (.weaken (by decide) hboth))
  have hand := Formula.Written.and hnone htab (.weaken (by decide) hnot)
    (.atom (hbare "x$1y" rfl))
  have hor := Formula.Written.or hnone hnone (.weaken (by decide) hand)
    (.weaken (by decide) (.atom (hbare "defined" rfl)))
  exact .ifTrue hnone htab hnone hspace hor rfl

theorem line_oddLine :
    ConditionStack.empty.isActive = true ∧ Opening oddFormula oddLine ∧
      PreprocessState.line { registry := oddMacros } "a.h" 7 oddLine =
        ({ registry := oddMacros, conditions := ⟨[⟨true, true⟩]⟩ }, []) := by
  have hline := (line_opening (s := { registry := oddMacros }) rfl opening_oddLine "a.h" 7).1
  have hholds : oddFormula.holds oddMacros.isMacro = true := by decide
  refine ⟨rfl, opening_oddLine, hline.trans ?_⟩
  dsimp only
  rw [hholds]
  rfl

/-- The lines of such a group, where every group around it counts: those of its first branch are
read if the formula holds, and otherwise its further branches are gone through. -/
theorem lines_opening {s : PreprocessState} (hs : s.conditions.allActive = true) {f : Formula}
    {opening : List Char} (h : Opening f opening) (file : String) (n : Nat) (body : Block)
    (others : Branches) :
    s.lines file n (opening :: (body.lines ++ others.lines)) =
      if f.holds s.registry.isMacro then
        let inside := body.read file (n + 1) s
        (inside.1, [] :: (inside.2 ++ blankLines others.lines))
      else
        let other := others.read file (n + 1 + body.lines.length) s
        (other.1, [] :: (blankLines body.lines ++ other.2)) := by
  obtain ⟨g₁, cs, g₂, hg₁, hg₂, hf, hrole⟩ := h.exists_lineRole
  have hactive := ConditionStack.isActive_of_allActive hs
  have hread :=
    lines_read file (.group opening _ hrole body others .nil) s n s.conditions hactive hs
  have hgroups := conditions_read file (.group opening _ hrole body others .nil) s n hactive
  rw [PreprocessState.inGroups_of_eq rfl, PreprocessState.inGroups_of_eq hgroups] at hread
  simp only [Block.lines, List.append_nil] at hread
  rw [hread]
  simp only [Block.read, s.registry.condition_formula n hg₁ hg₂ hf, PreprocessState.report_nil,
    List.append_nil]
  split <;> rfl

end CInterface
