import CInterface.Expr.Parser
/-!
# Derivations of expressions

The levels of the expression grammar as rules, without the fuel that the functions count down.

* `Expr.Part` — what can be read: a conditional, an operand of a level, the operators of a level
  that follow an operand, or an operand of the operators with one operand.
* `Expr.Parses` — the rules by which a part is read from the head of some tokens.
* `Expr.Parses.exists_balanced` — the tokens of a part have balanced parentheses.
* `Expr.parses_of_read`, `Expr.read_of_parses` — the functions read what the rules derive, and all
  of it as soon as there is fuel for sixteen calls for each token and for the levels.
* `Expr.ofTokens?_eq_ok_iff` — the tree of an expression is the one that is derived for its tokens.
-/

namespace CInterface

namespace BinaryOp

theorem atLevel?_eq_some {level : Nat} {p : Punct} {op : BinaryOp}
    (h : atLevel? level p = some op) : op.level = level ∧ op.punct = p := by
  simpa using List.find?_some h

theorem atLevel?_punct (op : BinaryOp) : atLevel? op.level op.punct = some op := by
  cases op <;> decide

theorem level_lt (op : BinaryOp) : op.level < levels := by
  cases op <;> decide

theorem punct_injective {op op' : BinaryOp} (h : op.punct = op'.punct) : op = op' := by
  cases op <;> cases op' <;> first | rfl | cases h

end BinaryOp

namespace Expr

/-! ### The rules -/

/-- What can be read from the head of some tokens. -/
inductive Part where
  | conditional
  | operand (level : Nat)
  | operators (level : Nat) (left : Expr)
  | unary

/-- Reads a part. -/
def Scope.read (g : Scope) (fuel : Nat) : Part → List TokenKind → Reading
  | .conditional, ts => g.conditional fuel ts
  | .operand level, ts => g.operand fuel level ts
  | .operators level left, ts => g.operators fuel level left ts
  | .unary, ts => g.unary fuel ts

/-- The part is read from the head of `ts`: the tree is `e`, and the tokens `rest` are behind it.
The number of all tokens matters for errors alone, and is left at zero here. -/
inductive Parses (known : String → Bool) :
    Part → List TokenKind → Expr → List TokenKind → Prop where
  /-- A test without branches. -/
  | test {ts rest : List TokenKind} {e : Expr} (h : Parses known (.operand 0) ts e rest)
      (hend : rest.head? ≠ some (.punct .question)) : Parses known .conditional ts e rest
  /-- A test with its branches. -/
  | choice {ts us vs rest : List TokenKind} {c t f : Expr}
      (hc : Parses known (.operand 0) ts c (.punct .question :: us))
      (ht : Parses known .conditional us t (.punct .colon :: vs))
      (hf : Parses known .conditional vs f rest) :
      Parses known .conditional ts (.conditional c t f) rest
  /-- Below the last level are the operators with one operand. -/
  | bottom {ts rest : List TokenKind} {e : Expr} (h : Parses known .unary ts e rest) :
      Parses known (.operand BinaryOp.levels) ts e rest
  /-- An operand of the next level, and what follows it on this one. -/
  | level {level : Nat} {ts us rest : List TokenKind} {a e : Expr}
      (hlevel : level ≠ BinaryOp.levels) (ha : Parses known (.operand (level + 1)) ts a us)
      (h : Parses known (.operators level a) us e rest) : Parses known (.operand level) ts e rest
  /-- No operator of the level follows. -/
  | stop {level : Nat} {a : Expr} {ts : List TokenKind} (h : binaryOp? level ts = none) :
      Parses known (.operators level a) ts a ts
  /-- An operator follows, and its right operand is an operand of the next level. -/
  | step {level : Nat} {a b e : Expr} {op : BinaryOp} {ts us vs rest : List TokenKind}
      (hop : binaryOp? level ts = some (op, us)) (hb : Parses known (.operand (level + 1)) us b vs)
      (h : Parses known (.operators level (.binary op a b)) vs e rest) :
      Parses known (.operators level a) ts e rest
  /-- A cast is passed over. -/
  | cast {ts us rest : List TokenKind} {e : Expr} (hcast : castEnd? ⟨known, 0⟩ ts = some us)
      (h : Parses known .unary us e rest) : Parses known .unary (.punct .lparen :: ts) e rest
  /-- An expression in parentheses. -/
  | group {ts rest : List TokenKind} {e : Expr} (hcast : castEnd? ⟨known, 0⟩ ts = none)
      (h : Parses known .conditional ts e (.punct .rparen :: rest)) :
      Parses known .unary (.punct .lparen :: ts) e rest
  /-- An operator with one operand. -/
  | sign {t : TokenKind} {op : UnaryOp} {ts rest : List TokenKind} {e : Expr}
      (hop : unaryOp? t = some op) (h : Parses known .unary ts e rest) :
      Parses known .unary (t :: ts) (.unary op e) rest
  /-- A literal or a name. -/
  | atom {t : TokenKind} {ts rest : List TokenKind} {e : Expr} (hparen : t ≠ .punct .lparen)
      (hop : unaryOp? t = none) (h : Scope.atom ⟨known, 0⟩ (t :: ts) = .ok (e, rest)) :
      Parses known .unary (t :: ts) e rest

variable {known : String → Bool} {g : Scope} {ts us rest : List TokenKind} {e : Expr} {part : Part}

/-! ### Single tokens -/

theorem unaryOp?_eq_some_iff {t : TokenKind} {op : UnaryOp} :
    unaryOp? t = some op ↔ t = .punct op.punct := by
  refine ⟨fun h => ?_, fun h => ?_⟩
  · cases t with
    | punct p => cases p <;> cases h <;> rfl
    | _ => cases h
  · rw [h]
    cases op <;> rfl

theorem binaryOp?_eq_some_iff {level : Nat} {op : BinaryOp} :
    binaryOp? level ts = some (op, us) ↔ ts = .punct op.punct :: us ∧ op.level = level := by
  refine ⟨fun h => ?_, fun ⟨hts, hlevel⟩ => ?_⟩
  · cases ts with
    | nil => cases h
    | cons t ts =>
      cases t with
      | punct p =>
        obtain ⟨op', hfound, hop'⟩ := Option.map_eq_some_iff.1 h
        cases hop'
        obtain ⟨hlevel, rfl⟩ := BinaryOp.atLevel?_eq_some hfound
        exact ⟨rfl, hlevel⟩
      | _ => cases h
  · rw [hts, ← hlevel, binaryOp?, op.atLevel?_punct]
    rfl

theorem binaryOp?_eq_none {level : Nat}
    (h : ∀ op : BinaryOp, op.level = level → ts.head? ≠ some (.punct op.punct)) :
    binaryOp? level ts = none := by
  cases hop : binaryOp? level ts with
  | none => rfl
  | some x =>
    obtain ⟨hts, hlevel⟩ := binaryOp?_eq_some_iff.1 hop
    exact absurd (congrArg List.head? hts) (h x.1 hlevel)

theorem bind_eq_ok {ε α β : Type} {x : Except ε α} {f : α → Except ε β} {b : β}
    (h : (x >>= f) = .ok b) : ∃ a, x = .ok a ∧ f a = .ok b := by
  cases x with
  | error e => cases h
  | ok a => exact ⟨a, rfl, h⟩

theorem Scope.expect_eq_ok {p : Punct} (h : g.expect p ts = .ok rest) : ts = .punct p :: rest := by
  unfold Scope.expect at h
  split at h
  · rename_i q r
    by_cases hq : p = q
    · rw [if_pos hq] at h
      cases h
      rw [hq]
    · rw [if_neg hq] at h
      cases h
  · cases h

theorem Scope.expect_self (g : Scope) (p : Punct) (rest : List TokenKind) :
    g.expect p (.punct p :: rest) = .ok rest := by
  rw [Scope.expect, if_pos rfl]

/-- What a literal or a name is does not depend on the number of tokens. -/
theorem Scope.atom_eq_ok {g' : Scope} (h : g.atom ts = .ok (e, rest)) :
    g'.atom ts = .ok (e, rest) := by
  unfold Scope.atom at h ⊢
  split at h <;> first | exact h | cases h

/-- A token that is no bracket and no comma. -/
def isPlainToken : TokenKind → Bool
  | .punct p => !(p.isOpen || p.isClose || p = .comma)
  | _ => true

theorem joinStrings_split (ts : List TokenKind) :
    ∃ used, ts = used ++ (joinStrings ts).2 ∧ used.all isPlainToken = true := by
  induction ts with
  | nil => exact ⟨[], rfl, rfl⟩
  | cons t ts ih =>
    cases t with
    | str text =>
      obtain ⟨used, hused, hplain⟩ := ih
      exact ⟨.str text :: used, congrArg (.str text :: ·) hused, hplain⟩
    | _ => exact ⟨[], rfl, rfl⟩

/-- A literal or a name takes its token, and the string literals behind it if it is one. -/
theorem Scope.atom_split {t : TokenKind} (h : g.atom (t :: ts) = .ok (e, rest)) :
    ∃ used, ts = used ++ rest ∧ (t :: used).all isPlainToken = true := by
  cases t with
  | integer text =>
    simp only [Scope.atom] at h
    cases hn : Literal.integer? text.toList with
    | none => rw [hn] at h; cases h
    | some n => rw [hn] at h; cases h; exact ⟨[], rfl, rfl⟩
  | float text =>
    simp only [Scope.atom] at h
    cases hx : Literal.float? text.toList with
    | none => rw [hx] at h; cases h
    | some x => rw [hx] at h; cases h; exact ⟨[], rfl, rfl⟩
  | char text => cases h; exact ⟨[], rfl, rfl⟩
  | str text => cases h; exact joinStrings_split ts
  | ident n =>
    simp only [Scope.atom] at h
    split at h
    · cases h
    · split at h
      · cases h
      · cases h; exact ⟨[], rfl, rfl⟩
  | punct p => cases h
  | error c => cases h

theorem unaryOp?_ne_lparen {t : TokenKind} {op : UnaryOp} (h : unaryOp? t = some op) :
    t ≠ .punct .lparen := by
  intro ht
  rw [ht] at h
  cases h

/-- The punctuator of an operator stands for it on its own level only. -/
theorem binaryOp?_punct_of_ne {level : Nat} {op : BinaryOp} (h : op.level ≠ level)
    (ts : List TokenKind) : binaryOp? level (.punct op.punct :: ts) = none :=
  binaryOp?_eq_none fun op' hlevel hhead => h (by
    rw [BinaryOp.punct_injective (TokenKind.punct.inj (Option.some_inj.1 hhead)), hlevel])

/-! ### Casts -/

/-- Tokens in parentheses. -/
def inParens (ts : List TokenKind) : List TokenKind :=
  .punct .lparen :: (ts ++ [.punct .rparen])

theorem inParens_append (ts us : List TokenKind) :
    inParens ts ++ us = .punct .lparen :: (ts ++ .punct .rparen :: us) := by
  simp [inParens]

/-- Words and stars that name a type: there is a word among them, and they are not just one word
that has a value. -/
def Scope.namesType (g : Scope) (inside : List TokenKind) : Bool :=
  (inside.any fun
    | .ident _ => true
    | _ => false) &&
  !(match inside with
    | [.ident word] => g.known word
    | _ => false)

/-- The operand of a cast with some words and stars, before the tokens that follow these. -/
def Scope.castOperand? (g : Scope) (inside : List TokenKind) :
    List TokenKind → Option (List TokenKind)
  | .punct .rparen :: operand :: rest =>
    if g.namesType inside && startsOperand operand then some (operand :: rest) else none
  | _ => none

/-- Words and stars at the head of some tokens, and what stands behind them. -/
theorem exists_castWords (ts : List TokenKind) :
    ∃ inside tail, ts = inside ++ tail ∧ inside.all isCastWord = true ∧
      ∀ t, tail.head? = some t → isCastWord t = false := by
  induction ts with
  | nil => exact ⟨[], [], rfl, rfl, by simp⟩
  | cons t ts ih =>
    by_cases ht : isCastWord t = true
    · obtain ⟨inside, tail, rfl, hinside, htail⟩ := ih
      exact ⟨t :: inside, tail, rfl, by rw [List.all_cons, ht, hinside]; rfl, htail⟩
    · refine ⟨[], t :: ts, rfl, rfl, fun u hu => ?_⟩
      cases hu
      simpa using ht

/-- Whether a parenthesis opens a cast is said by what stands behind the words and stars that follow
it. -/
theorem castEnd?_append {inside tail : List TokenKind} (hinside : inside.all isCastWord = true)
    (htail : ∀ t, tail.head? = some t → isCastWord t = false) :
    castEnd? g (inside ++ tail) = g.castOperand? inside tail := by
  have hrun : (inside ++ tail).takeWhile isCastWord = inside := by
    rw [List.takeWhile_append_of_pos (List.all_eq_true.1 hinside)]
    cases tail with
    | nil => simp
    | cons t tail => simp [htail t rfl]
  unfold castEnd? Scope.castOperand?
  simp only [hrun, List.drop_left]
  rfl

theorem castEnd?_eq_none_of_ne {inside tail : List TokenKind}
    (hinside : inside.all isCastWord = true)
    (htail : ∀ t, tail.head? = some t → isCastWord t = false)
    (hclose : tail.head? ≠ some (.punct .rparen)) : castEnd? g (inside ++ tail) = none := by
  rw [castEnd?_append hinside htail, Scope.castOperand?]
  intro operand rest htail
  exact hclose (congrArg List.head? htail)

/-- A cast is words and stars up to a closing parenthesis, with an operand behind it. -/
theorem castEnd?_eq_some (h : castEnd? g ts = some us) :
    ∃ inside, ts = inside ++ .punct .rparen :: us ∧ inside.all isCastWord = true := by
  obtain ⟨inside, tail, rfl, hinside, htail⟩ := exists_castWords ts
  rw [castEnd?_append hinside htail] at h
  unfold Scope.castOperand? at h
  split at h
  · split at h
    · cases h
      exact ⟨inside, rfl, hinside⟩
    · cases h
  · cases h

/-! ### What is taken and what is left -/

/-- Every parenthesis has its partner, and there is no other bracket and no comma. -/
inductive Balanced : List TokenKind → Prop where
  | nil : Balanced []
  | cons {t : TokenKind} {ts : List TokenKind} (ht : isPlainToken t = true) (h : Balanced ts) :
      Balanced (t :: ts)
  | group {ts us : List TokenKind} (hinside : Balanced ts) (h : Balanced us) :
      Balanced (.punct .lparen :: (ts ++ .punct .rparen :: us))

theorem Balanced.append (h : Balanced ts) (hus : Balanced us) : Balanced (ts ++ us) := by
  induction h with
  | nil => exact hus
  | cons ht h ih => exact .cons ht ih
  | group hinside h ihinside ih =>
    rw [List.cons_append, List.append_assoc]
    exact .group hinside ih

theorem Balanced.of_all (h : ts.all isPlainToken = true) : Balanced ts := by
  induction ts with
  | nil => exact .nil
  | cons t ts ih =>
    obtain ⟨ht, hts⟩ := Bool.and_eq_true_iff.1 h
    exact .cons ht (ih hts)

theorem isPlainToken_of_isCastWord {t : TokenKind} (h : isCastWord t = true) :
    isPlainToken t = true := by
  cases t with
  | punct p => cases p <;> first | rfl | cases h
  | _ => rfl

theorem all_isPlainToken (h : ts.all isCastWord = true) : ts.all isPlainToken = true :=
  List.all_eq_true.2 fun t ht => isPlainToken_of_isCastWord (List.all_eq_true.1 h t ht)

theorem isPlainToken_unaryPunct (op : UnaryOp) : isPlainToken (.punct op.punct) = true := by
  cases op <;> rfl

theorem isPlainToken_binaryPunct (op : BinaryOp) : isPlainToken (.punct op.punct) = true := by
  cases op <;> rfl

/-- The tokens of a part are balanced, and stand before those that are left. -/
theorem Parses.exists_balanced (h : Parses known part ts e rest) :
    ∃ used, ts = used ++ rest ∧ Balanced used := by
  induction h with
  | test h hend ih => exact ih
  | choice hc ht hf ihc iht ihf =>
    obtain ⟨cs, rfl, hcs⟩ := ihc
    obtain ⟨us, rfl, hus⟩ := iht
    obtain ⟨vs, rfl, hvs⟩ := ihf
    refine ⟨cs ++ .punct .question :: (us ++ .punct .colon :: vs), by simp, ?_⟩
    exact hcs.append (.cons rfl (hus.append (.cons rfl hvs)))
  | bottom h ih => exact ih
  | level hlevel ha h iha ih =>
    obtain ⟨us, rfl, hus⟩ := iha
    obtain ⟨vs, rfl, hvs⟩ := ih
    exact ⟨us ++ vs, (List.append_assoc _ _ _).symm, hus.append hvs⟩
  | stop h => exact ⟨[], rfl, .nil⟩
  | @step level a b e op ts us vs rest hop hb h ihb ih =>
    obtain ⟨rfl, -⟩ := binaryOp?_eq_some_iff.1 hop
    obtain ⟨us, rfl, hus⟩ := ihb
    obtain ⟨vs, rfl, hvs⟩ := ih
    refine ⟨.punct op.punct :: (us ++ vs), by simp, ?_⟩
    exact .cons (isPlainToken_binaryPunct op) (hus.append hvs)
  | cast hcast h ih =>
    obtain ⟨inside, rfl, hinside⟩ := castEnd?_eq_some hcast
    obtain ⟨us, rfl, hus⟩ := ih
    refine ⟨.punct .lparen :: (inside ++ .punct .rparen :: us), by simp, ?_⟩
    exact .group (.of_all (all_isPlainToken hinside)) hus
  | group hcast h ih =>
    obtain ⟨us, rfl, hus⟩ := ih
    exact ⟨.punct .lparen :: (us ++ [.punct .rparen]), by simp, .group hus .nil⟩
  | @sign t op ts rest e hop h ih =>
    obtain ⟨us, rfl, hus⟩ := ih
    obtain rfl := unaryOp?_eq_some_iff.1 hop
    exact ⟨.punct op.punct :: us, rfl, .cons (isPlainToken_unaryPunct op) hus⟩
  | @atom t ts rest e hparen hop h =>
    obtain ⟨us, rfl, hus⟩ := Scope.atom_split h
    exact ⟨t :: us, rfl, .of_all hus⟩

theorem Parses.suffix (h : Parses known part ts e rest) : rest <:+ ts := by
  obtain ⟨used, rfl, -⟩ := h.exists_balanced
  exact List.suffix_append used rest

/-- The part takes at least one token. -/
def Part.consumes : Part → Bool
  | .operators _ _ => false
  | _ => true

/-- Every part but the operators of a level takes a token. -/
theorem Parses.length_lt (h : Parses known part ts e rest) (hpart : part.consumes = true) :
    rest.length < ts.length := by
  induction h with
  | test h hend ih => exact ih rfl
  | choice hc ht hf ihc iht ihf =>
    have hc := ihc rfl
    have ht := iht rfl
    have hf := ihf rfl
    simp only [List.length_cons] at hc ht
    omega
  | bottom h ih => exact ih rfl
  | level hlevel ha h iha ih => exact Nat.lt_of_le_of_lt h.suffix.length_le (iha rfl)
  | stop h => cases hpart
  | step hop hb h ihb ih => cases hpart
  | cast hcast h ih =>
    obtain ⟨inside, rfl, -⟩ := castEnd?_eq_some hcast
    have hlt := ih rfl
    simp only [List.length_cons, List.length_append]
    omega
  | group hcast h ih =>
    have hlt := ih rfl
    simp only [List.length_cons] at hlt ⊢
    omega
  | sign hop h ih => exact Nat.lt_succ_of_lt (ih rfl)
  | atom hparen hop h =>
    obtain ⟨used, rfl, -⟩ := Scope.atom_split h
    rw [List.length_cons, List.length_append]
    omega

/-! ### Single calls -/

theorem Scope.conditional_of_ne {fuel : Nat} (h : g.operand fuel 0 ts = .ok (e, rest))
    (hend : rest.head? ≠ some (.punct .question)) :
    g.conditional (fuel + 1) ts = .ok (e, rest) := by
  rw [Scope.conditional, h]
  simp only [bind, Except.bind]
  split
  · exact absurd rfl hend
  · rfl

theorem Scope.conditional_of_question {fuel : Nat} {c t f : Expr} {vs : List TokenKind}
    (hc : g.operand fuel 0 ts = .ok (c, .punct .question :: us))
    (ht : g.conditional fuel us = .ok (t, .punct .colon :: vs))
    (hf : g.conditional fuel vs = .ok (f, rest)) :
    g.conditional (fuel + 1) ts = .ok (.conditional c t f, rest) := by
  rw [Scope.conditional, hc]
  show (g.conditional fuel us >>= fun p => g.expect .colon p.2 >>= fun ws =>
    g.conditional fuel ws >>= fun q => .ok (Expr.conditional c p.1 q.1, q.2)) = _
  simp only [ht, hf, g.expect_self, bind, Except.bind]

theorem Scope.operand_of_ne (g : Scope) (fuel : Nat) {level : Nat} (ts : List TokenKind)
    (h : level ≠ BinaryOp.levels) :
    g.operand (fuel + 1) level ts =
      g.operand fuel (level + 1) ts >>= fun p => g.operators fuel level p.1 p.2 := by
  rw [Scope.operand, if_neg h]

theorem Scope.operators_of_none (g : Scope) (fuel : Nat) {level : Nat} (left : Expr)
    (h : binaryOp? level ts = none) : g.operators (fuel + 1) level left ts = .ok (left, ts) := by
  rw [Scope.operators, h]

theorem Scope.operators_of_some (g : Scope) (fuel : Nat) {level : Nat} {op : BinaryOp}
    (left : Expr) (h : binaryOp? level ts = some (op, us)) :
    g.operators (fuel + 1) level left ts =
      g.operand fuel (level + 1) us >>= fun p =>
        g.operators fuel level (.binary op left p.1) p.2 := by
  rw [Scope.operators, h]

theorem Scope.unary_cast (g : Scope) (fuel : Nat) (h : castEnd? g ts = some us) :
    g.unary (fuel + 1) (.punct .lparen :: ts) = g.unary fuel us := by
  simp only [Scope.unary, h]

theorem Scope.unary_group (g : Scope) (fuel : Nat) (h : castEnd? g ts = none) :
    g.unary (fuel + 1) (.punct .lparen :: ts) =
      g.conditional fuel ts >>= fun p => g.expect .rparen p.2 >>= fun rest => .ok (p.1, rest) := by
  simp only [Scope.unary, h]
  rfl

theorem Scope.unary_sign (g : Scope) (fuel : Nat) {t : TokenKind} {op : UnaryOp}
    (ts : List TokenKind) (h : unaryOp? t = some op) :
    g.unary (fuel + 1) (t :: ts) = g.unary fuel ts >>= fun p => .ok (.unary op p.1, p.2) := by
  have hparen := unaryOp?_ne_lparen h
  rw [Scope.unary, h]
  · rfl
  · exact hparen

theorem Scope.unary_atom (g : Scope) (fuel : Nat) {t : TokenKind} (ts : List TokenKind)
    (hparen : t ≠ .punct .lparen) (h : unaryOp? t = none) :
    g.unary (fuel + 1) (t :: ts) = g.atom (t :: ts) := by
  simp only [Scope.unary, h]

/-! ### Reading and deriving -/

/-- What is read is derived. -/
theorem parses_of_read (fuel : Nat) (part : Part) (ts : List TokenKind) (e : Expr)
    (rest : List TokenKind) (h : g.read fuel part ts = .ok (e, rest)) :
    Parses g.known part ts e rest := by
  induction fuel generalizing part ts e rest with
  | zero => cases part <;> cases h
  | succ fuel ih =>
    cases part with
    | conditional =>
      obtain ⟨⟨c, us⟩, hc, h⟩ := bind_eq_ok (show (g.operand fuel 0 ts >>= _) = _ from h)
      have hc := ih (.operand 0) ts c us hc
      dsimp only at h
      split at h
      · obtain ⟨⟨t, vs⟩, ht, h⟩ := bind_eq_ok h
        obtain ⟨ws, hcolon, h⟩ := bind_eq_ok h
        obtain ⟨⟨f, rest'⟩, hf, h⟩ := bind_eq_ok h
        cases h
        have hvs : vs = .punct .colon :: ws := Scope.expect_eq_ok hcolon
        subst hvs
        exact .choice hc (ih .conditional _ t _ ht) (ih .conditional ws f _ hf)
      · rename_i hquestion
        cases h
        refine .test hc fun hhead => ?_
        cases rest with
        | nil => cases hhead
        | cons r rest =>
          cases hhead
          exact hquestion rest rfl
    | operand level =>
      by_cases hlevel : level = BinaryOp.levels
      · subst hlevel
        exact .bottom (ih .unary ts e rest h)
      · have h : g.operand (fuel + 1) level ts = _ := h
        rw [g.operand_of_ne fuel ts hlevel] at h
        obtain ⟨⟨a, us⟩, ha, h⟩ := bind_eq_ok h
        exact .level hlevel (ih (.operand (level + 1)) ts a us ha)
          (ih (.operators level a) us e rest h)
    | operators level left =>
      have h : g.operators (fuel + 1) level left ts = _ := h
      cases hop : binaryOp? level ts with
      | none =>
        rw [g.operators_of_none fuel left hop] at h
        cases h
        exact .stop hop
      | some x =>
        obtain ⟨op, us⟩ := x
        rw [g.operators_of_some fuel left hop] at h
        obtain ⟨⟨b, vs⟩, hb, h⟩ := bind_eq_ok h
        exact .step hop (ih (.operand (level + 1)) us b vs hb)
          (ih (.operators level (.binary op left b)) vs e rest h)
    | unary =>
      have h : g.unary (fuel + 1) ts = _ := h
      cases ts with
      | nil => cases h
      | cons t us =>
        by_cases hparen : t = .punct .lparen
        · subst hparen
          cases hcast : castEnd? g us with
          | some operand =>
            rw [g.unary_cast fuel hcast] at h
            exact .cast hcast (ih .unary operand e rest h)
          | none =>
            rw [g.unary_group fuel hcast] at h
            obtain ⟨⟨a, vs⟩, ha, h⟩ := bind_eq_ok h
            obtain ⟨ws, hclose, h⟩ := bind_eq_ok h
            have hvs : vs = .punct .rparen :: ws := Scope.expect_eq_ok hclose
            subst hvs
            cases h
            exact .group hcast (ih .conditional us a _ ha)
        · cases hop : unaryOp? t with
          | some op =>
            rw [g.unary_sign fuel us hop] at h
            obtain ⟨⟨a, vs⟩, ha, h⟩ := bind_eq_ok h
            cases h
            exact .sign hop (ih .unary us _ _ ha)
          | none =>
            rw [g.unary_atom fuel us hparen hop] at h
            exact .atom hparen hop (Scope.atom_eq_ok h)

/-- The calls that a part makes before it takes a token. -/
def Part.calls : Part → Nat
  | .conditional => BinaryOp.levels + 3
  | .operand level => BinaryOp.levels + 2 - level
  | .operators _ _ => 1
  | .unary => 1

theorem Parses.level_le (h : Parses known part ts e rest) {level : Nat}
    (hpart : part = .operand level) : level ≤ BinaryOp.levels := by
  induction h generalizing level with
  | bottom h ih =>
    cases hpart
    exact Nat.le_refl _
  | level hlevel ha h iha ih =>
    cases hpart
    exact Nat.le_of_succ_le (iha rfl)
  | _ => cases hpart

/-- What is read at a level is read at the looser ones, if none of their operators follows. -/
theorem Parses.lower {m l : Nat} (h : Parses known (.operand l) ts e rest) (hml : m ≤ l)
    (hnone : ∀ j, m ≤ j → j < l → binaryOp? j rest = none) :
    Parses known (.operand m) ts e rest := by
  induction l with
  | zero =>
    obtain rfl : m = 0 := Nat.le_zero.1 hml
    exact h
  | succ l ih =>
    by_cases hm : m = l + 1
    · rw [hm]
      exact h
    · have hlevel : l ≠ BinaryOp.levels := Nat.ne_of_lt (h.level_le rfl)
      have hstop := hnone l (by omega) (Nat.lt_succ_self l)
      exact ih (.level hlevel h (.stop hstop)) (by omega) fun j hj hjl => hnone j hj (by omega)

/-- The fuel is enough for sixteen calls for each token that is taken, and for those before the
first token. -/
def Part.Fuelled (part : Part) (ts rest : List TokenKind) (fuel : Nat) : Prop :=
  16 * ts.length + part.calls ≤ 16 * rest.length + fuel

theorem Parses.fuel_pos (h : Parses known part ts e rest) {fuel : Nat}
    (hfuel : part.Fuelled ts rest fuel) : ∃ n, fuel = n + 1 := by
  have hle := h.suffix.length_le
  have hcalls : 0 < part.calls := by
    cases part with
    | operand level =>
      have hlevel := h.level_le rfl
      simp only [Part.calls]
      omega
    | _ => exact Nat.succ_pos _
  cases fuel with
  | zero =>
    unfold Part.Fuelled at hfuel
    omega
  | succ n => exact ⟨n, rfl⟩

/-- What is derived is read, as soon as there is enough fuel: every call passes on what is left of
it. -/
theorem read_of_parses (h : Parses known part ts e rest) (hknown : g.known = known) (fuel : Nat)
    (hfuel : part.Fuelled ts rest fuel) : g.read fuel part ts = .ok (e, rest) := by
  induction h generalizing fuel with
  | @test ts rest e h hend ih =>
    obtain ⟨fuel, rfl⟩ := (Parses.test h hend).fuel_pos hfuel
    exact Scope.conditional_of_ne (ih fuel (Nat.le_of_succ_le_succ hfuel)) hend
  | @choice ts us vs rest c t f hc ht hf ihc iht ihf =>
    obtain ⟨fuel, rfl⟩ := (Parses.choice hc ht hf).fuel_pos hfuel
    have hct := hc.length_lt rfl
    have htf := ht.length_lt rfl
    have hfr := hf.suffix.length_le
    simp only [Part.Fuelled, Part.calls, BinaryOp.levels, List.length_cons] at hfuel hct htf
    refine Scope.conditional_of_question (ihc fuel ?_) (iht fuel ?_) (ihf fuel ?_) <;>
      simp only [Part.Fuelled, Part.calls, BinaryOp.levels, List.length_cons] <;> omega
  | @bottom ts rest e h ih =>
    obtain ⟨fuel, rfl⟩ := (Parses.bottom h).fuel_pos hfuel
    exact ih fuel (Nat.le_of_succ_le_succ hfuel)
  | @level level ts us rest a e hlevel ha h iha ih =>
    obtain ⟨fuel, rfl⟩ := (Parses.level hlevel ha h).fuel_pos hfuel
    have hau := ha.length_lt rfl
    have hle := h.suffix.length_le
    have hlevels := ha.level_le rfl
    simp only [Part.Fuelled, Part.calls, BinaryOp.levels] at hfuel hlevels
    have hleft : g.operand fuel (level + 1) ts = .ok (a, us) := by
      refine iha fuel ?_
      simp only [Part.Fuelled, Part.calls, BinaryOp.levels]
      omega
    show g.operand (fuel + 1) level ts = _
    rw [g.operand_of_ne fuel ts hlevel, hleft]
    refine ih fuel ?_
    simp only [Part.Fuelled, Part.calls]
    omega
  | @stop level a ts h =>
    have hstop : Parses known (.operators level a) ts a ts := .stop h
    obtain ⟨fuel, rfl⟩ := hstop.fuel_pos hfuel
    exact g.operators_of_none fuel a h
  | @step level a b e op ts us vs rest hop hb h ihb ih =>
    obtain ⟨fuel, rfl⟩ := (Parses.step hop hb h).fuel_pos hfuel
    have hvs := hb.length_lt rfl
    have hrest := h.suffix.length_le
    have hts : ts.length = us.length + 1 := by
      rw [(binaryOp?_eq_some_iff.1 hop).1, List.length_cons]
    simp only [Part.Fuelled, Part.calls] at hfuel
    have hright : g.operand fuel (level + 1) us = .ok (b, vs) := by
      refine ihb fuel ?_
      simp only [Part.Fuelled, Part.calls, BinaryOp.levels]
      omega
    show g.operators (fuel + 1) level a ts = _
    rw [g.operators_of_some fuel a hop, hright]
    refine ih fuel ?_
    simp only [Part.Fuelled, Part.calls]
    omega
  | @cast ts us rest e hcast h ih =>
    obtain ⟨fuel, rfl⟩ := (Parses.cast hcast h).fuel_pos hfuel
    obtain ⟨inside, htokens, -⟩ := castEnd?_eq_some hcast
    have hts : ts.length = inside.length + (us.length + 1) := by
      rw [htokens, List.length_append, List.length_cons]
    simp only [Part.Fuelled, Part.calls, List.length_cons] at hfuel
    show g.unary (fuel + 1) (.punct .lparen :: ts) = _
    subst hknown
    rw [g.unary_cast fuel hcast]
    refine ih fuel ?_
    simp only [Part.Fuelled, Part.calls]
    omega
  | @group ts rest e hcast h ih =>
    obtain ⟨fuel, rfl⟩ := (Parses.group hcast h).fuel_pos hfuel
    simp only [Part.Fuelled, Part.calls, List.length_cons] at hfuel
    have hinside : g.conditional fuel ts = .ok (e, .punct .rparen :: rest) := by
      refine ih fuel ?_
      simp only [Part.Fuelled, Part.calls, BinaryOp.levels, List.length_cons]
      omega
    show g.unary (fuel + 1) (.punct .lparen :: ts) = _
    subst hknown
    rw [g.unary_group fuel hcast, hinside]
    simp only [g.expect_self, bind, Except.bind]
  | @sign t op ts rest e hop h ih =>
    obtain ⟨fuel, rfl⟩ := (Parses.sign hop h).fuel_pos hfuel
    simp only [Part.Fuelled, Part.calls, List.length_cons] at hfuel
    have hoperand : g.unary fuel ts = .ok (e, rest) := by
      refine ih fuel ?_
      simp only [Part.Fuelled, Part.calls]
      omega
    show g.unary (fuel + 1) (t :: ts) = _
    rw [g.unary_sign fuel ts hop, hoperand]
    rfl
  | @atom t ts rest e hparen hop h =>
    obtain ⟨fuel, rfl⟩ := (Parses.atom hparen hop h).fuel_pos hfuel
    show g.unary (fuel + 1) (t :: ts) = _
    rw [g.unary_atom fuel ts hparen hop]
    exact Scope.atom_eq_ok h

/-! ### Whole expressions -/

/-- The tree of an expression is the one that is derived for its tokens. -/
theorem ofTokens?_eq_ok_iff :
    ofTokens? known ts = .ok e ↔ Parses known .conditional ts e [] := by
  refine ⟨fun h => ?_, fun h => ?_⟩
  · by_cases hempty : ts.isEmpty = true
    · rw [ofTokens?, if_pos hempty] at h
      cases h
    · rw [ofTokens?, if_neg hempty] at h
      obtain ⟨⟨a, rest⟩, hread, h⟩ := bind_eq_ok h
      dsimp only at h
      split at h
      · rename_i hrest
        cases h
        rw [List.isEmpty_iff.1 hrest] at hread
        exact parses_of_read (fuelFor ts) .conditional ts e [] hread
      · cases h
  · have hlt := h.length_lt rfl
    have hempty : ts.isEmpty = false := by
      cases ts with
      | nil => cases hlt
      | cons t ts => rfl
    have hread : Scope.conditional ⟨known, ts.length⟩ (fuelFor ts) ts = .ok (e, []) :=
      read_of_parses h rfl (fuelFor ts) (by
        simp only [Part.Fuelled, Part.calls, BinaryOp.levels, fuelFor, List.length_nil]
        omega)
    rw [ofTokens?, hempty, if_neg Bool.false_ne_true]
    show (Scope.conditional ⟨known, ts.length⟩ (fuelFor ts) ts >>= _) = _
    rw [hread]
    rfl

end Expr

/-- The value of an expression is the value of its tree. -/
theorem evalTokens_of_parses {env : Env} {ts : List TokenKind} {e : Expr}
    (h : Expr.Parses (fun n => (env n).isSome) .conditional ts e []) :
    evalTokens env ts = e.eval env := by
  rw [evalTokens, Expr.ofTokens?_eq_ok_iff.2 h]
  rfl

end CInterface
