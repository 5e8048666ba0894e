import CInterface.Grammar.Bracket
import CInterface.Token.Lexer
/-!
# Nested brackets

Brackets are nested if each closing one closes the last that is open, and none is left open. The
scans over brackets count them, some of one kind only and some of all kinds alike. In nested
brackets every way of counting finds the same end.

* `TokenKind.due`, `closesDue` — the closing brackets that are still to come, token by token.
* `Nested` — the brackets of a text are nested.
* `balancedUntil_closesDue` — a scan that counts all brackets stops where no bracket is due that the
  scanned tokens have opened.
* `afterClosing_closesDue` — a scan that counts one kind of brackets ends behind the one that is due.
-/

namespace CInterface

/-! ### Brackets that are due -/

/-- The bracket that closes what the punctuator opens. -/
def Punct.closing : Punct → Punct
  | lparen => rparen
  | lbracket => rbracket
  | lbrace => rbrace
  | p => p

/-- The closing brackets that are due behind a token, the next one first, when `due` were due before
it. Nothing if the token closes another one. -/
def TokenKind.due (due : List Punct) : TokenKind → Option (List Punct)
  | .punct p =>
    if p.isOpen then some (p.closing :: due)
    else if p.isClose then
      match due with
      | q :: due => if p = q then some due else none
      | [] => none
    else some due
  | _ => some due

/-- The tokens close all brackets that are due, and all that they open. -/
def closesDue (due : List Punct) : List Token → Bool
  | [] => due.isEmpty
  | t :: ts => match t.kind.due due with
    | some due => closesDue due ts
    | none => false

/-- The brackets of the text are nested. Those in literals are none. -/
def Nested (text : String) : Prop := closesDue [] (tokenize text) = true

instance (text : String) : Decidable (Nested text) :=
  inferInstanceAs (Decidable (closesDue [] (tokenize text) = true))

theorem closesDue_cons {due : List Punct} {t : Token} {ts : List Token} :
    closesDue due (t :: ts) = true ↔ ∃ next, t.kind.due due = some next ∧ closesDue next ts = true := by
  rw [closesDue]
  cases t.kind.due due with
  | none =>
    refine ⟨fun h => ?_, fun ⟨_, h, _⟩ => ?_⟩
    · cases h
    · cases h
  | some next =>
    refine ⟨fun h => ⟨next, rfl, h⟩, fun ⟨_, h, hts⟩ => ?_⟩
    cases h
    exact hts

theorem closesDue_nil {due : List Punct} : closesDue due [] = true ↔ due = [] := List.isEmpty_iff

theorem TokenKind.due_punct (p : Punct) (due : List Punct) : (TokenKind.punct p).due due =
    if p.isOpen then some (p.closing :: due)
    else if p.isClose then
      match due with
      | q :: due => if p = q then some due else none
      | [] => none
    else some due := rfl

/-- A closing bracket is the one that is due. -/
theorem TokenKind.due_close {k : TokenKind} {due next : List Punct} (hk : k.isClose = true)
    (h : k.due due = some next) : ∃ p, k = .punct p ∧ due = p :: next := by
  cases k with
  | punct p =>
    have hopen : p.isOpen = false := by
      cases p <;> first | rfl | cases hk
    have hclose : p.isClose = true := hk
    rw [due_punct, hopen, if_neg Bool.false_ne_true, if_pos hclose] at h
    split at h
    · split at h
      · rename_i hp
        cases h
        exact ⟨p, rfl, by rw [hp]⟩
      · cases h
    · cases h
  | ident | integer | float | str | char | error => cases hk

theorem TokenKind.due_plain {k : TokenKind} (due : List Punct) (hopen : k.isOpen = false)
    (hclose : k.isClose = false) : k.due due = some due := by
  cases k with
  | punct p =>
    have ho : p.isOpen = false := hopen
    have hc : p.isClose = false := hclose
    rw [due_punct, ho, hc]
    rfl
  | ident | integer | float | str | char | error => rfl

theorem TokenKind.due_open {p : Punct} (due : List Punct) (hopen : p.isOpen = true) :
    (TokenKind.punct p).due due = some (p.closing :: due) := if_pos hopen

/-- What is due for longer does not matter, as long as no token closes it: `open` are the brackets that
have been opened since. -/
theorem TokenKind.due_append {k : TokenKind} {inner due next : List Punct}
    (hk : inner = [] → k.isClose = false) (h : k.due (inner ++ due) = some next) :
    ∃ inner', next = inner' ++ due ∧ inner'.length =
      if k.isOpen then inner.length + 1 else if k.isClose then inner.length - 1
      else inner.length := by
  by_cases hopen : k.isOpen = true
  · cases k with
    | punct p =>
      rw [due_open _ hopen] at h
      cases h
      exact ⟨p.closing :: inner, rfl, by rw [if_pos hopen]; rfl⟩
    | ident | integer | float | str | char | error => cases hopen
  · rw [if_neg hopen]
    by_cases hclose : k.isClose = true
    · obtain ⟨p, rfl, hdue⟩ := due_close hclose h
      rw [if_pos hclose]
      cases inner with
      | nil => exact absurd (hk rfl) (by rw [hclose]; exact Bool.noConfusion)
      | cons q inner =>
        obtain ⟨-, hinner⟩ := List.cons.inj hdue
        exact ⟨inner, hinner.symm, rfl⟩
    · rw [Bool.not_eq_true] at hopen hclose
      rw [due_plain _ hopen hclose] at h
      cases h
      rw [hclose]
      exact ⟨inner, rfl, rfl⟩

/-- The bracket that is due may come. -/
theorem TokenKind.due_closing {p : Punct} (due : List Punct) (hp : p.isOpen = true) :
    (TokenKind.punct p.closing).due (p.closing :: due) = some due := by
  cases p <;> cases hp <;> rfl

/-! ### Scans that count all brackets -/

/-- Where a scan stops, what was due before it has passed the brackets that are open is due again. -/
theorem balancedUntil_closesDue_append {stops : List Punct} (inner : List Punct) {due : List Punct}
    {ts inside rest : List Token} (h : closesDue (inner ++ due) ts = true)
    (hscan : balancedUntil stops inner.length ts = some (inside, rest)) :
    closesDue due rest = true := by
  induction ts generalizing inner inside with
  | nil => cases hscan
  | cons t ts ih =>
    rw [balancedUntil] at hscan
    split at hscan
    · rename_i hstop
      cases hscan
      have hinner : inner = [] := by
        simp only [Bool.and_eq_true, decide_eq_true_eq] at hstop
        exact List.length_eq_zero_iff.1 hstop.1
      rw [hinner] at h
      exact h
    · rename_i hgo
      obtain ⟨⟨i, r⟩, htail, heq⟩ := Option.map_eq_some_iff.1 hscan
      cases heq
      obtain ⟨next, hnext, hts⟩ := closesDue_cons.1 h
      have hclose : inner = [] → t.kind.isClose = false := by
        rintro rfl
        simp only [List.length_nil, decide_true, Bool.true_and, Bool.or_eq_true, not_or,
          Bool.not_eq_true] at hgo
        exact hgo.2
      obtain ⟨inner', rfl, hlength⟩ := TokenKind.due_append hclose hnext
      rw [← hlength] at htail
      exact ih inner' hts htail

/-- Where a scan stops, what was due at its beginning is due again. -/
theorem balancedUntil_closesDue {stops due : List Punct} {ts inside rest : List Token}
    (h : closesDue due ts = true) (hscan : balancedUntil stops 0 ts = some (inside, rest)) :
    closesDue due rest = true := balancedUntil_closesDue_append [] h hscan

theorem balancedUntil_isSome_append {stops : List Punct} (inner : List Punct) {due : List Punct}
    {ts : List Token}
    (h : closesDue (inner ++ due) ts = true) (hdue : due ≠ []) :
    ∃ inside rest, balancedUntil stops inner.length ts = some (inside, rest) := by
  induction ts generalizing inner with
  | nil => exact absurd (List.append_eq_nil_iff.1 (closesDue_nil.1 h)).2 hdue
  | cons t ts ih =>
    rw [balancedUntil]
    split
    · exact ⟨_, _, rfl⟩
    · rename_i hgo
      obtain ⟨next, hnext, hts⟩ := closesDue_cons.1 h
      have hclose : inner = [] → t.kind.isClose = false := by
        rintro rfl
        simp only [List.length_nil, decide_true, Bool.true_and, Bool.or_eq_true, not_or,
          Bool.not_eq_true] at hgo
        exact hgo.2
      obtain ⟨inner', rfl, hlength⟩ := TokenKind.due_append hclose hnext
      obtain ⟨inside, rest, hscan⟩ := ih inner' hts
      rw [hlength] at hscan
      refine ⟨t :: inside, rest, ?_⟩
      dsimp only
      rw [hscan]
      rfl

/-- Where a bracket is due, a scan stops at the latest before it. -/
theorem balancedUntil_isSome (stops : List Punct) {c : Punct} {due : List Punct} {ts : List Token}
    (h : closesDue (c :: due) ts = true) :
    ∃ inside rest, balancedUntil stops 0 ts = some (inside, rest) :=
  balancedUntil_isSome_append [] h (List.cons_ne_nil _ _)

/-- A scan that stops does not see what comes later. -/
theorem balancedUntil_append {stops : List Punct} {depth : Nat} {ts inside rest : List Token}
    (h : balancedUntil stops depth ts = some (inside, rest)) (vs : List Token) :
    balancedUntil stops depth (ts ++ vs) = some (inside, rest ++ vs) := by
  induction ts generalizing depth inside with
  | nil => cases h
  | cons t ts ih =>
    rw [balancedUntil] at h
    rw [List.cons_append, balancedUntil]
    split at h
    · rename_i hstop
      cases h
      rw [if_pos hstop]
      rfl
    · rename_i hgo
      obtain ⟨⟨i, r⟩, hscan, heq⟩ := Option.map_eq_some_iff.1 h
      cases heq
      rw [if_neg hgo]
      dsimp only
      rw [ih hscan]
      rfl

/-- A scan looks at the kinds of the tokens only. -/
theorem balancedUntil_map {move : Token → Token} (hmove : ∀ t, (move t).kind = t.kind)
    (stops : List Punct) (depth : Nat) (ts : List Token) :
    balancedUntil stops depth (ts.map move) =
      (balancedUntil stops depth ts).map fun p => (p.1.map move, p.2.map move) := by
  induction ts generalizing depth with
  | nil => rfl
  | cons t ts ih =>
    rw [List.map_cons, balancedUntil, balancedUntil, hmove]
    split
    · rfl
    · dsimp only
      rw [ih, Option.map_map, Option.map_map]
      rfl

/-! ### Scans that count one kind of brackets -/

/-- The tokens behind the bracket that closes the outermost of `depth + 1` open ones, where only the
brackets `p` and those that close them count. -/
def afterClosing (p : Punct) (depth : Nat) : List Token → Option (List Token)
  | [] => none
  | t :: ts =>
    if t.kind = .punct p then afterClosing p (depth + 1) ts
    else if t.kind = .punct p.closing then
      match depth with
      | 0 => some ts
      | depth + 1 => afterClosing p depth ts
    else afterClosing p depth ts

theorem afterBlock_eq (depth : Nat) (ts : List Token) :
    afterBlock depth ts = afterClosing .lbrace depth ts := by
  induction ts generalizing depth with
  | nil => rfl
  | cons t ts ih => cases depth <;> simp only [afterBlock, afterClosing, ih] <;> rfl

theorem afterArguments_eq (depth : Nat) (ts : List Token) :
    afterArguments depth ts = afterClosing .lparen depth ts := by
  induction ts generalizing depth with
  | nil => rfl
  | cons t ts ih => cases depth <;> simp only [afterArguments, afterClosing, ih] <;> rfl

theorem afterClosing_cons (p : Punct) (depth : Nat) (t : Token) (ts : List Token) :
    afterClosing p depth (t :: ts) =
      if t.kind = .punct p then afterClosing p (depth + 1) ts
      else if t.kind = .punct p.closing then
        match depth with
        | 0 => some ts
        | depth + 1 => afterClosing p depth ts
      else afterClosing p depth ts := by
  cases depth <;> rfl

/-- The scan ends behind a closing bracket. -/
theorem afterClosing_suffix {p : Punct} {depth : Nat} {ts rest : List Token}
    (h : afterClosing p depth ts = some rest) :
    ∃ t, t.kind = .punct p.closing ∧ t :: rest <:+ ts := by
  induction ts generalizing depth with
  | nil => cases h
  | cons t ts ih =>
    have hlater : ∀ {depth : Nat}, afterClosing p depth ts = some rest →
        ∃ u, u.kind = .punct p.closing ∧ u :: rest <:+ t :: ts := by
      intro depth h
      obtain ⟨u, hu, hsuffix⟩ := ih h
      exact ⟨u, hu, hsuffix.trans (List.suffix_cons t ts)⟩
    rw [afterClosing_cons] at h
    split at h
    · exact hlater h
    · split at h
      · rename_i hclose
        cases depth with
        | zero =>
          cases h
          exact ⟨t, hclose, List.suffix_refl _⟩
        | succ depth => exact hlater h
      · exact hlater h

/-- Two opening brackets are not closed by the same one. -/
theorem Punct.closing_inj {p q : Punct} (hp : p.isOpen = true) (hq : q.isOpen = true)
    (h : p.closing = q.closing) : p = q := by
  cases p <;> cases hp <;> cases q <;> cases hq <;> first | rfl | exact absurd h (by decide)

theorem Punct.isClose_closing {p : Punct} (hp : p.isOpen = true) : p.closing.isClose = true := by
  cases p <;> first | rfl | cases hp

theorem Punct.isOpen_closing (p : Punct) : p.closing.isOpen = false := by
  cases p <;> rfl

/-- The brackets `inner` have been opened since, and those of the kind are counted. -/
theorem afterClosing_closesDue_append {p : Punct} (hp : p.isOpen = true) (inner : List Punct)
    {due : List Punct} {ts : List Token} (h : closesDue (inner ++ p.closing :: due) ts = true) :
    ∃ rest, afterClosing p (inner.count p.closing) ts = some rest ∧ closesDue due rest = true := by
  induction ts generalizing inner with
  | nil => exact absurd (List.append_eq_nil_iff.1 (closesDue_nil.1 h)).2 (List.cons_ne_nil _ _)
  | cons t ts ih =>
    obtain ⟨next, hnext, hts⟩ := closesDue_cons.1 h
    rw [afterClosing_cons]
    by_cases hopen : t.kind.isOpen = true
    · -- a bracket of the kind counts, any other becomes due without counting
      cases hkind : t.kind with
      | punct q =>
        rw [hkind] at hopen hnext
        rw [TokenKind.due_open _ hopen] at hnext
        cases hnext
        obtain ⟨rest, hscan, hrest⟩ := ih (q.closing :: inner) hts
        have hq : q ≠ p.closing := by
          rintro rfl
          have hclosed := Punct.isOpen_closing p
          rw [show p.closing.isOpen = true from hopen] at hclosed
          cases hclosed
        refine ⟨rest, ?_, hrest⟩
        by_cases hqp : q = p
        · subst hqp
          rw [List.count_cons_self] at hscan
          rw [if_pos rfl, hscan]
        · have hne : q.closing ≠ p.closing := fun heq => hqp (Punct.closing_inj hopen hp heq)
          rw [List.count_cons_of_ne hne] at hscan
          rw [if_neg (by simpa using hqp), if_neg (by simpa using hq), hscan]
      | ident | integer | float | str | char | error =>
        rw [hkind] at hopen
        cases hopen
    · have hne : t.kind ≠ .punct p := fun heq => hopen (by rw [heq]; exact hp)
      rw [if_neg hne]
      by_cases hclose : t.kind.isClose = true
      · obtain ⟨q, hkind, hdue⟩ := TokenKind.due_close hclose hnext
        rw [hkind]
        cases inner with
        | nil =>
          obtain ⟨rfl, rfl⟩ := List.cons.inj hdue
          refine ⟨ts, ?_, hts⟩
          rw [if_pos rfl]
          rfl
        | cons r inner =>
          obtain ⟨rfl, rfl⟩ := List.cons.inj hdue
          obtain ⟨rest, hscan, hrest⟩ := ih inner hts
          refine ⟨rest, ?_, hrest⟩
          by_cases hr : r = p.closing
          · subst hr
            rw [if_pos rfl, List.count_cons_self]
            exact hscan
          · rw [if_neg (by simpa using hr), List.count_cons_of_ne hr]
            exact hscan
      · rw [Bool.not_eq_true] at hopen hclose
        rw [TokenKind.due_plain _ hopen hclose] at hnext
        cases hnext
        have hother : t.kind ≠ .punct p.closing := by
          intro heq
          rw [heq] at hclose
          have hclosing := Punct.isClose_closing hp
          rw [show p.closing.isClose = false from hclose] at hclosing
          cases hclosing
        obtain ⟨rest, hscan, hrest⟩ := ih inner hts
        exact ⟨rest, by rw [if_neg hother, hscan], hrest⟩

/-- **A scan that counts one kind of brackets ends behind the bracket that is due**, since brackets of
other kinds are nested in between. -/
theorem afterClosing_closesDue {p : Punct} (hp : p.isOpen = true) {due : List Punct}
    {ts : List Token} (h : closesDue (p.closing :: due) ts = true) :
    ∃ rest, afterClosing p 0 ts = some rest ∧ closesDue due rest = true :=
  afterClosing_closesDue_append hp [] h

theorem afterClosing_append {p : Punct} {depth : Nat} {ts rest : List Token}
    (h : afterClosing p depth ts = some rest) (vs : List Token) :
    afterClosing p depth (ts ++ vs) = some (rest ++ vs) := by
  induction ts generalizing depth with
  | nil => cases h
  | cons t ts ih =>
    rw [afterClosing_cons] at h
    rw [List.cons_append, afterClosing_cons]
    split at h
    · rename_i hopen
      rw [if_pos hopen]
      exact ih h
    · rename_i hopen
      rw [if_neg hopen]
      split at h
      · rename_i hclose
        rw [if_pos hclose]
        cases depth with
        | zero =>
          cases h
          rfl
        | succ depth => exact ih h
      · rename_i hclose
        rw [if_neg hclose]
        exact ih h

theorem afterClosing_map {move : Token → Token} (hmove : ∀ t, (move t).kind = t.kind) (p : Punct)
    (depth : Nat) (ts : List Token) :
    afterClosing p depth (ts.map move) = (afterClosing p depth ts).map (·.map move) := by
  induction ts generalizing depth with
  | nil => rfl
  | cons t ts ih =>
    rw [List.map_cons, afterClosing_cons, afterClosing_cons, hmove, ih]
    split
    · rfl
    · split
      · cases depth with
        | zero => rfl
        | succ depth => exact ih depth
      · exact ih depth

end CInterface
