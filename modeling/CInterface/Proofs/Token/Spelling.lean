import CInterface.Token.Lexer
/-!
# Spelling tokens

Which tokens a text is read as when it was put together from the spellings of tokens. Only the
kinds of tokens count here, not where they stand.

* `kindsOf` — the kinds of the tokens of a text.
* `kindsOf_ident`, `kindsOf_digits`, `kindsOf_punct` — the first token of a text that begins with
  the spelling of a word, a decimal integer or a punctuator, and goes on with nothing that could
  belong to it.
* `Spells` — a text that consists of the spellings of some tokens; `Spells.kindsOf_eq` is that it is
  read as these tokens.
-/

namespace CInterface

open Text

/-! ### Kinds -/

/-- The kinds of the tokens of a text, in order. -/
def kindsOf (cs : List Char) : List TokenKind := (tokensFrom 0 cs).map (·.kind)

/-- Where a text begins does not change the kinds of its tokens. -/
theorem map_kind_tokensFrom (offset : Nat) (cs : List Char) :
    (tokensFrom offset cs).map (·.kind) = kindsOf cs := by
  unfold kindsOf
  induction h : cs.length using Nat.strongRecOn generalizing offset cs with
  | _ n ih =>
    have step : ∀ (a b : Nat) (ds : List Char), ds.length < n →
        (tokensFrom a ds).map (·.kind) = (tokensFrom b ds).map (·.kind) := by
      intro a b ds hd
      rw [ih ds.length hd a ds rfl, ih ds.length hd b ds rfl]
    cases cs with
    | nil => rw [tokensFrom, tokensFrom]
    | cons c r =>
      subst h
      rw [tokensFrom, tokensFrom]
      split
      · exact step _ _ r (Nat.lt_succ_self _)
      · simp only [List.map_cons]
        refine congrArg _ (step _ _ _ ?_)
        simp only [List.length_drop, List.length_cons]
        omega

theorem kindsOf_nil : kindsOf [] = [] := by
  rw [kindsOf, tokensFrom]
  rfl

/-- White space before a token is skipped. -/
theorem kindsOf_space {c : Char} (h : isLexSpace c = true) (r : List Char) :
    kindsOf (c :: r) = kindsOf r := by
  rw [kindsOf, tokensFrom, if_pos h, map_kind_tokensFrom]

theorem kindsOf_cons {c : Char} (h : isLexSpace c = false) (r : List Char) :
    kindsOf (c :: r) = (nextToken c r).1 :: kindsOf (r.drop (nextToken c r).2) := by
  rw [kindsOf, tokensFrom, if_neg (by rw [h]; exact Bool.false_ne_true), List.map_cons,
    map_kind_tokensFrom]

/-- A lexeme that is the longest at its place gives its token. -/
theorem kindsOf_lexeme {c : Char} {w r : List Char} {k : LexClass}
    (hc : isLexSpace c = false) (hk : LexClass.longest (c :: (w ++ r)) = (k, w.length + 1)) :
    kindsOf (c :: (w ++ r)) = k.kind c (c :: w) :: kindsOf r := by
  have hnext : nextToken c (w ++ r) = (k.kind c (c :: w), w.length) := by
    rw [nextToken, hk]
    simp only [List.take_left']
  rw [kindsOf_cons hc, hnext, List.drop_left]

/-! ### The longest lexeme -/

/-- A class that reaches further than every other one is the longest. -/
theorem longest_of_length_lt {cs : List Char} {k : LexClass} {n : Nat} (hk : k.length cs = n)
    (hn : 0 < n) (hlt : ∀ k' : LexClass, k' ≠ k → k'.length cs < n) :
    LexClass.longest cs = (k, n) := by
  -- the best so far is the class itself once it was met, and shorter before that
  have hfold : ∀ (l : List LexClass) (best : LexClass × Nat), best = (k, n) ∨ (best.2 < n ∧ k ∈ l) →
      l.foldl (fun best k => if best.2 < k.length cs then (k, k.length cs) else best) best
        = (k, n) := by
    intro l
    induction l with
    | nil =>
      intro best h
      rcases h with h | ⟨_, hmem⟩
      · exact h
      · cases hmem
    | cons k' l ih =>
      intro best h
      rw [List.foldl_cons]
      refine ih _ ?_
      by_cases hkk : k' = k
      · subst hkk
        rcases h with rfl | ⟨hb, _⟩
        · rw [hk, if_neg (Nat.lt_irrefl n)]
          exact Or.inl rfl
        · rw [hk, if_pos hb]
          exact Or.inl rfl
      · have hshort := hlt k' hkk
        rcases h with rfl | ⟨hb, hmem⟩
        · rw [if_neg (Nat.not_lt_of_lt hshort)]
          exact Or.inl rfl
        · have hl : k ∈ l := (List.mem_cons.1 hmem).resolve_left (Ne.symm hkk)
          split
          · exact Or.inr ⟨hshort, hl⟩
          · exact Or.inr ⟨hb, hl⟩
  have hmem : k ∈ LexClass.all := by cases k <;> decide
  exact hfold _ _ (Or.inr ⟨hn, hmem⟩)

/-! ### Characters -/

theorem isIdentTail_of_isIdentHead {c : Char} (h : isIdentHead c = true) :
    isIdentTail c = true := by
  simp only [isIdentHead, isWordHead, isIdentTail, isWordTail, Char.isAlphanum] at *
  grind

theorem isIdentTail_of_isDigit {c : Char} (h : c.isDigit = true) : isIdentTail c = true := by
  simp only [isIdentTail, isWordTail, Char.isAlphanum, h, Bool.or_true, Bool.true_or]

theorem isDigit_of_isIdentHead {c : Char} (h : isIdentHead c = true) : c.isDigit = false := by
  have hranges : (decide (c.val ≥ 'A'.val ∧ c.val ≤ 'Z'.val) ||
      (decide (c.val ≥ 'a'.val) && decide (c.val ≤ 'z'.val)) || decide (c = '_') ||
        decide (c = '$')) = true := h
  simp only [Char.isDigit, Bool.or_eq_true, Bool.and_eq_true, decide_eq_true_eq,
    Bool.and_eq_false_iff, decide_eq_false_iff_not, UInt32.le_iff_toNat_le, ge_iff_le]
    at hranges ⊢
  rcases hranges with ((⟨h1, h2⟩ | ⟨h1, h2⟩) | rfl) | rfl
  · simp at h1 h2 ⊢
    omega
  · simp at h1 h2 ⊢
    omega
  · decide
  · decide

theorem isIdentHead_of_isDigit {c : Char} (h : c.isDigit = true) : isIdentHead c = false := by
  cases hc : isIdentHead c with
  | false => rfl
  | true =>
    rw [isDigit_of_isIdentHead hc] at h
    cases h

/-- A character that is not in a class is another character than any in it. -/
theorem ne_of_class {p : Char → Bool} {c d : Char} (hc : p c = true) (hd : p d = false) : c ≠ d := by
  rintro rfl
  rw [hc] at hd
  cases hd

theorem isLexSpace_eq_false {p : Char → Bool} {c : Char} (h : p c = true)
    (hp : [' ', '\t', '\r', '\n', '\x0c', '\x0b'].all (fun d => !p d) = true) :
    isLexSpace c = false := by
  simp only [List.all_cons, List.all_nil, Bool.and_true, Bool.and_eq_true, Bool.not_eq_true'] at hp
  obtain ⟨h1, h2, h3, h4, h5, h6⟩ := hp
  simp only [isLexSpace, Bool.or_eq_false_iff, decide_eq_false_iff_not]
  exact ⟨⟨⟨⟨⟨ne_of_class h h1, ne_of_class h h2⟩, ne_of_class h h3⟩, ne_of_class h h4⟩,
    ne_of_class h h5⟩, ne_of_class h h6⟩

/-! ### Runs of characters -/

/-- A run of a class ends where the class does. -/
theorem spanLength_append {p : Char → Bool} {w r : List Char} (hw : w.all p = true)
    (hr : r.head?.any p = false) : spanLength p (w ++ r) = w.length := by
  rw [spanLength, List.takeWhile_append_of_pos (fun c hc => List.all_eq_true.1 hw c hc)]
  cases r with
  | nil => simp
  | cons c r =>
    have hc : p c = false := hr
    simp [hc]

/-! ### Classes that do not match -/

theorem identLength_eq_zero {c : Char} (h : isIdentHead c = false) (r : List Char) :
    identLength (c :: r) = 0 := by
  simp [identLength, h]

theorem integerLength_eq_zero {c : Char} (h : c.isDigit = false) (r : List Char) :
    integerLength (c :: r) = 0 := by
  have hspan : spanLength Char.isDigit (c :: r) = 0 := by simp [spanLength, h]
  have hc : c ≠ '0' := by
    rintro rfl
    exact absurd h (by decide)
  unfold integerLength
  simp only [hspan]
  split
  · rename_i heq
    exact absurd (List.cons.inj heq).1 hc
  · rfl

theorem floatLength_eq_zero {c : Char} (h : c.isDigit = false) {r : List Char}
    (hdot : c = '.' → r.head?.any Char.isDigit = false) : floatLength (c :: r) = 0 := by
  have hspan : spanLength Char.isDigit (c :: r) = 0 := by simp [spanLength, h]
  unfold floatLength
  simp only [hspan, List.drop_zero]
  split
  · rename_i heq
    obtain ⟨rfl, rfl⟩ := List.cons.inj heq
    have hr := spanLength_append (w := []) (p := Char.isDigit) rfl (hdot rfl)
    simp only [List.nil_append, List.length_nil] at hr
    simp [hr]
  · simp

theorem openLiteralLength_eq_zero {quote c : Char} (h : c ≠ quote) {r : List Char}
    (hL : c = 'L' → r.head? ≠ some quote) (least : Nat) :
    openLiteralLength quote least (c :: r) = 0 := by
  have hopen : literalOpening quote (c :: r) = 0 := by
    rw [literalOpening, if_neg h, if_neg]
    simp only [Bool.and_eq_true, decide_eq_true_eq, not_and]
    exact hL
  simp [openLiteralLength, hopen]

theorem literalLength_eq_zero {quote : Char} {least : Nat} {cs : List Char}
    (h : openLiteralLength quote least cs = 0) : literalLength quote least cs = 0 := by
  simp [literalLength, h]

/-! ### Punctuators -/

/-- The longer of two punctuators, of which the second counts only if the text begins with it. -/
def longerPunct (cs : List Char) (best : Option Punct) (p : Punct) : Option Punct :=
  if p.text.toList.isPrefixOf cs then
    match best with
    | some q => if q.text.length < p.text.length then some p else best
    | none => some p
  else best

/-- Where no punctuator stands, none is found. -/
theorem punctAt?_eq_none {cs : List Char} (h : ∀ p : Punct, p.text.toList.isPrefixOf cs = false) :
    punctAt? cs = none := by
  have hfold : ∀ l : List Punct, l.foldl (longerPunct cs) none = none := by
    intro l
    induction l with
    | nil => rfl
    | cons p l ih =>
      rw [List.foldl_cons, longerPunct, if_neg (by rw [h p]; exact Bool.false_ne_true)]
      exact ih
  exact hfold _

/-- A punctuator that is longer than every other one at its place is found. -/
theorem punctAt?_eq_some {cs : List Char} {p : Punct} (hp : p.text.toList.isPrefixOf cs = true)
    (hlt : ∀ q : Punct, q ≠ p → q.text.toList.isPrefixOf cs = true →
      q.text.length < p.text.length) :
    punctAt? cs = some p := by
  have hfold : ∀ (l : List Punct) (best : Option Punct),
      best = some p ∨ ((∀ q ∈ best, q.text.length < p.text.length) ∧ p ∈ l) →
      l.foldl (longerPunct cs) best = some p := by
    intro l
    induction l with
    | nil =>
      intro best h
      rcases h with h | ⟨_, hmem⟩
      · exact h
      · cases hmem
    | cons q l ih =>
      intro best h
      rw [List.foldl_cons]
      refine ih _ ?_
      unfold longerPunct
      by_cases hqp : q = p
      · subst hqp
        rw [if_pos hp]
        rcases h with rfl | ⟨hb, _⟩
        · simp
        · cases best with
          | none => exact Or.inl rfl
          | some b => exact Or.inl (if_pos (hb b rfl))
      · by_cases hq : q.text.toList.isPrefixOf cs = true
        · have hshort := hlt q hqp hq
          rw [if_pos hq]
          rcases h with rfl | ⟨hb, hmem⟩
          · simp only [if_neg (Nat.not_lt_of_lt hshort)]
            exact Or.inl trivial
          · have hl : p ∈ l := (List.mem_cons.1 hmem).resolve_left (Ne.symm hqp)
            refine Or.inr ⟨?_, hl⟩
            intro b hb'
            cases best with
            | none =>
              cases hb'
              exact hshort
            | some b' =>
              simp only at hb'
              split at hb'
              · cases hb'
                exact hshort
              · exact hb b hb'
        · rw [if_neg hq]
          rcases h with h | ⟨hb, hmem⟩
          · exact Or.inl h
          · exact Or.inr ⟨hb, (List.mem_cons.1 hmem).resolve_left (Ne.symm hqp)⟩
  exact hfold _ none (Or.inr ⟨by simp, Punct.mem_all p⟩)

/-- A character that can stand behind a word or a number without belonging to it. -/
def endsWord (c : Char) : Bool := !isIdentTail c && c ≠ '"' && c ≠ '\x27' && c ≠ '.'

/-- A character that can stand behind a punctuator without making it a longer token. -/
def Punct.endsBefore (p : Punct) (c : Char) : Bool :=
  Punct.all.all (fun q => !(p.text.toList ++ [c]).isPrefixOf q.text.toList) &&
    !(p = .dot && c.isDigit)

/-- The first character of a punctuator starts no other class of tokens. -/
theorem Punct.toList_text (p : Punct) : ∃ c w, p.text.toList = c :: w ∧ isIdentTail c = false ∧
    c ≠ '"' ∧ c ≠ '\x27' ∧ isLexSpace c = false ∧ (c = '.' → p = .dot ∨ w.head? = some '.') := by
  cases p <;> exact ⟨_, _, rfl, by decide, by decide, by decide, by decide, by decide⟩

theorem Punct.find?_text (p : Punct) : Punct.all.find? (fun q => q.text == p.text) = some p := by
  cases p <;> rfl

theorem Punct.eq_of_text {p q : Punct} (h : p.text.toList = q.text.toList) : p = q := by
  have hp := p.find?_text
  rw [String.toList_inj.1 h, q.find?_text] at hp
  exact (Option.some.inj hp).symm

/-! ### Words, integers and punctuators -/

/-- The characters are an identifier. -/
def isIdentifier : List Char → Bool
  | [] => false
  | c :: r => isIdentHead c && r.all isIdentTail

theorem endsWord_iff {c : Char} :
    endsWord c = true ↔ isIdentTail c = false ∧ c ≠ '"' ∧ c ≠ '\x27' ∧ c ≠ '.' := by
  simp only [endsWord, Bool.and_eq_true, Bool.not_eq_true', decide_eq_true_eq]
  exact ⟨fun ⟨⟨⟨h1, h2⟩, h3⟩, h4⟩ => ⟨h1, h2, h3, h4⟩, fun ⟨h1, h2, h3, h4⟩ => ⟨⟨⟨h1, h2⟩, h3⟩, h4⟩⟩

/-- No punctuator starts with a character of a word. -/
theorem punctAt?_eq_none_of_isIdentTail {c : Char} (h : isIdentTail c = true) (r : List Char) :
    punctAt? (c :: r) = none := by
  refine punctAt?_eq_none fun p => ?_
  obtain ⟨d, w, hp, hd, -⟩ := p.toList_text
  rw [hp, List.isPrefixOf_cons_cons]
  rw [beq_false_of_ne (Ne.symm (ne_of_class h hd)), Bool.false_and]

/-- A word is the longest lexeme if the text behind it does not go on with the word, and an `L` has no
quote behind it. -/
theorem longest_ident {c : Char} {w r : List Char} (hw : isIdentifier (c :: w) = true)
    (hr : r.head?.any isIdentTail = false)
    (hL : c :: w = ['L'] → ∀ quote : Char, quote = '"' ∨ quote = '\x27' → r.head? ≠ some quote) :
    LexClass.longest (c :: (w ++ r)) = (.ident, w.length + 1) := by
  obtain ⟨hc, ht⟩ := Bool.and_eq_true_iff.1 hw
  have htail : isIdentTail c = true := isIdentTail_of_isIdentHead hc
  have hdigit : c.isDigit = false := isDigit_of_isIdentHead hc
  have hspan : spanLength isIdentTail (w ++ r) = w.length := spanLength_append ht hr
  -- no quote follows the first letter, so an `L` opens no literal
  have hquote : ∀ quote : Char, quote = '"' ∨ quote = '\x27' →
      ∀ least, openLiteralLength quote least (c :: (w ++ r)) = 0 := by
    intro quote hquote least
    have hother : isIdentTail quote = false := by rcases hquote with rfl | rfl <;> decide
    refine openLiteralLength_eq_zero (ne_of_class htail hother) (fun hcL => ?_) least
    cases w with
    | nil => exact hL (by rw [hcL]) quote hquote
    | cons d w =>
      have hd : isIdentTail d = true := (Bool.and_eq_true_iff.1 ht).1
      simpa using ne_of_class hd hother
  have hstr := hquote '"' (Or.inl rfl)
  have hchar := hquote '\x27' (Or.inr rfl)
  refine longest_of_length_lt ?_ (Nat.succ_pos _) ?_
  · simp [LexClass.length, identLength, hc, hspan]
  · intro k hk
    refine Nat.lt_of_le_of_lt (Nat.le_of_eq ?_) (Nat.succ_pos _)
    cases k with
    | ident => exact absurd rfl hk
    | integer => exact integerLength_eq_zero hdigit _
    | float =>
      refine floatLength_eq_zero hdigit ?_
      rintro rfl
      exact absurd htail (by decide)
    | str => exact literalLength_eq_zero (hstr 0)
    | char => exact literalLength_eq_zero (hchar 1)
    | punct => simp only [LexClass.length, punctAt?_eq_none_of_isIdentTail htail]
    | openStr => exact hstr 0
    | openChar => exact hchar 1

/-- A word at the head of a text is its first token, if it ends where the text goes on. -/
theorem kindsOf_ident {w r : List Char} (hw : isIdentifier w = true)
    (hr : r.head?.all endsWord = true) :
    kindsOf (w ++ r) = .ident (String.ofList w) :: kindsOf r := by
  cases w with
  | nil => cases hw
  | cons c t =>
    have htail := isIdentTail_of_isIdentHead (Bool.and_eq_true_iff.1 hw).1
    have hends : ∀ d, r.head? = some d → endsWord d = true := fun d hd => by rwa [hd] at hr
    have hlongest : LexClass.longest (c :: (t ++ r)) = (.ident, t.length + 1) := by
      refine longest_ident hw ?_ fun _ quote hquote hhead => ?_
      · cases hd : r.head? with
        | none => rfl
        | some d => exact (endsWord_iff.1 (hends d hd)).1
      · have hquote' := endsWord_iff.1 (hends quote hhead)
        exact hquote.elim hquote'.2.1 hquote'.2.2.1
    exact kindsOf_lexeme (isLexSpace_eq_false htail (by decide)) hlongest

/-- A run of decimal digits without a leading zero is an integer, if it ends where the text goes
on. -/
theorem kindsOf_digits {w r : List Char} (hw : w.all Char.isDigit = true) (hne : w ≠ [])
    (hzero : w.head? = some '0' → w.length = 1) (hr : r.head?.all endsWord = true) :
    kindsOf (w ++ r) = .integer (String.ofList w) :: kindsOf r := by
  cases w with
  | nil => exact absurd rfl hne
  | cons c t =>
    obtain ⟨hc, ht⟩ := Bool.and_eq_true_iff.1 hw
    have htail : isIdentTail c = true := isIdentTail_of_isDigit hc
    have hhead : isIdentHead c = false := isIdentHead_of_isDigit hc
    have hnext : ∀ d, r.head? = some d → isIdentTail d = false ∧ d ≠ '.' := by
      intro d hd
      rw [hd] at hr
      exact ⟨(endsWord_iff.1 hr).1, (endsWord_iff.1 hr).2.2.2⟩
    have hspan : spanLength Char.isDigit (c :: (t ++ r)) = t.length + 1 := by
      refine spanLength_append (w := c :: t) hw ?_
      cases r with
      | nil => rfl
      | cons d r =>
        cases hd : d.isDigit with
        | false => simpa using hd
        | true => exact absurd (isIdentTail_of_isDigit hd) (by simp [(hnext d rfl).1])
    have hdrop : (c :: (t ++ r)).drop (t.length + 1) = r := by simp
    have hsuffix : integerSuffixLength r = 0 := by
      refine spanLength_append (w := []) rfl ?_
      cases r with
      | nil => rfl
      | cons d r =>
        have hd := (hnext d rfl).1
        have hne : ∀ e, isIdentTail e = true → d ≠ e := fun e he => (ne_of_class he hd).symm
        simp [hne 'u' (by decide), hne 'U' (by decide), hne 'l' (by decide), hne 'L' (by decide)]
    have hexponent : exponentLength r = 0 := by
      cases r with
      | nil => rfl
      | cons d r =>
        have hd := (hnext d rfl).1
        have hne : ∀ e, isIdentTail e = true → d ≠ e := fun e he => (ne_of_class he hd).symm
        simp [exponentLength, hne 'e' (by decide), hne 'E' (by decide)]
    have hinteger : integerLength (c :: (t ++ r)) = t.length + 1 := by
      have hplain : integerSuffixLength ((c :: (t ++ r)).drop (t.length + 1)) = 0 := by
        rw [hdrop, hsuffix]
      unfold integerLength
      simp only [hspan, hplain, Nat.add_zero, if_neg (Nat.succ_ne_zero _)]
      split
      · -- behind a leading zero the text goes on without an `x`
        rename_i x s heq
        obtain ⟨rfl, hs⟩ := List.cons.inj heq
        have ht : t = [] := List.eq_nil_of_length_eq_zero (by simpa using hzero rfl)
        subst ht
        have hx := (hnext x (by rw [← List.nil_append r, hs]; rfl)).1
        have hx1 : x ≠ 'x' := (ne_of_class (by decide) hx).symm
        have hx2 : x ≠ 'X' := (ne_of_class (by decide) hx).symm
        simp [hx1, hx2]
      · rfl
    have hfloat : floatLength (c :: (t ++ r)) = 0 := by
      unfold floatLength
      simp only [hspan, hdrop]
      split
      · rename_i r
        exact absurd rfl (hnext '.' rfl).2
      · simp [hexponent]
    have hquote : ∀ quote : Char, isIdentTail quote = false →
        ∀ least, openLiteralLength quote least (c :: (t ++ r)) = 0 := by
      intro quote h1 least
      refine openLiteralLength_eq_zero (ne_of_class htail h1) ?_ least
      rintro rfl
      exact absurd hc (by decide)
    have hstr := hquote '"' (by decide)
    have hchar := hquote '\x27' (by decide)
    have hlongest : LexClass.longest (c :: (t ++ r)) = (.integer, t.length + 1) := by
      refine longest_of_length_lt hinteger (Nat.succ_pos _) ?_
      intro k hk
      refine Nat.lt_of_le_of_lt (Nat.le_of_eq ?_) (Nat.succ_pos _)
      cases k with
      | ident => exact identLength_eq_zero hhead _
      | integer => exact absurd rfl hk
      | float => exact hfloat
      | str => exact literalLength_eq_zero (hstr 0)
      | char => exact literalLength_eq_zero (hchar 1)
      | punct => simp only [LexClass.length, punctAt?_eq_none_of_isIdentTail htail]
      | openStr => exact hstr 0
      | openChar => exact hchar 1
    exact kindsOf_lexeme (isLexSpace_eq_false htail (by decide)) hlongest

/-- A punctuator is found at its place, if what follows does not make it longer. -/
theorem Punct.punctAt?_text {p : Punct} {r : List Char} (hr : r.head?.all p.endsBefore = true) :
    punctAt? (p.text.toList ++ r) = some p := by
  refine punctAt?_eq_some (List.isPrefixOf_iff_prefix.2 (List.prefix_append _ _)) ?_
  intro q hq hprefix
  have hpre := List.isPrefixOf_iff_prefix.1 hprefix
  rw [← String.length_toList, ← String.length_toList]
  refine Nat.lt_of_not_le fun hle => ?_
  -- a punctuator that reaches further would go on with the next character
  obtain ⟨u, hu⟩ := List.prefix_of_prefix_length_le (List.prefix_append _ r) hpre hle
  cases u with
  | nil => exact hq (Punct.eq_of_text (by rw [← hu, List.append_nil]))
  | cons d u =>
    rw [← hu] at hpre
    have hdr := (List.prefix_append_right_inj _).1 hpre
    cases r with
    | nil => exact absurd hdr (by simp)
    | cons e r =>
      obtain ⟨rfl, -⟩ := List.cons_prefix_cons.1 hdr
      have hends : p.endsBefore d = true := hr
      have hall := List.all_eq_true.1 (Bool.and_eq_true_iff.1 hends).1 q (Punct.mem_all q)
      rw [Bool.not_eq_true'] at hall
      refine Bool.false_ne_true (hall.symm.trans (List.isPrefixOf_iff_prefix.2 ⟨u, ?_⟩))
      rw [← hu, List.append_assoc, List.singleton_append]

theorem Punct.punctAt?_self (p : Punct) : punctAt? p.text.toList = some p := by
  have h := Punct.punctAt?_text (p := p) (r := []) rfl
  rwa [List.append_nil] at h

/-- A punctuator is the longest lexeme if no other one is found at its place, and no number follows a
point. -/
theorem Punct.longest_text {p : Punct} {r : List Char} (hat : punctAt? (p.text.toList ++ r) = some p)
    (hdot : p = .dot → r.head?.any Char.isDigit = false) :
    LexClass.longest (p.text.toList ++ r) = (.punct, p.text.toList.length) := by
  obtain ⟨c, w, hp, htail, hq, hq', -, hdots⟩ := p.toList_text
  have hdigit : c.isDigit = false := by
    cases hd : c.isDigit with
    | false => rfl
    | true => exact absurd (isIdentTail_of_isDigit hd) (by simp [htail])
  have hhead : isIdentHead c = false := by
    cases hd : isIdentHead c with
    | false => rfl
    | true => exact absurd (isIdentTail_of_isIdentHead hd) (by simp [htail])
  have hlength : p.text.length = w.length + 1 := by
    rw [← String.length_toList, hp]
    rfl
  rw [hp] at hat ⊢
  have hL : c ≠ 'L' := (ne_of_class (by decide) htail).symm
  have hstr : ∀ least, openLiteralLength '"' least (c :: (w ++ r)) = 0 :=
    openLiteralLength_eq_zero hq fun h => absurd h hL
  have hchar : ∀ least, openLiteralLength '\x27' least (c :: (w ++ r)) = 0 :=
    openLiteralLength_eq_zero hq' fun h => absurd h hL
  have hfloat : floatLength (c :: (w ++ r)) = 0 := by
    refine floatLength_eq_zero hdigit fun hpoint => ?_
    rcases hdots hpoint with rfl | hw
    · -- behind a single point no digit follows
      obtain ⟨-, rfl⟩ := List.cons.inj (hp.symm.trans (show _ = ['.'] from rfl))
      exact hdot rfl
    · cases w with
      | nil => cases hw
      | cons d w =>
        obtain rfl : d = '.' := by simpa using hw
        rfl
  refine longest_of_length_lt ?_ (Nat.succ_pos _) ?_
  · simp only [LexClass.length, hat, hlength, List.length_cons]
  · intro k hk
    refine Nat.lt_of_le_of_lt (Nat.le_of_eq ?_) (Nat.succ_pos _)
    cases k with
    | ident => exact identLength_eq_zero hhead _
    | integer => exact integerLength_eq_zero hdigit _
    | float => exact hfloat
    | str => exact literalLength_eq_zero (hstr 0)
    | char => exact literalLength_eq_zero (hchar 1)
    | punct => exact absurd rfl hk
    | openStr => exact hstr 0
    | openChar => exact hchar 1

/-- A punctuator at the head of a text is its first token, if what follows does not make it
longer. -/
theorem kindsOf_punct {p : Punct} {r : List Char} (hr : r.head?.all p.endsBefore = true) :
    kindsOf (p.text.toList ++ r) = .punct p :: kindsOf r := by
  have hlongest := Punct.longest_text (Punct.punctAt?_text hr) (by
    rintro rfl
    cases r with
    | nil => rfl
    | cons d r =>
      have hends : Punct.dot.endsBefore d = true := hr
      have hd := (Bool.and_eq_true_iff.1 hends).2
      simpa using hd)
  obtain ⟨c, w, hp, -, -, -, hspace, -⟩ := p.toList_text
  have halone := p.punctAt?_self
  rw [hp] at hlongest halone ⊢
  have h := kindsOf_lexeme hspace hlongest
  rw [LexClass.kind, halone] at h
  exact h

theorem digits_toDigits (n : Nat) : ∀ c ∈ Nat.toDigits 10 n, c.isDigit = true :=
  fun _ hc => Nat.isDigit_of_mem_toDigits (by decide) (by decide) hc

/-- A negative integer is a minus before its digits, and another one its digits alone. -/
theorem toList_toString (n : Int) : (toString n).toList =
    (if n < 0 then ['-'] else []) ++ Nat.toDigits 10 n.natAbs := by
  cases n with
  | ofNat n =>
    show (toString n).toList = _
    have hle : ¬Int.ofNat n < 0 := Int.not_lt.2 (Int.natCast_nonneg n)
    rw [if_neg hle]
    exact Nat.toList_repr
  | negSucc n =>
    show ("-" ++ toString (n + 1)).toList = _
    rw [if_pos (Int.negSucc_lt_zero n), String.toList_append]
    show ['-'] ++ (toString (n + 1)).toList = ['-'] ++ Nat.toDigits 10 (n + 1)
    exact congrArg (['-'] ++ ·) Nat.toList_repr

/-- Decimal digits begin with a zero only if there is one digit. -/
theorem length_toDigits_of_head? (n : Nat) (h : (Nat.toDigits 10 n).head? = some '0') :
    (Nat.toDigits 10 n).length = 1 := by
  induction n using Nat.strongRecOn with
  | _ n ih =>
    by_cases hn : n < 10
    · rw [Nat.toDigits_of_lt_base hn]
      rfl
    · have hle : 10 ≤ n := Nat.le_of_not_lt hn
      have hpos : 0 < n / 10 := Nat.div_pos hle (by decide)
      have hhead : (Nat.toDigits 10 (n / 10)).head? = some '0' := by
        obtain ⟨c, w, hw⟩ := List.exists_cons_of_ne_nil (Nat.toDigits_ne_nil (n := n / 10) (b := 10))
        rw [Nat.toDigits_of_base_le (by decide) hle, hw] at h
        rw [hw]
        exact h
      obtain ⟨c, hc⟩ := List.length_eq_one_iff.1 (ih (n / 10) (by omega) hhead)
      have hvalue := Nat.ofDigitChars_ten_toDigits (n := n / 10)
      rw [hc] at hhead hvalue
      obtain rfl : c = '0' := by simpa using hhead
      simp [Nat.ofDigitChars] at hvalue
      omega

/-! ### Texts put together from tokens -/

/-- A character that ends every word and every punctuator. -/
def isDelimiter (c : Char) : Bool := [' ', '(', ')', '[', ']', ',', ';'].contains c

theorem endsWord_of_isDelimiter {c : Char} (h : isDelimiter c = true) : endsWord c = true := by
  have hc : c ∈ [' ', '(', ')', '[', ']', ',', ';'] := List.contains_iff_mem.1 h
  simp only [List.mem_cons, List.not_mem_nil, or_false] at hc
  rcases hc with rfl | rfl | rfl | rfl | rfl | rfl | rfl <;> decide

/-- Behind its first character a punctuator holds neither delimiters nor characters of words. -/
theorem Punct.tail_text (p : Punct) :
    p.text.toList.tail.all (fun c => !isIdentTail c && !isDelimiter c) = true := by
  cases p <;> rfl

namespace TokenKind

/-- A word, a punctuator, or a decimal integer without a leading zero. -/
def IsPlain : TokenKind → Prop
  | ident name => isIdentifier name.toList = true
  | integer text => text.toList.all Char.isDigit = true ∧ text.toList ≠ [] ∧
      (text.toList.head? = some '0' → text.toList.length = 1)
  | punct _ => True
  | _ => False

/-- The token ends where the text goes on with the character. -/
def endsBefore : TokenKind → Char → Bool
  | punct p, c => p.endsBefore c
  | _, c => endsWord c

theorem endsBefore_of_isDelimiter (k : TokenKind) {c : Char} (h : isDelimiter c = true) :
    k.endsBefore c = true := by
  have hword := endsWord_of_isDelimiter h
  cases k with
  | punct p =>
    have hdigit : c.isDigit = false := by
      cases hd : c.isDigit with
      | false => rfl
      | true => exact absurd (isIdentTail_of_isDigit hd) (by simp [(endsWord_iff.1 hword).1])
    simp only [endsBefore, Punct.endsBefore, hdigit, Bool.and_false, Bool.not_false, Bool.and_true]
    refine List.all_eq_true.2 fun q _ => ?_
    rw [Bool.not_eq_true', Bool.eq_false_iff]
    intro hprefix
    obtain ⟨u, hu⟩ := List.isPrefixOf_iff_prefix.1 hprefix
    obtain ⟨a, w, hp, -⟩ := p.toList_text
    have hmem : c ∈ q.text.toList.tail := by
      rw [← hu, hp]
      simp
    have hnot := List.all_eq_true.1 q.tail_text c hmem
    rw [h, Bool.not_true, Bool.and_false] at hnot
    cases hnot
  | _ => exact hword

/-- A token stands at the head of a text that begins with its spelling. -/
theorem kindsOf_text {k : TokenKind} (hk : k.IsPlain) {r : List Char}
    (hr : r.head?.all k.endsBefore = true) : kindsOf (k.text.toList ++ r) = k :: kindsOf r := by
  cases k with
  | ident name =>
    have h := kindsOf_ident (w := name.toList) hk hr
    rwa [String.ofList_toList] at h
  | integer text =>
    obtain ⟨hdigits, hne, hzero⟩ := hk
    have h := kindsOf_digits hdigits hne hzero hr
    rwa [String.ofList_toList] at h
  | punct p => exact kindsOf_punct hr
  | float | str | char | error => exact hk.elim

theorem text_ne_nil {k : TokenKind} (hk : k.IsPlain) : k.text.toList ≠ [] := by
  cases k with
  | ident name =>
    intro h
    rw [IsPlain, show name.toList = [] from h] at hk
    cases hk
  | integer text => exact hk.2.1
  | punct p =>
    obtain ⟨c, w, hp, -⟩ := p.toList_text
    intro h
    cases hp.symm.trans h
  | float | str | char | error => exact hk.elim

end TokenKind

/-- The text consists of the spellings of the tokens, with spaces between some of them, and at least
wherever a token would not end without. -/
inductive Spells : List Char → List TokenKind → Prop
  | nil : Spells [] []
  | space {cs : List Char} {ks : List TokenKind} (h : Spells cs ks) : Spells (' ' :: cs) ks
  | token {k : TokenKind} {cs : List Char} {ks : List TokenKind} (hk : k.IsPlain)
      (hends : cs.head?.all k.endsBefore = true) (h : Spells cs ks) :
      Spells (k.text.toList ++ cs) (k :: ks)

namespace Spells

variable {cs ds : List Char} {ks ls : List TokenKind}

/-- A text put together from tokens is read as these tokens before a text that begins with a
delimiter. -/
theorem kindsOf_append (h : Spells cs ks) (hds : ds.head?.all isDelimiter = true) :
    kindsOf (cs ++ ds) = ks ++ kindsOf ds := by
  induction h with
  | nil => rfl
  | space _ ih => rw [List.cons_append, kindsOf_space (by decide), ih]
  | @token k cs ks hk hends _ ih =>
    rw [List.append_assoc, TokenKind.kindsOf_text hk, ih, List.cons_append]
    cases cs with
    | cons c cs => exact hends
    | nil =>
      cases ds with
      | nil => rfl
      | cons d ds => exact k.endsBefore_of_isDelimiter hds

/-- **A text put together from tokens is read as these tokens.** -/
theorem kindsOf_eq (h : Spells cs ks) : kindsOf cs = ks := by
  have happend := h.kindsOf_append (show ([] : List Char).head?.all isDelimiter = true from rfl)
  rwa [List.append_nil, kindsOf_nil, List.append_nil] at happend

/-- Two texts may stand side by side if the second begins with a delimiter. -/
theorem append (ha : Spells cs ks) (hb : Spells ds ls) (h : ds.head?.all isDelimiter = true) :
    Spells (cs ++ ds) (ks ++ ls) := by
  induction ha with
  | nil => exact hb
  | space _ ih => exact .space ih
  | @token k cs ks hk hends _ ih =>
    rw [List.append_assoc, List.cons_append]
    refine .token hk ?_ ih
    cases cs with
    | cons c cs => exact hends
    | nil =>
      cases ds with
      | nil => rfl
      | cons d ds => exact k.endsBefore_of_isDelimiter h

/-- A text without characters has no tokens. -/
theorem eq_nil (h : Spells [] ks) : ks = [] := by
  generalize hcs : ([] : List Char) = cs at h
  cases h with
  | nil => rfl
  | space => cases hcs
  | token hk =>
    exact absurd (List.append_eq_nil_iff.1 hcs.symm).1 (TokenKind.text_ne_nil hk)

/-- A text begins with a space or with the first character of its first token. -/
theorem head?_all {p : Char → Bool} (h : Spells cs ks) (hspace : p ' ' = true)
    (hks : ks.head?.all (fun k => k.text.toList.head?.all p) = true) : cs.head?.all p = true := by
  cases h with
  | nil => rfl
  | space => exact hspace
  | @token k cs ks hk =>
    obtain ⟨c, w, hcw⟩ := List.exists_cons_of_ne_nil (TokenKind.text_ne_nil hk)
    have hc : k.text.toList.head?.all p = true := hks
    rw [hcw] at hc ⊢
    exact hc

/-- A punctuator before a text. -/
theorem punct (p : Punct) (h : Spells cs ks) (hp : cs.head?.all p.endsBefore = true) :
    Spells (p.text.toList ++ cs) (.punct p :: ks) :=
  .token (k := .punct p) trivial hp h

/-- A word before a text that begins with a delimiter. -/
theorem word {w : String} (hw : isIdentifier w.toList = true) (h : Spells cs ks)
    (hcs : cs.head?.all isDelimiter = true) : Spells (w.toList ++ cs) (.ident w :: ks) := by
  refine .token (k := .ident w) hw ?_ h
  cases cs with
  | nil => rfl
  | cons c cs => exact (TokenKind.ident w).endsBefore_of_isDelimiter hcs

/-- Words with spaces between them, before a text that begins with a delimiter. -/
theorem words {ws : List String} (hws : ∀ w ∈ ws, isIdentifier w.toList = true)
    (h : Spells cs ks) (hcs : cs.head?.all isDelimiter = true) :
    Spells ((" ".intercalate ws).toList ++ cs) (ws.map .ident ++ ks) := by
  induction ws with
  | nil => simpa using h
  | cons w ws ih =>
    have hw := hws w List.mem_cons_self
    have hrest := ih fun v hv => hws v (List.mem_cons_of_mem _ hv)
    cases ws with
    | nil => simpa using word hw h hcs
    | cons v ws =>
      rw [String.intercalate_cons_cons, String.toList_append, String.toList_append,
        List.append_assoc, List.append_assoc, List.map_cons, List.cons_append]
      exact word hw (.space hrest) rfl

/-- A decimal number before a text that begins with a delimiter. -/
theorem number (n : Nat) (h : Spells cs ks) (hcs : cs.head?.all isDelimiter = true) :
    Spells ((toString n).toList ++ cs) (.integer (toString n) :: ks) := by
  have htoList : (toString n).toList = Nat.toDigits 10 n := Nat.toList_repr
  refine .token (k := .integer (toString n)) ⟨?_, ?_, ?_⟩ ?_ h
  · rw [htoList, List.all_eq_true]
    exact fun c hc => Nat.isDigit_of_mem_toDigits (by decide) (by decide) hc
  · rw [htoList]
    exact Nat.toDigits_ne_nil
  · rw [htoList]
    exact length_toDigits_of_head? n
  · cases cs with
    | nil => rfl
    | cons c cs => exact (TokenKind.integer (toString n)).endsBefore_of_isDelimiter hcs

end Spells

end CInterface
