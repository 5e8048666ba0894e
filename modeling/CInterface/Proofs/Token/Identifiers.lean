import CInterface.Macro.Expansion
import CInterface.Proofs.Macro.Gaps
import CInterface.Proofs.Macro.Steps
import CInterface.Proofs.Token.Places
import CInterface.Proofs.Token.Remainders
import Mathlib.Logic.ExistsUnique
/-!
# Words of the text and words among the tokens

Two readers run over a text: the word scanner, by whose words macros are expanded, and the lexer. They
cut it differently, so that one may stop inside a piece of the other: a number of the scanner goes on
where the lexer has read a number, a word and a sign, and a word of the lexer goes on at the dollar signs
where the scanner parts it. Yet, where a text has no lexical errors, no word of the scanner begins inside
a number or between the quotes of a literal. It is a token of its own, but for two cases: it is a part of
a word with a dollar sign in it, or the `L` of a wide literal.

* `NumberRun` — the scanner is inside a number.
* `TokenKind.Remains.ident`, `.quoted_eq`, `.mark`, `.of_numberRun` — a segment inside a token.
* `Scans` — the scanner at the beginning of a segment, with what remains of the token there.
* `Scans.segment` — one segment more.
* `existsUnique_hasWord` — each word lies in one token.
-/

namespace CInterface

open Text

/-! ### Inside a number -/

/-- Behind the character `before` of a number its segment goes on with `x`, and with nothing of `s`. -/
def NumberRun (hex : Bool) (before : Char) (x s : List Char) : Prop :=
  numberTail hex before (x ++ s) = x.length

namespace NumberRun

variable {hex : Bool} {before c : Char} {x s : List Char}

theorem cons_iff : NumberRun hex before (c :: x) s ↔ (isWordTail c || c = '.' ||
    ((c = '+' || c = '-') && !hex && (before = 'e' || before = 'E'))) = true ∧
      NumberRun hex c x s := by
  unfold NumberRun
  rw [List.cons_append, numberTail, List.length_cons]
  split
  · rename_i hc
    rw [Nat.add_comm, Nat.succ_inj]
    exact (and_iff_right hc).symm
  · rename_i hc
    exact ⟨fun h => absurd h.symm (Nat.succ_ne_zero _), fun h => absurd h.1 hc⟩

/-- A character of numbers is part of the number wherever it stands. -/
theorem cons (hc : isNumberTail c = true) (h : NumberRun hex c x s) :
    NumberRun hex before (c :: x) s :=
  cons_iff.2 ⟨by rw [show (isWordTail c || c = '.') = true from hc, Bool.true_or], h⟩

/-- The number ends before another character. -/
theorem isNumberTail_head (h : NumberRun hex before x (c :: s)) : isNumberTail c = false := by
  induction x generalizing before with
  | nil =>
    refine Bool.eq_false_iff.2 fun hc => ?_
    rw [NumberRun, List.nil_append, numberTail,
      if_pos (by rw [show (isWordTail c || c = '.') = true from hc, Bool.true_or]),
      List.length_nil] at h
    omega
  | cons d x ih => exact ih (cons_iff.1 h).2

/-- Behind some of its characters the number goes on. -/
theorem of_append {w : List Char} (h : NumberRun hex before (w ++ x) s) :
    ∃ before, NumberRun hex before x s := by
  induction w generalizing before with
  | nil => exact ⟨before, h⟩
  | cons c w ih => exact ih (cons_iff.1 h).2

/-- No quote belongs to a number. -/
theorem eq_nil_of_quote {quote : Char} (hquote : quote = '"' ∨ quote = '\x27') {w : List Char}
    (h : NumberRun hex before x s) (hx : x ++ s = quote :: w) : x = [] := by
  cases x with
  | nil => rfl
  | cons d x =>
    obtain ⟨rfl, -⟩ := List.cons.inj hx
    have hd := (cons_iff.1 h).1
    rcases hquote with rfl | rfl <;> simp [isWordTail] at hd

/-- No white space belongs to a number. -/
theorem isLexSpace_head (h : NumberRun hex before (c :: x) s) : isLexSpace c = false := by
  have hc := (cons_iff.1 h).1
  rw [Bool.or_eq_true, Bool.or_eq_true, decide_eq_true_eq] at hc
  rcases hc with (hc | rfl) | hc
  · exact isLexSpace_eq_false hc (by decide)
  · decide
  · simp only [Bool.and_eq_true, Bool.or_eq_true, decide_eq_true_eq] at hc
    rcases hc.1.1 with rfl | rfl <;> decide

end NumberRun

/-! ### Segments -/

section Segments

variable {c : Char} {kind : SegmentKind} {word rest u v : List Char}

theorem isWordTail_of_isNumberTail (h : isNumberTail c = false) : isWordTail c = false :=
  (Bool.or_eq_false_iff.1 h).1

/-- A character of identifiers that is none of words. -/
theorem eq_dollar (hc : isIdentTail c = true) (hword : isWordTail c = false) : c = '$' := by
  rw [isIdentTail, hword, Bool.false_or] at hc
  exact of_decide_eq_true hc

theorem isWordHead_or_isDigit (h : isWordTail c = true) : isWordHead c = true ∨ c.isDigit = true := by
  simp only [isWordTail, Char.isAlphanum, Bool.or_eq_true] at h
  rw [isWordHead, Bool.or_eq_true]
  exact Or.elim h (Or.imp_left Or.inl) fun h => Or.inl (Or.inr h)

theorem startsNumber_append (h : startsNumber c word = true) (v : List Char) :
    startsNumber c (word ++ v) = true := by
  cases word with
  | nil =>
    rw [startsNumber, Bool.or_eq_true] at h ⊢
    exact Or.inl (h.resolve_right (by simp))
  | cons d w => exact h

/-- The segments at the head of a text. -/
theorem FirstSegment.classes (h : FirstSegment kind word rest) :
    (kind = .quoted ∧ ∃ q w, word = q :: w ∧ (q = '"' ∨ q = '\x27')) ∨ kind = .ident ∨
      (kind = .number ∧ ∃ hex before, NumberRun hex before word rest) ∨
      kind = .other ∧ (word.all isWordSpace = true ∨ ∃ c, word = [c] ∧ c ≠ '"' ∧ c ≠ '\x27' ∧
        isWordTail c = false ∧ startsNumber c rest = false) := by
  obtain ⟨c, w, rfl, hn⟩ := h
  unfold nextSegment at hn
  split_ifs at hn with hquote hhead hnumber hspace <;> obtain ⟨rfl, hlength⟩ := Prod.mk.inj hn
  · exact Or.inl ⟨rfl, c, w, rfl, by simpa using hquote⟩
  · exact Or.inr (Or.inl rfl)
  · refine Or.inr (Or.inr (Or.inl ⟨rfl, _, c, NumberRun.cons ?_ hlength⟩))
    rw [startsNumber, Bool.or_eq_true, Bool.and_eq_true, decide_eq_true_eq] at hnumber
    rcases hnumber with hdigit | ⟨rfl, -⟩
    · exact isNumberTail_of_isDigit hdigit
    · decide
  · refine Or.inr (Or.inr (Or.inr ⟨rfl, Or.inl ?_⟩))
    rw [List.all_cons, hspace, (length_takeWhile_append_eq.1 hlength).1]
    rfl
  · obtain rfl : w = [] := List.eq_nil_of_length_eq_zero hlength.symm
    simp only [Bool.or_eq_true, decide_eq_true_eq, not_or] at hquote
    refine Or.inr (Or.inr (Or.inr ⟨rfl, Or.inr ⟨c, rfl, hquote.1, hquote.2, ?_, ?_⟩⟩))
    · refine Bool.eq_false_iff.2 fun htail => ?_
      rcases isWordHead_or_isDigit htail with h | h
      · exact hhead h
      · exact hnumber (by rw [startsNumber, h, Bool.true_or])
    · exact Bool.eq_false_iff.2 hnumber

theorem FirstSegment.quote (h : FirstSegment .quoted word rest) :
    ∃ q w, word = q :: w ∧ (q = '"' ∨ q = '\x27') := by
  rcases h.classes with ⟨-, hq⟩ | h | ⟨h, -⟩ | ⟨h, -⟩
  · exact hq
  all_goals cases h

end Segments

/-! ### Segments inside tokens -/

/-- A number that remains begins with a number, or with the sign of its exponent. -/
theorem startsNumber_or_sign {a b u : List Char} {c : Char} (hb : SignedDigits b)
    (hstart : ∀ c r, a = c :: r → startsNumber c (r ++ b) = true) (h : a ++ b = c :: u) :
    startsNumber c u = true ∨ (c = '+' ∨ c = '-') ∧
      ∃ d w, u = d :: w ∧ d.isDigit = true ∧ w.all isWordTail = true := by
  cases a with
  | nil =>
    cases hb with
    | none => cases h
    | sign hs hd hw =>
      obtain ⟨rfl, rfl⟩ := List.cons.inj h
      exact Or.inr ⟨hs, _, _, rfl, hd, hw⟩
  | cons d r =>
    obtain ⟨rfl, rfl⟩ := List.cons.inj h
    exact Or.inl (hstart d r rfl)

/-- In a part of a number behind a sign nothing stops the number. -/
theorem SignedDigits.eq_nil_of_append {w u : List Char} {c : Char} (h : SignedDigits (w ++ c :: u))
    (hc : isNumberTail c = false) : w = [] := by
  cases w with
  | nil => rfl
  | cons s w =>
    generalize hb : s :: w ++ c :: u = b at h
    cases h with
    | none => cases hb
    | @sign _ d w' hs hd hw' =>
      have hmem : c ∈ d :: w' := by
        rw [← (List.cons.inj hb).2]
        simp
      have htail : isWordTail c = true := by
        rcases List.mem_cons.1 hmem with rfl | hmem
        · exact isWordTail_of_isDigit hd
        · exact List.all_eq_true.1 hw' c hmem
      rw [isNumberTail_of_isWordTail htail] at hc
      cases hc

theorem isWordHead_of_startsNumber {c : Char} {r : List Char} (h : startsNumber c r = true) :
    isWordHead c = false := by
  rw [startsNumber, Bool.or_eq_true, Bool.and_eq_true, decide_eq_true_eq] at h
  rcases h with h | ⟨rfl, -⟩
  · refine Bool.eq_false_iff.2 fun hhead => ?_
    rw [isDigit_of_isWordHead hhead] at h
    cases h
  · decide

namespace TokenKind.Remains

variable {k : TokenKind} {c : Char} {u v word rest : List Char}

/-- No token begins with white space, nor does what remains of it. -/
theorem isLexSpace_head (h : k.Remains (c :: u) v) : isLexSpace c = false := by
  generalize hw : c :: u = w at h
  cases h with
  | word hu hall hv hdollar =>
    rw [← hw, List.all_cons, Bool.and_eq_true] at hall
    exact isLexSpace_eq_false hall.1 (by decide)
  | wide hk htext hu =>
    obtain ⟨rfl, -⟩ := List.cons.inj hw
    decide
  | quoted hu =>
    obtain ⟨q, w', rfl, hq⟩ := hu.quote
    obtain ⟨rfl, -⟩ := List.cons.inj hw
    rcases hq with rfl | rfl <;> decide
  | number ha hb hstart =>
    rcases startsNumber_or_sign hb hstart hw.symm with hnumber | ⟨rfl | rfl, -⟩
    · rw [startsNumber, Bool.or_eq_true, Bool.and_eq_true, decide_eq_true_eq] at hnumber
      rcases hnumber with hdigit | ⟨rfl, -⟩
      · exact isLexSpace_eq_false hdigit (by decide)
      · decide
    · decide
    · decide
  | marks hall =>
    rw [← hw, List.all_cons, Bool.and_eq_true, isMark, Bool.and_eq_true, Bool.not_eq_true'] at hall
    exact hall.1.2

/-- A word of the text that begins with characters of an identifier does not reach beyond this, and where
it ends before it a dollar sign follows. -/
theorem exists_append_of_firstSegment (hall : u.all isIdentTail = true)
    (hv : v.head?.any isIdentTail = false) (hword : FirstSegment .ident word rest)
    (heq : word ++ rest = u ++ v) :
    ∃ u', u = word ++ u' ∧ rest = u' ++ v ∧ (u' = [] ∨ '$' ∈ u') := by
  obtain ⟨hisWord, hrest⟩ := firstSegment_ident.1 hword
  rcases List.append_eq_append_iff.1 heq with ⟨u', rfl, rfl⟩ | ⟨w, rfl, rfl⟩
  · refine ⟨u', rfl, rfl, ?_⟩
    cases u' with
    | nil => exact Or.inl rfl
    | cons d u' =>
      rw [List.all_append, Bool.and_eq_true, List.all_cons, Bool.and_eq_true] at hall
      rw [eq_dollar hall.2.1 hrest]
      exact Or.inr List.mem_cons_self
  · cases w with
    | nil => exact ⟨[], by simp, rfl, Or.inl rfl⟩
    | cons d w =>
      have hd : isWordTail d = true := isWordTail_of_isWord hisWord (by simp)
      rw [List.cons_append, List.head?_cons, Option.any_some, isIdentTail, hd] at hv
      cases hv

/-- A word begins inside a word or at the `L` of a literal, and ends there. -/
theorem ident (h : k.Remains u v) (hu : u ≠ []) (hword : FirstSegment .ident word rest)
    (heq : word ++ rest = u ++ v) :
    (∃ u', u = word ++ u' ∧ rest = u' ++ v ∧ (u' = [] ∨ k.Remains u' v)) ∧
      ((∃ name, k = .ident name ∧ u <:+ name.toList ∧ (word = name.toList ↔ '$' ∉ name.toList)) ∨
        k.isWide = true ∧ word = ['L'] ∧ k.text.toList = u) := by
  obtain ⟨hisWord, hrest⟩ := firstSegment_ident.1 hword
  obtain ⟨c, u', hcons, hhead⟩ : ∃ c u', u = c :: u' ∧ isWordHead c = true := by
    obtain ⟨c, w, rfl⟩ := List.exists_cons_of_ne_nil hword.ne_nil
    obtain ⟨d, u', rfl⟩ := List.exists_cons_of_ne_nil hu
    obtain ⟨rfl, -⟩ := List.cons.inj heq
    exact ⟨c, u', rfl, (Bool.and_eq_true_iff.1 hisWord).1⟩
  cases h with
  | @word name _ _ hsuffix hall hv hdollar =>
    obtain ⟨u', rfl, rfl, hu'⟩ := exists_append_of_firstSegment hall hv hword heq
    rw [List.all_append, Bool.and_eq_true] at hall
    have hmem : '$' ∈ u' → '$' ∈ name.toList := fun h =>
      hsuffix.subset (List.mem_append_right word h)
    refine ⟨⟨u', rfl, rfl, hu'.imp_right fun hdol => ?_⟩, Or.inl ⟨name, rfl, hsuffix, ?_⟩⟩
    · exact .word ((List.suffix_append word u').trans hsuffix) hall.2 hv (Or.inr (hmem hdol))
    · constructor
      · intro hname hdol
        rw [← hname] at hdol
        exact absurd (isWordTail_of_isWord hisWord hdol) (by decide)
      · intro hno
        rw [hu'.resolve_right (mt hmem hno), List.append_nil] at hdollar
        exact hdollar.resolve_right hno
  | @wide _ w _ hk htext hquoted =>
    obtain ⟨q, w, rfl, hq⟩ := hquoted.quote
    obtain ⟨c, word, rfl⟩ := List.exists_cons_of_ne_nil hword.ne_nil
    obtain ⟨rfl, htail⟩ := List.cons.inj heq
    obtain rfl : word = [] := by
      cases word with
      | nil => rfl
      | cons d word =>
        obtain ⟨rfl, -⟩ := List.cons.inj htail
        have hd : isWordTail d = true := isWordTail_of_isWord hisWord (by simp)
        rcases hq with rfl | rfl <;> exact absurd hd (by decide)
    exact ⟨⟨q :: w, rfl, htail, Or.inr (.quoted hquoted)⟩, Or.inr ⟨hk, rfl, htext⟩⟩
  | quoted hquoted => exact absurd (hword.unique hquoted heq).1 nofun
  | number ha hb hstart =>
    rcases startsNumber_or_sign hb hstart hcons with hnumber | ⟨rfl | rfl, -⟩
    · rw [isWordHead_of_startsNumber hnumber] at hhead
      cases hhead
    · cases hhead
    · cases hhead
  | marks hall =>
    rw [hcons, List.all_cons, isMark, isIdentTail, isWordTail_of_isWordHead hhead] at hall
    cases hall

/-- A segment in quotes is what remains of a literal. -/
theorem quoted_eq (h : k.Remains u v) (hu : u ≠ []) (hword : FirstSegment .quoted word rest)
    (heq : word ++ rest = u ++ v) : word = u ∧ rest = v := by
  obtain ⟨q, w, rfl, hq⟩ := hword.quote
  obtain ⟨u', hcons⟩ : ∃ u', u = q :: u' := by
    obtain ⟨d, u', rfl⟩ := List.exists_cons_of_ne_nil hu
    obtain ⟨rfl, -⟩ := List.cons.inj heq
    exact ⟨u', rfl⟩
  cases h with
  | word hsuffix hall hv hdollar =>
    rw [hcons, List.all_cons] at hall
    rcases hq with rfl | rfl <;> cases hall
  | wide hk htext hquoted =>
    obtain ⟨rfl, -⟩ := List.cons.inj hcons
    rcases hq with hq | hq <;> cases hq
  | quoted hquoted => exact (hword.unique hquoted heq).2
  | number ha hb hstart =>
    rcases startsNumber_or_sign hb hstart hcons with hnumber | ⟨hs, -⟩
    · rcases hq with rfl | rfl <;> cases hnumber
    · rcases hq with rfl | rfl <;> rcases hs with hs | hs <;> cases hs
  | marks hall =>
    rw [hcons, List.all_cons] at hall
    rcases hq with rfl | rfl <;> cases hall

/-- Another character is a dollar sign, a sign of an exponent or a part of a punctuator. -/
theorem mark {c : Char} (h : k.Remains (c :: u) v) (hdouble : c ≠ '"') (hsingle : c ≠ '\x27')
    (htail : isWordTail c = false) (hnumber : startsNumber c (u ++ v) = false) : k.Remains u v := by
  generalize hw : c :: u = w at h
  cases h with
  | word hsuffix hall hv hdollar =>
    subst hw
    rw [List.all_cons, Bool.and_eq_true] at hall
    obtain rfl := eq_dollar hall.1 htail
    exact .word ((List.suffix_cons _ u).trans hsuffix) hall.2 hv
      (Or.inr (hsuffix.subset List.mem_cons_self))
  | wide hk htext hquoted =>
    obtain ⟨rfl, -⟩ := List.cons.inj hw
    cases htail
  | quoted hquoted =>
    obtain ⟨q, w', rfl, hq⟩ := hquoted.quote
    obtain ⟨rfl, -⟩ := List.cons.inj hw
    exact absurd hq (not_or.2 ⟨hdouble, hsingle⟩)
  | number ha hb hstart =>
    rcases startsNumber_or_sign hb hstart hw.symm with hstarts | ⟨-, d, w', rfl, hd, hw'⟩
    · rw [startsNumber_append hstarts] at hnumber
      cases hnumber
    · rw [← List.append_nil (d :: w')]
      refine .number (b := []) ?_ .none ?_
      · rw [List.all_cons, isNumberTail_of_isDigit hd,
          all_of_imp (fun _ => isNumberTail_of_isWordTail) hw']
        rfl
      · intro e r her
        rw [← (List.cons.inj her).1, startsNumber, hd, Bool.true_or]
  | marks hall =>
    rw [← hw, List.all_cons, Bool.and_eq_true] at hall
    exact .marks hall.2

/-- A number that ends inside a token leaves a part of it behind. -/
theorem of_numberRun {hex : Bool} {before c : Char} {x : List Char} (h : k.Remains (x ++ c :: u) v)
    (hx : NumberRun hex before x (c :: u ++ v)) : k.Remains (c :: u) v := by
  have hc := hx.isNumberTail_head
  have hword := isWordTail_of_isNumberTail hc
  generalize hw : x ++ c :: u = w at h
  cases h with
  | word hsuffix hall hv hdollar =>
    subst hw
    rw [List.all_append, Bool.and_eq_true, List.all_cons, Bool.and_eq_true] at hall
    refine .word ((List.suffix_append x _).trans hsuffix) ?_ hv (Or.inr ?_)
    · rw [List.all_cons, hall.2.1, hall.2.2]
      rfl
    · rw [← eq_dollar hall.2.1 hword]
      exact hsuffix.subset (by simp)
  | @wide _ w _ hk htext hquoted =>
    obtain ⟨q, w, rfl, hq⟩ := hquoted.quote
    cases x with
    | nil =>
      obtain ⟨rfl, rfl⟩ := List.cons.inj hw
      cases hword
    | cons d x =>
      obtain ⟨rfl, hrest⟩ := List.cons.inj hw
      have hrun := (NumberRun.cons_iff.1 hx).2
      obtain rfl : x = [] := hrun.eq_nil_of_quote hq (w := w ++ v) (by
        rw [← List.append_assoc, show x ++ c :: u = q :: w from hrest]
        rfl)
      rw [show c :: u = q :: w from hrest]
      exact .quoted hquoted
  | quoted hquoted =>
    obtain ⟨q, w, rfl, hq⟩ := hquoted.quote
    obtain rfl : x = [] := hx.eq_nil_of_quote hq (w := w ++ v) (by
      rw [← List.append_assoc, hw]
      rfl)
    rw [show c :: u = q :: w from hw]
    exact .quoted hquoted
  | @number _ a b _ ha hb hstart =>
    -- all but the sign would go on with the number
    obtain rfl : c :: u = b := by
      rcases List.append_eq_append_iff.1 hw with ⟨w, rfl, htail⟩ | ⟨w, rfl, rfl⟩
      · cases w with
        | nil => exact htail
        | cons d w =>
          obtain ⟨rfl, -⟩ := List.cons.inj htail
          rw [List.all_append, List.all_cons, hc, Bool.false_and, Bool.and_false] at ha
          cases ha
      · rw [hb.eq_nil_of_append hc, List.nil_append]
    exact .number (a := []) rfl hb nofun
  | marks hall =>
    subst hw
    rw [List.all_append, Bool.and_eq_true] at hall
    exact .marks hall.2

end TokenKind.Remains

/-! ### The scanner and the lexer -/

/-- Of the token the characters `u` remain at the offset, before `v`. -/
structure Token.Leaves (t : Token) (offset : Nat) (u v : List Char) : Prop where
  size : t.start + byteLength t.kind.text.toList = t.stop
  stop : t.stop = offset + byteLength u
  remains : t.kind.Remains u v

/-- A segment begins at the offset, and the text `cs` is still to be cut: what remains of one of the
tokens, if the offset is inside it, and a text whose tokens are among them. -/
def Scans (ts : List Token) (offset : Nat) (cs : List Char) : Prop :=
  ∃ u v, cs = u ++ v ∧ (u = [] ∨ ∃ t ∈ ts, t.Leaves offset u v) ∧
    tokensFrom (offset + byteLength u) v ⊆ ts

/-- The range is one of a word in the token: all of the token, if it is a word without a dollar sign,
and less, if there is one in it; or the `L` of a wide literal. -/
def Token.HasWord (t : Token) (span : Nat × Nat) : Prop :=
  t.start ≤ span.1 ∧ span.2 ≤ t.stop ∧
    ((∃ name, t.kind = .ident name ∧ ((t.start, t.stop) = span ↔ '$' ∉ name.toList)) ∨
      t.kind.isWide = true ∧ span = (t.start, t.start + 1))

theorem Text.eq_nil_of_byteLength {cs : List Char} (h : byteLength cs = 0) : cs = [] := by
  cases cs with
  | nil => rfl
  | cons c cs =>
    have hc := c.utf8Size_pos
    rw [byteLength_cons] at h
    omega

theorem Token.Leaves.hasWord {t : Token} {offset : Nat} {u v word rest : List Char}
    (h : t.Leaves offset u v) (hu : u ≠ []) (hword : FirstSegment .ident word rest)
    (heq : word ++ rest = u ++ v) : t.HasWord (offset, offset + byteLength word) := by
  obtain ⟨hsize, hstop, hremains⟩ := h
  obtain ⟨⟨u', rfl, rfl, -⟩, hclass⟩ := hremains.ident hu hword heq
  rw [byteLength_append] at hstop
  rcases hclass with ⟨name, hkind, ⟨w, hname⟩, hdollar⟩ | ⟨hwide, rfl, htext⟩
  · have hbytes := congrArg byteLength hname
    rw [byteLength_append, byteLength_append] at hbytes
    rw [hkind, show (TokenKind.ident name).text = name from rfl] at hsize
    refine ⟨by dsimp only; omega, by dsimp only; omega, Or.inl ⟨name, hkind, ?_⟩⟩
    rw [← hdollar, Prod.mk.injEq]
    constructor
    · rintro ⟨hbegin, hend⟩
      -- nothing of the name is before the word, and nothing is behind it
      have hw : w = [] := eq_nil_of_byteLength (by omega)
      have hu' : u' = [] := eq_nil_of_byteLength (by omega)
      rw [← hname, hw, hu', List.nil_append, List.append_nil]
    · intro hwhole
      rw [← hwhole] at hbytes hsize
      constructor <;> omega
  · have hletter : byteLength ['L'] = 1 := rfl
    rw [htext, byteLength_append] at hsize
    rw [hletter] at hsize hstop ⊢
    have hstart : t.start = offset := by omega
    exact ⟨by dsimp only; omega, by dsimp only; omega, Or.inr ⟨hwide, by rw [hstart]⟩⟩

namespace Scans

variable {ts : List Token} {offset : Nat} {c : Char} {r word rest : List Char} {kind : SegmentKind}

/-- Behind some of what remains of a token the rest remains. -/
theorem of_leaves {t : Token} {u' v : List Char} (ht : t ∈ ts) (h : t.Leaves offset (word ++ u') v)
    (hu' : u' = [] ∨ t.kind.Remains u' v)
    (hv : tokensFrom (offset + byteLength (word ++ u')) v ⊆ ts) :
    Scans ts (offset + byteLength word) (u' ++ v) := by
  have hbytes : offset + byteLength word + byteLength u' = offset + byteLength (word ++ u') := by
    rw [byteLength_append, Nat.add_assoc]
  refine ⟨u', v, rfl, hu'.imp_right fun hremains => ⟨t, ht, h.size, ?_, hremains⟩, ?_⟩
  · rw [hbytes, h.stop]
  · rwa [hbytes]

/-- The scanner has read all of a token. -/
theorem of_tokensFrom (h : tokensFrom offset rest ⊆ ts) : Scans ts offset rest :=
  ⟨[], rest, rfl, Or.inl rfl, h⟩

theorem space (h : Scans ts offset (c :: r)) (hc : isLexSpace c = true) :
    Scans ts (offset + c.utf8Size) r := by
  obtain ⟨u, v, heq, hu, hv⟩ := h
  cases u with
  | nil =>
    rw [List.nil_append] at heq
    rw [← heq, byteLength_nil, Nat.add_zero, tokensFrom_space offset hc] at hv
    exact of_tokensFrom hv
  | cons d u =>
    obtain ⟨t, ht, hleaves⟩ := hu.resolve_left (List.cons_ne_nil d u)
    obtain ⟨rfl, -⟩ := List.cons.inj heq
    rw [hleaves.remains.isLexSpace_head] at hc
    cases hc

theorem spaces (h : Scans ts offset (word ++ r)) (hword : word.all isLexSpace = true) :
    Scans ts (offset + byteLength word) r := by
  induction word generalizing offset with
  | nil => exact h
  | cons c w ih =>
    rw [List.all_cons, Bool.and_eq_true] at hword
    rw [byteLength_cons, ← Nat.add_assoc]
    exact ih (h.space hword.1) hword.2

section Errors

variable (hts : ∀ t ∈ ts, ∀ d, t.kind ≠ .error d)
include hts

/-- Where no white space is, the scanner is inside a token or at the beginning of one. -/
theorem exists_leaves (h : Scans ts offset (c :: r)) (hc : isLexSpace c = false) :
    ∃ t ∈ ts, ∃ u v, c :: r = u ++ v ∧ u ≠ [] ∧ t.Leaves offset u v ∧
      tokensFrom (offset + byteLength u) v ⊆ ts := by
  obtain ⟨u, v, heq, hu, hv⟩ := h
  by_cases hnil : u = []
  · subst hnil
    rw [List.nil_append] at heq
    obtain ⟨k, n, hnext⟩ : ∃ k n, nextToken c r = (k, n) := ⟨_, _, rfl⟩
    rw [← heq, byteLength_nil, Nat.add_zero, tokensFrom_token offset hc hnext,
      List.cons_subset] at hv
    have hk := hts _ hv.1
    refine ⟨_, hv.1, c :: r.take n, r.drop n, ?_, List.cons_ne_nil _ _, ⟨?_, rfl, ?_⟩, hv.2⟩
    · rw [List.cons_append, List.take_append_drop]
    · rw [(nextToken_eq hnext hk).2]
    · exact remains_nextToken hnext hk
  · obtain ⟨t, ht, hleaves⟩ := hu.resolve_left hnil
    exact ⟨t, ht, u, v, heq, hnil, hleaves, hv⟩

/-- A number is read token by token; the last one may go on behind it. -/
theorem number {offset : Nat} {hex : Bool} {before : Char} {x s : List Char}
    (h : Scans ts offset (x ++ s)) (hx : NumberRun hex before x s) :
    Scans ts (offset + byteLength x) s := by
  match x with
  | [] => exact h
  | c :: x =>
    obtain ⟨t, ht, u, v, heq, hu, hleaves, hv⟩ := h.exists_leaves hts hx.isLexSpace_head
    rcases List.append_eq_append_iff.1 (show (c :: x) ++ s = u ++ v from heq) with
      ⟨u', rfl, rfl⟩ | ⟨x', hx', rfl⟩
    · refine of_leaves ht hleaves ?_ hv
      cases u' with
      | nil => exact Or.inl rfl
      | cons d u' => exact Or.inr (hleaves.remains.of_numberRun hx)
    · have hshorter : x'.length < (c :: x).length := by
        rw [hx', List.length_append]
        exact Nat.lt_add_of_pos_left (List.length_pos_iff.2 hu)
      rw [hx'] at hx
      obtain ⟨before', hrun⟩ := hx.of_append
      have hscans := number (of_tokensFrom hv) hrun
      rwa [Nat.add_assoc, ← byteLength_append, ← hx'] at hscans
  termination_by x.length
  decreasing_by exact hshorter

/-- **One segment more.** If it is a word, it lies in one of the tokens. -/
theorem segment (h : Scans ts offset (word ++ rest)) (hfirst : FirstSegment kind word rest) :
    Scans ts (offset + byteLength word) rest ∧
      (kind = .ident → ∃ t ∈ ts, t.HasWord (offset, offset + byteLength word)) := by
  rcases hfirst.classes with ⟨rfl, q, w, rfl, hq⟩ | rfl | ⟨rfl, hex, before, hrun⟩ |
    ⟨rfl, hblank | ⟨c, rfl, hdouble, hsingle, htail, hnumber⟩⟩
  · have hspace : isLexSpace q = false := by rcases hq with rfl | rfl <;> decide
    obtain ⟨t, ht, u, v, heq, hu, hleaves, hv⟩ := h.exists_leaves hts hspace
    obtain ⟨rfl, rfl⟩ := hleaves.remains.quoted_eq hu hfirst heq
    exact ⟨of_tokensFrom hv, nofun⟩
  · obtain ⟨c, w, rfl⟩ := List.exists_cons_of_ne_nil hfirst.ne_nil
    have htail : isWordTail c = true :=
      isWordTail_of_isWord (firstSegment_ident.1 hfirst).1 List.mem_cons_self
    obtain ⟨t, ht, u, v, heq, hu, hleaves, hv⟩ :=
      h.exists_leaves hts (isLexSpace_eq_false htail (by decide))
    obtain ⟨⟨u', rfl, rfl, hu'⟩, -⟩ := hleaves.remains.ident hu hfirst heq
    exact ⟨of_leaves ht hleaves hu' hv, fun _ => ⟨t, ht, hleaves.hasWord hu hfirst heq⟩⟩
  · exact ⟨h.number hts hrun, nofun⟩
  · refine ⟨h.spaces (all_of_imp (fun c hc => ?_) hblank), nofun⟩
    exact Bool.or_eq_true_iff.2 (Or.inl hc)
  · refine ⟨?_, nofun⟩
    by_cases hspace : isLexSpace c = true
    · exact h.space hspace
    · obtain ⟨t, ht, u, v, heq, hu, hleaves, hv⟩ :=
        h.exists_leaves hts (Bool.eq_false_iff.2 hspace)
      obtain ⟨d, u, rfl⟩ := List.exists_cons_of_ne_nil hu
      obtain ⟨rfl, hrest⟩ := List.cons.inj heq
      obtain rfl : rest = u ++ v := hrest
      have hu' := hleaves.remains.mark hdouble hsingle htail hnumber
      exact of_leaves ht (show t.Leaves offset ([c] ++ u) v from hleaves) (Or.inr hu') hv

/-- All the words of a text lie in its tokens. -/
theorem hasWord {cs : List Char} (h : Scans ts offset cs) {span : Nat × Nat}
    (hspan : (SegmentKind.ident, span) ∈ segmentSpansFrom offset (segments cs)) :
    span.1 < span.2 ∧ ∃ t ∈ ts, t.HasWord span := by
  induction cs using firstSegment_induction generalizing offset with
  | hnil =>
    rw [segments] at hspan
    cases hspan
  | hsegment kind word rest hfirst ih =>
    obtain ⟨hrest, hword⟩ := h.segment hts hfirst
    rw [segments_append hfirst] at hspan
    rcases List.mem_cons.1 hspan with hhere | hlater
    · obtain ⟨hkind, rfl⟩ := Prod.mk.inj hhere
      obtain ⟨c, w, rfl⟩ := List.exists_cons_of_ne_nil hfirst.ne_nil
      have hc := c.utf8Size_pos
      refine ⟨?_, hword hkind.symm⟩
      show offset < offset + byteLength (c :: w)
      rw [byteLength_cons]
      omega
    · exact ih hrest hlater

end Errors

end Scans

/-! ### Words of a text -/

/-- Two tokens of a text that share a byte are one. -/
theorem eq_of_mem_tokensFrom {offset : Nat} {cs : List Char} {a b : Token}
    (ha : a ∈ tokensFrom offset cs) (hb : b ∈ tokensFrom offset cs) {n : Nat}
    (hna : a.start ≤ n ∧ n < a.stop) (hnb : b.start ≤ n ∧ n < b.stop) : a = b := by
  obtain ⟨i, hi, rfl⟩ := List.getElem_of_mem ha
  obtain ⟨j, hj, rfl⟩ := List.getElem_of_mem hb
  have horder := List.pairwise_iff_getElem.1 (pairwise_tokensFrom offset cs)
  rcases Nat.lt_trichotomy i j with hij | rfl | hji
  · have := horder i j hi hj hij
    omega
  · rfl
  · have := horder j i hj hi hji
    omega

/-- **The word scanner and the lexer.** In a text without lexical errors each range that is looked at as
an identifier lies in one token and no other. This is a word, and all of it unless there is a dollar sign
in it, or it is a wide literal, of which the range is the `L`. -/
theorem existsUnique_hasWord {text : String} (h : lexErrors (tokenize text) = [])
    {span : Nat × Nat} (hspan : span ∈ identifierSpans text.toList) :
    ∃! t, t ∈ tokenize text ∧ t.HasWord span := by
  have herrors : ∀ t ∈ tokenize text, ∀ d, t.kind ≠ .error d := by
    intro t ht d hd
    have hnone := List.filterMap_eq_nil_iff.1 h t ht
    rw [Token.error?, hd] at hnone
    cases hnone
  have hmem : (SegmentKind.ident, span) ∈ segmentSpansFrom 0 (segments text.toList) := by
    obtain ⟨⟨kind, place⟩, hplace, hident⟩ := List.mem_filterMap.1 hspan
    split at hident
    · rename_i hkind
      obtain rfl := Option.some.inj hident
      rwa [show kind = .ident from hkind] at hplace
    · cases hident
  have hscans : Scans (tokenize text) 0 text.toList := Scans.of_tokensFrom (List.Subset.refl _)
  obtain ⟨hlt, t, ht, hword⟩ := hscans.hasWord herrors hmem
  have hbyte : ∀ {t : Token}, t.HasWord span → t.start ≤ span.1 ∧ span.1 < t.stop := fun h =>
    ⟨h.1, Nat.lt_of_lt_of_le hlt h.2.1⟩
  exact ⟨t, ⟨ht, hword⟩, fun t' ht' => eq_of_mem_tokensFrom ht'.1 ht (hbyte ht'.2) (hbyte hword)⟩

/-- Two words at a dollar sign, the `L` of a wide literal, a word of its own, and an `L` that the scanner
takes for a part of the number before it. -/
theorem existsUnique_hasWord_sample :
    let text := "A$B L\"w\" x 0x1.5fL'c'"
    identifierSpans text.toList = [(0, 1), (2, 3), (4, 5), (9, 10)] ∧
      lexErrors (tokenize text) = [] ∧
      ∀ span ∈ [(0, 1), (2, 3), (4, 5), (9, 10)], ∃! t, t ∈ tokenize text ∧ t.HasWord span := by
  intro text
  have hspans : identifierSpans text.toList = [(0, 1), (2, 3), (4, 5), (9, 10)] := by decide +kernel
  have hclean : lexErrors (tokenize text) = [] := by decide +kernel
  exact ⟨hspans, hclean, fun span hspan => existsUnique_hasWord hclean (by rwa [hspans])⟩

/-- Not every range is that of a word among the tokens: where `L` and `A` are macros, a body takes the
place of the `L` of a wide literal and of a part of `A$B`. -/
theorem not_exists_ident_of_mem_identifierSpans :
    (¬ ∀ text : String, lexErrors (tokenize text) = [] → ∀ span ∈ identifierSpans text.toList,
        ∃ t ∈ tokenize text, (∃ name, t.kind = .ident name) ∧ (t.start, t.stop) = span) ∧
      let table : MacroTable := ⟨.ofList [("L", "1"), ("A", "2")], .empty⟩
      tokenize "L\"w\"" = [⟨.str "L\"w\"", 0, 4⟩] ∧
        (table.expand [] "L\"w\"".toList).text = "1\"w\"".toList ∧
        tokenize "A$B" = [⟨.ident "A$B", 0, 3⟩] ∧
        (table.expand [] "A$B".toList).text = "2$B".toList := by
  have hwide : tokenize "L\"w\"" = [⟨.str "L\"w\"", 0, 4⟩] := by decide +kernel
  have hliteral : MacroTable.expand ⟨.ofList [("L", "1"), ("A", "2")], .empty⟩ []
      "L\"w\"".toList = ⟨"1\"w\"".toList, 9999, []⟩ :=
    MacroTable.expand_eq_of_iterate 10 (by decide)
  have hdollar : MacroTable.expand ⟨.ofList [("L", "1"), ("A", "2")], .empty⟩ []
      "A$B".toList = ⟨"2$B".toList, 9999, []⟩ :=
    MacroTable.expand_eq_of_iterate 10 (by decide)
  refine ⟨fun h => ?_, hwide, congrArg Expansion.text hliteral, by decide +kernel,
    congrArg Expansion.text hdollar⟩
  have hspan : (0, 1) ∈ identifierSpans "L\"w\"".toList := by decide +kernel
  obtain ⟨t, ht, ⟨name, hname⟩, -⟩ := h "L\"w\"" (by rw [hwide]; rfl) (0, 1) hspan
  rw [hwide, List.mem_singleton] at ht
  subst ht
  cases hname

end CInterface
