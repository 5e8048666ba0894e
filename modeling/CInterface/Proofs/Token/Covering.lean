import Mathlib.Data.List.Forall2
import CInterface.Proofs.Token.Fusing
import CInterface.Proofs.Token.Places
/-!
# Tokens cover their text

Nothing of a text is lost when it is cut into tokens: each of them stands for a part of the text, which
is its spelling unless it is an error, and there is only white space between these parts.

* `Covers` — tokens and the parts of a text for which they stand.
* `covers_tokensFrom` — the tokens of a text cover it.
* `Covers.exists_part`, `Covers.isLexSpace_of_outside` — the parts, and what is between them.
* `forall₂_lexErrors` — the errors are those of the error tokens.
-/

namespace CInterface

open Text

theorem Text.slice_zero_append (cs ds : List Char) : slice 0 (byteLength cs) (cs ++ ds) = cs := by
  induction cs with
  | nil => cases ds <;> simp [slice]
  | cons c cs ih =>
    have hc := c.utf8Size_pos
    rw [List.cons_append, slice_cons_of_pos c _ (by rw [byteLength_cons]; omega), byteLength_cons,
      Nat.add_sub_cancel_left, ih]

/-! ### Covering a text -/

/-- The token stands for these characters: its spelling, or for an error what begins with the character
that it is about. -/
def TokenKind.StandsFor (cs : List Char) : TokenKind → Prop
  | error first => cs.head? = some first
  | k => k.text.toList = cs

/-- From the byte offset on the text consists of what the tokens stand for, with white space before,
between and behind. -/
inductive Covers : Nat → List Char → List Token → Prop where
  | nil {offset : Nat} {gap : List Char} (hgap : gap.all isLexSpace = true) : Covers offset gap []
  | cons {offset : Nat} {gap lexeme rest : List Char} {t : Token} {ts : List Token}
      (hgap : gap.all isLexSpace = true) (hne : lexeme ≠ [])
      (hstart : t.start = offset + byteLength gap) (hstop : t.stop = t.start + byteLength lexeme)
      (hkind : t.kind.StandsFor lexeme) (h : Covers t.stop rest ts) :
      Covers offset (gap ++ (lexeme ++ rest)) (t :: ts)

/-- White space in front belongs to the gap before the first token. -/
theorem Covers.space {offset : Nat} {c : Char} {cs : List Char} {ts : List Token}
    (hc : isLexSpace c = true) (h : Covers (offset + c.utf8Size) cs ts) :
    Covers offset (c :: cs) ts := by
  have hall : ∀ gap : List Char, gap.all isLexSpace = true → (c :: gap).all isLexSpace = true := by
    intro gap hgap
    rw [List.all_cons, hc, hgap]
    rfl
  cases h with
  | nil hgap => exact .nil (hall _ hgap)
  | @cons _ gap lexeme rest t _ hgap hne hstart hstop hkind h =>
    have hbegin : t.start = offset + byteLength (c :: gap) := by
      rw [hstart, byteLength_cons, Nat.add_assoc]
    exact .cons (hall gap hgap) hne hbegin hstop hkind h

/-- The token at the head of a text stands for its first characters. -/
theorem standsFor_nextToken {c : Char} {r : List Char} {k : TokenKind} {n : Nat}
    (h : nextToken c r = (k, n)) : k.StandsFor (c :: r.take n) := by
  by_cases hk : ∃ d, k = .error d
  · obtain ⟨d, rfl⟩ := hk
    -- an error is about the first character
    have hclass : ∀ (K : LexClass) (lexeme : List Char), K.kind c lexeme = .error d → d = c := by
      intro K lexeme hkind
      cases K with
      | punct =>
        simp only [LexClass.kind] at hkind
        split at hkind
        · cases hkind
        · exact (TokenKind.error.inj hkind).symm
      | openStr | openChar => exact (TokenKind.error.inj hkind).symm
      | ident | integer | float | str | char => cases hkind
    refine congrArg some (Eq.symm ?_)
    unfold nextToken at h
    split at h
    · exact (TokenKind.error.inj (Prod.mk.inj h).1).symm
    · exact hclass _ _ (Prod.mk.inj h).1
  · have htext := (nextToken_eq h fun d hd => hk ⟨d, hd⟩).2
    cases k with
    | error d => exact absurd ⟨d, rfl⟩ hk
    | _ => exact htext

/-- **The tokens of a text cover it.** -/
theorem covers_tokensFrom (offset : Nat) (cs : List Char) :
    Covers offset cs (tokensFrom offset cs) := by
  fun_induction tokensFrom offset cs with
  | case1 => exact .nil rfl
  | case2 offset c r hspace ih => exact ih.space hspace
  | case3 offset c r hspace kind n hnext stop ih =>
    have h : Covers offset ([] ++ ((c :: r.take n) ++ r.drop n))
        (⟨kind, offset, stop⟩ :: tokensFrom stop (r.drop n)) :=
      .cons rfl (List.cons_ne_nil _ _) rfl rfl (standsFor_nextToken hnext) ih
    rwa [List.nil_append, List.cons_append, List.take_append_drop] at h

namespace Covers

variable {offset : Nat} {cs : List Char} {ts : List Token}

/-- Each token stands for a part of the text, from character to character. -/
theorem exists_part (h : Covers offset cs ts) {t : Token} (ht : t ∈ ts) :
    ∃ pre lexeme post, cs = pre ++ (lexeme ++ post) ∧ lexeme ≠ [] ∧
      t.start = offset + byteLength pre ∧ t.stop = t.start + byteLength lexeme ∧
      t.kind.StandsFor lexeme := by
  induction h with
  | nil hgap => cases ht
  | @cons offset gap lexeme rest u us hgap hne hstart hstop hkind h ih =>
    rcases List.mem_cons.1 ht with rfl | ht
    · exact ⟨gap, lexeme, rest, rfl, hne, hstart, hstop, hkind⟩
    · obtain ⟨pre, lexeme', post, rfl, hne', hstart', hstop', hkind'⟩ := ih ht
      refine ⟨gap ++ (lexeme ++ pre), lexeme', post, by simp, hne', ?_, hstop', hkind'⟩
      rw [hstart', hstop, hstart, byteLength_append, byteLength_append]
      omega

/-- A character for which no token stands is white space. -/
theorem isLexSpace_of_outside (h : Covers offset cs ts) {pre post : List Char} {c : Char}
    (hcs : cs = pre ++ c :: post) (hout : ∀ t ∈ ts,
      ¬ (t.start ≤ offset + byteLength pre ∧ offset + byteLength pre < t.stop)) :
    isLexSpace c = true := by
  induction h generalizing pre with
  | nil hgap =>
    refine List.all_eq_true.1 hgap c ?_
    rw [hcs]
    exact List.mem_append_right _ List.mem_cons_self
  | @cons offset gap lexeme rest u us hgap hne hstart hstop hkind h ih =>
    have hu := hout u List.mem_cons_self
    have hrest : ∀ inner, pre = gap ++ (lexeme ++ inner) → rest = inner ++ c :: post →
        isLexSpace c = true := by
      rintro inner rfl hrest
      refine ih hrest fun t ht => ?_
      have hoffset : u.stop + byteLength inner = offset + byteLength (gap ++ (lexeme ++ inner)) := by
        rw [hstop, hstart, byteLength_append, byteLength_append]
        omega
      rw [hoffset]
      exact hout t (List.mem_cons_of_mem _ ht)
    -- no character of the lexeme is outside
    have hinside : ∀ before after, pre = gap ++ before → lexeme = before ++ c :: after → False := by
      rintro before after rfl rfl
      have hc := c.utf8Size_pos
      rw [hstop, hstart] at hu
      simp only [byteLength_append, byteLength_cons] at hu
      omega
    rcases List.append_eq_append_iff.1 hcs with ⟨behind, rfl, hbehind⟩ | ⟨more, rfl, hmore⟩
    · rcases List.append_eq_append_iff.1 hbehind with ⟨inner, rfl, hinner⟩ | ⟨more, rfl, hmore⟩
      · exact hrest inner rfl hinner
      · cases more with
        | nil => exact hrest [] (by simp) (by simpa using hmore.symm)
        | cons d more =>
          obtain ⟨rfl, -⟩ := List.cons.inj hmore
          exact (hinside behind more rfl rfl).elim
    · cases more with
      | nil =>
        obtain ⟨d, after, rfl⟩ := List.exists_cons_of_ne_nil hne
        obtain ⟨rfl, -⟩ := List.cons.inj hmore
        exact (hinside [] after (by simp) rfl).elim
      | cons d more =>
        obtain ⟨rfl, -⟩ := List.cons.inj hmore
        exact List.all_eq_true.1 hgap c (List.mem_append_right _ List.mem_cons_self)

end Covers

/-! ### Errors -/

/-- The token is an error. -/
def Token.isError (t : Token) : Bool := t.error?.isSome

/-- There is one error for each error token, in order. -/
theorem forall₂_lexErrors (ts : List Token) : List.Forall₂
    (fun (e : LexError) (t : Token) => t ∈ ts ∧ t.kind = .error e.first ∧ e.offset = t.start)
    (lexErrors ts) (ts.filter Token.isError) := by
  suffices ∀ us ⊆ ts, List.Forall₂
      (fun (e : LexError) (t : Token) => t ∈ ts ∧ t.kind = .error e.first ∧ e.offset = t.start)
      (lexErrors us) (us.filter Token.isError) from this ts (List.Subset.refl ts)
  intro us hus
  induction us with
  | nil => exact .nil
  | cons u us ih =>
    have hrest := ih fun t ht => hus (List.mem_cons_of_mem _ ht)
    rw [lexErrors] at hrest
    rw [lexErrors, List.filterMap_cons, List.filter_cons]
    cases hu : u.error? with
    | none => simpa [Token.isError, hu] using hrest
    | some e =>
      have hkind : u.kind = .error e.first ∧ e.offset = u.start := by
        unfold Token.error? at hu
        split at hu
        · rename_i first hfirst
          cases hu
          exact ⟨hfirst, rfl⟩
        · cases hu
      simpa [Token.isError, hu] using List.Forall₂.cons ⟨hus List.mem_cons_self, hkind⟩ hrest

end CInterface
