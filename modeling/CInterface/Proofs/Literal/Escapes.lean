import CInterface.Literal
import CInterface.Value
/-!
# Escapes

The text that a string literal stands for, where the literal was written for a text.

* `escapeChar_cases` — how a character is written.
* `Literal.readBack` — what the written form of a text stands for. It differs from the text only where
  digits follow a null character, whose escape takes them along.
* `Literal.unescape_escape` — the escapes of a text are read as `Literal.readBack` says.
* `Literal.readBack_eq_self_iff` — a text is read back as it was, just where no octal digit follows a
  null character.
-/

namespace CInterface

open Text

/-! ### Characters -/

/-- A character stands for itself, or an escape of one letter stands for it. -/
theorem escapeChar_cases (c : Char) :
    (∃ d, d ≠ '\n' ∧ Value.escapeChar c = ['\\', d] ∧
      (c ≠ '\x00' → d ≠ 'x' ∧ Literal.isOctalDigit d = false ∧ Literal.simpleEscape d = c)) ∨
    (c ≠ '"' ∧ c ≠ '\\' ∧ c ≠ '\n' ∧ Value.escapeChar c = [c]) := by
  by_cases hquote : c = '"'
  · subst hquote
    exact Or.inl ⟨'"', by decide, rfl, fun _ => ⟨by decide, by decide, rfl⟩⟩
  by_cases hslash : c = '\\'
  · subst hslash
    exact Or.inl ⟨'\\', by decide, rfl, fun _ => ⟨by decide, by decide, rfl⟩⟩
  by_cases hnewline : c = '\n'
  · subst hnewline
    exact Or.inl ⟨'n', by decide, rfl, fun _ => ⟨by decide, by decide, rfl⟩⟩
  by_cases htab : c = '\t'
  · subst htab
    exact Or.inl ⟨'t', by decide, rfl, fun _ => ⟨by decide, by decide, rfl⟩⟩
  by_cases hreturn : c = '\r'
  · subst hreturn
    exact Or.inl ⟨'r', by decide, rfl, fun _ => ⟨by decide, by decide, rfl⟩⟩
  by_cases hnull : c = '\x00'
  · subst hnull
    exact Or.inl ⟨'0', by decide, rfl, fun hne => absurd rfl hne⟩
  · refine Or.inr ⟨hquote, hslash, hnewline, ?_⟩
    rw [Value.escapeChar, if_neg hquote, if_neg hslash, if_neg hnewline, if_neg htab, if_neg hreturn,
      if_neg hnull]

/-- An octal digit is written as itself. -/
theorem escapeChar_of_isOctalDigit {c : Char} (h : Literal.isOctalDigit c = true) :
    Value.escapeChar c = [c] := by
  have hne : ∀ d : Char, Literal.isOctalDigit d = false → c ≠ d := by
    rintro d hd rfl
    rw [h] at hd
    cases hd
  rw [Value.escapeChar, if_neg (hne '"' (by decide)), if_neg (hne '\\' (by decide)),
    if_neg (hne '\n' (by decide)), if_neg (hne '\t' (by decide)), if_neg (hne '\r' (by decide)),
    if_neg (hne '\x00' (by decide))]

namespace Literal

theorem unescape_self {c : Char} (hc : c ≠ '\\') (r : List Char) :
    unescape (c :: r) = c :: unescape r := by
  rw [unescape.eq_def]
  exact if_pos hc

theorem unescape_slash (d : Char) (r : List Char) : unescape ('\\' :: d :: r) =
    (escapeAt d r).1 :: unescape (r.drop (escapeAt d r).2) := by
  rw [unescape.eq_def]
  rfl

/-! ### Texts -/

/-- What the written form of a text stands for: a null character is written as an octal escape, which
takes up to two octal digits behind it along. -/
def readBack (cs : List Char) : List Char :=
  match cs with
  | [] => []
  | c :: r =>
    if c = '\x00' then
      let digits := (r.take 2).takeWhile isOctalDigit
      charOfCode (octalCode digits) :: readBack (r.drop digits.length)
    else c :: readBack r
  termination_by cs.length
  decreasing_by all_goals simp only [List.length_cons, List.length_drop]; omega

/-- No null character stands before an octal digit. -/
def nullsApart : List Char → Bool
  | [] => true
  | c :: r => !(c = '\x00' && r.head?.any isOctalDigit) && nullsApart r

/-- The octal digits at the head of a text are those at the head of its written form. -/
theorem octalDigits_escape (k : Nat) (cs : List Char) :
    ((cs.flatMap Value.escapeChar).take k).takeWhile isOctalDigit =
        (cs.take k).takeWhile isOctalDigit ∧
      (cs.flatMap Value.escapeChar).drop ((cs.take k).takeWhile isOctalDigit).length =
        (cs.drop ((cs.take k).takeWhile isOctalDigit).length).flatMap Value.escapeChar := by
  induction k generalizing cs with
  | zero => exact ⟨rfl, rfl⟩
  | succ k ih =>
    cases cs with
    | nil => exact ⟨rfl, rfl⟩
    | cons c cs =>
      rw [List.flatMap_cons, List.take_succ_cons, List.takeWhile_cons]
      by_cases hc : isOctalDigit c = true
      · obtain ⟨hdigits, hrest⟩ := ih cs
        rw [escapeChar_of_isOctalDigit hc, if_pos hc, List.singleton_append, List.take_succ_cons,
          List.takeWhile_cons, if_pos hc, hdigits]
        exact ⟨rfl, hrest⟩
      · have hhead : ∃ d w, Value.escapeChar c = d :: w ∧ isOctalDigit d ≠ true := by
          rcases escapeChar_cases c with ⟨d, -, hescape, -⟩ | ⟨-, -, -, hself⟩
          · exact ⟨'\\', [d], hescape, by decide⟩
          · exact ⟨c, [], hself, hc⟩
        obtain ⟨d, w, hescape, hd⟩ := hhead
        rw [hescape, if_neg hc, List.cons_append, List.take_succ_cons, List.takeWhile_cons, if_neg hd]
        refine ⟨rfl, ?_⟩
        rw [List.length_nil, List.drop_zero, List.drop_zero, List.flatMap_cons, hescape,
          List.cons_append]

/-- **The escapes of a text stand for what `readBack` says.** -/
theorem unescape_escape (cs : List Char) :
    unescape (cs.flatMap Value.escapeChar) = readBack cs := by
  fun_induction readBack cs with
  | case1 => rw [List.flatMap_nil, unescape]
  | case2 r digits ih =>
    obtain ⟨hdigits, hrest⟩ := octalDigits_escape 2 r
    have hat : escapeAt '0' (r.flatMap Value.escapeChar) =
        (charOfCode (octalCode digits), digits.length) := by
      rw [escapeAt, if_neg (by decide), if_pos (by decide)]
      dsimp only
      rw [hdigits]
      rfl
    have hescape : Value.escapeChar '\x00' = ['\\', '0'] := rfl
    rw [List.flatMap_cons, hescape, List.cons_append, List.cons_append, List.nil_append,
      unescape_slash, hat, hrest, ih]
  | case3 c r hnull ih =>
    rw [List.flatMap_cons]
    rcases escapeChar_cases c with ⟨d, -, hescape, hback⟩ | ⟨-, hslash, -, hself⟩
    · obtain ⟨hx, hoctal, hsimple⟩ := hback hnull
      have hat : escapeAt d (r.flatMap Value.escapeChar) = (c, 0) := by
        rw [escapeAt, if_neg hx, hoctal, hsimple]
        rfl
      rw [hescape, List.cons_append, List.cons_append, List.nil_append, unescape_slash, hat,
        List.drop_zero, ih]
    · rw [hself, List.cons_append, List.nil_append, unescape_self hslash, ih]

theorem length_readBack_le (cs : List Char) : (readBack cs).length ≤ cs.length := by
  fun_induction readBack cs with
  | case1 => exact Nat.le_refl 0
  | case2 r digits ih =>
    rw [List.length_drop] at ih
    rw [List.length_cons, List.length_cons]
    omega
  | case3 c r hnull ih => exact Nat.succ_le_succ ih

/-- There are octal digits at the head of a text where its first character is one. -/
theorem octalDigits_eq_nil_iff (r : List Char) :
    (r.take 2).takeWhile isOctalDigit = [] ↔ r.head?.any isOctalDigit = false := by
  cases r with
  | nil => exact ⟨fun _ => rfl, fun _ => rfl⟩
  | cons d r =>
    rw [List.take_succ_cons, List.takeWhile_cons, List.head?_cons, Option.any_some]
    cases isOctalDigit d with
    | true => exact ⟨fun h => absurd h (List.cons_ne_nil _ _), fun h => by cases h⟩
    | false => exact ⟨fun _ => rfl, fun _ => rfl⟩

/-- **A text is read back as it was just where no octal digit follows a null character.** -/
theorem readBack_eq_self_iff (cs : List Char) : readBack cs = cs ↔ nullsApart cs = true := by
  fun_induction readBack cs with
  | case1 => exact ⟨fun _ => rfl, fun _ => rfl⟩
  | case2 r digits ih =>
    by_cases hdigits : digits = []
    · have hhead := (octalDigits_eq_nil_iff r).1 hdigits
      have hcode : charOfCode (octalCode []) = '\x00' := by decide
      rw [hdigits] at ih ⊢
      rw [hcode, nullsApart, hhead, Bool.and_false, Bool.not_false, Bool.true_and]
      exact ⟨fun h => ih.1 (List.cons.inj h).2, fun h => congrArg _ (ih.2 h)⟩
    · -- what the escape takes along is missing in the text that is read back
      have hhead : r.head?.any isOctalDigit = true := by
        rw [← Bool.not_eq_false]
        exact fun h => hdigits ((octalDigits_eq_nil_iff r).2 h)
      have hpos := List.length_pos_iff.2 hdigits
      rw [nullsApart, hhead]
      refine ⟨fun h => ?_, fun h => by cases h⟩
      have hlength := congrArg List.length (List.cons.inj h).2
      have hshort := length_readBack_le (r.drop digits.length)
      have hle : digits.length ≤ r.length :=
        Nat.le_trans (List.takeWhile_prefix _).length_le (List.take_prefix 2 r).length_le
      rw [List.length_drop] at hshort
      omega
  | case3 c r hnull ih =>
    rw [nullsApart, decide_eq_false hnull, Bool.false_and, Bool.not_false, Bool.true_and]
    exact ⟨fun h => ih.1 (List.cons.inj h).2, fun h => congrArg _ (ih.2 h)⟩

/-- A text without a null character is what its written form stands for. -/
theorem nullsApart_of_not_mem {cs : List Char} (h : '\x00' ∉ cs) : nullsApart cs = true := by
  induction cs with
  | nil => rfl
  | cons c cs ih =>
    have hc : c ≠ '\x00' := fun heq => h (by rw [heq]; exact List.mem_cons_self)
    rw [nullsApart, decide_eq_false hc, ih fun hmem => h (List.mem_cons_of_mem c hmem)]
    rfl

end Literal

end CInterface
