import CInterface.Word
import CInterface.Macro
/-!
# Macro calls

A call of a function macro is its name with arguments in parentheses behind it.

* `argumentsFrom` — the arguments up to the closing parenthesis.
* `callArguments?` — the arguments of the call whose name a text follows.

Commas separate arguments outside inner parentheses only, and literals are not looked into.
-/

namespace CInterface

open Text

/-- The arguments up to the parenthesis that closes the list, with the text behind it. `depth` inner
parentheses are open, and `arg` is the present argument, reversed. Nothing if the list is not
closed. -/
def argumentsFrom (depth : Nat) (arg : List Char) (cs : List Char) :
    Option (List (List Char) × List Char) :=
  match cs with
  | [] => none
  | c :: r =>
    let (kind, n) := nextSegment c r
    if kind ≠ .other then argumentsFrom depth ((c :: r.take n).reverse ++ arg) (r.drop n)
    else if c = '(' then argumentsFrom (depth + 1) (c :: arg) r
    else if c = ')' then
      match depth with
      | 0 => some ([trim arg.reverse], r)
      | depth + 1 => argumentsFrom depth (c :: arg) r
    else if c = ',' && depth = 0 then
      (argumentsFrom 0 [] r).map fun p => (trim arg.reverse :: p.1, p.2)
    else argumentsFrom depth ((c :: r.take n).reverse ++ arg) (r.drop n)
  termination_by cs.length
  decreasing_by all_goals simp only [List.length_cons, List.length_drop]; omega

/-- The arguments of the call whose name the text follows, with the text behind the call. Nothing if
no parenthesis follows the name. -/
def callArguments? (after : List Char) :
    Option (Except MacroError (List (List Char) × List Char)) :=
  match trimStart after with
  | '(' :: list => some (match argumentsFrom 0 [] list with
    | some found => .ok found
    | none => .error .unbalancedArguments)
  | _ => none

/-! ### Lengths -/

theorem length_dropWhile_le {α : Type} (p : α → Bool) (l : List α) :
    (l.dropWhile p).length ≤ l.length := (List.dropWhile_sublist p).length_le

theorem length_trim_le (cs : List Char) : (trim cs).length ≤ cs.length := by
  unfold trim trimEnd dropEndWhile trimStart
  rw [List.length_reverse]
  refine Nat.le_trans (length_dropWhile_le _ _) ?_
  rw [List.length_reverse]
  exact length_dropWhile_le _ _

/-- Arguments are made of the characters before the closing parenthesis. -/
theorem argumentsFrom_length {depth : Nat} {arg cs rest : List Char} {args : List (List Char)}
    (h : argumentsFrom depth arg cs = some (args, rest)) :
    args.flatten.length + rest.length < arg.length + cs.length := by
  fun_induction argumentsFrom depth arg cs generalizing args with
  | case1 => simp at h
  | case2 depth arg c r kind n hn hk ih =>
    have := ih h
    simp only [List.length_append, List.length_reverse, List.length_cons, List.length_take,
      List.length_drop] at this ⊢
    omega
  | case3 depth arg r kind n hn hk ih =>
    have := ih h
    simp only [List.length_cons] at this ⊢
    omega
  | case4 arg r kind n hn hk =>
    obtain ⟨rfl, rfl⟩ := Prod.mk.inj (Option.some.inj h)
    have := length_trim_le arg.reverse
    simp only [List.flatten_cons, List.flatten_nil, List.length_append, List.length_reverse,
      List.length_nil, List.length_cons] at this ⊢
    omega
  | case5 arg r kind n hn hk depth hp ih =>
    have := ih h
    simp only [List.length_cons] at this ⊢
    omega
  | case6 depth arg c r kind n hn hk hl hr hc ih =>
    obtain ⟨⟨as, after⟩, ha, he⟩ := Option.map_eq_some_iff.1 h
    obtain ⟨rfl, rfl⟩ := Prod.mk.inj he
    have := ih ha
    have := length_trim_le arg.reverse
    simp only [List.flatten_cons, List.length_append, List.length_reverse, List.length_cons,
      List.length_nil] at *
    omega
  | case7 depth arg c r kind n hn hk hl hr hc ih =>
    have := ih h
    simp only [List.length_append, List.length_reverse, List.length_cons, List.length_take,
      List.length_drop] at this ⊢
    omega

/-- The arguments of a call are shorter than the text behind its name. -/
theorem callArguments?_length {after rest : List Char} {args : List (List Char)}
    (h : callArguments? after = some (.ok (args, rest))) :
    args.flatten.length + rest.length < after.length := by
  unfold callArguments? at h
  split at h
  · rename_i list hl
    split at h
    · rename_i found hf
      have he : found = (args, rest) := by simpa using h
      have := argumentsFrom_length (he ▸ hf)
      have hd := length_dropWhile_le isBlank after
      unfold trimStart at hl
      rw [hl] at hd
      simp only [List.length_cons, List.length_nil] at this hd
      omega
    · simp at h
  · simp at h

end CInterface
