import CInterface.Proofs.Preprocess.LineNumbers
import CInterface.Proofs.Preprocess.TrailingBlanks
/-!
# Lines that do the same to the macros

What a line does to the macros is decided by the directive that it is, and not by its number or by
what was reported before it. So other lines may be left out, and two lines may be joined unless the
end of the first parts a directive from other text.

* `PreprocessState.SameMacros` — two states with the same macros, at any lines of any texts.
* `Alike` — lines that do the same to the macros.
* `partsDirective` — the end of a line parts a directive from other text.
* `alike_joined` — two lines and the line that they are together.
-/

namespace CInterface

open Text

/-! ### The same macros -/

namespace PreprocessState

/-- The states have the same registry and the same conditional groups. They may stand at different
lines, with different packings and reports. -/
structure SameMacros (s s' : PreprocessState) : Prop where
  registry : s.registry = s'.registry
  conditions : s.conditions = s'.conditions

variable {s s' : PreprocessState} {w : List Char}

namespace SameMacros

theorem refl (s : PreprocessState) : s.SameMacros s := ⟨rfl, rfl⟩

theorem condition (h : s.SameMacros s') (hw : w.all isLexSpace = true) (live : Bool)
    (number number' : Nat) (text : List Char) :
    (s.condition live number (text ++ w)).1 = (s'.condition live number' text).1 := by
  unfold PreprocessState.condition
  cases live with
  | false => rfl
  | true =>
    rw [if_pos rfl, if_pos rfl, h.registry]
    exact Registry.condition_append_blanks hw s'.registry number number' text

theorem openGroup (h : s.SameMacros s') (hw : w.all isLexSpace = true) (number number' : Nat)
    (text : List Char) :
    (s.openGroup number (text ++ w)).SameMacros (s'.openGroup number' text) := by
  refine ⟨h.registry, ?_⟩
  show s.conditions.pushIf (s.condition _ number (text ++ w)).1 =
    s'.conditions.pushIf (s'.condition _ number' text).1
  rw [h.condition hw, h.conditions]

theorem regroup (h : s.SameMacros s') (number number' : Nat) (directive : GroupDirective)
    (next : Option ConditionStack) :
    (s.regroup number directive next).SameMacros (s'.regroup number' directive next) := by
  cases next with
  | none => exact ⟨h.registry, h.conditions⟩
  | some conditions => exact ⟨h.registry, rfl⟩

theorem elif (h : s.SameMacros s') (hw : w.all isLexSpace = true) (number number' : Nat)
    (text : List Char) : (s.elif number (text ++ w)).SameMacros (s'.elif number' text) := by
  have hvalue := h.condition hw s.conditions.elifLive number number' text
  rw [PreprocessState.elif, PreprocessState.elif]
  dsimp only
  rw [hvalue, h.conditions]
  apply regroup
  exact ⟨h.registry, h.conditions⟩

theorem define (h : s.SameMacros s') (hw : w.all isLexSpace = true) (file : String)
    (number number' : Nat) (rest : List Char) :
    (s.define file number (rest ++ w)).SameMacros (s'.define file number' rest) := by
  rw [PreprocessState.define, PreprocessState.define, MacroDefinition.ofText?_append_blanks hw]
  split
  · exact ⟨h.registry, h.conditions⟩
  · refine ⟨?_, h.conditions⟩
    rw [h.registry]
    rfl
  · refine ⟨?_, h.conditions⟩
    rw [h.registry]

theorem undef (h : s.SameMacros s') (hw : w.all isLexSpace = true) (number number' : Nat)
    (rest : List Char) : (s.undef number (rest ++ w)).SameMacros (s'.undef number' rest) := by
  rw [PreprocessState.undef, PreprocessState.undef, leadingName?_append_blanks hw]
  split
  · refine ⟨?_, h.conditions⟩
    rw [h.registry]
  · exact ⟨h.registry, h.conditions⟩

end SameMacros

theorem conditions_pragma (s : PreprocessState) (number : Nat) (rest : List Char) :
    (s.pragma number rest).conditions = s.conditions := by
  rw [pragma]
  split
  · rfl
  · split <;> rfl

namespace SameMacros

theorem pragma (h : s.SameMacros s') (number number' : Nat) (rest rest' : List Char) :
    (s.pragma number rest).SameMacros (s'.pragma number' rest') := by
  refine ⟨?_, ?_⟩
  · rw [registry_pragma, registry_pragma, h.registry]
  · rw [conditions_pragma, conditions_pragma, h.conditions]

/-- A directive does the same to the macros with blanks behind it. -/
theorem directive (h : s.SameMacros s') (hw : w.all isLexSpace = true) (file : String)
    (number number' : Nat) (keyword : DirectiveKeyword) (rest : List Char) :
    (s.directive file number ⟨keyword, rest ++ w⟩).SameMacros
      (s'.directive file number' ⟨keyword, rest⟩) := by
  unfold PreprocessState.directive
  cases keyword with
  | ifTrue => exact h.openGroup hw ..
  | ifdef =>
    dsimp only
    rw [← List.append_assoc]
    exact h.openGroup hw ..
  | ifndef =>
    dsimp only
    rw [← List.append_assoc]
    exact h.openGroup hw ..
  | elif => exact h.elif hw ..
  | otherwise =>
    dsimp only
    rw [h.conditions]
    exact h.regroup ..
  | endif =>
    dsimp only
    rw [h.conditions]
    exact h.regroup ..
  | define =>
    dsimp only
    rw [h.conditions]
    split
    · exact h.define hw ..
    · exact h
  | undef =>
    dsimp only
    rw [h.conditions]
    split
    · exact h.undef hw ..
    · exact h
  | pragma =>
    dsimp only
    rw [h.conditions]
    split
    · exact h.pragma ..
    · exact h
  | other text => exact h

end SameMacros

/-- A line that is no directive leaves the macros alone. -/
theorem sameMacros_line_of_none (s : PreprocessState) (file : String) (number : Nat)
    {text : List Char} (h : Directive.ofLine? text = none) :
    (s.line file number text).1.SameMacros s := by
  rw [line, h]
  dsimp only
  split <;> exact ⟨rfl, rfl⟩

namespace SameMacros

theorem trans {u : PreprocessState} (h : s.SameMacros s') (h' : s'.SameMacros u) :
    s.SameMacros u := ⟨h.registry.trans h'.registry, h.conditions.trans h'.conditions⟩

theorem symm (h : s.SameMacros s') : s'.SameMacros s := ⟨h.registry.symm, h.conditions.symm⟩

/-- A line does the same to the macros with blanks behind it, if it is a directive. -/
theorem line_append_blanks (h : s.SameMacros s') (hw : w.all isLexSpace = true) (file : String)
    (number number' : Nat) {text : List Char} (hd : (Directive.ofLine? text).isSome = true) :
    (s.line file number (text ++ w)).1.SameMacros (s'.line file number' text).1 := by
  obtain ⟨d, hd⟩ := Option.isSome_iff_exists.1 hd
  rw [line, line, hd]
  rcases Directive.ofLine?_append_blanks hw hd with hblanks | hblanks
  · have hsame := h.directive (w := []) rfl file number number' d.keyword d.rest
    rw [List.append_nil] at hsame
    rw [hblanks]
    exact hsame
  · rw [hblanks]
    exact h.directive hw ..

/-- What a line does to the macros is decided by the directive that it is. -/
theorem line (h : s.SameMacros s') (file : String) (number number' : Nat) {text text' : List Char}
    (hd : Directive.ofLine? text = Directive.ofLine? text') :
    (s.line file number text).1.SameMacros (s'.line file number' text').1 := by
  cases hnone : Directive.ofLine? text with
  | none =>
    have hs := sameMacros_line_of_none s file number hnone
    have hs' := sameMacros_line_of_none s' file number' (hd.symm.trans hnone)
    exact (hs.trans h).trans hs'.symm
  | some d =>
    have hsame := h.directive (w := []) rfl file number number' d.keyword d.rest
    rw [List.append_nil] at hsame
    rw [PreprocessState.line, PreprocessState.line, ← hd, hnone]
    exact hsame

end SameMacros

end PreprocessState

/-! ### Lines that do the same -/

/-- The lines do the same to the macros, wherever they stand. -/
def Alike (a b : List (List Char)) : Prop :=
  ∀ (s s' : PreprocessState), s.SameMacros s' → ∀ (file : String) (number number' : Nat),
    (s.lines file number a).1.SameMacros (s'.lines file number' b).1

namespace Alike

variable {a a' b b' : List (List Char)}

theorem cons (text : List Char) (h : Alike a b) : Alike (text :: a) (text :: b) := by
  intro s s' hs file number number'
  rw [PreprocessState.lines_cons, PreprocessState.lines_cons]
  exact h _ _ (hs.line file number number' rfl) file _ _

theorem refl (a : List (List Char)) : Alike a a := by
  induction a with
  | nil => exact fun s s' hs _ _ _ => hs
  | cons text a ih => exact ih.cons text

theorem trans (h : Alike a b) (h' : Alike b b') : Alike a b' := fun s s' hs file number number' =>
  (h s s (.refl s) file number number).trans (h' s s' hs file number number')

theorem symm (h : Alike a b) : Alike b a := fun s s' hs file number number' =>
  (h s' s hs.symm file number' number).symm

theorem append (h : Alike a b) (h' : Alike a' b') : Alike (a ++ a') (b ++ b') := by
  intro s s' hs file number number'
  rw [PreprocessState.lines_append, PreprocessState.lines_append]
  exact h' _ _ (h s s' hs file number number') file _ _

theorem head {text text' : List Char}
    (h : ∀ (s s' : PreprocessState), s.SameMacros s' → ∀ (file : String) (number number' : Nat),
      (s.line file number text).1.SameMacros (s'.line file number' text').1)
    (a : List (List Char)) : Alike (text :: a) (text' :: a) := by
  intro s s' hs file number number'
  rw [PreprocessState.lines_cons, PreprocessState.lines_cons]
  exact refl a _ _ (h s s' hs file number number') file _ _

/-- A line that is no directive may be left out. -/
theorem of_none {text : List Char} (h : Directive.ofLine? text = none) (a : List (List Char)) :
    Alike (text :: a) a := by
  intro s s' hs file number number'
  rw [PreprocessState.lines_cons]
  exact refl a _ _ ((PreprocessState.sameMacros_line_of_none s file number h).trans hs) file _ _

theorem replicate_nil (n : Nat) (a : List (List Char)) : Alike (List.replicate n [] ++ a) a := by
  induction n with
  | zero => exact refl a
  | succ n ih => exact (of_none rfl _).trans ih

end Alike

/-! ### Directives and other text -/

/-- The end of the line `before` parts a directive from the line `after`: from other text behind it,
or from other text before it. -/
def partsDirective (before after : List Char) : Bool :=
  if before.all isBlank then false
  else if (Directive.ofLine? before).isSome then !after.all isLexSpace
  else (Directive.ofLine? after).isSome

theorem Directive.ofLine?_cons {c : Char} {r line : List Char} (h : trimStart line = c :: r) :
    Directive.ofLine? line = none ↔ c ≠ '#' := by
  by_cases hc : c = '#'
  · subst hc
    rw [ofLine?, h]
    exact ⟨fun hnone => absurd hnone (Option.some_ne_none _), fun hne => absurd rfl hne⟩
  · have hnone : afterHead? ['#'] (c :: r) = none := by
      simp [afterHead?, List.isPrefixOf, Ne.symm hc]
    rw [ofLine?, h, hnone]
    exact ⟨fun _ => hc, fun _ => rfl⟩

theorem Directive.ofLine?_of_blank {before : List Char} (h : before.all isBlank = true)
    (after : List Char) : Directive.ofLine? (before ++ after) = Directive.ofLine? after := by
  have htrim : trimStart (before ++ after) = trimStart after :=
    List.dropWhile_append_of_pos fun c hc => List.all_eq_true.1 h c hc
  rw [ofLine?, htrim, ofLine?]

theorem Directive.ofLine?_blank {line : List Char} (h : line.all isBlank = true) :
    Directive.ofLine? line = none := by
  have hline := ofLine?_of_blank h []
  rwa [List.append_nil] at hline

/-- Text behind a line that is not blank does not make the line a directive. -/
theorem Directive.ofLine?_append {before : List Char} (h : ¬ before.all isBlank = true)
    (hnone : Directive.ofLine? before = none) (after : List Char) :
    Directive.ofLine? (before ++ after) = none := by
  have hne : trimStart before ≠ [] := by
    rw [trimStart, ne_eq, List.dropWhile_eq_nil_iff]
    exact fun hall => h (List.all_eq_true.2 hall)
  obtain ⟨c, r, hbefore⟩ := List.exists_cons_of_ne_nil hne
  have hjoined : trimStart (before ++ after) = c :: (r ++ after) := by
    rw [trimStart, List.dropWhile_append, ← trimStart, hbefore]
    rfl
  exact (ofLine?_cons hjoined).2 ((ofLine?_cons hbefore).1 hnone)

theorem all_isBlank {w : List Char} (h : w.all isLexSpace = true) : w.all isBlank = true :=
  List.all_eq_true.2 fun c hc => isBlank_of_isLexSpace (List.all_eq_true.1 h c hc)

/-- **Two lines do the same as the line that they are together**, unless the end of the first parts
a directive from other text. -/
theorem alike_joined {before after : List Char} (h : partsDirective before after = false)
    (rest : List (List Char)) : Alike (before :: after :: rest) ((before ++ after) :: rest) := by
  rw [partsDirective] at h
  split at h
  · rename_i hblank
    have hsame := Directive.ofLine?_of_blank hblank after
    have hafter : Alike (after :: rest) ((before ++ after) :: rest) := by
      refine Alike.head (fun s s' hs file number number' => ?_) rest
      exact hs.line file number number' hsame.symm
    exact (Alike.of_none (Directive.ofLine?_blank hblank) _).trans hafter
  · split at h
    · rename_i hblank hdirective
      have hblanks : after.all isLexSpace = true := by simpa using h
      have hafter : Directive.ofLine? after = none := Directive.ofLine?_blank (all_isBlank hblanks)
      have hbefore : Alike (before :: rest) ((before ++ after) :: rest) :=
        (Alike.head (fun s s' hs file number number' =>
          hs.line_append_blanks hblanks file number number' hdirective) rest).symm
      exact ((Alike.of_none hafter rest).cons before).trans hbefore
    · rename_i hblank hother
      have hbefore : Directive.ofLine? before = none := by simpa using hother
      have hafter : Directive.ofLine? after = none := by simpa using h
      have hjoined := Directive.ofLine?_append hblank hbefore after
      exact ((Alike.of_none hbefore _).trans (Alike.of_none hafter rest)).trans
        (Alike.of_none hjoined rest).symm

end CInterface
