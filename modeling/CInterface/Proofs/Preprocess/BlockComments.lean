import CInterface.Proofs.Macro.Steps
import CInterface.Proofs.Preprocess.DefiningLines
import CInterface.Proofs.Preprocess.SameMacros
import CInterface.Proofs.Text.Comments
import CInterface.Proofs.Text.JoinedLines
/-!
# Block comments as blanks

A block comment leaves a space and its newlines. The newlines end the line that the comment begins
on, and that matters to directives alone: a directive ends with its line, and stands at the
beginning of one. Elsewhere a space does for a comment.

* `spaceComments` — a text with a space for each block comment.
* `blankComments` — the same, but a comment keeps its newlines where they part a directive from
  other text.
* `alike_blankFrom` — the lines of both texts do the same to the macros.
* `preprocess_blankComments` — the text with blanks for comments gives the same registry.
-/

namespace CInterface

open Text

/-! ### Texts without block comments -/

/-- A space, if the fragment is a block comment. -/
def Text.Fragment.spaced : Fragment → Fragment
  | blockComment _ => plain ' '
  | f => f

/-- The text with a space in the place of each block comment. -/
def spaceComments (text : String) : String :=
  String.ofList ((fragments text.toList).flatMap fun f => f.spaced.text)

/-- The logical lines of a text without its comments: continued lines are joined. -/
def logicalLines (fs : List Fragment) : List (List Char) :=
  joinLines [] 0 (splitAt '\n' (fs.flatMap Fragment.stripped))

/-- The newlines of a comment between two texts part a directive from other text: from the first
logical line behind the comment or from the line that the comment stands on. -/
def partsLines (before after : List Fragment) : Bool :=
  partsDirective (openLine [] (splitAt '\n' (before.flatMap Fragment.stripped)))
    ((logicalLines after).headD [])

/-- The newlines of a comment. -/
def newlines (body : List Char) : List Fragment := (body.filter (· = '\n')).map .plain

/-- Goes on with blanks for block comments, from left to right: `done` is the text so far. A comment
becomes a space. Its newlines follow, if they part a directive from other text. -/
def blankFrom (done : List Fragment) : List Fragment → List Fragment
  | [] => done
  | .blockComment body :: rest =>
    let spaced := done ++ [.plain ' ']
    blankFrom (if partsLines spaced rest then spaced ++ newlines body else spaced) rest
  | f :: rest => blankFrom (done ++ [f]) rest

/-- The text with blanks in the place of its block comments. -/
def blankComments (text : String) : String :=
  String.ofList ((blankFrom [] (fragments text.toList)).flatMap Fragment.text)

/-- Where every block comment ends on its line, a space is all that it becomes. -/
theorem blankComments_eq_spaceComments {text : String}
    (h : ∀ body, .blockComment body ∈ fragments text.toList → '\n' ∉ body) :
    blankComments text = spaceComments text := by
  have hblank : ∀ done fs, (∀ body, .blockComment body ∈ fs → '\n' ∉ body) →
      blankFrom done fs = done ++ fs.map Fragment.spaced := by
    intro done fs hfs
    fun_induction blankFrom done fs with
    | case1 done => exact (List.append_nil done).symm
    | case2 done body rest spaced ih =>
      have hnone : newlines body = [] := by
        rw [newlines, List.map_eq_nil_iff, List.filter_eq_nil_iff]
        rintro c hc hnewline
        exact hfs body List.mem_cons_self (of_decide_eq_true hnewline ▸ hc)
      rw [ih fun body hm => hfs body (List.mem_cons_of_mem _ hm), hnone, List.append_nil, ite_self,
        List.append_assoc]
      rfl
    | case3 done f rest hf ih =>
      have hspaced : f.spaced = f := by
        cases f with
        | blockComment body => exact absurd rfl (hf body)
        | plain | literal | lineComment | openComment => rfl
      rw [ih fun body hm => hfs body (List.mem_cons_of_mem _ hm), List.map_cons, hspaced,
        List.append_assoc]
      rfl
  rw [blankComments, spaceComments, hblank [] _ h, List.nil_append, List.flatMap_map]

/-! ### One comment -/

theorem stripped_newlines (body : List Char) :
    (newlines body).flatMap Fragment.stripped = body.filter (· = '\n') := by
  rw [newlines, List.flatMap_map]
  exact List.flatMap_singleton' _

/-- A comment leaves what a space and its newlines do. -/
theorem logicalLines_comment (before after : List Fragment) (body : List Char) :
    logicalLines (before ++ .blockComment body :: after) =
      logicalLines (before ++ [.plain ' '] ++ newlines body ++ after) := by
  have htext : (before ++ .blockComment body :: after).flatMap Fragment.stripped =
      (before ++ [Fragment.plain ' '] ++ newlines body ++ after).flatMap Fragment.stripped := by
    rw [List.append_assoc, List.append_assoc, List.flatMap_append, List.flatMap_append,
      List.flatMap_append, List.flatMap_append, stripped_newlines, List.flatMap_cons]
    rfl
  rw [logicalLines, htext, logicalLines]

/-- A comment that does not part a directive from other text may lose its newlines. -/
theorem alike_newlines {before after : List Fragment} (body : List Char)
    (h : partsLines (before ++ [.plain ' ']) after = false) :
    Alike (logicalLines (before ++ [.plain ' '] ++ newlines body ++ after))
      (logicalLines (before ++ [.plain ' '] ++ after)) := by
  have hblank : (before ++ [Fragment.plain ' ']).flatMap Fragment.stripped =
      before.flatMap Fragment.stripped ++ [' '] := by
    rw [List.flatMap_append]
    rfl
  obtain ⟨n, hn⟩ : ∃ n, body.filter (· = '\n') = List.replicate n '\n' :=
    ⟨_, List.eq_replicate_of_mem fun c hc => of_decide_eq_true (List.mem_filter.1 hc).2⟩
  rw [partsLines, logicalLines, hblank] at h
  have hspace : (before ++ [Fragment.plain ' '] ++ after).flatMap Fragment.stripped =
      before.flatMap Fragment.stripped ++ [' '] ++ after.flatMap Fragment.stripped := by
    rw [List.flatMap_append, hblank]
  rw [logicalLines, logicalLines, hspace, List.flatMap_append, List.flatMap_append, hblank,
    stripped_newlines, hn]
  generalize before.flatMap Fragment.stripped = a at h ⊢
  generalize after.flatMap Fragment.stripped = b at h ⊢
  cases n with
  | zero =>
    rw [List.replicate_zero, List.append_nil]
    exact Alike.refl _
  | succ n =>
    obtain ⟨out, first, count, count', more, hfirst, hjoined, hparted⟩ :=
      exists_joinLines_newlines a b
    rw [List.headD_eq_head?_getD, hfirst] at h
    generalize openLine [] (splitAt '\n' (a ++ [' '])) = line at h hjoined hparted
    -- between the two lines, and behind them, there are empty lines only, and these do nothing
    have htail : Alike (List.replicate count [] ++ (List.replicate n [] ++
        first :: (List.replicate count' [] ++ more))) (first :: more) :=
      ((Alike.replicate_nil count _).trans (Alike.replicate_nil n _)).trans
        ((Alike.replicate_nil count' more).cons first)
    have hlines : Alike (line :: (List.replicate count [] ++ (List.replicate n [] ++
        first :: (List.replicate count' [] ++ more))))
          ((line ++ first) :: (List.replicate (count + count') [] ++ more)) :=
      ((htail.cons line).trans (alike_joined h more)).trans
        ((Alike.replicate_nil (count + count') more).cons (line ++ first)).symm
    rw [List.replicate_succ, List.append_assoc, List.cons_append, hparted, hjoined]
    exact (Alike.refl out).append hlines

/-- **A text has lines that do the same with blanks for its block comments.** -/
theorem alike_blankFrom (done fs : List Fragment) :
    Alike (logicalLines (done ++ fs)) (logicalLines (blankFrom done fs)) := by
  fun_induction blankFrom done fs with
  | case1 done =>
    rw [List.append_nil]
    exact Alike.refl _
  | case2 done body rest spaced ih =>
    refine Alike.trans ?_ ih
    rw [logicalLines_comment]
    split
    · exact Alike.refl _
    · rename_i hparts
      exact alike_newlines body (Bool.eq_false_iff.2 hparts)
  | case3 done f rest hf ih =>
    rw [List.append_assoc] at ih
    exact ih

/-! ### Fragments -/

theorem fitting_blankFrom {done fs : List Fragment} (h : Fitting (done ++ fs)) :
    Fitting (blankFrom done fs) := by
  fun_induction blankFrom done fs with
  | case1 done =>
    rw [List.append_nil] at h
    exact h
  | case2 done body rest spaced ih =>
    have hrest : Fitting rest := (fitting_append h).2
    refine ih ?_
    split
    · rw [List.append_assoc, List.append_assoc]
      exact h.replace (fitting_blanks (fun c hc => eq_blank_of_mem hc) hrest)
    · rw [List.append_assoc]
      have hblank : ∀ c ∈ [' '], c = ' ' ∨ c = '\n' :=
        fun c hc => Or.inl (List.mem_singleton.1 hc)
      exact h.replace (fitting_blanks hblank hrest)
  | case3 done f rest hf ih =>
    refine ih ?_
    rw [List.append_assoc]
    exact h

/-! ### Texts -/

theorem splitAt_normalize (cs : List Char) :
    splitAt '\n' (Text.normalize cs) = logicalLines (fragments cs) := by
  rw [logicalLines, ← stripComments_eq]
  exact splitAt_joinContinuations (stripComments cs)

theorem fragments_blankComments (text : String) :
    fragments (blankComments text).toList = blankFrom [] (fragments text.toList) := by
  rw [blankComments, String.toList_ofList]
  have hfitting : Fitting ([] ++ fragments text.toList) := fitting_fragments text.toList
  exact (fitting_blankFrom hfitting).fragments_eq

theorem fst_preprocess (r : Registry) (file text : String) : (preprocess r file text).1 =
    (PreprocessState.lines { registry := r } file 0
      (logicalLines (fragments text.toList))).1.registry := by
  rw [← splitAt_normalize, preprocess, preprocessNormal, String.toList_ofList]
  exact PreprocessState.registry_finish _

/-- **Block comments are blanks to the macros.** With a space for each block comment, and with the
newlines of those that part a directive from other text, a text gives the same registry: the same
macros, function macros and values. -/
theorem preprocess_blankComments (r : Registry) (file text : String) :
    (preprocess r file (blankComments text)).1 = (preprocess r file text).1 := by
  have halike := alike_blankFrom [] (fragments text.toList)
  rw [fst_preprocess, fst_preprocess, fragments_blankComments]
  exact (halike _ _ (.refl { registry := r }) file 0 0).registry.symm

/-- The first comment ends the definition and keeps its newline, the second does not need it. -/
example : blankComments "#define A /*\n*/ 1 /*\n*/\n" = "#define A  \n 1  \n" := by
  decide +kernel

/-- A definition on the first line of a text without other directives. -/
theorem get?_macros_preprocess {text name body : String} {line rest : List Char}
    {more : List (List Char)} (hlines : logicalLines (fragments text.toList) = line :: more)
    (hline : Directive.ofLine? line = some ⟨.define, rest⟩)
    (hread : MacroDefinition.ofText? rest = some (.object name body))
    (hmore : ∀ l ∈ more, Directive.ofLine? l = none) (r : Registry) (file : String) :
    (preprocess r file text).1.flat.macros.get? name =
      some (String.ofList (r.macroTable.expand [name] body.toList).text) := by
  rw [fst_preprocess, hlines]
  show ((PreprocessState.line { registry := r } file 0 line).1.lines file 1
    more).1.registry.flat.macros.get? name = _
  rw [PreprocessState.registry_lines_of_none hmore,
    PreprocessState.line_defineObject rfl hline hread]
  show (r.defineObject (some file) name body 0).1.flat.macros.get? name = _
  rw [Registry.macros_defineObject, OrderedMap.get?_insert_self]
  rfl

/-- A definition that a comment over two lines ends. With a space for the comment it goes on. -/
theorem not_preprocess_spaceComments :
    (preprocess .empty "a.h" "#define A /*\n*/ 1\n").1.flat.macros.get? "A" = some "" ∧
      (preprocess .empty "a.h" (spaceComments "#define A /*\n*/ 1\n")).1.flat.macros.get? "A" =
        some "1" := by
  have hcut : MacroDefinition.ofText? " A  ".toList = some (.object "A" "") := by decide
  have hwhole : MacroDefinition.ofText? " A   1".toList = some (.object "A" "1") := by
    decide
  have hempty : Registry.empty.macroTable.expand ["A"] "".toList = ⟨"".toList, 10000, []⟩ :=
    MacroTable.expand_eq_of_iterate 1 (by decide)
  have hone : Registry.empty.macroTable.expand ["A"] "1".toList = ⟨"1".toList, 10000, []⟩ :=
    MacroTable.expand_eq_of_iterate 2 (by decide)
  constructor
  · have hlines : logicalLines (fragments "#define A /*\n*/ 1\n".toList) =
        ["#define A  ".toList, " 1".toList, []] := by decide +kernel
    rw [get?_macros_preprocess hlines (by decide) hcut (by decide), hempty]
    rfl
  · have hlines : logicalLines (fragments (spaceComments "#define A /*\n*/ 1\n").toList) =
        ["#define A   1".toList, []] := by decide +kernel
    rw [get?_macros_preprocess hlines (by decide) hwhole (by decide), hone]
    rfl

end CInterface
