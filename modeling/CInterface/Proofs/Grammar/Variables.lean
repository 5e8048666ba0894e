import CInterface.Proofs.Grammar.Aggregates
import CInterface.Proofs.Grammar.Postcondition
/-!
# Variables with values

A variable that is declared with the text of a value has this value, however deep its lists are nested,
and nothing else is defined but a constant of the same name.

* `Source.specifiers_run`, `Source.declarator_run` — a built-in type and a name, and what is left.
* `variableDefinitions` — what a name with a value defines.
* `Source.declaration_run` — the declaration of a name with a value.
* `parseFile_variable` — a header that holds such a declaration.
* `parseFile_initializer` — the values in it are read back.

That nothing else is staged is known of initializers whatever their tokens are; a type or a declarator
may define tags, and so the tokens before the value are followed one by one.
-/

namespace CInterface

open Source

variable {src : Source} {s : Stage} {t : Token} {rest : List Token}

namespace Source

/-- The word of a built-in type is read up to the first token that is no such word. -/
theorem fundamentalWords_run {word : String} (hword : src.grammar.isFundamental word = true)
    (hs : s.rest = t :: rest) (ht : t.kind = .ident word) (hrest : src.EndsType (rest.map (·.kind))) :
    src.fundamentalWords s = .ok ([word], { s with rest }) := by
  have htake : s.rest.takeWhile (fun t => t.kind.ident?.any src.grammar.isFundamental) = [t] := by
    have hend : rest.takeWhile (fun t => t.kind.ident?.any src.grammar.isFundamental) = [] := by
      cases rest with
      | nil => rfl
      | cons u rest =>
        have hu : u.kind.ident?.any src.grammar.isFundamental = false := by
          cases hk : u.kind with
          | ident w => exact hrest.1 w (congrArg some hk)
          | _ => rfl
        rw [List.takeWhile_cons, hu]
        rfl
    have ht' : t.kind.ident?.any src.grammar.isFundamental = true := by
      rw [ht]
      exact hword
    rw [hs, List.takeWhile_cons, ht', if_pos rfl, hend]
  rw [fundamentalWords, Production.bind_run (get_run s), htake, Production.bind_run (get_run s),
    Production.bind_run (moveTo_run _ s), hs]
  show Except.ok (List.filterMap _ [t], _) = _
  rw [List.filterMap_cons, ht]
  rfl

/-- The word of a built-in type is all that specifies a type. -/
theorem specifiers_run (hg : src.grammar.Proper) {word : String}
    (hword : src.grammar.isFundamental word = true) (hs : s.rest = t :: rest)
    (ht : t.kind = .ident word) (hrest : src.EndsType (rest.map (·.kind))) {k : Nat}
    (hfuel : src.fuel = k + 1) (fuel : Nat) :
    src.specifiers (fuel + 2) s = .ok (⟨[], .base word []⟩, { s with rest }) := by
  have hmem := Grammar.mem_of_isFundamental hword
  have hw : word? s.rest = some word := by
    rw [hs]
    exact congrArg TokenKind.ident? ht
  have htype : src.typeName (fuel + 1) s = .ok (word, { s with rest }) := by
    have hnot := hg.fundamental word hmem
    simp only [Grammar.reservedWords, List.mem_cons, List.not_mem_nil, or_false, not_or] at hnot
    obtain ⟨hstruct, hunion, henum, -⟩ := hnot
    rw [typeName, Production.bind_run (get_run s), hw]
    simp only [hstruct, hunion, henum, hword, if_false, if_true]
    rw [Production.bind_run (fundamentalWords_run hword hs ht hrest), String.intercalate_singleton]
    rfl
  rw [specifiers, hfuel,
    Production.bind_run (leadingWords_keyword hg (List.mem_append_left _ hmem) hw k)]
  show (src.typeName (fuel + 1) >>= _) s = _
  rw [Production.bind_run htype]
  rfl

/-- A name alone is a declarator. -/
theorem declarator_run {name : String} (hname : src.grammar.isKeyword name = false)
    (hs : s.rest = t :: rest) (ht : t.kind = .ident name) (hquals : src.EndsQualifiers s.kinds)
    (hparen : rest.head?.map (·.kind) ≠ some (.punct .lparen))
    (hbracket : rest.head?.map (·.kind) ≠ some (.punct .lbracket))
    {k : Nat} (hfuel : src.fuel = k + 1) (fuel : Nat) :
    src.declarator (fuel + 2) s = .ok ((name, []), { s with rest }) := by
  have hhead : s.rest.head?.map (·.kind) = some (.ident name) := by
    rw [hs]
    exact congrArg some ht
  have hqualifiers : src.qualifiers false [] s = .ok ([], s) := by
    have hnone : src.grammar.qualifier? false s.rest = none :=
      hquals.qualifier?_eq_none rfl false
    rw [qualifiers, Production.bind_run (get_run s), qualifiersAt_of_none [] hnone]
    rfl
  have hindirections : src.indirections src.fuel s = .ok (([], []), s) := by
    rw [hfuel, indirections, Production.bind_run hqualifiers,
      Production.bind_run (accept_of_not_head (by rw [hhead]; simp)), if_neg Bool.false_ne_true,
      Production.bind_run (accept_of_not_head (by rw [hhead]; simp)), if_neg Bool.false_ne_true]
    rfl
  have hcenter : src.center (fuel + 1) s = .ok ((name, []), { s with rest }) := by
    have hn : src.name? s = .ok (some name, { s with rest }) := by
      have hw : word? s.rest = some name := by
        rw [hs]
        exact congrArg TokenKind.ident? ht
      rw [Source.name?, Production.bind_run (get_run s), hw]
      simp only [hname]
      rw [if_neg Bool.false_ne_true, Production.bind_run (get_run s),
        Production.bind_run (moveTo_run _ s), hs]
      rfl
    rw [center, Production.bind_run hn]
    rfl
  have hsuffix : src.suffix (fuel + 1) [] { s with rest } = .ok ([], { s with rest }) := by
    have hcomes : comes .lparen { s with rest } = .ok (false, { s with rest }) := by
      show Except.ok (decide (rest.head?.map (·.kind) = some (.punct .lparen)), _) = _
      rw [decide_eq_false hparen]
    have hbounds : src.arrayBounds src.fuel { s with rest } = .ok ([], { s with rest }) := by
      rw [hfuel, arrayBounds, Production.bind_run (accept_of_not_head hbracket),
        if_neg Bool.false_ne_true]
      rfl
    rw [suffix, Production.bind_run hcomes, if_neg Bool.false_ne_true]
    simp only [pure_bind]
    rw [Production.bind_run hbounds]
    rfl
  rw [declarator, Production.bind_run hindirections]
  show (src.center (fuel + 1) >>= _) s = _
  rw [Production.bind_run hcenter]
  show (src.suffix (fuel + 1) [] >>= _) _ = _
  rw [Production.bind_run hsuffix]
  rfl

end Source

/-- What the declaration of a name with a value defines: the variable, and before it a constant unless
the value is a list. -/
def variableDefinitions (name : String) (type : CType) (v : Value) : List (String × Definition) :=
  (if v.isScalar then [(name, ⟨.values, v⟩)] else []) ++ [(name, ⟨.vars, some v, type, []⟩)]

theorem declare_run (name word : String) (v : Value) (s : Stage) :
    declare [] name (.base word []) (some v) s = .ok ((), { s with
      staged := (variableDefinitions name (.base word []) v).reverse ++ s.staged }) := by
  unfold declare variableDefinitions
  cases hv : v.isScalar with
  | true =>
    simp only [Option.filter_some, hv, if_true]
    rfl
  | false =>
    simp only [Option.filter_some, hv]
    rfl

namespace Source

/-- The value of a name is read, and nothing but the name is defined. -/
theorem objects_run {name word : String} {v : Value} (hv : v.IsLiteral)
    (hfuel : v.kinds.length ≤ src.fuel) (hstaged : s.staged = []) (herrors : s.errors = [])
    {ks : List TokenKind} (hs : s.kinds = .punct .assign :: (v.kinds ++ .punct .semi :: ks)) (fuel : Nat) :
    ∃ rest, src.objects ⟨[], .base word []⟩ (fuel + 1) (name, []) s = .ok ((),
        ⟨rest, (variableDefinitions name (.base word []) v).reverse, []⟩) ∧
      rest.map (·.kind) = .punct .semi :: ks := by
  obtain ⟨t, rest, hrest, ht, hkinds⟩ := List.map_eq_cons_iff.1 hs
  have hreads : Reads (src.initializer src.fuel) (v.kinds ++ .punct .semi :: ks) (some v)
      (.punct .semi :: ks) := reads_initializer v hv hfuel (by decide) ks
  obtain ⟨u, hu, husKinds, huErrors⟩ := hreads { s with rest } hkinds
  have huStaged : u.staged = [] := by
    have hnothing : ({ s with rest } : Stage).All fun _ => False := by
      constructor <;> simp [hstaged, herrors]
    have hall := (yields_initializer src.fuel _ hnothing _ u hu).1
    exact List.eq_nil_iff_forall_not_mem.2 hall.definitions
  have hcomma : u.rest.head?.map (·.kind) ≠ some (.punct .comma) := by
    rw [← List.head?_map, show u.rest.map (·.kind) = _ from husKinds]
    simp
  refine ⟨u.rest, ?_, husKinds⟩
  rw [objects, Production.bind_run (accept_of_head hrest ht), if_pos rfl]
  show (src.initializer src.fuel >>= _) _ = _
  rw [Production.bind_run hu]
  show (declare [] name (.base word []) (some v) >>= _) _ = _
  rw [Production.bind_run (declare_run name word v u), huStaged, huErrors, herrors, List.append_nil]
  have hlast : accept .comma ⟨u.rest, (variableDefinitions name (.base word []) v).reverse, []⟩ =
      .ok (false, ⟨u.rest, (variableDefinitions name (.base word []) v).reverse, []⟩) :=
    accept_of_not_head hcomma
  exact Production.bind_run hlast

/-- **The declaration of a name with a value defines the name with this value.** -/
theorem declaration_run (hg : src.grammar.Proper) {word name : String}
    (hword : src.grammar.isFundamental word = true) (hname : src.grammar.IsName name) {v : Value}
    (hv : v.IsLiteral) (hfuel : v.kinds.length + 2 ≤ src.fuel) {ts : List Token} {ks : List TokenKind}
    (hts : ts.map (·.kind) = .ident word :: .ident name :: .punct .assign ::
      (v.kinds ++ .punct .semi :: ks)) :
    ∃ rest, src.declaration ⟨ts, [], []⟩ = .ok ((),
        ⟨rest, (variableDefinitions name (.base word []) v).reverse, []⟩) ∧
      rest.map (·.kind) = ks := by
  obtain ⟨t, us, rfl, ht, hus⟩ := List.map_eq_cons_iff.1 hts
  obtain ⟨u, vs, rfl, hu, hvs⟩ := List.map_eq_cons_iff.1 hus
  obtain ⟨k, hk⟩ : ∃ k, src.fuel = k + 2 := ⟨src.fuel - 2, by omega⟩
  obtain ⟨hfundamental, hqualifier, hmodifier, -, -⟩ := hname.eq_false
  have htypedef : acceptWord "typedef" ⟨t :: u :: vs, [], []⟩ = .ok (false, ⟨t :: u :: vs, [], []⟩) := by
    have hword? : word? (t :: u :: vs) = some word := congrArg TokenKind.ident? ht
    refine acceptWord_of_ne hword? ?_
    rintro rfl
    exact absurd (hg.fundamental _ (Grammar.mem_of_isFundamental hword)) (by decide)
  have hends : src.EndsType ((u :: vs).map (·.kind)) := by
    rw [hus]
    refine ⟨fun w hw => ?_, by simp⟩
    cases hw
    exact hfundamental
  have hspecifiers := specifiers_run hg hword (s := ⟨t :: u :: vs, [], []⟩) rfl ht hends
    (k := k + 1) hk k
  have hsemi : accept .semi ⟨u :: vs, [], []⟩ = .ok (false, ⟨u :: vs, [], []⟩) := by
    refine accept_of_not_head ?_
    show some u.kind ≠ _
    rw [hu]
    simp
  have hquals : src.EndsQualifiers (Stage.kinds ⟨u :: vs, [], []⟩) := by
    rw [show Stage.kinds ⟨u :: vs, [], []⟩ = _ from hus]
    exact endsQualifiers_word hqualifier hmodifier (Or.inr hname.isUnderscoreWord)
  have hassign : vs.head?.map (·.kind) = some (.punct .assign) := by
    rw [← List.head?_map, hvs]
    rfl
  have hdeclarator := declarator_run hname.2.1 (s := ⟨u :: vs, [], []⟩) rfl hu hquals
    (by rw [hassign]; simp) (by rw [hassign]; simp) (k := k + 1) hk k
  have hbrace : comes .lbrace ⟨vs, [], []⟩ = .ok (false, ⟨vs, [], []⟩) := by
    show Except.ok (decide (vs.head?.map (·.kind) = some (.punct .lbrace)), _) = _
    rw [hassign]
    rfl
  have hkinds : Stage.kinds ⟨vs, [], []⟩ = .punct .assign :: (v.kinds ++ .punct .semi :: ks) := hvs
  obtain ⟨ws, hobjects, hws⟩ : ∃ ws, src.objects ⟨[], .base word []⟩ (k + 2) (name, [])
      ⟨vs, [], []⟩ = .ok ((), ⟨ws, (variableDefinitions name (.base word []) v).reverse, []⟩) ∧
      ws.map (·.kind) = .punct .semi :: ks := objects_run hv (by omega) rfl rfl hkinds (k + 1)
  obtain ⟨x, rest, rfl, hx, hrest⟩ := List.map_eq_cons_iff.1 hws
  refine ⟨rest, ?_, hrest⟩
  have hexpect : src.expect .semi ⟨x :: rest, (variableDefinitions name (.base word []) v).reverse, []⟩ =
      .ok ((), ⟨rest, (variableDefinitions name (.base word []) v).reverse, []⟩) := by
    rw [expect, Production.bind_run (accept_of_head rfl hx)]
    rfl
  rw [declaration, Production.bind_run htypedef, if_neg Bool.false_ne_true, hk,
    Production.bind_run hspecifiers, Production.bind_run hsemi, if_neg Bool.false_ne_true,
    Production.bind_run hdeclarator]
  show (comes .lbrace >>= _) _ = _
  rw [Production.bind_run hbrace, if_neg Bool.false_ne_true, Production.bind_run hobjects]
  exact hexpect

end Source

/-! ### Headers of one variable -/

/-- The tokens of a declaration that is written with blanks between its parts. -/
theorem kindsOf_variable {word name : String} (hword : isIdentifier word.toList = true)
    (hname : isIdentifier name.toList = true) {v : Value} (hv : v.IsLiteral) :
    kindsOf (word ++ " " ++ name ++ " = " ++ v.text ++ ";").toList =
      .ident word :: .ident name :: .punct .assign :: (v.kinds ++ [.punct .semi]) := by
  have hsemi : kindsOf (Punct.semi.text.toList ++ []) = .punct .semi :: kindsOf [] :=
    kindsOf_separator (by decide) []
  have hvalue := kindsOf_valueText v hv (r := Punct.semi.text.toList ++ []) rfl
  rw [hsemi, kindsOf_nil] at hvalue
  have hassign : kindsOf (Punct.assign.text.toList ++ ' ' :: (v.text.toList ++
      (Punct.semi.text.toList ++ []))) = _ := kindsOf_punct (by rfl)
  rw [kindsOf_space (by decide), hvalue] at hassign
  have hdeclared := kindsOf_ident hname (r := ' ' :: (Punct.assign.text.toList ++ ' ' ::
    (v.text.toList ++ (Punct.semi.text.toList ++ [])))) rfl
  rw [kindsOf_space (by decide), hassign, String.ofList_toList] at hdeclared
  have hfirst := kindsOf_ident hword (r := ' ' :: (name.toList ++ ' ' :: (Punct.assign.text.toList ++
    ' ' :: (v.text.toList ++ (Punct.semi.text.toList ++ []))))) rfl
  rw [kindsOf_space (by decide), hdeclared, String.ofList_toList] at hfirst
  rw [← hfirst]
  simp only [String.toList_append, List.append_assoc]
  rfl

/-- **A header of one variable with a value is read without a fault, and defines the variable**, and the
constant of this name where the value is no list; nothing else. -/
theorem parseFile_variable {g : Grammar} (hg : g.Proper) (registry : Registry) (file : String)
    (packing : PackingLog) {word name : String} (hword : g.isFundamental word = true)
    (hne : word ≠ "extern") (hname : g.IsName name) {v : Value} (hv : v.IsLiteral) :
    g.parseFile registry file packing (word ++ " " ++ name ++ " = " ++ v.text ++ ";") =
      (registry.insertAll file (variableDefinitions name (.base word []) v), .clean) := by
  have hident : isIdentifier word.toList = true :=
    hg.isIdentifier word (List.mem_append_left _ (Grammar.mem_of_isFundamental hword))
  have hkinds := kindsOf_variable hident hname.1 hv
  generalize word ++ " " ++ name ++ " = " ++ v.text ++ ";" = text at hkinds ⊢
  have htokens : (tokenize text).map (·.kind) = _ := hkinds
  have hlength := congrArg List.length htokens
  simp only [List.length_map, List.length_cons, List.length_append, List.length_nil] at hlength
  let src := Source.ofTokens g registry packing text.toList (tokenize text)
  have hfuel : src.fuel = 8 * ((tokenize text).length + 1) := rfl
  obtain ⟨rest, hrun, hrest⟩ : ∃ rest, src.declaration ⟨tokenize text, [], []⟩ =
      .ok ((), ⟨rest, (variableDefinitions name (.base word []) v).reverse, []⟩) ∧
      rest.map (·.kind) = [] := declaration_run hg hword hname hv (by omega) htokens
  have hparse := parseFile_of_declaration registry file packing
    (word?_of_kinds (s := ⟨tokenize text, [], []⟩) htokens) hne rfl hrun
    (List.map_eq_nil_iff.1 hrest) rfl
  rw [hparse, List.reverse_reverse]

/-- **Values are read back from an initializer as they were written.** Whatever was defined before, the
declaration of `x` with the text of a value gives the variable this value, without a fault; and `x` is
a constant with the value if this is no list, and otherwise the constant that it was before, or none. -/
theorem parseFile_initializer (registry : Registry) (file : String) (packing : PackingLog) {v : Value}
    (hv : v.IsLiteral) :
    ∃ r, Grammar.standard.parseFile registry file packing ("int x = " ++ v.text ++ ";") =
        (r, .clean) ∧
      r.flat.get? .vars "x" = some ⟨.vars, some v, .base "int" [], []⟩ ∧
      r.flat.get? .values "x" =
        if v.isScalar then some ⟨.values, v⟩ else registry.flat.get? .values "x" := by
  have hname : Grammar.standard.IsName "x" := by
    unfold Grammar.IsName
    decide +kernel
  have hint : Grammar.standard.isFundamental "int" = true := by decide
  have hparse := parseFile_variable Grammar.standard_proper registry file packing hint (by decide)
    hname hv
  refine ⟨_, hparse, ?_, ?_⟩
  · rw [Registry.flat_insertAll, variableDefinitions, List.foldl_append]
    exact Definitions.get?_insert_self _ "x" ⟨.vars, some v, .base "int" [], []⟩
  · rw [Registry.flat_insertAll, variableDefinitions, List.foldl_append]
    show (Definitions.insert _ "x" ⟨.vars, some v, .base "int" [], []⟩).get? .values "x" = _
    rw [Definitions.get?_insert, if_neg fun h => by cases h.1]
    split
    · exact Definitions.get?_insert_self _ "x" ⟨.values, v⟩
    · rfl

/-- A list of lists, the last of them empty, with the least integer and a text that holds what could end
a value. -/
def nestedList : Value :=
  .list [.list [.int Int64.minValue, .str "a,\"\x7d;\n"], .int 0, .list [.list []]]

theorem parseFile_initializer_nestedList : nestedList.IsLiteral ∧
    ∃ r, Grammar.standard.parseFile .empty "list.h" .initial ("int x = " ++ nestedList.text ++ ";") =
        (r, .clean) ∧
      r.flat.get? .vars "x" = some ⟨.vars, some nestedList, .base "int" [], []⟩ ∧
      r.flat.get? .values "x" = none := by
  have htext : '\x00' ∉ "a,\"\x7d;\n".toList := by decide +kernel
  have hv : nestedList.IsLiteral := ⟨⟨trivial, htext, trivial⟩, trivial, ⟨trivial, trivial⟩, trivial⟩
  exact ⟨hv, parseFile_initializer .empty "list.h" .initial hv⟩

end CInterface
