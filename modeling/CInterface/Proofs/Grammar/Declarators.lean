import CInterface.Proofs.CType.Wording
import CInterface.Proofs.Grammar.Reading
import CInterface.Proofs.Literal.Decimal
/-!
# Reading declarators

How the productions for declarators read a declarator that is put together outward, layer by layer.

* `Source.named`, `Source.unnamed` — the two productions for declarators, with fuel of its own for
  the pointers before what is declared.
* `Source.DeclaresAt` — the tokens are read as a declarator with the name, or without one; then they
  are none with a name.
* `Source.CentersAt` — the same for what stands between pointers and brackets.

A pointer, a reference or a parenthesis before a declarator is read in one step
(`DeclaresAt.pointer`, `DeclaresAt.reference`, `CentersAt.group`), and a declarator ends with its
qualifiers, its center and its brackets (`DeclaresAt.done`).
-/

namespace CInterface

namespace Source

variable {src : Source} {γ : Type} {n : Option String} {ks ms ls : List TokenKind}

/-! ### Pointers and references -/

/-- The pointers before a declarator, and the declarator itself, which gets the qualifiers behind
the last of them. -/
def indirected (src : Source) (prepend : List LayerStep → γ → γ) (k : Nat)
    (body : Qualifiers → Production γ) : Production γ := do
  let (steps, last) ← src.indirections k
  return prepend steps (← body last)

/-- The step that a pointer or reference takes. -/
def indirectStep : Punct → LayerStep
  | .star => .pointer
  | _ => .reference

theorem endsQualifiers_punct (p : Punct) : src.EndsQualifiers (.punct p :: ks) :=
  fun _ hw => by cases hw

/-- One more pointer or reference, with the qualifiers before it. -/
theorem indirected_mark {prepend : List LayerStep → γ → γ}
    (hprepend : ∀ a b c, prepend (a ++ b) c = prepend a (prepend b c)) (k : Nat)
    (body : Qualifiers → Production γ) {mark : Punct} (hmark : mark = .star ∨ mark = .amp)
    {qs : Qualifiers} (hqs : src.grammar.IsQuals qs) :
    Leads (src.indirected prepend (k + 1) body) (qs.map .ident ++ .punct mark :: ks)
      (prepend (qualifySteps qs ++ [indirectStep mark]) <$> src.indirected prepend k body) ks := by
  have hends : src.EndsQualifiers (.punct mark :: ks) := endsQualifiers_punct mark
  have hquals := reads_qualifiers hqs.2 hends false []
  rw [hqs.union_nil] at hquals
  have hmap : ∀ (pre : List LayerStep) (step : LayerStep),
      (do
        let r ← src.indirections k
        return prepend (pre ++ step :: r.1) (← body r.2)) =
      prepend (pre ++ [step]) <$> src.indirected prepend k body := by
    intro pre step
    simp only [indirected, map_eq_pure_bind, bind_assoc, pure_bind, ← hprepend, List.append_assoc,
      List.singleton_append]
  rw [indirected, indirections]
  simp only [bind_assoc]
  refine (hquals.leads _).trans ?_
  rcases hmark with rfl | rfl
  · refine ((reads_accept .star).leads _).trans ?_
    simp only [if_true, bind_assoc, pure_bind, hmap]
    exact .refl
  · refine ((reads_not_accept (by simp)).leads _).trans ?_
    simp only [Bool.false_eq_true, if_false, bind_assoc]
    refine ((reads_accept .amp).leads _).trans ?_
    simp only [if_true, bind_assoc, pure_bind, hmap]
    exact .refl

/-- Behind the last pointer stand qualifiers and what is declared. -/
theorem indirected_done {prepend : List LayerStep → γ → γ} (k : Nat)
    (body : Qualifiers → Production γ) {qs : Qualifiers} (hqs : src.grammar.IsQuals qs)
    (hks : src.EndsQualifiers ks) (hstar : ks.head? ≠ some (.punct .star))
    (hamp : ks.head? ≠ some (.punct .amp)) :
    Leads (src.indirected prepend (k + 1) body) (qs.map .ident ++ ks)
      (prepend [] <$> body qs) ks := by
  have hquals := reads_qualifiers hqs.2 hks false []
  rw [hqs.union_nil] at hquals
  rw [indirected, indirections]
  simp only [bind_assoc]
  refine (hquals.leads _).trans ?_
  refine ((reads_not_accept hstar).leads _).trans ?_
  simp only [Bool.false_eq_true, if_false, bind_assoc]
  refine ((reads_not_accept hamp).leads _).trans ?_
  simp only [Bool.false_eq_true, if_false, pure_bind, map_eq_pure_bind]
  exact .refl

/-! ### Declarators with and without a name -/

/-- A declarator with a name, with fuel of its own for the pointers before it. -/
def named (src : Source) (k fuel : Nat) : Production (String × List LayerStep) :=
  src.indirected (fun steps r => (r.1, steps ++ r.2)) k fun last => do
    let (name, center) ← src.center fuel
    return (name, (← src.suffix fuel last) ++ center)

/-- A declarator without a name, with fuel of its own for the pointers before it. -/
def unnamed (src : Source) (k fuel : Nat) : Production (List LayerStep) :=
  src.indirected (fun steps r => steps ++ r) k fun last => do
    let center := (← attempt (src.abstractCenter fuel)).getD []
    return (← src.suffix fuel last) ++ center

theorem declarator_succ (fuel : Nat) : src.declarator (fuel + 1) = src.named src.fuel fuel := by
  rw [declarator]
  simp only [named, indirected, bind_assoc, pure_bind, List.append_assoc]

theorem abstractDeclarator_succ (fuel : Nat) :
    src.abstractDeclarator (fuel + 1) = src.unnamed src.fuel fuel := by
  rw [abstractDeclarator]
  simp only [unnamed, indirected, bind_assoc, pure_bind, List.append_assoc]

/-- The tokens `ks` are read as a declarator with the name `n` that builds by the steps `S`, and the
tokens `ls` are left. A declarator without a name is none with a name. -/
def DeclaresAt (src : Source) (n : Option String) (k fuel : Nat) (ks : List TokenKind)
    (S : List LayerStep) (ls : List TokenKind) : Prop :=
  match n with
  | some name => Reads (src.named k fuel) ks (name, S) ls
  | none => Fails (src.named k fuel) ks ∧ Reads (src.unnamed k fuel) ks S ls

/-- The tokens `ks` are read as the center of a declarator: its name, or a declarator in parentheses,
or nothing where it has no name. -/
def CentersAt (src : Source) (n : Option String) (fuel : Nat) (ks : List TokenKind)
    (S : List LayerStep) (ls : List TokenKind) : Prop :=
  match n with
  | some name => Reads (src.center fuel) ks (name, S) ls
  | none => Fails (src.center fuel) ks ∧
    ∃ found, Reads (attempt (src.abstractCenter fuel)) ks found ls ∧ found.getD [] = S

/-- A pointer or reference before a declarator, with the qualifiers before it. -/
theorem DeclaresAt.mark {k fuel : Nat} {S : List LayerStep}
    (h : src.DeclaresAt n k fuel ks S ls) {mark : Punct} (hmark : mark = .star ∨ mark = .amp)
    {qs : Qualifiers} (hqs : src.grammar.IsQuals qs) :
    src.DeclaresAt n (k + 1) fuel (qs.map .ident ++ .punct mark :: ks)
      (qualifySteps qs ++ indirectStep mark :: S) ls := by
  have hS : qualifySteps qs ++ indirectStep mark :: S =
      (qualifySteps qs ++ [indirectStep mark]) ++ S := by simp
  rw [hS]
  cases n with
  | some name => exact (indirected_mark (by simp) k _ hmark hqs).reads (Reads.map _ h)
  | none =>
    obtain ⟨hfails, hreads⟩ := h
    refine ⟨?_, ?_⟩
    · exact (indirected_mark (by simp) k _ hmark hqs).fails (hfails.map _)
    · exact (indirected_mark (by simp) k _ hmark hqs).reads (hreads.map _)

/-- Without a center there is no declarator with a name. -/
theorem named_fails_of_center {fuel : Nat} {qs : Qualifiers} (hcenter : Fails (src.center fuel) ks)
    (k : Nat) (hqs : src.grammar.IsQuals qs) (hks : src.EndsQualifiers ks)
    (hstar : ks.head? ≠ some (.punct .star)) (hamp : ks.head? ≠ some (.punct .amp)) :
    Fails (src.named (k + 1) fuel) (qs.map .ident ++ ks) :=
  (indirected_done k _ hqs hks hstar hamp).fails (hcenter.bind.map _)

/-- Nor is there one if what stands behind the center does not match. -/
theorem named_fails_of_suffix {fuel : Nat} {name : String} {C : List LayerStep} {qs : Qualifiers}
    (hcenter : Reads (src.center fuel) ks (name, C) ms) (hsuffix : Fails (src.suffix fuel qs) ms)
    (k : Nat) (hqs : src.grammar.IsQuals qs) (hks : src.EndsQualifiers ks)
    (hstar : ks.head? ≠ some (.punct .star)) (hamp : ks.head? ≠ some (.punct .amp)) :
    Fails (src.named (k + 1) fuel) (qs.map .ident ++ ks) :=
  (indirected_done k _ hqs hks hstar hamp).fails (Fails.map _ (hcenter.bind_fails hsuffix.bind))

/-- A declarator that has no more pointers: qualifiers, the center and what stands behind it. -/
theorem DeclaresAt.done {fuel : Nat} {C T : List LayerStep} {qs : Qualifiers}
    (hcenter : src.CentersAt n fuel ks C ms) (hsuffix : Reads (src.suffix fuel qs) ms T ls) (k : Nat)
    (hqs : src.grammar.IsQuals qs) (hks : src.EndsQualifiers ks)
    (hstar : ks.head? ≠ some (.punct .star)) (hamp : ks.head? ≠ some (.punct .amp)) :
    src.DeclaresAt n (k + 1) fuel (qs.map .ident ++ ks) (T ++ C) ls := by
  cases n with
  | some name =>
    have hbody : Reads (do
        let (name, center) ← src.center fuel
        return (name, (← src.suffix fuel qs) ++ center)) ks (name, T ++ C) ls :=
      .bind hcenter (.bind hsuffix (.pure _))
    exact (indirected_done k _ hqs hks hstar hamp).reads (hbody.map _)
  | none =>
    obtain ⟨hfails, found, hfound, rfl⟩ := hcenter
    have hbody : Reads (do
        let center := (← attempt (src.abstractCenter fuel)).getD []
        return (← src.suffix fuel qs) ++ center) ks (T ++ found.getD []) ls :=
      .bind hfound (.bind hsuffix (.pure _))
    refine ⟨?_, ?_⟩
    · exact named_fails_of_center hfails k hqs hks hstar hamp
    · exact (indirected_done k _ hqs hks hstar hamp).reads (hbody.map _)

/-! ### Centers -/

/-- The declared name. -/
theorem CentersAt.name {name : String} (h : src.grammar.isKeyword name = false) (fuel : Nat) :
    src.CentersAt (some name) (fuel + 1) (.ident name :: ks) [] ks := by
  show Reads (src.center (fuel + 1)) _ _ _
  rw [center]
  exact .bind (reads_name? h) (.pure _)

/-- Where no name is declared and no parenthesis follows, the center is empty. -/
theorem CentersAt.nothing
    (h : ∀ k, ks.head? = some k → k.isIdent = false ∧ k ≠ .punct .lparen) (fuel : Nat) :
    src.CentersAt none (fuel + 1) ks [] ks := by
  have hparen : ks.head? ≠ some (.punct .lparen) := fun hk => (h _ hk).2 rfl
  refine ⟨?_, none, ?_, rfl⟩
  · rw [center]
    have hname : ∀ name, ks.head? = some (.ident name) → src.grammar.isKeyword name = true := by
      intro name hk
      cases (h _ hk).1
    refine Reads.bind_fails (reads_no_name hname) ?_
    exact Reads.bind_fails (reads_not_accept hparen) (fails _)
  · refine Fails.attempt ?_
    rw [abstractCenter]
    exact (expect_fails hparen).bind

/-- A declarator in parentheses. -/
theorem CentersAt.group {fuel : Nat} {S : List LayerStep}
    (h : src.DeclaresAt n src.fuel fuel ks S (.punct .rparen :: ls)) (hS : S ≠ []) :
    src.CentersAt n (fuel + 2) (.punct .lparen :: ks) S ls := by
  have hname : Reads src.name? (.punct .lparen :: ks) none (.punct .lparen :: ks) :=
    reads_no_name fun _ hk => by cases hk
  cases n with
  | some name =>
    show Reads (src.center (fuel + 2)) _ _ _
    rw [center, declarator_succ]
    refine .bind hname (.bind (reads_accept .lparen) ?_)
    rw [if_pos rfl]
    exact .bind h (.bind (reads_expect .rparen) (.pure _))
  | none =>
    obtain ⟨hfails, hreads⟩ := h
    refine ⟨?_, some S, Reads.attempt ?_, rfl⟩
    · rw [center, declarator_succ]
      refine Reads.bind_fails hname (Reads.bind_fails (reads_accept .lparen) ?_)
      rw [if_pos rfl]
      exact hfails.bind
    · rw [abstractCenter, abstractDeclarator_succ]
      refine .bind (reads_expect .lparen) (.bind hreads ?_)
      have hempty : S.isEmpty = false := List.isEmpty_eq_false_iff.2 hS
      simp only [hempty]
      exact .bind (reads_expect .rparen) (.pure _)

/-! ### Brackets -/

/-- The bound of an array with the value of an expression, if it has one. -/
def boundOf : Except EvalError Value → Option UInt64
  | .ok v => v.asSize?
  | .error _ => none

/-- Array bounds are read up to the first token that opens none. -/
theorem reads_arrayBounds {bounds : List (Option UInt64)}
    (hbounds : ∀ b ∈ bounds, ∀ m ∈ b, m.toNat < 2 ^ 63)
    (hls : ls.head? ≠ some (.punct .lbracket)) {k : Nat} (hk : bounds.length ≤ k) :
    Reads (src.arrayBounds k) (bounds.flatMap boundKinds ++ ls) bounds ls := by
  induction bounds generalizing k with
  | nil =>
    cases k with
    | zero => exact .pure []
    | succ k =>
      rw [arrayBounds]
      exact .bind (reads_not_accept hls) (.pure [])
  | cons b bounds ih =>
    cases k with
    | zero => cases hk
    | succ k =>
      have hrest := ih (fun c hc => hbounds c (List.mem_cons_of_mem _ hc)) (Nat.le_of_succ_le_succ hk)
      rw [arrayBounds, List.flatMap_cons, List.append_assoc]
      -- what stands between the brackets is the bound, or nothing
      obtain ⟨inside, v, hkinds, hinside, heval, hsize⟩ : ∃ inside v,
          boundKinds b = .punct .lbracket :: (inside ++ [.punct .rbracket]) ∧
          (inside.all fun k => !(k.isOneOf [.rbracket] || k.isOpen || k.isClose)) = true ∧
          (∀ env, evalTokens env inside = v) ∧
          boundOf v = b := by
        cases b with
        | none => exact ⟨[], .error .empty, rfl, rfl, fun _ => rfl, rfl⟩
        | some m =>
          have hm := hbounds _ List.mem_cons_self m rfl
          refine ⟨[.integer (toString m.toNat)], .ok (.int m.toInt64), rfl, rfl, fun env => ?_,
            asSize?_of_lt hm⟩
          refine evalTokens_integer env ?_
          rw [Literal.integer?_toString (UInt64.toNat_lt m), UInt64.ofNat_toNat]
      rw [hkinds, List.cons_append, List.append_assoc]
      refine .bind (reads_accept .lbracket) ?_
      rw [if_pos rfl]
      refine .bind (reads_tokensUntil hinside (Or.inl (by simp))) ?_
      refine .bind (reads_expect .rbracket) ?_
      refine .bind (reads_evaluate heval) ?_
      subst hsize
      exact .bind hrest (.pure _)

/-- Behind the center stand array bounds, or nothing. -/
theorem reads_suffix_bounds {bounds : List (Option UInt64)}
    (hbounds : ∀ b ∈ bounds, ∀ m ∈ b, m.toNat < 2 ^ 63) (hk : bounds.length ≤ src.fuel)
    (hparen : ls.head? ≠ some (.punct .lparen)) (hbracket : ls.head? ≠ some (.punct .lbracket))
    (fuel : Nat) (quals : Qualifiers) :
    Reads (src.suffix (fuel + 1) quals) (bounds.flatMap boundKinds ++ ls)
      (qualifySteps quals ++ boundSteps bounds) ls := by
  have hhead : (bounds.flatMap boundKinds ++ ls).head? ≠ some (.punct .lparen) := by
    cases bounds with
    | nil => exact hparen
    | cons b bounds => cases b <;> simp [boundKinds]
  rw [suffix]
  refine .bind (reads_comes .lparen) ?_
  simp only [hhead]
  exact .bind (.pure []) (.bind (reads_arrayBounds hbounds hbracket hk) (.pure _))

/-- Behind the center stands a parameter list. -/
theorem reads_suffix_params {fuel : Nat} {params : List Param} {variadic : Bool}
    (h : Reads (src.parameterList fuel) (.punct .lparen :: ks) (params, variadic) ls)
    (hbracket : ls.head? ≠ some (.punct .lbracket)) (quals : Qualifiers) :
    Reads (src.suffix (fuel + 1) quals) (.punct .lparen :: ks)
      (.function params variadic :: qualifySteps quals) ls := by
  have hbounds : Reads (src.arrayBounds src.fuel)
      (([] : List (Option UInt64)).flatMap boundKinds ++ ls) [] ls :=
    reads_arrayBounds (by simp) hbracket (Nat.zero_le src.fuel)
  rw [suffix]
  refine .bind (reads_comes .lparen) ?_
  simp only [List.head?_cons, decide_true, if_true]
  refine .bind h (.bind (.pure _) (.bind hbounds ?_))
  have hsteps : LayerStep.function params variadic :: qualifySteps quals =
      [.function params variadic] ++ qualifySteps quals ++ boundSteps [] := by simp [boundSteps]
  rw [hsteps]
  exact .pure _

/-! ### Specifiers -/

/-- The token can follow the words of a type: it is neither part of them nor the brace of an
aggregate. -/
def EndsType (src : Source) (ks : List TokenKind) : Prop :=
  (∀ w, ks.head? = some (.ident w) → src.grammar.isFundamental w = false) ∧
    ks.head? ≠ some (.punct .lbrace)

/-- Qualifiers before a type are read up to the first word that is neither one nor a storage class. -/
theorem reads_leadingWords {qs : Qualifiers}
    (hqs : ∀ q ∈ qs, src.grammar.isQualifier q = true ∧ src.grammar.isStorage q = false)
    (hks : src.EndsQualifiers ks)
    (hstorage : ∀ w, ks.head? = some (.ident w) → src.grammar.isStorage w = false)
    {k : Nat} (hk : qs.length < k) (storage : List String) (quals : Qualifiers) :
    Reads (src.leadingWords k storage quals) (qs.map .ident ++ ks) (storage, quals.union qs) ks := by
  induction qs generalizing k quals with
  | nil =>
    obtain ⟨k, rfl⟩ : ∃ j, k = j + 1 := ⟨k - 1, by omega⟩
    rw [leadingWords]
    refine .get_bind fun s hs => ?_
    have hword : (word? s.rest).filter src.grammar.isStorage = none := by
      refine Option.filter_eq_none_iff.2 fun w hw => ?_
      have hhead : ks.head? = some (.ident w) := by
        rw [← head?_of_word? hw, hs]
        rfl
      rw [hstorage w hhead]
      exact Bool.false_ne_true
    rw [hword]
    refine .get_bind fun s hs => ?_
    rw [hks.qualifier?_eq_none hs]
    exact .pure _
  | cons q qs ih =>
    obtain ⟨k, rfl⟩ : ∃ j, k = j + 1 := ⟨k - 1, by simp only [List.length_cons] at hk; omega⟩
    obtain ⟨hq, hqstorage⟩ := hqs q List.mem_cons_self
    have hrest := ih (fun p hp => hqs p (List.mem_cons_of_mem _ hp)) (Nat.lt_of_succ_lt_succ hk)
      (quals.insert q)
    rw [leadingWords]
    refine .get_bind fun s hs => ?_
    have hword : (word? s.rest).filter src.grammar.isStorage = none := by
      rw [word?_of_kinds hs]
      simp [hqstorage]
    rw [hword]
    refine .get_bind fun s hs => ?_
    rw [qualifier?_of_isQualifier hq hs]
    exact .bind (reads_drop hs) hrest

/-- The words of a built-in type are read up to the first token that is none. -/
theorem reads_fundamentalWords {ws : List String}
    (hws : ∀ w ∈ ws, src.grammar.isFundamental w = true) (hks : src.EndsType ks) :
    Reads src.fundamentalWords (ws.map .ident ++ ks) ws ks := by
  have htake : (ws.map TokenKind.ident ++ ks).takeWhile
      (fun k => k.ident?.any src.grammar.isFundamental) = ws.map .ident := by
    have hws' : ∀ k ∈ ws.map TokenKind.ident,
        (k.ident?.any src.grammar.isFundamental) = true := by
      intro k hk
      obtain ⟨w, hw, rfl⟩ := List.mem_map.1 hk
      exact hws w hw
    rw [List.takeWhile_append_of_pos hws']
    cases ks with
    | nil => simp
    | cons k ks =>
      cases k with
      | ident w => simp [TokenKind.ident?, hks.1 w rfl]
      | _ => simp [TokenKind.ident?]
  refine .get_bind fun s hs => .get_bind fun s' hs' => ?_
  have hwords : (s.rest.takeWhile fun t => t.kind.ident?.any src.grammar.isFundamental).map
      (·.kind) = ws.map .ident := by
    rw [← htake, ← hs, Stage.kinds, List.takeWhile_map]
    rfl
  have hnames : (s.rest.takeWhile fun t => t.kind.ident?.any src.grammar.isFundamental).filterMap
      (·.kind.ident?) = ws := by
    have hsplit := congrArg (List.filterMap TokenKind.ident?) hwords
    rw [List.filterMap_map, List.filterMap_map] at hsplit
    refine hsplit.trans ?_
    exact List.filterMap_some
  have hlength := congrArg List.length hwords
  rw [List.length_map, List.length_map] at hlength
  rw [hnames, hlength]
  refine .bind (reads_moveTo ?_) (.pure _)
  rw [List.map_drop, show s'.rest.map (·.kind) = _ from hs']
  exact List.drop_left' (List.length_map _)

/-- An aggregate that is only named, from its keyword on. -/
theorem reads_compound {name : String} (hname : src.grammar.isKeyword name = false)
    (hks : src.EndsType ks) (fuel : Nat) (kind : CompoundKind) (k : TokenKind) :
    Reads (src.compound (fuel + 1) kind) (k :: .ident name :: ks)
      (kind.keyword ++ " " ++ name) ks := by
  rw [compound]
  refine reads_line_bind fun line => .get_bind fun s hs => ?_
  refine .bind (reads_drop hs) (.bind (reads_name? hname) ?_)
  refine .bind (reads_not_accept hks.2) ?_
  rw [if_neg Bool.false_ne_true]
  refine .get_bind fun s _ => ?_
  have hdefine : ∀ c, Reads (defineCompound kind name c) ks () ks :=
    fun c s hs => ⟨_, rfl, hs, rfl⟩
  split
  · exact .bind (hdefine _) (.pure _)
  · exact .pure _

/-- An enumeration that is only named, behind its keyword. -/
theorem reads_enumeration {name : String} (hname : src.grammar.isKeyword name = false)
    (hks : src.EndsType ks) :
    Reads src.enumeration (.ident name :: ks) ("enum " ++ name) ks := by
  refine .bind (reads_name? hname) (.bind (reads_not_accept hks.2) ?_)
  rw [if_neg Bool.false_ne_true]
  refine .get_bind fun s _ => ?_
  have hdefine : ∀ d, Reads (defineEnum name d) ks () ks := fun d s hs => ⟨_, rfl, hs, rfl⟩
  split
  · exact .bind (hdefine _) (.pure _)
  · exact .pure _

theorem endsQualifiers_word {word : String} (hqualifier : src.grammar.isQualifier word = false)
    (hmodifier : src.grammar.isModifier word = false)
    (hunderscore : src.grammar.isKeyword word = true ∨ src.grammar.isUnderscoreWord word = false) :
    src.EndsQualifiers (.ident word :: ks) := by
  intro w hw
  cases hw
  refine ⟨hqualifier, hmodifier, ?_⟩
  rcases hunderscore with h | h
  · rw [Grammar.isUnderscoreWord, h, Bool.not_true, Bool.and_false]
  · exact h

/-- The words of a built-in type are read as its name. -/
theorem reads_builtIn (hg : src.grammar.Proper) {word : String} {ws : List String}
    (hws : ∀ w ∈ word :: ws, src.grammar.isFundamental w = true) (hks : src.EndsType ks)
    (fuel : Nat) :
    Reads (src.typeName (fuel + 2)) ((word :: ws).map .ident ++ ks)
      (" ".intercalate (word :: ws)) ks := by
  have hword := hws word List.mem_cons_self
  have hnot := hg.fundamental word (Grammar.mem_of_isFundamental hword)
  simp only [Grammar.reservedWords, List.mem_cons, List.not_mem_nil, or_false, not_or] at hnot
  obtain ⟨hstruct, hunion, henum, -⟩ := hnot
  rw [typeName]
  refine .get_bind fun s hs => ?_
  rw [word?_of_kinds hs]
  simp only [hstruct, hunion, henum, hword, if_false, if_true]
  exact .bind (reads_fundamentalWords hws hks) (.pure _)

/-- A tag with its keyword is read as one name. -/
theorem reads_tag {keyword name : String} (hkeyword : keyword ∈ Grammar.tagWords)
    (hname : src.grammar.isKeyword name = false) (hks : src.EndsType ks) (fuel : Nat) :
    Reads (src.typeName (fuel + 2)) (.ident keyword :: .ident name :: ks)
      (keyword ++ " " ++ name) ks := by
  rw [typeName]
  refine .get_bind fun s hs => ?_
  rw [word?_of_kinds hs]
  simp only [Grammar.tagWords, List.mem_cons, List.not_mem_nil, or_false] at hkeyword
  rcases hkeyword with rfl | rfl | rfl
  · exact reads_compound hname hks fuel .struct _
  · exact reads_compound hname hks fuel .union _
  · refine .get_bind fun s hs => .bind (reads_drop hs) ?_
    exact reads_enumeration hname hks

/-- A typedef name is read as itself. -/
theorem reads_typedefName {name : String} (hname : src.grammar.IsName name) (fuel : Nat) :
    Reads (src.typeName (fuel + 2)) (.ident name :: ks) name ks := by
  obtain ⟨hfund, -, -, -, hnot⟩ := hname.eq_false
  simp only [Grammar.reservedWords, List.mem_cons, List.not_mem_nil, or_false, not_or] at hnot
  obtain ⟨hstruct, hunion, henum, -⟩ := hnot
  rw [typeName]
  refine .get_bind fun s hs => ?_
  rw [word?_of_kinds hs]
  simp only [hstruct, hunion, henum, hfund, hname.2.1, if_false, Bool.false_eq_true, Bool.not_false,
    if_true]
  exact .get_bind fun s hs => .bind (reads_drop hs) (.pure _)

/-- The words of a type are read as its name, and begin with neither a qualifier nor a storage
class. -/
theorem reads_typeName (hg : src.grammar.Proper) {name : String} (hname : src.grammar.IsBase name)
    (hks : src.EndsType ks) (fuel : Nat) :
    ∃ word rest, kindsOf name.toList ++ ks = .ident word :: rest ∧
      src.grammar.isStorage word = false ∧ src.EndsQualifiers (.ident word :: rest) ∧
      Reads (src.typeName (fuel + 2)) (.ident word :: rest) name ks := by
  cases hname with
  | @builtIn ws hne hws =>
    cases ws with
    | nil => exact absurd rfl hne
    | cons word ws =>
      have hword := hws word List.mem_cons_self
      have hmem := Grammar.mem_of_isFundamental hword
      obtain ⟨hq, hm, hs⟩ := hg.typeWord word (List.mem_append_left _ hmem)
      have hkey : src.grammar.isKeyword word = true := by
        simp only [Grammar.isKeyword, hword, Bool.true_or]
      refine ⟨word, ws.map TokenKind.ident ++ ks, ?_, hs,
        endsQualifiers_word hq hm (Or.inl hkey), reads_builtIn hg hws hks fuel⟩
      rw [hg.kindsOf_builtIn hws]
      rfl
  | @tag keyword name hkeyword hname =>
    obtain ⟨hq, hm, hs⟩ := hg.typeWord keyword (List.mem_append_right _ hkeyword)
    have hkey : src.grammar.isKeyword keyword = true := by
      have hres : keyword ∈ Grammar.reservedWords := List.mem_of_mem_take (i := 3) hkeyword
      simp only [Grammar.isKeyword, List.contains_iff_mem.2 hres, Bool.or_true]
    refine ⟨keyword, .ident name :: ks, ?_, hs, endsQualifiers_word hq hm (Or.inl hkey),
      reads_tag hkeyword hname.2.1 hks fuel⟩
    rw [Grammar.kindsOf_tag hkeyword hname.1]
    rfl
  | typedefName hname =>
    obtain ⟨-, hq, hm, hs, -⟩ := hname.eq_false
    refine ⟨name, ks, ?_, hs, endsQualifiers_word hq hm (Or.inr hname.isUnderscoreWord),
      reads_typedefName hname fuel⟩
    rw [Grammar.kindsOf_name hname.1]
    rfl

/-- **The specifiers of a declaration.** Qualifiers and the words of a type are read as the type with
these qualifiers. -/
theorem reads_specifiers (hg : src.grammar.Proper) {name : String} {quals : Qualifiers}
    (hname : src.grammar.IsBase name) (hquals : src.grammar.IsQuals quals) (hks : src.EndsType ks)
    (hlength : quals.length < src.fuel) (fuel : Nat) :
    Reads (src.specifiers (fuel + 3)) (quals.map .ident ++ kindsOf name.toList ++ ks)
      ⟨[], .base name quals⟩ ks := by
  obtain ⟨word, rest, hkinds, hstorage, hends, hread⟩ := reads_typeName hg hname hks fuel
  have hqs : ∀ q ∈ quals, src.grammar.isQualifier q = true ∧ src.grammar.isStorage q = false :=
    fun q hq => ⟨hquals.2 q hq, hg.qualifier q (Grammar.mem_of_isQualifier (hquals.2 q hq))⟩
  have hword : ∀ w, (TokenKind.ident word :: rest).head? = some (.ident w) →
      src.grammar.isStorage w = false := by
    rintro w ⟨⟩
    exact hstorage
  have hleading := reads_leadingWords hqs hends hword hlength [] []
  rw [hquals.union_nil] at hleading
  rw [specifiers, List.append_assoc, hkinds]
  exact .bind hleading (.bind hread (.pure _))

end Source

end CInterface
