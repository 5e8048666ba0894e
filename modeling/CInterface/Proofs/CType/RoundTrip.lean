import CInterface.Proofs.Grammar.Layers
/-!
# Writing and reading types

A legal type that is written as a declaration of a name, or as a type alone, is read back as itself
together with the name.

* `reads_parameterList` — a parameter list is read back if each of its parameters is.
* `Inner` — what has been declared so far while a type is written outward, and what may come next.
* `declaresType_wrapKinds` — the tokens of a legal type declare it; the induction is on its layers.
* `Grammar.Proper.parse_render` — the round trip for every proper grammar.
* `parseType_render` — the round trip for C.
-/

namespace CInterface

open Source

variable {src : Source} {n : Option String}

/-! ### Parameter lists -/

/-- The tokens of a parameter. -/
def Param.kinds (p : Param) : List TokenKind := p.type.wrapKinds (p.name.toList.map .ident) false

theorem paramKinds_cons (variadic : Bool) (p : Param) (rest : List Param) :
    paramKinds variadic (p :: rest) = p.kinds ++
      if rest.isEmpty && !variadic then [] else .punct .comma :: paramKinds variadic rest := by
  obtain ⟨name, type, default⟩ := p
  rfl

/-- The tokens of a parameter that can be read declare its type. -/
def Readable (src : Source) (p : Param) : Prop :=
  p.default = none ∧ src.DeclaresType p.name p.kinds p.type

/-- Parameters are read back, each if its tokens declare its type. -/
theorem reads_parameters (hg : src.grammar.Proper) {params : List Param} {variadic : Bool}
    (hparams : ∀ p ∈ params, Readable src p) (hne : params ≠ [] ∨ variadic = true)
    {fuel : Nat} (hfuel : 8 * (paramKinds variadic params).length + 8 ≤ fuel)
    (hsrc : fuel < src.fuel) (ls : List TokenKind) :
    Reads (src.parameters fuel) (paramKinds variadic params ++ .punct .rparen :: ls)
      (params, variadic) (.punct .rparen :: ls) := by
  induction params generalizing fuel with
  | nil =>
    obtain rfl : variadic = true := hne.resolve_left (absurd rfl)
    obtain ⟨fuel, rfl⟩ : ∃ j, fuel = j + 1 := ⟨fuel - 1, by omega⟩
    rw [parameters]
    refine .bind (reads_accept .ellipsis) ?_
    rw [if_pos rfl]
    exact .pure _
  | cons p rest ih =>
    obtain ⟨hdefault, hp⟩ := hparams p List.mem_cons_self
    obtain ⟨word, more, hword⟩ := hp.exists_word hg
    rw [paramKinds_cons, List.length_append] at hfuel
    obtain ⟨fuel, rfl⟩ : ∃ j, fuel = j + 1 := ⟨fuel - 1, by omega⟩
    -- what follows the parameter: the end of the list, or a comma and the other parameters
    obtain ⟨tail, htail, hfollows, hassign, hcontinue⟩ : ∃ tail,
        paramKinds variadic (p :: rest) ++ .punct .rparen :: ls = p.kinds ++ tail ∧
        Follows tail ∧ tail.head? ≠ some (.punct .assign) ∧
        Reads (do
          if ← accept .comma then
            let found ← src.parameters fuel
            return (p :: found.1, found.2)
          else return ([p], false)) tail (p :: rest, variadic) (.punct .rparen :: ls) := by
      rw [paramKinds_cons, List.append_assoc]
      refine ⟨_, rfl, ?_⟩
      by_cases hlast : (rest.isEmpty && !variadic) = true
      · obtain ⟨hnil, hvariadic⟩ := Bool.and_eq_true_iff.1 hlast
        obtain rfl : rest = [] := List.isEmpty_iff.1 hnil
        obtain rfl : variadic = false := by simpa using hvariadic
        refine ⟨.punct (by decide), by simp, .bind (reads_not_accept (by simp)) ?_⟩
        rw [if_neg Bool.false_ne_true]
        exact .pure _
      · rw [if_neg hlast] at hfuel ⊢
        refine ⟨.punct (by decide), by simp, .bind (reads_accept .comma) ?_⟩
        rw [if_pos rfl]
        have hmore : rest ≠ [] ∨ variadic = true := by
          cases rest with
          | nil =>
            cases variadic with
            | false => exact absurd rfl hlast
            | true => exact Or.inr rfl
          | cons q rest => exact Or.inl (by simp)
        rw [List.length_cons] at hfuel
        refine .bind (ih (fun q hq => hparams q (List.mem_cons_of_mem _ hq)) hmore (by omega)
          (by omega)) (.pure _)
    have hellipsis : (p.kinds ++ tail).head? ≠ some (.punct .ellipsis) := by
      rw [hword]
      simp
    have hlength : 1 ≤ p.kinds.length := by rw [hword, List.length_cons]; omega
    obtain ⟨specs, S, ms, hspecs, hdeclarator, htype⟩ :=
      hp.reads hg (show 8 * p.kinds.length < fuel by omega) (by omega) hfollows
    have hp' : (⟨p.name, buildType specs.base S, none⟩ : Param) = p := by
      obtain ⟨name, type, default⟩ := p
      rw [htype, show default = none from hdefault]
    rw [htail, parameters]
    refine .bind (reads_not_accept hellipsis) ?_
    rw [if_neg Bool.false_ne_true]
    refine .bind hspecs (.bind hdeclarator ?_)
    refine .bind (reads_not_accept hassign) ?_
    simp only [Bool.false_eq_true, if_false, pure_bind, hp']
    exact hcontinue

/-- A parameter list is read back, if its parameters are and its tokens are not those of an empty
list. -/
theorem reads_parameterList (hg : src.grammar.Proper) {params : List Param} {variadic : Bool}
    (hparams : ∀ p ∈ params, Readable src p) {ls : List TokenKind}
    (hvoid : ∀ more, paramKinds variadic params ++ .punct .rparen :: ls ≠
      .ident "void" :: .punct .rparen :: more)
    {fuel : Nat} (hfuel : 8 * (paramKinds variadic params).length + 16 ≤ fuel)
    (hsrc : fuel < src.fuel) :
    Reads (src.parameterList fuel)
      (.punct .lparen :: (paramKinds variadic params ++ .punct .rparen :: ls))
      (params, variadic) ls := by
  obtain ⟨fuel, rfl⟩ : ∃ j, fuel = j + 1 := ⟨fuel - 1, by omega⟩
  rw [parameterList]
  refine .bind (reads_expect .lparen) ?_
  by_cases hempty : params = [] ∧ variadic = false
  · obtain ⟨rfl, rfl⟩ := hempty
    refine .bind (reads_accept .rparen) ?_
    rw [if_pos rfl]
    exact .pure _
  · have hne : params ≠ [] ∨ variadic = true := by
      cases params with
      | nil => exact Or.inr (by simpa using hempty)
      | cons p rest => exact Or.inl (by simp)
    have hhead : (paramKinds variadic params ++ .punct .rparen :: ls).head? ≠
        some (.punct .rparen) := by
      cases params with
      | nil =>
        obtain rfl : variadic = true := hne.resolve_left (absurd rfl)
        simp [paramKinds]
      | cons p rest =>
        obtain ⟨word, more, hword⟩ := (hparams p List.mem_cons_self).2.exists_word hg
        rw [paramKinds_cons, hword]
        simp
    have hfound : Reads (do
        let found ← src.parameters fuel
        src.expect .rparen
        return found) (paramKinds variadic params ++ .punct .rparen :: ls) (params, variadic) ls :=
      .bind (reads_parameters hg hparams hne (by omega) (by omega) ls)
        (.bind (reads_expect .rparen) (.pure _))
    refine .bind (reads_not_accept hhead) ?_
    rw [if_neg Bool.false_ne_true]
    refine .get_bind fun s hs => ?_
    split
    · rename_i t u rest hrest
      split
      · -- the tokens would be those of an empty list
        rename_i hkinds
        simp only [Bool.and_eq_true, decide_eq_true_eq] at hkinds
        refine absurd ?_ (hvoid (rest.map (·.kind)))
        rw [← hs, Stage.kinds, hrest, List.map_cons, List.map_cons, hkinds.1, hkinds.2]
      · exact hfound
    · exact hfound

/-! ### Layers -/

/-- What has been declared so far while a type is written outward, when the layers of `t` are still
to come. The flag tells that a pointer stands at its head. -/
inductive Inner (src : Source) (n : Option String) (t : CType) :
    Bool → List TokenKind → List LayerStep → Prop where
  /-- A center, with array bounds behind it or without. -/
  | center {C : List TokenKind} {S : List LayerStep} {bounds : List (Option UInt64)}
      (hcenter : src.IsCenter n C S) (hbounds : ∀ b ∈ bounds, ∀ m ∈ b, m.toNat < 2 ^ 63)
      (hfunction : C = [] ∨ bounds ≠ [] → t.isFunction = false) :
      Inner src n t false (C ++ bounds.flatMap boundKinds) (boundSteps bounds ++ S)
  /-- A function, which returns neither a function nor an array, nor a pointer with qualifiers. -/
  | function {D : List TokenKind} {S : List LayerStep} (haccepts : src.Accepts n true D S)
      (hfunction : t.isFunction = false) (harray : t.isArray = false)
      (houter : t.isBase = false → t.outer = []) : Inner src n t false D S
  /-- A pointer or reference. -/
  | indirect {D : List TokenKind} {S : List LayerStep} (haccepts : src.Accepts n false D S)
      (hS : S ≠ []) : Inner src n t true D S

namespace Inner

variable {t u : CType} {indirect : Bool} {D : List TokenKind} {S : List LayerStep}
  {quals : Qualifiers}

/-- What has been declared is a declarator, and takes the qualifiers of a pointer before it. -/
theorem accepts (h : Inner src n t indirect D S) :
    ∃ convention, src.Accepts n convention D S ∧
      (convention = true → t.isBase = false → t.outer = []) := by
  cases h with
  | center hcenter hbounds => exact ⟨false, hcenter.bounds hbounds, fun he => by cases he⟩
  | function haccepts _ _ houter => exact ⟨true, haccepts, fun _ => houter⟩
  | indirect haccepts => exact ⟨false, haccepts, fun he => by cases he⟩

/-- A pointer or reference is written. -/
theorem mark (h : Inner src n t indirect D S) (ht : t.isBase = false)
    (hquals : src.grammar.IsQuals t.outer) {mark : Punct} (hmark : mark = .star ∨ mark = .amp) :
    Inner src n u true (.punct mark :: (t.outer.map .ident ++ D))
      (indirectStep mark :: (qualifySteps t.outer ++ S)) := by
  obtain ⟨convention, haccepts, houter⟩ := h.accepts
  exact .indirect (haccepts.mark hmark hquals fun he => houter he ht) (by simp)

/-- What has been declared is a center, once a pointer at its head is in parentheses: with the
qualifiers of a function before it, or of nothing. -/
theorem center_of_indirect (h : Inner src n t true D S) (hquals : src.grammar.IsQuals quals) :
    src.IsCenter n (encloseKinds true (quals.map .ident ++ D)) (qualifySteps quals ++ S) := by
  cases h with
  | indirect haccepts hS => exact .group haccepts hS hquals

/-- An array is written. -/
theorem bound (h : Inner src n t indirect D S) (ht : t.isArray = true)
    (hu : u.isFunction = false) {size : Option UInt64} (hsize : ∀ m ∈ size, m.toNat < 2 ^ 63) :
    Inner src n u false (encloseKinds indirect D ++ boundKinds size) (.array size :: S) := by
  cases h with
  | @center C S bounds hcenter hbounds =>
    have hmore : ∀ b ∈ bounds ++ [size], ∀ m ∈ b, m.toNat < 2 ^ 63 := by
      intro b hb
      rcases List.mem_append.1 hb with hb | hb
      · exact hbounds b hb
      · rw [List.mem_singleton.1 hb]
        exact hsize
    have hnext := Inner.center (t := u) hcenter hmore fun _ => hu
    simpa [encloseKinds, boundSteps] using hnext
  | function _ _ harray =>
    rw [ht] at harray
    cases harray
  | indirect haccepts hS =>
    have hcenter := center_of_indirect (t := t) (.indirect haccepts hS) .nil
    have hone : ∀ b ∈ [size], ∀ m ∈ b, m.toNat < 2 ^ 63 := by simpa using hsize
    have hnext := Inner.center (t := u) hcenter hone fun _ => hu
    simpa [encloseKinds, boundSteps, qualifySteps] using hnext

/-- A function is written. -/
theorem params (h : Inner src n t indirect D S) (ht : t.isFunction = true)
    (hquals : src.grammar.IsQuals quals) (hfunction : u.isFunction = false)
    (harray : u.isArray = false) (houter : u.isBase = false → u.outer = [])
    {P : List TokenKind} {params : List Param} {variadic : Bool}
    (hparams : ∀ (fuel : Nat) (ls : List TokenKind), 8 * P.length + 16 ≤ fuel → fuel < src.fuel →
      Reads (src.parameterList fuel) (.punct .lparen :: (P ++ .punct .rparen :: ls))
        (params, variadic) ls) :
    Inner src n u false
      (encloseKinds indirect (quals.map .ident ++ D) ++ .punct .lparen :: (P ++ [.punct .rparen]))
      (.function params variadic :: (qualifySteps quals ++ S)) := by
  cases h with
  | @center C S bounds hcenter hbounds hnot =>
    have hC : C ≠ [] := by
      intro hnil
      rw [hnot (Or.inl hnil)] at ht
      cases ht
    obtain rfl : bounds = [] := by
      refine Decidable.byContradiction fun hne => ?_
      rw [hnot (Or.inr hne)] at ht
      cases ht
    have hnext := Inner.function (hcenter.function hC hquals hparams) hfunction harray houter
    simpa [encloseKinds, boundSteps] using hnext
  | function _ hnot =>
    rw [ht] at hnot
    cases hnot
  | indirect haccepts hS =>
    have hcenter := center_of_indirect (t := t) (.indirect haccepts hS) hquals
    have hnext := Inner.function (hcenter.function (by simp [encloseKinds]) .nil hparams)
      hfunction harray houter
    simpa [qualifySteps] using hnext

end Inner

/-- The tokens of an empty declarator, or of a name. -/
theorem Inner.start {t : CType} (h : Declarable src.grammar n t) :
    Inner src n t false (n.toList.map .ident) [] := by
  obtain ⟨hname, hfunction, -⟩ := h
  have hstart : ∀ C : List TokenKind, src.IsCenter n C [] → (C = [] → t.isFunction = false) →
      Inner src n t false (C ++ ([] : List (Option UInt64)).flatMap boundKinds)
        (boundSteps [] ++ []) := by
    intro C hC hnil
    refine .center hC (by simp) fun hor => hnil (hor.resolve_right (absurd rfl))
  cases n with
  | none => exact hstart [] .nothing fun _ => hfunction rfl
  | some name => exact hstart [.ident name] (.name (hname name rfl)) fun he => by cases he

/-! ### The list that is empty -/

/-- Every layer adds a token, and so does the base. -/
theorem length_wrapKinds {g : Grammar} (hg : g.Proper) (t : CType) (ht : t.Legal g)
    (D : List TokenKind) (indirect : Bool) :
    D.length + t.depth + 1 ≤ (t.wrapKinds D indirect).length := by
  have henclose : ∀ (indirect : Bool) (D : List TokenKind),
      D.length ≤ (encloseKinds indirect D).length := by
    intro indirect D
    cases indirect with
    | false => exact Nat.le_refl _
    | true =>
      simp only [encloseKinds, if_true, List.length_cons, List.length_append]
      omega
  induction t using CType.depth.induct generalizing D indirect with
  | case1 name quals =>
    obtain ⟨ws, hne, -, -, hkinds⟩ := ht.1.exists_words hg
    have hws := List.length_pos_iff.2 hne
    simp only [CType.wrapKinds, CType.depth, hkinds, List.length_append, List.length_map]
    omega
  | case2 t quals ih =>
    have hinner := ih ht.2 (.punct .star :: (quals.map .ident ++ D)) true
    simp only [List.length_cons, List.length_append] at hinner
    simp only [CType.wrapKinds, CType.depth]
    omega
  | case3 t quals ih =>
    have hinner := ih ht.2.2 (.punct .amp :: (quals.map .ident ++ D)) true
    simp only [List.length_cons, List.length_append] at hinner
    simp only [CType.wrapKinds, CType.depth]
    omega
  | case4 t size quals ih =>
    have hinner := ih ht.2.2.2 (encloseKinds indirect D ++ boundKinds size) false
    have hbound : 1 ≤ (boundKinds size).length := by cases size <;> simp [boundKinds]
    have hD := henclose indirect D
    rw [List.length_append] at hinner
    simp only [CType.wrapKinds, CType.depth]
    omega
  | case5 t params variadic quals ih =>
    have hinner := ih ht.2.2.2.2.1 (encloseKinds indirect
      (quals.map .ident ++ D) ++ .punct .lparen :: (paramKinds variadic params ++ [.punct .rparen]))
      false
    have hD := henclose indirect (quals.map .ident ++ D)
    simp only [List.length_append, List.length_cons] at hinner hD
    simp only [CType.wrapKinds, CType.depth]
    omega

/-- A parameter that is written as `void` alone is just that. -/
theorem Param.eq_of_kinds {g : Grammar} (hg : g.Proper) {p : Param} (hp : p.type.Legal g)
    (h : p.kinds = [.ident "void"]) : p.name = none ∧ p.type = .base "void" [] := by
  obtain ⟨name, type, default⟩ := p
  have hlength := length_wrapKinds hg type hp (name.toList.map .ident) false
  have hone : (type.wrapKinds (name.toList.map .ident) false).length = 1 := by
    rw [show type.wrapKinds _ false = _ from h]
    rfl
  rw [hone] at hlength
  have hname : name = none := by
    cases name with
    | none => rfl
    | some name => simp at hlength
  subst hname
  refine ⟨rfl, ?_⟩
  cases type with
  | base name quals =>
    obtain ⟨ws, hne, -, rfl, hkinds⟩ := hp.1.exists_words hg
    have hlist : quals.map TokenKind.ident ++ ws.map TokenKind.ident ++ [] = [.ident "void"] := by
      rw [← hkinds]
      exact h
    cases ws with
    | nil => exact absurd rfl hne
    | cons w ws =>
      cases quals with
      | cons q quals => simp at hlist
      | nil =>
        obtain ⟨rfl, rfl⟩ : w = "void" ∧ ws = [] := by simpa using hlist
        rfl
  | pointer | reference | array | function =>
    simp only [CType.depth] at hlength
    omega

/-- The tokens of parameters are not those of an empty list, unless the parameters are the one that
is written like it. -/
theorem paramKinds_ne_void (hg : src.grammar.Proper) {params : List Param} {variadic : Bool}
    (hparams : ∀ p ∈ params, Readable src p) (hlegal : LegalParams src.grammar params)
    (hvoid : isVoidList params = true → variadic = true) (ls more : List TokenKind) :
    paramKinds variadic params ++ .punct .rparen :: ls ≠
      .ident "void" :: .punct .rparen :: more := by
  intro heq
  cases params with
  | nil => cases variadic <;> cases heq
  | cons p rest =>
    rw [paramKinds_cons, List.append_assoc] at heq
    have hp : p.type.Legal src.grammar := by
      obtain ⟨name, type, default⟩ := p
      exact hlegal.1.2.2.2
    by_cases hkinds : p.kinds = [.ident "void"]
    · -- a comma follows, since the parameter is not alone
      obtain ⟨hname, htype⟩ := p.eq_of_kinds hg hp hkinds
      have hmore : (rest.isEmpty && !variadic) = false := by
        cases rest with
        | cons q rest => rfl
        | nil =>
          have hlist : isVoidList [p] = true := by
            obtain ⟨name, type, default⟩ := p
            obtain rfl : name = none := hname
            obtain rfl : type = .base "void" [] := htype
            rfl
          rw [hvoid hlist]
          rfl
      rw [hkinds, hmore] at heq
      simp at heq
    · obtain ⟨base, quals, D, S, hbase, -, hdecl, -, hopens, -⟩ := (hparams p List.mem_cons_self).2
      obtain ⟨ws, hne, -, -, hwords⟩ := hbase.exists_words hg
      rw [hwords, List.append_assoc] at hdecl
      -- behind the first word stands another word or the head of a declarator
      have hsecond : ∀ (w : String) (more : List TokenKind), p.kinds = .ident w :: more →
          more.head? ≠ some (.punct .rparen) := by
        intro w more hw
        have hD : D.head? ≠ some (.punct .rparen) := by
          intro hhead
          rw [Opens, hhead] at hopens
          cases hopens
        have hafter : ∀ (ws : List String) (D : List TokenKind), D.head? ≠ some (.punct .rparen) →
            (ws.map TokenKind.ident ++ D).head? ≠ some (.punct .rparen) := by
          intro ws D hD
          cases ws with
          | nil => exact hD
          | cons w ws => simp
        rw [hdecl] at hw
        cases quals with
        | cons q quals =>
          obtain ⟨-, rfl⟩ := List.cons.inj hw
          exact hafter _ _ (hafter _ _ hD)
        | nil =>
          cases ws with
          | nil => exact absurd rfl hne
          | cons v ws =>
            obtain ⟨-, rfl⟩ := List.cons.inj hw
            exact hafter _ _ hD
      obtain ⟨word, after, hword⟩ := (hparams p List.mem_cons_self).2.exists_word hg
      rw [hword, List.cons_append] at heq
      obtain ⟨hvoidWord, htail⟩ := List.cons.inj heq
      cases after with
      | nil =>
        rw [hvoidWord] at hword
        exact hkinds hword
      | cons k after =>
        refine hsecond word (k :: after) hword ?_
        rw [(List.cons.inj htail).1]
        rfl

/-! ### The round trip -/

mutual

/-- **The tokens of a legal type declare it.** -/
theorem declaresType_wrapKinds (hg : src.grammar.Proper) (t : CType) (ht : t.Legal src.grammar)
    {n : Option String} {indirect : Bool} {D : List TokenKind} {S : List LayerStep}
    (h : Inner src n t indirect D S) (hD : src.Opens D) :
    src.DeclaresType n (t.wrapKinds D indirect) (buildType t S) := by
  match t with
  | .base name quals =>
    obtain ⟨convention, haccepts, -⟩ := h.accepts
    exact ⟨name, quals, D, S, ht.1, ht.2, rfl, haccepts.declares, hD, rfl⟩
  | .pointer t quals =>
    have hnext := declaresType_wrapKinds hg t ht.2 (h.mark rfl ht.1 (Or.inl rfl)) rfl
    have hbuild : buildType t (.pointer :: (qualifySteps quals ++ S)) =
        buildType (.pointer t quals) S := by
      rw [buildType_cons, buildType_append, buildType_qualifySteps, LayerStep.apply,
        CType.addOuter, ht.1.union_nil]
    rw [CType.wrapKinds, ← hbuild]
    exact hnext
  | .reference t quals =>
    have hnext := declaresType_wrapKinds hg t ht.2.2 (h.mark rfl ht.1 (Or.inr rfl)) rfl
    have hbuild : buildType t (.reference :: (qualifySteps quals ++ S)) =
        buildType (.reference t quals) S := by
      rw [buildType_cons, buildType_append, buildType_qualifySteps, LayerStep.apply,
        CType.addOuter, ht.1.union_nil]
    rw [CType.wrapKinds, ← hbuild]
    exact hnext
  | .array t size quals =>
    obtain ⟨rfl, hsize, hfunction, ht⟩ := ht
    have hopens : src.Opens (encloseKinds indirect D ++ boundKinds size) := by
      refine head?_encloseKinds_append rfl (fun _ => hD) ?_
      cases size <;> rfl
    exact declaresType_wrapKinds hg t ht (h.bound rfl hfunction hsize) hopens
  | .function t params variadic quals =>
    obtain ⟨hquals, hfunction, harray, houter, ht, hvoid, hparams⟩ := ht
    have hreadable := readable_params hg params hparams
    have hlist : ∀ (fuel : Nat) (ls : List TokenKind),
        8 * (paramKinds variadic params).length + 16 ≤ fuel → fuel < src.fuel →
        Reads (src.parameterList fuel)
          (.punct .lparen :: (paramKinds variadic params ++ .punct .rparen :: ls))
          (params, variadic) ls := by
      intro fuel ls hfuel hsrc
      have hne := paramKinds_ne_void hg hreadable hparams hvoid ls
      exact reads_parameterList hg hreadable hne hfuel hsrc
    have hopens : src.Opens (encloseKinds indirect (quals.map .ident ++ D) ++
        .punct .lparen :: (paramKinds variadic params ++ [.punct .rparen])) := by
      refine head?_encloseKinds_append rfl (fun _ => ?_) rfl
      cases quals with
      | nil => exact hD
      | cons q quals =>
        have hq := hg.isFundamental_of_isQualifier (hquals.2 q List.mem_cons_self)
        simp [TokenKind.opensDeclarator, TokenKind.ident?, hq]
    have hnext := declaresType_wrapKinds hg t ht
      (h.params rfl hquals hfunction harray houter hlist) hopens
    have hbuild : buildType t (.function params variadic :: (qualifySteps quals ++ S)) =
        buildType (.function t params variadic quals) S := by
      rw [buildType_cons, buildType_append, buildType_qualifySteps, LayerStep.apply,
        CType.addOuter, hquals.union_nil]
    rw [CType.wrapKinds, ← hbuild]
    exact hnext

/-- The tokens of legal parameters declare their types. -/
theorem readable_params (hg : src.grammar.Proper) (params : List Param)
    (h : LegalParams src.grammar params) : ∀ p ∈ params, Readable src p := by
  match params with
  | [] => exact fun p hp => by cases hp
  | ⟨name, type, default⟩ :: rest =>
    obtain ⟨⟨hname, hfunction, hdefault, htype⟩, hrest⟩ := h
    intro p hp
    rcases List.mem_cons.1 hp with rfl | hp
    · have hopens : src.Opens (name.toList.map .ident) := by
        cases name with
        | none => rfl
        | some name =>
          have hword := (hname name rfl).eq_false.1
          simp [Opens, TokenKind.opensDeclarator, TokenKind.ident?, hword]
      exact ⟨hdefault, declaresType_wrapKinds hg type htype (.start ⟨hname, hfunction, htype⟩) hopens⟩
    · exact readable_params hg rest hrest p hp

end

/-- The tokens of a declarable type declare it. -/
theorem Declarable.declaresType (hg : src.grammar.Proper) {t : CType}
    (h : Declarable src.grammar n t) :
    src.DeclaresType n (t.wrapKinds (n.toList.map .ident) false) t := by
  have hopens : src.Opens (n.toList.map .ident) := by
    cases n with
    | none => rfl
    | some name =>
      have hword := (h.1 name rfl).eq_false.1
      simp [Opens, TokenKind.opensDeclarator, TokenKind.ident?, hword]
  exact declaresType_wrapKinds hg t h.2.2 (.start h) hopens

/-- The text of a declarable type spells its tokens. -/
theorem Declarable.spells {g : Grammar} (hg : g.Proper) {t : CType} (h : Declarable g n t) :
    Spells (t.render n).toList (t.wrapKinds (n.toList.map .ident) false) := by
  have hstart : Spells (n.getD "").toList (n.toList.map .ident) := by
    cases n with
    | none => exact .nil
    | some name =>
      have hword := Spells.word (h.1 name rfl).1 .nil rfl
      rwa [List.append_nil] at hword
  refine spells_wrap hg t h.2.2 hstart ?_ fun _ => ?_
  · cases n <;> rfl
  · cases n <;> simp

/-- Tokens that declare a type, and nothing else, are read as that type. -/
theorem reads_typeExpression (hg : src.grammar.Proper) {ks : List TokenKind} {t : CType}
    (h : src.DeclaresType n ks t) (hfuel : 8 * ks.length < src.fuel) :
    Reads src.typeExpression ks (n, t) [] := by
  obtain ⟨specs, S, ms, hspecs, hdeclarator, htype⟩ := h.reads hg hfuel (Nat.le_refl _) .nil
  rw [List.append_nil] at hspecs
  refine .bind hspecs (.bind hdeclarator (.bind (reads_not_accept (by simp)) ?_))
  refine .get_bind fun s hs => ?_
  have hrest : s.rest = [] := List.map_eq_nil_iff.1 hs
  rw [hrest, htype]
  exact .pure _

/-- A declarable type is read back under every grammar whose words do not get in each other's way. -/
theorem Grammar.Proper.parse_render {g : Grammar} (hg : g.Proper) {t : CType}
    (h : Declarable g n t) : g.parseType (t.render n) = .ok (n, t) := by
  have hkinds : (tokenize (t.render n)).map (·.kind) = t.wrapKinds (n.toList.map .ident) false :=
    (h.spells hg).kindsOf_eq
  have hdeclares : (Source.ofTokens g .empty .initial (t.render n).toList
      (tokenize (t.render n))).DeclaresType n _ t := h.declaresType hg
  have hlength : 8 * (t.wrapKinds (n.toList.map .ident) false).length <
      8 * ((tokenize (t.render n)).length + 1) := by
    rw [← hkinds, List.length_map]
    omega
  obtain ⟨s, hs, -⟩ := reads_typeExpression hg hdeclares hlength ⟨tokenize (t.render n), [], []⟩ hkinds
  rw [parseType]
  simp only [hs]
  rfl

/-- **Types are read back as they were written.** A legal type that is written with a name, or
without one, is read as that name and that type. -/
theorem parseType_render {n : Option String} {t : CType} (h : Declarable .standard n t) :
    Grammar.standard.parseType (t.render n) = .ok (n, t) :=
  Grammar.standard_proper.parse_render h

/-- An array of four pointers to functions that take a format and more arguments. -/
def handlerTable : CType :=
  .array (.pointer (.function (.base "unsigned int" [])
    [⟨some "self", .pointer (.base "struct session" ["const"]) ["volatile"], none⟩,
     ⟨none, .pointer (.base "char" ["const"]) [], none⟩] true ["__cdecl"]) []) (some 4) []

theorem parseType_handlerTable :
    Declarable .standard (some "handlers") handlerTable ∧
      Grammar.standard.parseType (handlerTable.render (some "handlers")) =
        .ok (some "handlers", handlerTable) := by
  have hname : ∀ w ∈ ["handlers", "self", "session"], Grammar.standard.IsName w := by
    unfold Grammar.IsName
    decide +kernel
  have hquals : ∀ q ∈ ["const", "volatile", "__cdecl"], Grammar.standard.IsQuals [q] := by
    unfold Grammar.IsQuals
    decide +kernel
  have hresult : Grammar.standard.IsBase "unsigned int" := by
    have h : Grammar.standard.IsBase (" ".intercalate ["unsigned", "int"]) :=
      .builtIn (by simp) (by decide)
    exact h
  have hchar : Grammar.standard.IsBase "char" := by
    have h : Grammar.standard.IsBase (" ".intercalate ["char"]) := .builtIn (by simp) (by decide)
    exact h
  have hsession : Grammar.standard.IsBase "struct session" :=
    have h : Grammar.standard.IsBase ("struct" ++ " " ++ "session") :=
      .tag (by decide) (hname "session" (by decide))
    h
  have hself : (CType.pointer (.base "struct session" ["const"]) ["volatile"]).Legal .standard :=
    ⟨hquals "volatile" (by decide), hsession, hquals "const" (by decide)⟩
  have hformat : (CType.pointer (.base "char" ["const"]) []).Legal .standard :=
    ⟨.nil, hchar, hquals "const" (by decide)⟩
  have hlegal : handlerTable.Legal .standard := by
    refine ⟨rfl, by simp, rfl, .nil, hquals "__cdecl" (by decide), rfl, rfl, fun _ => rfl,
      ⟨hresult, .nil⟩, fun _ => rfl, ⟨?_, by simp, rfl, hself⟩, ⟨by simp, fun _ => rfl, rfl, hformat⟩,
      trivial⟩
    intro n hn
    cases hn
    exact hname "self" (by decide)
  have hdeclarable : Declarable .standard (some "handlers") handlerTable := by
    refine ⟨fun n hn => ?_, by simp, hlegal⟩
    cases hn
    exact hname "handlers" (by decide)
  exact ⟨hdeclarable, parseType_render hdeclarable⟩

example : handlerTable.render (some "handlers") =
    "unsigned int (__cdecl *handlers[4])(const struct session * volatile self, const char *, ...)" :=
  by decide +kernel

end CInterface
