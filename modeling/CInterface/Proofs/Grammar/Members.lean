import CInterface.Proofs.Definition.Wording
import CInterface.Proofs.Grammar.Initializers
/-!
# Writing and reading members

The fields of a structure that are written in C are read back as themselves. A member is first tried
as a function without a return type, which has a body behind its declarator; a field has none, and
the attempt leaves no trace.

* `Source.BeginsNamed` — how the declarator of a named field begins, which tells it from arguments.
* `Source.body_fails` — the attempt at a function with a body fails.
* `Source.reads_members` — the tokens of fields are read as these fields.
-/

namespace CInterface

open Source

variable {src : Source}

theorem CType.exists_of_isBase {t : CType} (h : t.isBase = true) :
    ∃ (base : String) (quals : Qualifiers), t = .base base quals := by
  cases t with
  | base base quals => exact ⟨base, quals, rfl⟩
  | pointer | reference | array | function => cases h

/-! ### How declarators begin -/

namespace Grammar

/-- The tokens begin with a star or an ampersand. -/
def BeginsWithMark (D : List TokenKind) : Prop :=
  ∃ (mark : Punct) (rest : List TokenKind), (mark = .star ∨ mark = .amp) ∧ D = .punct mark :: rest

/-- The tokens begin like the declarator of a name: with a word, with a mark, or with a parenthesis
before a mark. -/
inductive BeginsNamed (g : Grammar) : List TokenKind → Prop where
  | word (w : String) (rest : List TokenKind) : BeginsNamed g (.ident w :: rest)
  | mark {D : List TokenKind} (h : BeginsWithMark D) : BeginsNamed g D
  | group {qs : Qualifiers} (hqs : g.IsQuals qs) {D : List TokenKind} (h : BeginsWithMark D) :
      BeginsNamed g (.punct .lparen :: (qs.map .ident ++ D))

variable {g : Grammar}

theorem BeginsNamed.append {D : List TokenKind} (h : g.BeginsNamed D) (ls : List TokenKind) :
    g.BeginsNamed (D ++ ls) := by
  have hmark : ∀ {D : List TokenKind}, BeginsWithMark D → BeginsWithMark (D ++ ls) := by
    rintro D ⟨mark, rest, hmark, rfl⟩
    exact ⟨mark, rest ++ ls, hmark, rfl⟩
  cases h with
  | word w rest => exact .word w (rest ++ ls)
  | mark h => exact .mark (hmark h)
  | group hqs h =>
    rw [List.cons_append, List.append_assoc]
    exact .group hqs (hmark h)

/-- A declarator with brackets behind it begins as before, unless it has to stand in parentheses. -/
theorem BeginsNamed.enclose {qs : Qualifiers} (hqs : g.IsQuals qs) {D : List TokenKind}
    (h : g.BeginsNamed D) {indirect : Bool} (hindirect : indirect = true → BeginsWithMark D)
    (ls : List TokenKind) :
    g.BeginsNamed (encloseKinds indirect (qs.map .ident ++ D) ++ ls) := by
  cases indirect with
  | true =>
    have hgroup := (BeginsNamed.group hqs (hindirect rfl)).append (.punct .rparen :: ls)
    simpa [encloseKinds] using hgroup
  | false =>
    rw [encloseKinds, if_neg Bool.false_ne_true]
    cases qs with
    | nil => exact h.append ls
    | cons q qs => exact .word q _

/-- **The tokens of a legal type around a name.** They are the words of its base and a declarator
that begins like that of a name. -/
theorem exists_beginsNamed {t : CType} (ht : t.Legal g) {D : List TokenKind} (hD : g.BeginsNamed D)
    {indirect : Bool} (hindirect : indirect = true → BeginsWithMark D) :
    ∃ (base : String) (quals : Qualifiers) (declarator : List TokenKind), g.IsBase base ∧
      g.IsQuals quals ∧ g.BeginsNamed declarator ∧
      t.wrapKinds D indirect = quals.map .ident ++ kindsOf base.toList ++ declarator := by
  have hmarked : ∀ {mark : Punct} (ls : List TokenKind), mark = .star ∨ mark = .amp →
      BeginsWithMark (.punct mark :: ls) := fun ls hmark => ⟨_, ls, hmark, rfl⟩
  induction t using CType.depth.induct generalizing D indirect with
  | case1 name quals => exact ⟨name, quals, D, ht.1, ht.2, hD, rfl⟩
  | case2 t quals ih =>
    rw [CType.wrapKinds]
    exact ih ht.2 (.mark (hmarked _ (Or.inl rfl))) fun _ => hmarked _ (Or.inl rfl)
  | case3 t quals ih =>
    rw [CType.wrapKinds]
    exact ih ht.2.2 (.mark (hmarked _ (Or.inr rfl))) fun _ => hmarked _ (Or.inr rfl)
  | case4 t size quals ih =>
    rw [CType.wrapKinds]
    exact ih ht.2.2.2 (.enclose IsQuals.nil hD hindirect _) fun h => by cases h
  | case5 t params variadic quals ih =>
    rw [CType.wrapKinds]
    exact ih ht.2.2.2.2.1 (.enclose ht.1 hD hindirect _) fun h => by cases h

/-- The base of a type begins with a keyword, or it is a name. -/
theorem IsBase.keyword_or_name (hg : g.Proper) {base : String} (h : g.IsBase base) :
    (∃ (word : String) (rest : List TokenKind), kindsOf base.toList = .ident word :: rest ∧
      g.isKeyword word = true ∧ g.isQualifier word = false ∧ g.isModifier word = false) ∨
    g.IsName base := by
  cases h with
  | @builtIn ws hne hws =>
    cases ws with
    | nil => exact absurd rfl hne
    | cons word ws =>
      have hword := hws word List.mem_cons_self
      obtain ⟨hq, hm, -⟩ := hg.typeWord word (List.mem_append_left _ (mem_of_isFundamental hword))
      refine Or.inl ⟨word, ws.map .ident, hg.kindsOf_builtIn hws, ?_, hq, hm⟩
      simp only [isKeyword, hword, Bool.true_or]
  | @tag keyword name hkeyword hname =>
    obtain ⟨hq, hm, -⟩ := hg.typeWord keyword (List.mem_append_right _ hkeyword)
    have hreserved : keyword ∈ reservedWords := List.mem_of_mem_take (i := 3) hkeyword
    refine Or.inl ⟨keyword, [.ident name], kindsOf_tag hkeyword hname.1, ?_, hq, hm⟩
    simp only [isKeyword, List.contains_iff_mem.2 hreserved, Bool.or_true]
  | typedefName hname => exact Or.inr hname

end Grammar

/-! ### Functions with a body -/

namespace Source

variable {ks ls : List TokenKind}

/-- No type begins with a mark, with qualifiers before it or without. -/
theorem specifiers_fails (hg : src.grammar.Proper) {qs : Qualifiers} (hqs : src.grammar.IsQuals qs)
    {D : List TokenKind} (h : Grammar.BeginsWithMark D) (hlength : qs.length < src.fuel) (fuel : Nat) :
    Fails (src.specifiers fuel) (qs.map .ident ++ D) := by
  obtain ⟨mark, rest, -, rfl⟩ := h
  cases fuel with
  | zero => exact fails _
  | succ fuel =>
    have hwords : ∀ q ∈ qs, src.grammar.isQualifier q = true ∧ src.grammar.isStorage q = false :=
      fun q hq => ⟨hqs.2 q hq, hg.qualifier q (Grammar.mem_of_isQualifier (hqs.2 q hq))⟩
    have hends : src.EndsQualifiers (.punct mark :: rest) := endsQualifiers_punct mark
    have hleading := reads_leadingWords hwords hends (fun w hw => by cases hw) hlength [] []
    have htype : Fails (src.typeName fuel) (.punct mark :: rest) := by
      cases fuel with
      | zero => exact fails _
      | succ fuel =>
        rw [typeName]
        refine .get_bind fun s hs => ?_
        rw [word?_eq, hs]
        exact fails _
    rw [specifiers]
    exact hleading.bind_fails htype.bind

/-- No parameter begins with a mark, with qualifiers before it or without. -/
theorem parameterList_fails (hg : src.grammar.Proper) {qs : Qualifiers}
    (hqs : src.grammar.IsQuals qs) {D : List TokenKind} (h : Grammar.BeginsWithMark D)
    (hlength : qs.length < src.fuel) (fuel : Nat) :
    Fails (src.parameterList fuel) (.punct .lparen :: (qs.map .ident ++ D)) := by
  have hspecifiers := specifiers_fails hg hqs h hlength
  obtain ⟨mark, rest, hmark, rfl⟩ := h
  have hhead : ∀ p : Punct, p ≠ mark →
      (qs.map TokenKind.ident ++ .punct mark :: rest).head? ≠ some (.punct p) := by
    intro p hp
    cases qs with
    | nil =>
      rintro ⟨⟩
      exact hp rfl
    | cons q qs => rintro ⟨⟩
  have hrparen : Punct.rparen ≠ mark := by rcases hmark with rfl | rfl <;> decide
  have hellipsis : Punct.ellipsis ≠ mark := by rcases hmark with rfl | rfl <;> decide
  have hparameters : ∀ fuel, Fails (src.parameters fuel)
      (qs.map .ident ++ .punct mark :: rest) := by
    intro fuel
    cases fuel with
    | zero => exact fails _
    | succ fuel =>
      rw [parameters]
      refine (reads_not_accept (hhead _ hellipsis)).bind_fails ?_
      rw [if_neg Bool.false_ne_true]
      exact (hspecifiers fuel).bind
  cases fuel with
  | zero => exact fails _
  | succ fuel =>
    rw [parameterList]
    refine (reads_expect .lparen).bind_fails ((reads_not_accept (hhead _ hrparen)).bind_fails ?_)
    rw [if_neg Bool.false_ne_true]
    refine .get_bind fun s hs => ?_
    split
    · rename_i t u more hrest
      split
      · -- a closing parenthesis would have to stand behind the first word
        rename_i hkinds
        simp only [Bool.and_eq_true, decide_eq_true_eq] at hkinds
        rw [Stage.kinds, hrest, List.map_cons, List.map_cons, hkinds.1, hkinds.2] at hs
        cases qs with
        | nil => cases hs
        | cons q qs =>
          cases qs with
          | nil =>
            cases hs
            exact absurd rfl hrparen
          | cons r qs => cases hs
      · exact (hparameters fuel).bind
    · exact (hparameters fuel).bind

/-- The tokens cannot go on from a name to the body of a function. -/
structure EndsName (src : Source) (ks : List TokenKind) : Prop where
  bracket : ks.head? ≠ some (.punct .lbracket)
  brace : ks.head? ≠ some (.punct .lbrace)
  paren : ks.head? = some (.punct .lparen) → ∀ fuel, Fails (src.parameterList fuel) ks

/-- Behind the name of a type a declarator of another name begins no body. -/
theorem EndsName.declarator (hg : src.grammar.Proper) {D : List TokenKind}
    (h : src.grammar.BeginsNamed D) (hlength : D.length < src.fuel) : src.EndsName (D ++ ls) := by
  have hmark : ∀ {D : List TokenKind}, Grammar.BeginsWithMark D → src.EndsName (D ++ ls) := by
    rintro D ⟨mark, rest, rfl | rfl, rfl⟩ <;> exact ⟨by simp, by simp, by simp⟩
  cases h with
  | word w rest => exact ⟨by simp, by simp, by simp⟩
  | mark h => exact hmark h
  | @group qs hqs D h =>
    refine ⟨by simp, by simp, fun _ fuel => ?_⟩
    rw [List.length_cons, List.length_append, List.length_map] at hlength
    obtain ⟨mark, rest, hmark, rfl⟩ := h
    have hbegins : Grammar.BeginsWithMark (.punct mark :: rest ++ ls) :=
      ⟨mark, rest ++ ls, hmark, rfl⟩
    rw [List.cons_append, List.append_assoc]
    exact parameterList_fails hg hqs hbegins (by omega) fuel

/-- Nothing is declared behind the name of a type alone. -/
theorem EndsName.alone {p : Punct} (hp : p ∈ [Punct.semi, .colon]) : src.EndsName (.punct p :: ks) := by
  simp only [List.mem_cons, List.not_mem_nil, or_false] at hp
  rcases hp with rfl | rfl <;> exact ⟨by simp, by simp, by simp⟩

/-- Behind a name neither brackets are read nor, then, a body. -/
theorem EndsName.suffix (hks : src.EndsName ks) (fuel : Nat) (quals : Qualifiers) :
    Fails (src.suffix fuel quals) ks ∨ ∃ steps, Reads (src.suffix fuel quals) ks steps ks := by
  cases fuel with
  | zero => exact Or.inl (fails _)
  | succ fuel =>
    by_cases hparen : ks.head? = some (.punct .lparen)
    · rw [Source.suffix]
      refine Or.inl ((reads_comes .lparen).bind_fails ?_)
      simp only [hparen, decide_true, if_true]
      exact (hks.paren hparen fuel).bind
    · have hbounds : ∀ b ∈ ([] : List (Option UInt64)), ∀ m ∈ b, m.toNat < 2 ^ 63 := by simp
      have hnone := reads_suffix_bounds hbounds (Nat.zero_le src.fuel) hparen hks.bracket fuel quals
      exact Or.inr ⟨_, hnone⟩

/-- **No member of a written structure is a function with a body.** -/
theorem body_fails (hg : src.grammar.Proper) {base : String} (hbase : src.grammar.IsBase base)
    {quals : Qualifiers} (hquals : src.grammar.IsQuals quals) (hks : src.EndsName ks)
    (hsrc : 0 < src.fuel) (fuel : Nat) :
    Fails (do
      let _ ← src.declarator fuel
      if !(← comes .lbrace) then src.fail (.punct .lbrace))
      (quals.map .ident ++ kindsOf base.toList ++ ks) := by
  cases fuel with
  | zero => exact (fails _).bind
  | succ fuel =>
    obtain ⟨k, hk⟩ : ∃ k, src.fuel = k + 1 := ⟨src.fuel - 1, by omega⟩
    rw [declarator_succ, hk, List.append_assoc]
    rcases hbase.keyword_or_name hg with ⟨word, rest, hkinds, hkey, hq, hm⟩ | hname
    · -- no declarator begins with a keyword
      have hcenter : Fails (src.center fuel) (.ident word :: (rest ++ ks)) := by
        cases fuel with
        | zero => exact fails _
        | succ fuel =>
          rw [center]
          refine (reads_no_name ?_).bind_fails ((reads_not_accept (by simp)).bind_fails (fails _))
          rintro name ⟨⟩
          exact hkey
      have hends : src.EndsQualifiers (.ident word :: (rest ++ ks)) :=
        endsQualifiers_word hq hm (Or.inl hkey)
      rw [hkinds]
      exact (named_fails_of_center hcenter k hquals hends (by simp) (by simp)).bind
    · obtain ⟨-, hq, hm, -⟩ := hname.eq_false
      have hends : src.EndsQualifiers (.ident base :: ks) :=
        endsQualifiers_word hq hm (Or.inr hname.isUnderscoreWord)
      rw [Grammar.kindsOf_name hname.1]
      cases fuel with
      | zero =>
        have hcenter : Fails (src.center 0) (.ident base :: ks) := fails _
        exact (named_fails_of_center hcenter k hquals hends (by simp) (by simp)).bind
      | succ fuel =>
        have hcenter : src.CentersAt (some base) (fuel + 1) (.ident base :: ks) [] ks :=
          .name hname.2.1 fuel
        rcases hks.suffix (fuel + 1) quals with hsuffix | ⟨steps, hsuffix⟩
        · exact (named_fails_of_suffix hcenter hsuffix k hquals hends (by simp) (by simp)).bind
        · have hnamed : Reads (src.named (k + 1) (fuel + 1)) _ (base, steps ++ []) ks :=
            DeclaresAt.done hcenter hsuffix k hquals hends (by simp) (by simp)
          refine hnamed.bind_fails ((reads_comes .lbrace).bind_fails ?_)
          rw [decide_eq_false hks.brace]
          exact fails _

/-! ### Fields -/

/-- Behind the width of a field stands its value or its end. -/
theorem exists_punct_of_default (default : Option Value) (ls : List TokenKind) :
    ∃ p ∈ [Punct.semi, .assign], ∃ rest,
      defaultKinds default ++ .punct .semi :: ls = .punct p :: rest := by
  cases default with
  | some v => exact ⟨.assign, by decide, _, rfl⟩
  | none => exact ⟨.semi, by decide, _, rfl⟩

/-- Behind the declarator of a field stands its width, its value or its end. -/
theorem exists_punct_of_width (bits : Option UInt32) (default : Option Value) (ls : List TokenKind) :
    ∃ p ∈ [Punct.colon, .semi, .assign], ∃ rest,
      widthKinds bits ++ (defaultKinds default ++ .punct .semi :: ls) = .punct p :: rest := by
  cases bits with
  | some n => exact ⟨.colon, by decide, _, rfl⟩
  | none =>
    obtain ⟨p, hp, rest, hrest⟩ := exists_punct_of_default default ls
    exact ⟨p, List.mem_cons_of_mem _ hp, rest, hrest⟩

section

variable {γ : Type} {c : γ}

/-- The width of a field is read, if it has one. -/
theorem reads_width_bind {f : Option UInt32 → Production γ} (bits : Option UInt32) (field : String)
    (line : Nat) {p : Punct} (hp : p ∈ [Punct.semi, .assign])
    (hf : Reads (f bits) (.punct p :: ks) c ls) :
    Reads (do if ← accept .colon then src.bitWidth field line >>= f else pure none >>= f)
      (widthKinds bits ++ .punct p :: ks) c ls := by
  cases bits with
  | some n =>
    refine .bind (reads_accept .colon) ?_
    rw [if_pos rfl]
    exact .bind (reads_bitWidth n field line hp ks) hf
  | none =>
    have hcolon : (TokenKind.punct p :: ks).head? ≠ some (.punct .colon) := by
      rintro ⟨⟩
      exact absurd hp (by decide)
    refine .bind (reads_not_accept hcolon) ?_
    rw [if_neg Bool.false_ne_true]
    exact .bind (.pure none) hf

/-- The value of a field is read, if it has one. -/
theorem reads_default_bind {f : Option Value → Production γ} {default : Option Value}
    (hdefault : ∀ v ∈ default, v.IsLiteral) (hfuel : (defaultKinds default).length ≤ src.fuel)
    (hf : Reads (f default) (.punct .semi :: ks) c ls) :
    Reads (do if ← accept .assign then src.initializer src.fuel >>= f else pure none >>= f)
      (defaultKinds default ++ .punct .semi :: ks) c ls := by
  cases default with
  | some v =>
    have hv : Reads (src.initializer src.fuel) (v.kinds ++ .punct .semi :: ks) (some v)
        (.punct .semi :: ks) :=
      reads_initializer v (hdefault v rfl) (Nat.le_of_succ_le hfuel) (by decide) ks
    refine .bind (reads_accept .assign) ?_
    rw [if_pos rfl]
    exact .bind hv hf
  | none =>
    refine .bind (reads_not_accept (by simp [defaultKinds])) ?_
    rw [if_neg Bool.false_ne_true]
    exact .bind (.pure none) hf

end

/-- What stands behind the declarator of a field is read as its width and its value. -/
theorem reads_fields {default : Option Value} (hdefault : ∀ v ∈ default, v.IsLiteral)
    (hfuel : (defaultKinds default).length ≤ src.fuel) (fuel : Nat) (base : CType) (line : Nat)
    (name : String) (S : List LayerStep) (bits : Option UInt32) (ks : List TokenKind) :
    Reads (src.fields (fuel + 1) base line (name, S))
      (widthKinds bits ++ (defaultKinds default ++ .punct .semi :: ks))
      [⟨some name, buildType base S, default, bits⟩] (.punct .semi :: ks) := by
  obtain ⟨p, hp, rest, hrest⟩ := exists_punct_of_default default ks
  rw [fields, hrest]
  refine reads_width_bind bits name line hp ?_
  rw [← hrest]
  refine reads_default_bind hdefault hfuel ?_
  refine .bind (reads_not_accept (by simp)) ?_
  rw [if_neg Bool.false_ne_true]
  exact .pure _

end Source

namespace Field

variable {f : Field} {ks : List TokenKind}

/-- The tokens of a field are no function with a body. -/
theorem Writable.body_fails (h : f.Writable src.grammar) (hg : src.grammar.Proper)
    (hsrc : f.kinds.length < src.fuel) (fuel : Nat) :
    Fails (do
      let _ ← src.declarator fuel
      if !(← comes .lbrace) then src.fail (.punct .lbrace)) (f.kinds ++ ks) := by
  obtain ⟨hdeclarable, -, hbare⟩ := h
  obtain ⟨name, type, default, bits⟩ := f
  obtain ⟨-, -, hlegal⟩ := hdeclarable
  have hpos : 0 < src.fuel := by omega
  rw [length_kinds] at hsrc
  rw [kinds_append]
  cases name with
  | some name =>
    obtain ⟨base, quals, D, hbase, hquals, hD, hhead⟩ :=
      Grammar.exists_beginsNamed hlegal (.word name []) fun h => absurd h Bool.false_ne_true
    have hhead' : headKinds ⟨some name, type, default, bits⟩ =
        quals.map .ident ++ kindsOf base.toList ++ D := hhead
    rw [hhead', List.length_append] at hsrc
    rw [hhead', List.append_assoc]
    exact Source.body_fails hg hbase hquals (.declarator hg hD (by omega)) hpos fuel
  | none =>
    obtain ⟨hbase, hdefault⟩ := hbare rfl
    obtain rfl : default = none := hdefault
    obtain ⟨base, quals, rfl⟩ := CType.exists_of_isBase hbase
    obtain ⟨p, hp, rest, hrest⟩ : ∃ p ∈ [Punct.semi, .colon], ∃ rest,
        widthKinds bits ++ (defaultKinds none ++ .punct .semi :: ks) = .punct p :: rest := by
      cases bits with
      | some n => exact ⟨.colon, by decide, _, rfl⟩
      | none => exact ⟨.semi, by decide, _, rfl⟩
    have hhead : headKinds ⟨none, .base base quals, none, bits⟩ =
        quals.map .ident ++ kindsOf base.toList := List.append_nil _
    rw [hhead, hrest]
    exact Source.body_fails hg hlegal.1 hlegal.2 (.alone hp) hpos fuel

end Field

namespace Source

/-- The specifiers of a declaration, with fuel by the number of their tokens. -/
theorem reads_specifiers_of_length (hg : src.grammar.Proper) {base : String} {quals : Qualifiers}
    (h : (CType.base base quals).Legal src.grammar) (hks : src.EndsType ks) {fuel : Nat}
    (hfuel : 8 * (quals.map TokenKind.ident ++ kindsOf base.toList).length < fuel)
    (hsrc : fuel ≤ src.fuel) :
    Reads (src.specifiers fuel) (quals.map .ident ++ kindsOf base.toList ++ ks)
      ⟨[], .base base quals⟩ ks := by
  obtain ⟨ws, hne, -, -, hwords⟩ := h.1.exists_words hg
  have hws := List.length_pos_iff.2 hne
  rw [hwords, List.length_append, List.length_map, List.length_map] at hfuel
  obtain ⟨fuel, rfl⟩ : ∃ j, fuel = j + 3 := ⟨fuel - 3, by omega⟩
  exact reads_specifiers hg h.1 h.2 hks (by omega) fuel

/-- **The tokens of a field are read as this field.** -/
theorem reads_member (hg : src.grammar.Proper) {f : Field} (hf : f.Writable src.grammar) {fuel : Nat}
    (hfuel : 8 * f.kinds.length < fuel) (hsrc : fuel < src.fuel) (ks : List TokenKind) :
    Reads (src.member fuel) (f.kinds ++ ks) [f] ks := by
  obtain ⟨fuel, rfl⟩ : ∃ j, fuel = j + 1 := ⟨fuel - 1, by omega⟩
  have hlength : f.kinds.length < src.fuel := by omega
  rw [member]
  refine .bind (Fails.attempt (hf.body_fails hg hlength fuel)) ?_
  rw [if_neg (by simp)]
  refine reads_line_bind fun line => ?_
  obtain ⟨hdeclarable, hliteral, hbare⟩ := hf
  obtain ⟨name, type, default, bits⟩ := f
  simp only [Field.length_kinds] at hfuel
  rw [Field.kinds_append]
  obtain ⟨p, hp, rest, hrest⟩ := exists_punct_of_width bits default ks
  have hends : p ∈ declaratorEnds ∧ p ≠ .lbrace := by
    simp only [List.mem_cons, List.not_mem_nil, or_false] at hp
    rcases hp with rfl | rfl | rfl <;> decide
  cases name with
  | some name =>
    have hdeclares : src.DeclaresType (some name)
        (Field.headKinds ⟨some name, type, default, bits⟩) type := hdeclarable.declaresType hg
    have hfollows : Follows (.punct p :: rest) := .punct hends.1
    obtain ⟨specs, S, ms, hspecs, hdeclarator, hms, rfl⟩ :=
      hdeclares.reads_named hg (show _ < fuel by omega) (by omega) hfollows
    obtain ⟨fuel, rfl⟩ : ∃ j, fuel = j + 1 := ⟨fuel - 1, by omega⟩
    have hfields := reads_fields hliteral (show (defaultKinds default).length ≤ src.fuel by omega) fuel
      specs.base line name S bits ks
    rw [hrest] at hfields ⊢
    refine .bind hspecs (.bind (reads_not_accept (hms .semi (by decide))) ?_)
    rw [if_neg Bool.false_ne_true]
    refine .bind (reads_not_accept (hms .colon (by decide))) ?_
    rw [if_neg Bool.false_ne_true]
    refine .bind hdeclarator (.bind (reads_comes .lbrace) ?_)
    rw [if_neg (by simpa using hends.2)]
    exact .bind hfields (.bind (reads_expect .semi) (.pure _))
  | none =>
    obtain ⟨hbase, rfl⟩ := hbare rfl
    obtain ⟨base, quals, rfl⟩ := CType.exists_of_isBase hbase
    obtain ⟨-, -, hlegal⟩ := hdeclarable
    have hhead : Field.headKinds ⟨none, .base base quals, none, bits⟩ =
        quals.map .ident ++ kindsOf base.toList := List.append_nil _
    have htype : src.EndsType (.punct p :: rest) :=
      ⟨fun w hw => (by cases hw), by simpa using hends.2⟩
    rw [hhead] at hfuel ⊢
    have hspecs := reads_specifiers_of_length hg hlegal htype (show _ < fuel by omega) (by omega)
    rw [← hrest] at hspecs
    refine .bind hspecs ?_
    cases bits with
    | none =>
      refine .bind (reads_accept .semi) ?_
      rw [if_pos rfl]
      exact .pure _
    | some n =>
      refine .bind (reads_not_accept (by simp [widthKinds])) ?_
      rw [if_neg Bool.false_ne_true]
      refine .bind (reads_accept .colon) ?_
      rw [if_pos rfl]
      exact .bind (reads_bitWidth n _ _ (by decide) ks) (.bind (reads_expect .semi) (.pure _))

/-- **The tokens of fields are read as these fields**, up to the closing brace. -/
theorem reads_members (hg : src.grammar.Proper) {fs : List Field}
    (hfs : ∀ f ∈ fs, f.Writable src.grammar) {fuel : Nat}
    (hfuel : 8 * (fs.flatMap Field.kinds).length + 1 < fuel) (hsrc : fuel ≤ src.fuel)
    (ks : List TokenKind) :
    Reads (src.members fuel) (fs.flatMap Field.kinds ++ .punct .rbrace :: ks) fs ks := by
  induction fs generalizing fuel with
  | nil =>
    obtain ⟨fuel, rfl⟩ : ∃ j, fuel = j + 1 := ⟨fuel - 1, by omega⟩
    rw [members]
    refine .bind (reads_accept .rbrace) ?_
    rw [if_pos rfl]
    exact .pure _
  | cons f fs ih =>
    rw [List.flatMap_cons, List.length_append] at hfuel
    obtain ⟨fuel, rfl⟩ : ∃ j, fuel = j + 1 := ⟨fuel - 1, by omega⟩
    have hf := hfs f List.mem_cons_self
    have hpos : 0 < f.kinds.length := by
      rw [Field.length_kinds]
      exact Nat.succ_pos _
    have hmember := reads_member hg hf (show 8 * f.kinds.length < fuel by omega) hsrc
      (fs.flatMap Field.kinds ++ .punct .rbrace :: ks)
    have hmore := ih (fun v hv => hfs v (List.mem_cons_of_mem _ hv))
      (show 8 * (fs.flatMap Field.kinds).length + 1 < fuel by omega) (by omega)
    -- a field begins with a word
    obtain ⟨word, rest, hword⟩ : ∃ word rest, f.kinds = .ident word :: rest := by
      obtain ⟨word, rest, hword⟩ := (hf.declarable.declaresType hg).exists_word hg
      exact ⟨word, _, by rw [Field.kinds, Field.headKinds, hword]; rfl⟩
    rw [List.flatMap_cons, List.append_assoc, members]
    refine .bind (reads_not_accept (by simp [hword])) ?_
    rw [if_neg Bool.false_ne_true]
    refine .bind (reads_not_accept (by simp [hword])) ?_
    rw [if_neg Bool.false_ne_true]
    refine .get_bind fun s hs => ?_
    have hrest : s.rest.isEmpty = false := by
      rw [hword] at hs
      exact List.isEmpty_eq_false_iff.2 fun h => by rw [Stage.kinds, h] at hs; cases hs
    rw [hrest, if_neg Bool.false_ne_true]
    exact .bind hmember (.bind hmore (.pure _))

end Source

end CInterface
