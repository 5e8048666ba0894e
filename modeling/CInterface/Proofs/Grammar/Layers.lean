import CInterface.Proofs.Grammar.Declarators
/-!
# Declarators layer by layer

How a declarator is read that grows outward by one layer at a time, with all the fuel that its
tokens may need.

* `Source.Declares` — whatever follows, the tokens are read as a declarator that builds by the steps.
* `Source.Accepts` — so they are with any qualifiers before them; behind the calling convention of a
  function none fit any more.
* `Source.IsCenter` — the tokens are the center of a declarator.
* `Source.DeclaresType` — the tokens declare a type: specifiers and a declarator.

A star joins what `Accepts` (`Accepts.mark`), brackets join a center (`IsCenter.bounds`,
`IsCenter.function`), and parentheses make a center of a declarator (`IsCenter.group`). Eight units
of fuel for each token cover the productions that are entered between two tokens.
-/

namespace CInterface

/-- The punctuators that can stand behind a declarator. -/
def declaratorEnds : List Punct := [.comma, .rparen, .semi, .colon, .assign]

/-- The tokens can stand behind a declarator: the next ends it, or there is none at all. -/
def Follows (ks : List TokenKind) : Prop :=
  ∀ k, ks.head? = some k → ∃ p ∈ declaratorEnds, k = .punct p

theorem Follows.nil : Follows [] := fun _ h => by cases h

theorem Follows.punct {p : Punct} (hp : p ∈ declaratorEnds) {ks : List TokenKind} :
    Follows (.punct p :: ks) := by
  intro k hk
  cases hk
  exact ⟨p, hp, rfl⟩

theorem Follows.head?_ne {ks : List TokenKind} (h : Follows ks) {p : Punct}
    (hp : p ∉ declaratorEnds) : ks.head? ≠ some (.punct p) := by
  intro hk
  obtain ⟨q, hq, heq⟩ := h _ hk
  cases heq
  exact hp hq

namespace Source

variable {src : Source} {n : Option String} {D C : List TokenKind} {S : List LayerStep}

/-- With fuel enough, the tokens `D` are read as a declarator with the name `n`, or without one, that
builds by the steps `S`. -/
def Declares (src : Source) (n : Option String) (D : List TokenKind) (S : List LayerStep) : Prop :=
  ∀ (k fuel : Nat) (ls : List TokenKind), D.length < k → 8 * D.length + 8 ≤ fuel →
    fuel < src.fuel → Follows ls → src.DeclaresAt n k fuel (D ++ ls) S ls

/-- The tokens stay a declarator with qualifiers before them, or without any if `convention` tells
that there are some already. -/
def Accepts (src : Source) (n : Option String) (convention : Bool) (D : List TokenKind)
    (S : List LayerStep) : Prop :=
  ∀ qs : Qualifiers, src.grammar.IsQuals qs → (convention = true → qs = []) →
    src.Declares n (qs.map .ident ++ D) (qualifySteps qs ++ S)

/-- The tokens can stand behind an empty center. -/
def Stops (ks : List TokenKind) : Prop :=
  ∀ k, ks.head? = some k → k = .punct .lbracket ∨ ∃ p ∈ declaratorEnds, k = .punct p

/-- The tokens `C` are the center of a declarator: its name, a declarator in parentheses, or nothing
where there is no name. -/
structure IsCenter (src : Source) (n : Option String) (C : List TokenKind) (S : List LayerStep) :
    Prop where
  /-- With fuel enough, they are read as such. -/
  reads : ∀ (fuel : Nat) (ls : List TokenKind), 8 * C.length + 8 ≤ fuel → fuel < src.fuel →
    (C = [] → Stops ls) → src.CentersAt n fuel (C ++ ls) S ls
  /-- They begin with a name or a parenthesis. -/
  head : C = [] ∨ C.head? = some (.punct .lparen) ∨
    ∃ name, src.grammar.IsName name ∧ C.head? = some (.ident name)

theorem Accepts.declares {convention : Bool} (h : src.Accepts n convention D S) :
    src.Declares n D S := h [] .nil fun _ => rfl

/-- One more pointer or reference. -/
theorem Accepts.mark {convention : Bool} (h : src.Accepts n convention D S) {mark : Punct}
    (hmark : mark = .star ∨ mark = .amp) {qs : Qualifiers} (hqs : src.grammar.IsQuals qs)
    (hconvention : convention = true → qs = []) :
    src.Accepts n false (.punct mark :: (qs.map .ident ++ D))
      (indirectStep mark :: (qualifySteps qs ++ S)) := by
  intro outer houter _ k fuel ls hk hfuel hsrc hls
  simp only [List.length_append, List.length_cons, List.length_map] at hk hfuel
  obtain ⟨k, rfl⟩ : ∃ j, k = j + 1 := ⟨k - 1, by omega⟩
  have hinner := h qs hqs hconvention k fuel ls
    (by simp only [List.length_append, List.length_map]; omega)
    (by simp only [List.length_append, List.length_map]; omega) hsrc hls
  rw [List.append_assoc]
  exact hinner.mark hmark houter

/-! ### Centers -/

/-- Neither a qualifier nor a pointer stands at the head of a center. -/
theorem IsCenter.notIndirect (h : src.IsCenter n C S) {ls : List TokenKind}
    (hls : C = [] → Stops ls) : src.EndsQualifiers (C ++ ls) ∧
      (C ++ ls).head? ≠ some (.punct .star) ∧ (C ++ ls).head? ≠ some (.punct .amp) := by
  have hpunct : ∀ p : Punct, p ≠ .star → p ≠ .amp → ∀ ks : List TokenKind,
      ks.head? = some (.punct p) →
      src.EndsQualifiers ks ∧ ks.head? ≠ some (.punct .star) ∧ ks.head? ≠ some (.punct .amp) := by
    intro p hstar hamp ks hks
    rw [EndsQualifiers, hks]
    refine ⟨fun _ hw => (by cases hw), fun he => ?_, fun he => ?_⟩
    · exact hstar (TokenKind.punct.inj (Option.some.inj he))
    · exact hamp (TokenKind.punct.inj (Option.some.inj he))
  cases C with
  | nil =>
    rw [List.nil_append]
    cases ls with
    | nil => exact ⟨fun _ hw => (by cases hw), by simp, by simp⟩
    | cons k ls =>
      rcases hls rfl k rfl with rfl | ⟨p, hp, rfl⟩
      · exact hpunct .lbracket (by decide) (by decide) _ rfl
      · have hmark : p ≠ .star ∧ p ≠ .amp := by
          constructor <;> rintro rfl <;> exact absurd hp (by decide)
        exact hpunct p hmark.1 hmark.2 _ rfl
  | cons k C =>
    rcases h.head with hnil | hparen | ⟨name, hname, hhead⟩
    · cases hnil
    · exact hpunct .lparen (by decide) (by decide) _ hparen
    · obtain rfl : k = .ident name := Option.some.inj hhead
      obtain ⟨-, hq, hm, -, -⟩ := hname.eq_false
      exact ⟨endsQualifiers_word hq hm (Or.inr hname.isUnderscoreWord), by simp, by simp⟩

/-- The name that is declared. -/
theorem IsCenter.name {name : String} (hname : src.grammar.IsName name) :
    src.IsCenter (some name) [.ident name] [] := by
  refine ⟨fun fuel ls hfuel _ _ => ?_, Or.inr (Or.inr ⟨name, hname, rfl⟩)⟩
  obtain ⟨fuel, rfl⟩ : ∃ j, fuel = j + 1 := ⟨fuel - 1, by omega⟩
  exact .name hname.2.1 fuel

/-- Nothing, where no name is declared. -/
theorem IsCenter.nothing : src.IsCenter none [] [] := by
  refine ⟨fun fuel ls hfuel _ hls => ?_, Or.inl rfl⟩
  obtain ⟨fuel, rfl⟩ : ∃ j, fuel = j + 1 := ⟨fuel - 1, by omega⟩
  refine .nothing (fun k hk => ?_) fuel
  rcases hls rfl k hk with rfl | ⟨p, hp, rfl⟩
  · exact ⟨rfl, by simp⟩
  · refine ⟨rfl, ?_⟩
    rintro ⟨⟩
    exact absurd hp (by decide)

/-- A declarator in parentheses. -/
theorem IsCenter.group (h : src.Accepts n false D S) (hS : S ≠ []) {qs : Qualifiers}
    (hqs : src.grammar.IsQuals qs) :
    src.IsCenter n (.punct .lparen :: (qs.map .ident ++ D ++ [.punct .rparen]))
      (qualifySteps qs ++ S) := by
  refine ⟨fun fuel ls hfuel hsrc _ => ?_, Or.inr (Or.inl rfl)⟩
  simp only [List.length_append, List.length_cons, List.length_map, List.length_nil] at hfuel
  obtain ⟨fuel, rfl⟩ : ∃ j, fuel = j + 2 := ⟨fuel - 2, by omega⟩
  have hinner := h qs hqs (fun he => by cases he) src.fuel fuel (.punct .rparen :: ls)
    (by simp only [List.length_append, List.length_map]; omega)
    (by simp only [List.length_append, List.length_map]; omega) (by omega) (.punct (by decide))
  have hsteps : qualifySteps qs ++ S ≠ [] := fun hnil => hS (List.append_eq_nil_iff.1 hnil).2
  have hgroup := CentersAt.group hinner hsteps
  simpa using hgroup

theorem length_le_flatMap {α β : Type} {f : α → List β} (hf : ∀ a, f a ≠ []) (as : List α) :
    as.length ≤ (as.flatMap f).length := by
  induction as with
  | nil => exact Nat.le_refl 0
  | cons a as ih =>
    have ha := List.length_pos_iff.2 (hf a)
    rw [List.flatMap_cons, List.length_append, List.length_cons]
    omega

/-- A center with array bounds behind it, or with nothing. -/
theorem IsCenter.bounds (h : src.IsCenter n C S) {bounds : List (Option UInt64)}
    (hbounds : ∀ b ∈ bounds, ∀ m ∈ b, m.toNat < 2 ^ 63) :
    src.Accepts n false (C ++ bounds.flatMap boundKinds) (boundSteps bounds ++ S) := by
  intro qs hqs _ k fuel ls hk hfuel hsrc hls
  have hlength := length_le_flatMap (f := boundKinds) (fun b => by cases b <;> simp [boundKinds]) bounds
  simp only [List.length_append, List.length_map] at hk hfuel
  obtain ⟨k, rfl⟩ : ∃ j, k = j + 1 := ⟨k - 1, by omega⟩
  obtain ⟨fuel, rfl⟩ : ∃ j, fuel = j + 1 := ⟨fuel - 1, by omega⟩
  have hstops : Stops (bounds.flatMap boundKinds ++ ls) := by
    intro k hk
    cases bounds with
    | nil => exact Or.inr (hls k hk)
    | cons b bounds =>
      left
      cases b <;> simpa [boundKinds] using hk.symm
  obtain ⟨hends, hstar, hamp⟩ := h.notIndirect fun _ => hstops
  have hfit : bounds.length ≤ src.fuel := by omega
  have hsuffix := reads_suffix_bounds hbounds hfit (hls.head?_ne (by decide))
    (hls.head?_ne (by decide)) fuel qs
  have hcenter := h.reads (fuel + 1) _ (by omega) hsrc fun _ => hstops
  have hdone := DeclaresAt.done hcenter hsuffix k hqs hends hstar hamp
  simpa [List.append_assoc] using hdone

/-- A center with a parameter list behind it, and the calling convention before it. -/
theorem IsCenter.function (h : src.IsCenter n C S) (hC : C ≠ []) {qs : Qualifiers}
    (hqs : src.grammar.IsQuals qs) {P : List TokenKind} {params : List Param} {variadic : Bool}
    (hparams : ∀ (fuel : Nat) (ls : List TokenKind), 8 * P.length + 16 ≤ fuel → fuel < src.fuel →
      Reads (src.parameterList fuel) (.punct .lparen :: (P ++ .punct .rparen :: ls))
        (params, variadic) ls) :
    src.Accepts n true (qs.map .ident ++ C ++ .punct .lparen :: (P ++ [.punct .rparen]))
      (.function params variadic :: (qualifySteps qs ++ S)) := by
  intro none hnone hnil k fuel ls hk hfuel hsrc hls
  obtain rfl : none = [] := hnil rfl
  simp only [List.length_append, List.length_cons, List.length_map, List.length_nil] at hk hfuel
  obtain ⟨k, rfl⟩ : ∃ j, k = j + 1 := ⟨k - 1, by omega⟩
  obtain ⟨fuel, rfl⟩ : ∃ j, fuel = j + 1 := ⟨fuel - 1, by omega⟩
  have hlist := hparams fuel ls (by omega) (by omega)
  have hsuffix := reads_suffix_params hlist (hls.head?_ne (by decide)) qs
  have hcenter := h.reads (fuel + 1) (.punct .lparen :: (P ++ .punct .rparen :: ls)) (by omega) hsrc
    fun hnil => absurd hnil hC
  obtain ⟨hends, hstar, hamp⟩ := h.notIndirect fun hnil => absurd hnil hC
  have hdone := DeclaresAt.done hcenter hsuffix k hqs hends hstar hamp
  simpa [List.append_assoc, qualifySteps] using hdone

/-! ### Declarations -/

/-- The tokens begin like a declarator: with no word of a built-in type, and with no punctuator but a
mark or an opening parenthesis or bracket. -/
def Opens (src : Source) (ks : List TokenKind) : Prop :=
  ks.head?.all (fun k => k.opensDeclarator && !k.ident?.any src.grammar.isFundamental) = true

theorem Opens.endsType (h : src.Opens D) {ls : List TokenKind} (hls : Follows ls) :
    src.EndsType (D ++ ls) := by
  cases D with
  | nil =>
    refine ⟨fun w hw => ?_, hls.head?_ne (by decide)⟩
    obtain ⟨p, -, hp⟩ := hls _ hw
    cases hp
  | cons k D =>
    obtain ⟨hopens, hword⟩ := Bool.and_eq_true_iff.1 (show (k.opensDeclarator && _) = true from h)
    refine ⟨fun w hw => ?_, fun hbrace => ?_⟩
    · obtain rfl : k = .ident w := Option.some.inj hw
      simpa [TokenKind.ident?] using hword
    · obtain rfl : k = .punct .lbrace := Option.some.inj hbrace
      exact absurd hopens (by decide)

/-- The tokens declare the type with the name `n`, or without one: they are the specifiers of a base
and a declarator that builds the type on it. -/
def DeclaresType (src : Source) (n : Option String) (ks : List TokenKind) (t : CType) : Prop :=
  ∃ (base : String) (quals : Qualifiers) (D : List TokenKind) (S : List LayerStep),
    src.grammar.IsBase base ∧ src.grammar.IsQuals quals ∧
    ks = quals.map .ident ++ kindsOf base.toList ++ D ∧ src.Declares n D S ∧ src.Opens D ∧
    buildType (.base base quals) S = t

/-- A declaration begins with a word. -/
theorem DeclaresType.exists_word (hg : src.grammar.Proper) {ks : List TokenKind} {t : CType}
    (h : src.DeclaresType n ks t) : ∃ word rest, ks = .ident word :: rest := by
  obtain ⟨base, quals, D, S, hbase, -, rfl, -⟩ := h
  obtain ⟨ws, hne, -, -, hkinds⟩ := hbase.exists_words hg
  rw [hkinds]
  cases quals with
  | cons q quals => exact ⟨q, _, rfl⟩
  | nil =>
    cases ws with
    | nil => exact absurd rfl hne
    | cons w ws => exact ⟨w, _, rfl⟩

/-- A declarator with a name or without one. -/
theorem DeclaresAt.either {fuel : Nat} {ks ls : List TokenKind}
    (h : src.DeclaresAt n src.fuel fuel ks S ls) :
    Reads (either
      (do
        let (name, steps) ← src.declarator (fuel + 1)
        return (some name, steps))
      (do return (none, ← src.abstractDeclarator (fuel + 1)))) ks (n, S) ls := by
  rw [declarator_succ, abstractDeclarator_succ]
  cases n with
  | some name => exact .either_left (.bind h (.pure _))
  | none => exact .either_right h.1.bind (.bind h.2 (.pure _))

/-- A declarator begins with no other punctuator than a mark and a parenthesis. -/
theorem declarator_fails {ks : List TokenKind} {p : Punct} (hp : p ∉ [Punct.star, .amp, .lparen]) (hsrc : 0 < src.fuel)
    (fuel : Nat) : Fails (src.declarator fuel) (.punct p :: ks) := by
  simp only [List.mem_cons, List.not_mem_nil, or_false, not_or] at hp
  obtain ⟨hstar, hamp, hparen⟩ := hp
  have hhead : ∀ q : Punct, p ≠ q →
      (TokenKind.punct p :: ks).head? ≠ some (.punct q) := by
    rintro q hne ⟨⟩
    exact hne rfl
  cases fuel with
  | zero => exact fails _
  | succ fuel =>
    obtain ⟨k, hk⟩ : ∃ k, src.fuel = k + 1 := ⟨src.fuel - 1, by omega⟩
    have hcenter : Fails (src.center fuel) (.punct p :: ks) := by
      cases fuel with
      | zero => exact fails _
      | succ fuel =>
        rw [center]
        refine (reads_no_name fun _ hw => by cases hw).bind_fails ?_
        exact (reads_not_accept (hhead _ hparen)).bind_fails (fails _)
    rw [declarator_succ, hk]
    exact named_fails_of_center hcenter k Grammar.IsQuals.nil (endsQualifiers_punct p)
      (hhead _ hstar) (hhead _ hamp)

/-- Tokens that declare a type are read as its specifiers, and then as its declarator. -/
theorem DeclaresType.declares (hg : src.grammar.Proper) {ks : List TokenKind} {t : CType}
    (h : src.DeclaresType n ks t) {fuel : Nat} (hfuel : 8 * ks.length ≤ fuel)
    (hsrc : fuel < src.fuel) {ls : List TokenKind} (hls : Follows ls) :
    ∃ (specs : Specifiers) (S : List LayerStep) (ms : List TokenKind),
      Reads (src.specifiers (fuel + 1)) (ks ++ ls) specs ms ∧
      src.DeclaresAt n src.fuel fuel ms S ls ∧ buildType specs.base S = t := by
  obtain ⟨base, quals, D, S, hbase, hquals, rfl, hdeclares, hopens, rfl⟩ := h
  obtain ⟨ws, hne, -, -, hkinds⟩ := hbase.exists_words hg
  have hws := List.length_pos_iff.2 hne
  have hlength := congrArg List.length hkinds
  rw [List.length_map] at hlength
  simp only [List.length_append, List.length_map] at hfuel
  obtain ⟨fuel, rfl⟩ : ∃ j, fuel = j + 2 := ⟨fuel - 2, by omega⟩
  refine ⟨⟨[], .base base quals⟩, S, D ++ ls, ?_, ?_, rfl⟩
  · rw [List.append_assoc]
    exact reads_specifiers hg hbase hquals (hopens.endsType hls) (by omega) fuel
  · exact hdeclares src.fuel (fuel + 2) ls (by omega) (by omega) hsrc hls

/-- Tokens that declare a type are read as its specifiers and its declarator. -/
theorem DeclaresType.reads (hg : src.grammar.Proper) {ks : List TokenKind} {t : CType}
    (h : src.DeclaresType n ks t) {fuel : Nat} (hfuel : 8 * ks.length < fuel)
    (hsrc : fuel ≤ src.fuel) {ls : List TokenKind} (hls : Follows ls) :
    ∃ (specs : Specifiers) (S : List LayerStep) (ms : List TokenKind),
      Reads (src.specifiers fuel) (ks ++ ls) specs ms ∧
      Reads (either
        (do
          let (name, steps) ← src.declarator fuel
          return (some name, steps))
        (do return (none, ← src.abstractDeclarator fuel))) ms (n, S) ls ∧
      buildType specs.base S = t := by
  obtain ⟨fuel, rfl⟩ : ∃ j, fuel = j + 1 := ⟨fuel - 1, by omega⟩
  obtain ⟨specs, S, ms, hspecs, hdeclares, htype⟩ :=
    h.declares hg (Nat.le_of_lt_succ hfuel) hsrc hls
  exact ⟨specs, S, ms, hspecs, hdeclares.either, htype⟩

/-- The same where a name is declared, so that the tokens of its declarator have to be there. -/
theorem DeclaresType.reads_named (hg : src.grammar.Proper) {ks : List TokenKind} {t : CType}
    {name : String} (h : src.DeclaresType (some name) ks t) {fuel : Nat}
    (hfuel : 8 * ks.length < fuel) (hsrc : fuel ≤ src.fuel) {ls : List TokenKind}
    (hls : Follows ls) :
    ∃ (specs : Specifiers) (S : List LayerStep) (ms : List TokenKind),
      Reads (src.specifiers fuel) (ks ++ ls) specs ms ∧
      Reads (src.declarator fuel) ms (name, S) ls ∧
      (∀ p : Punct, p ∉ [Punct.star, .amp, .lparen] → ms.head? ≠ some (.punct p)) ∧
      buildType specs.base S = t := by
  obtain ⟨fuel, rfl⟩ : ∃ j, fuel = j + 1 := ⟨fuel - 1, by omega⟩
  obtain ⟨specs, S, ms, hspecs, hdeclares, htype⟩ :=
    h.declares hg (Nat.le_of_lt_succ hfuel) hsrc hls
  have hdeclarator : Reads (src.declarator (fuel + 1)) ms (name, S) ls := by
    rw [declarator_succ]
    exact hdeclares
  refine ⟨specs, S, ms, hspecs, hdeclarator, fun p hp hms => ?_, htype⟩
  obtain ⟨more, rfl⟩ := List.head?_eq_some_iff.1 hms
  exact hdeclarator.not_fails (declarator_fails hp (Nat.zero_lt_of_lt hsrc) (fuel + 1))

end Source

end CInterface
