import CInterface.Proofs.Grammar.Reading
import CInterface.Proofs.Value.Writing
/-!
# Reading values

* `Source.reads_initializer` — the tokens of a value are read as that value.
* `Source.reads_bitWidth` — the digits of the width of a bit field are read as that width.
-/

namespace CInterface

open Value

/-- The token belongs to an integer or a text: it is no bracket and ends nothing. -/
def TokenKind.isScalar (k : TokenKind) : Bool :=
  !(k.isOneOf [.comma, .semi, .assign] || k.isOpen || k.isClose)

theorem all_isScalar_intKinds (n : Int) : (intKinds n).all TokenKind.isScalar = true := by
  rw [intKinds]
  split <;> rfl

theorem intKinds_ne_nil (n : Int) : intKinds n ≠ [] := by
  rw [intKinds]
  exact fun h => List.cons_ne_nil _ _ (List.append_eq_nil_iff.1 h).2

/-- Every value has a token. -/
theorem length_kinds_pos {v : Value} (h : v.IsLiteral) : 1 ≤ v.kinds.length := by
  cases v with
  | int n => exact List.length_pos_iff.2 (intKinds_ne_nil n.toInt)
  | float x => exact h.elim
  | str s => exact Nat.le_refl 1
  | list items => exact Nat.succ_le_succ (Nat.zero_le _)

/-- No value begins with a closing brace. -/
theorem head?_kinds_ne_rbrace {v : Value} (h : v.IsLiteral) (ks : List TokenKind) :
    (v.kinds ++ ks).head? ≠ some (.punct .rbrace) := by
  cases v with
  | int n =>
    rw [Value.kinds, intKinds]
    split <;> simp
  | float x => exact h.elim
  | str s => simp [Value.kinds]
  | list items => simp [Value.kinds]

theorem mapM_map_some (items : List Value) : (items.map some).mapM id = some items := by
  induction items with
  | nil => rfl
  | cons v items ih =>
    rw [List.map_cons, List.mapM_cons, ih]
    rfl

namespace Source

variable {src : Source} {ks ls : List TokenKind}

/-- The tokens of a scalar are read up to what ends it. -/
theorem reads_scalarTokens {stops : List Punct} (hstops : stops ⊆ [.comma, .semi, .assign])
    {p : Punct} {inside : List TokenKind} (hinside : inside.all TokenKind.isScalar = true)
    (hp : p ∈ stops ∨ (TokenKind.punct p).isClose = true) :
    Reads (src.tokensUntil stops) (inside ++ .punct p :: ks) inside (.punct p :: ks) := by
  refine reads_tokensUntil (List.all_eq_true.2 fun k hk => ?_) hp
  have hscalar := List.all_eq_true.1 hinside k hk
  simp only [TokenKind.isScalar, Bool.not_eq_true', Bool.or_eq_false_iff] at hscalar ⊢
  refine ⟨⟨?_, hscalar.1.2⟩, hscalar.2⟩
  cases k with
  | punct q =>
    have hq := hscalar.1.1
    simp only [TokenKind.isOneOf, List.contains_eq_mem, decide_eq_false_iff_not] at hq ⊢
    exact fun hmem => hq (hstops hmem)
  | _ => rfl

/-- A value that is no list is read from its tokens, whatever names have values. -/
theorem reads_scalar {v : Value} {inside : List TokenKind}
    (hinside : inside.all TokenKind.isScalar = true) (hne : inside ≠ [])
    (hbrace : inside.head? ≠ some (.punct .lbrace))
    (heval : ∀ env : Env, evalTokens env inside = .ok v) {p : Punct}
    (hp : p ∈ [Punct.comma, .semi, .rbrace]) (fuel : Nat) :
    Reads (src.initializer (fuel + 1)) (inside ++ .punct p :: ls) (some v) (.punct p :: ls) := by
  have hstop : p ∈ [Punct.comma, .semi] ∨ (TokenKind.punct p).isClose = true := by
    simp only [List.mem_cons, List.not_mem_nil, or_false] at hp
    rcases hp with rfl | rfl | rfl
    · exact Or.inl (by decide)
    · exact Or.inl (by decide)
    · exact Or.inr rfl
  have hhead : (inside ++ .punct p :: ls).head? ≠ some (.punct .lbrace) := by
    obtain ⟨k, rest, rfl⟩ := List.exists_cons_of_ne_nil hne
    exact hbrace
  rw [initializer]
  refine .bind (reads_not_accept hhead) ?_
  rw [if_neg Bool.false_ne_true]
  refine .bind (reads_scalarTokens (by simp) hinside hstop) ?_
  rw [if_neg (by rwa [List.isEmpty_iff])]
  exact .bind (reads_evaluate heval) (.pure _)

mutual

/-- **The tokens of a value are read as that value.** -/
theorem reads_initializer (v : Value) (h : v.IsLiteral) {fuel : Nat} (hfuel : v.kinds.length ≤ fuel)
    {p : Punct} (hp : p ∈ [Punct.comma, .semi, .rbrace]) (ls : List TokenKind) :
    Reads (src.initializer fuel) (v.kinds ++ .punct p :: ls) (some v) (.punct p :: ls) := by
  have hpos := length_kinds_pos h
  obtain ⟨fuel, rfl⟩ : ∃ j, fuel = j + 1 := ⟨fuel - 1, by omega⟩
  match v with
  | .int n =>
    refine reads_scalar (all_isScalar_intKinds n.toInt) (intKinds_ne_nil n.toInt) ?_
      (fun env => evalTokens_int env n) hp fuel
    rw [intKinds]
    split <;> simp
  | .str s =>
    exact reads_scalar (v := .str s) rfl (by simp) (by simp) (fun env => evalTokens_str env h) hp fuel
  | .list items =>
    rw [Value.kinds, List.length_cons, List.length_append, List.length_singleton] at hfuel
    have hitems := reads_initializerItems items h
      (show (itemKinds items).length + 1 ≤ fuel by omega) (.punct p :: ls)
    rw [Value.kinds, List.cons_append, List.append_assoc, List.singleton_append, initializer]
    refine .bind (reads_accept .lbrace) ?_
    rw [if_pos rfl]
    refine .bind hitems (.bind (reads_expect .rbrace) ?_)
    rw [mapM_map_some]
    exact .pure _

/-- The tokens of the items of a list are read as these items. -/
theorem reads_initializerItems (items : List Value) (h : AreLiterals items) {fuel : Nat}
    (hfuel : (itemKinds items).length + 1 ≤ fuel) (ls : List TokenKind) :
    Reads (src.initializerItems fuel) (itemKinds items ++ .punct .rbrace :: ls) (items.map some)
      (.punct .rbrace :: ls) := by
  obtain ⟨fuel, rfl⟩ : ∃ j, fuel = j + 1 := ⟨fuel - 1, by omega⟩
  match items with
  | [] =>
    rw [initializerItems]
    refine .bind (reads_comes .rbrace) ?_
    simp only [itemKinds, List.nil_append, List.head?_cons, decide_true, if_true]
    exact .pure _
  | [v] =>
    rw [itemKinds] at hfuel
    have hv := reads_initializer v h.1 (p := .rbrace) (Nat.le_of_succ_le_succ hfuel) (by decide) ls
    rw [initializerItems, itemKinds]
    refine .bind (reads_comes .rbrace) ?_
    rw [if_neg (mt of_decide_eq_true (head?_kinds_ne_rbrace h.1 _))]
    refine .bind hv (.bind (reads_not_accept (by simp)) ?_)
    exact .pure _
  | v :: w :: rest =>
    rw [itemKinds, List.length_append, List.length_cons] at hfuel
    have hv := reads_initializer v h.1 (p := .comma) (show v.kinds.length ≤ fuel by omega) (by decide)
      (itemKinds (w :: rest) ++ .punct .rbrace :: ls)
    have hrest := reads_initializerItems (w :: rest) h.2
      (show (itemKinds (w :: rest)).length + 1 ≤ fuel by omega) ls
    rw [initializerItems, itemKinds, List.append_assoc, List.cons_append]
    refine .bind (reads_comes .rbrace) ?_
    rw [if_neg (mt of_decide_eq_true (head?_kinds_ne_rbrace h.1 _))]
    refine .bind hv (.bind (reads_accept .comma) ?_)
    rw [if_pos rfl]
    exact .bind hrest (.pure _)

end

/-- **The width of a bit field is read from its digits.** -/
theorem reads_bitWidth (n : UInt32) (field : String) (line : Nat) {p : Punct}
    (hp : p ∈ [Punct.semi, .assign]) (ls : List TokenKind) :
    Reads (src.bitWidth field line) (.integer (toString n.toNat) :: .punct p :: ls) (some n)
      (.punct p :: ls) := by
  have hlt := UInt32.toNat_lt n
  have heval : ∀ env : Env, evalTokens env [.integer (toString n.toNat)] =
      .ok (.int (UInt64.ofNat n.toNat).toInt64) :=
    fun env => evalTokens_integer env (Literal.integer?_toString (by omega))
  have hwidth : (UInt64.ofNat n.toNat).toInt64.toUInt64.toUInt32 = n := by
    rw [UInt64.toUInt64_toInt64]
    simp
  have hfits : (UInt64.ofNat n.toNat).toInt64.toUInt64.toNat < UInt32.size := by
    rw [UInt64.toUInt64_toInt64, UInt64.toNat_ofNat_of_lt' (Nat.lt_trans hlt (by decide))]
    exact hlt
  have htokens : Reads (src.tokensUntil [.comma, .semi, .assign])
      ([.integer (toString n.toNat)] ++ .punct p :: ls) _ (.punct p :: ls) :=
    reads_scalarTokens (List.Subset.refl _) rfl (Or.inl (List.mem_cons_of_mem _ hp))
  rw [bitWidth]
  refine .bind htokens (.bind (reads_evaluate heval) ?_)
  simp only [if_pos hfits, hwidth, Option.isNone_some]
  exact .pure _

end Source

end CInterface
