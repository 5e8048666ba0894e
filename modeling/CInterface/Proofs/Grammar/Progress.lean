import CInterface.Proofs.Grammar.Forward
import CInterface.Proofs.Token.Nested
/-!
# Productions pass tokens

Reading goes forward only, and a declaration that matches has passed its last token, a semicolon or
the brace that closes a body. So wherever the grammar matches, some token has been read.

* `Closes` — a production that passes one of some punctuators last.
* `closes_declaration` — a declaration ends with a semicolon or a closing brace.
* `passes_member` — a member of an aggregate has a token.
-/

namespace CInterface

variable {α β : Type} {src : Source}

/-! ### The last token -/

/-- Where the production matches, the last token that it passes is one of the punctuators. -/
def Closes (ps : List Punct) (p : Production α) : Prop :=
  ∀ (s : Stage) (a : α) (s' : Stage), p s = .ok (a, s') →
    ∃ t : Token, t.kind.isOneOf ps = true ∧ t :: s'.rest <:+ s.rest

/-- The production leaves the tokens alone. -/
def Stays (p : Production α) : Prop :=
  ∀ (s : Stage) (a : α) (s' : Stage), p s = .ok (a, s') → s'.rest = s.rest

namespace Stays

theorem pure (a : α) : Stays (pure a : Production α) := by
  intro s b s' h
  cases h
  rfl

theorem define (name : String) (x : Definition) : Stays (define name x) := by
  intro s a s' h
  cases h
  rfl

theorem bind {p : Production α} {q : α → Production β} (hp : Stays p) (hq : ∀ a, Stays (q a)) :
    Stays (p >>= q) := by
  intro s b s' h
  obtain ⟨a, t, hps, hqt⟩ := Production.bind_eq_ok h
  rw [hq a t b s' hqt, hp s a t hps]

end Stays

namespace Closes

variable {ps : List Punct}

theorem fail (expected : Expected) : Closes ps (src.fail expected : Production α) := by
  intro s a s' h
  cases h

theorem ite {c : Prop} [Decidable c] {p q : Production α} (hp : Closes ps p) (hq : Closes ps q) :
    Closes ps (if c then p else q) := by
  split
  · exact hp
  · exact hq

/-- The last part of a sequence passes the last token. -/
theorem behind {p : Production α} {q : α → Production β} (hp : Forward p)
    (hq : ∀ a, Closes ps (q a)) : Closes ps (p >>= q) := by
  intro s b s' h
  obtain ⟨a, t, hps, hqt⟩ := Production.bind_eq_ok h
  obtain ⟨u, hu, hsuffix⟩ := hq a t b s' hqt
  exact ⟨u, hu, hsuffix.trans (hp.suffix hps)⟩

/-- What leaves the tokens alone may follow. -/
theorem before {p : Production α} {q : α → Production β} (hp : Closes ps p)
    (hq : ∀ a, Stays (q a)) : Closes ps (p >>= q) := by
  intro s b s' h
  obtain ⟨a, t, hps, hqt⟩ := Production.bind_eq_ok h
  obtain ⟨u, hu, hsuffix⟩ := hp s a t hps
  refine ⟨u, hu, ?_⟩
  rw [hq a t b s' hqt]
  exact hsuffix

theorem mono {qs : List Punct} {p : Production α} (h : Closes ps p) (hsub : ps ⊆ qs) :
    Closes qs p := by
  intro s a s' hrun
  obtain ⟨t, ht, hsuffix⟩ := h s a s' hrun
  refine ⟨t, ?_, hsuffix⟩
  cases hkind : t.kind with
  | punct p =>
    rw [hkind] at ht
    exact List.contains_iff_mem.2 (hsub (List.contains_iff_mem.1 ht))
  | ident | integer | float | str | char | error =>
    rw [hkind] at ht
    cases ht

end Closes

/-- A punctuator that comes next is passed. -/
theorem accept_of_head {p : Punct} {s : Stage} {t : Token} {ts : List Token} (hs : s.rest = t :: ts)
    (ht : t.kind = .punct p) : accept p s = .ok (true, { s with rest := ts }) := by
  have hcomes : s.rest.head?.map (·.kind) = some (.punct p) := by
    rw [hs]
    exact congrArg some ht
  show (if decide (s.rest.head?.map (·.kind) = some (.punct p)) = true then _ else _ :
    Production Bool) s = _
  rw [if_pos (decide_eq_true hcomes)]
  show Except.ok (true, ({ s with rest := s.rest.drop 1 } : Stage)) = _
  rw [hs]
  rfl

/-- A punctuator that does not come next is not passed. -/
theorem accept_of_not_head {p : Punct} {s : Stage}
    (hs : s.rest.head?.map (·.kind) ≠ some (.punct p)) : accept p s = .ok (false, s) := by
  show (if decide (s.rest.head?.map (·.kind) = some (.punct p)) = true then _ else _ :
    Production Bool) s = _
  rw [if_neg (by rw [decide_eq_false hs]; exact Bool.false_ne_true)]
  rfl

/-- A punctuator that is accepted is the token that came next. -/
theorem accept_eq_ok {p : Punct} {s s' : Stage} {b : Bool} (h : accept p s = .ok (b, s')) :
    (∃ t, t.kind = .punct p ∧ s.rest = t :: s'.rest ∧ b = true) ∨ b = false ∧ s' = s := by
  by_cases hs : s.rest.head?.map (·.kind) = some (.punct p)
  · obtain ⟨t, hhead, ht⟩ := Option.map_eq_some_iff.1 hs
    obtain ⟨ts, hrest⟩ := List.head?_eq_some_iff.1 hhead
    rw [accept_of_head hrest ht] at h
    cases h
    exact Or.inl ⟨t, ht, hrest, rfl⟩
  · rw [accept_of_not_head hs] at h
    cases h
    exact Or.inr ⟨rfl, rfl⟩

/-- Where a punctuator that is accepted ends the production, or else something that ends with it. -/
theorem Closes.accept {ps : List Punct} {p : Punct} {x y : Production α} (hp : p ∈ ps)
    (hx : Stays x) (hy : Closes ps y) :
    Closes ps (accept p >>= fun found => if found = true then x else y) := by
  intro s a s' h
  obtain ⟨found, t, haccept, hrun⟩ := Production.bind_eq_ok h
  rcases accept_eq_ok haccept with ⟨u, hu, hrest, rfl⟩ | ⟨rfl, rfl⟩
  · refine ⟨u, ?_, ?_⟩
    · rw [hu]
      exact List.contains_iff_mem.2 hp
    · exact ⟨[], by rw [List.nil_append, hx t a s' hrun, hrest]⟩
  · exact hy _ a s' hrun

theorem closes_expect (p : Punct) : Closes [p] (src.expect p) := by
  intro s a s' h
  obtain ⟨found, t, haccept, hrun⟩ := Production.bind_eq_ok h
  rcases accept_eq_ok haccept with ⟨u, hu, hrest, rfl⟩ | ⟨rfl, rfl⟩
  · cases hrun
    refine ⟨u, ?_, ?_⟩
    · rw [hu]
      exact List.contains_iff_mem.2 List.mem_cons_self
    · exact ⟨[], hrest.symm⟩
  · cases hrun

theorem closes_skipBlock : Closes [.rbrace] src.skipBlock := by
  refine .behind (forward_expect .lbrace) fun _ => ?_
  intro s a s' h
  obtain ⟨t, s₁, hget, hrun⟩ := Production.bind_eq_ok h
  cases hget
  cases hblock : afterBlock 0 s.rest with
  | none =>
    rw [hblock] at hrun
    cases hrun
  | some rest =>
    rw [hblock] at hrun
    cases hrun
    rw [afterBlock_eq] at hblock
    obtain ⟨u, hu, hsuffix⟩ := afterClosing_suffix hblock
    refine ⟨u, ?_, hsuffix⟩
    rw [hu]
    rfl

theorem stays_declare (storage : List String) (name : String) (t : CType) (value : Option Value) :
    Stays (declare storage name t value) := by
  unfold declare
  split
  · exact .define _ _
  · split
    · exact (Stays.define _ _).bind fun _ => .define _ _
    · exact (Stays.pure ()).bind fun _ => .define _ _

theorem closes_typedefBody : Closes [.semi] src.typedefBody := by
  have hend : Closes [.semi] (src.expect .semi) := closes_expect .semi
  refine .behind (forward_atFuel src.fuel).specifiers fun specs => ?_
  refine .behind (forward_comes .semi) fun _ => .ite ?_ hend
  exact .behind (forward_typedefNames specs.base src.fuel) fun _ => hend

/-- **A declaration ends with a semicolon, or with the closing brace of a body.** -/
theorem closes_declaration : Closes [.semi, .rbrace] src.declaration := by
  have hsub : [Punct.semi] ⊆ [.semi, .rbrace] := List.cons_subset_cons Punct.semi (List.nil_subset _)
  have hsemi : Closes [.semi, .rbrace] (src.expect .semi) := (closes_expect .semi).mono hsub
  refine .behind (forward_acceptWord "typedef") fun _ => .ite ?_ ?_
  · exact closes_typedefBody.mono hsub
  · refine .behind (forward_atFuel src.fuel).specifiers fun specs => ?_
    refine .accept List.mem_cons_self (.pure ()) ?_
    refine .behind (forward_atFuel src.fuel).declarator fun declared => ?_
    refine .behind (forward_comes .lbrace) fun _ => .ite ?_ ?_
    · have hbody : Closes [.semi, .rbrace] (do
          src.skipBlock
          declare specs.storage declared.1 (buildType specs.base declared.2) none) :=
        (closes_skipBlock.mono (List.subset_cons_self _ _)).before
          fun _ => stays_declare _ _ _ none
      exact .ite (.behind (Forward.fail src _) fun _ => hbody) hbody
    · exact .behind (forward_objects specs src.fuel declared) fun _ => hsemi

/-! ### Some token -/

/-- Where the production matches, it passes a token at least. -/
def Passes (p : Production α) : Prop :=
  ∀ (s : Stage) (a : α) (s' : Stage), p s = .ok (a, s') → s'.rest.length < s.rest.length

namespace Passes

theorem of_closes {ps : List Punct} {p : Production α} (h : Closes ps p) : Passes p := by
  intro s a s' hrun
  obtain ⟨t, -, hsuffix⟩ := h s a s' hrun
  exact hsuffix.length_le

theorem ite {c : Prop} [Decidable c] {p q : Production α} (hp : Passes p) (hq : Passes q) :
    Passes (if c then p else q) := by
  split
  · exact hp
  · exact hq

theorem behind {p : Production α} {q : α → Production β} (hp : Forward p)
    (hq : ∀ a, Passes (q a)) : Passes (p >>= q) := by
  intro s b s' h
  obtain ⟨a, t, hps, hqt⟩ := Production.bind_eq_ok h
  exact Nat.lt_of_lt_of_le (hq a t b s' hqt) (hp.suffix hps).length_le

theorem before {p : Production α} {q : α → Production β} (hp : Passes p)
    (hq : ∀ a, Forward (q a)) : Passes (p >>= q) := by
  intro s b s' h
  obtain ⟨a, t, hps, hqt⟩ := Production.bind_eq_ok h
  exact Nat.lt_of_le_of_lt ((hq a).suffix hqt).length_le (hp s a t hps)

/-- A punctuator that is accepted is a token. -/
theorem accept {p : Punct} {x y : Production α} (hx : Forward x) (hy : Passes y) :
    Passes (accept p >>= fun found => if found = true then x else y) := by
  intro s a s' h
  obtain ⟨found, t, haccept, hrun⟩ := Production.bind_eq_ok h
  rcases accept_eq_ok haccept with ⟨u, -, hrest, rfl⟩ | ⟨rfl, rfl⟩
  · rw [hrest]
    exact Nat.lt_succ_of_le (hx.suffix hrun).length_le
  · exact hy _ a s' hrun

end Passes

/-- However a member ends, the last thing in it is a token. -/
theorem passes_member (fuel : Nat) : Passes (src.member fuel) := by
  cases fuel with
  | zero =>
    intro s a s' h
    cases h
  | succ fuel =>
    have hfuel : ForwardAtFuel src fuel := forward_atFuel fuel
    have hsemi (fs : List Field) : Passes (do
        src.expect .semi
        return fs) := (Passes.of_closes (closes_expect .semi)).before fun _ => .pure fs
    have hbody : Passes (do
        src.skipBlock
        let _ ← accept .semi
        return ([] : List Field)) :=
      (Passes.of_closes closes_skipBlock).before fun _ =>
        (forward_accept .semi).bind fun _ => .pure []
    rw [Source.member]
    refine .behind (Forward.attempt (hfuel.declarator.bind fun _ =>
      (forward_comes .lbrace).bind fun _ => .ite (.fail src _) (.pure ()))) fun _ => .ite hbody ?_
    refine .behind forward_line fun line => .behind hfuel.specifiers fun specs => ?_
    refine .accept (.pure _) (.accept ?_ ?_)
    · exact (forward_bitWidth _ line).bind fun _ => (forward_expect .semi).bind fun _ => .pure _
    · refine .behind hfuel.declarator fun declared => .behind (forward_comes .lbrace) fun _ => ?_
      exact .ite hbody (.behind (hfuel.fields specs.base line declared) hsemi)

end CInterface
