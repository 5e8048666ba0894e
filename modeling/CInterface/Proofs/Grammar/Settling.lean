import CInterface.Proofs.Grammar.MutualAgreement
/-!
# Declarations read both texts alike

What is staged for a declaration is the same in both texts, and so are whole declarations. A declaration
that matches does so before the end of its text: its last token is its own, so it does not matter whether
anything follows.

* `Pairing.Alike` — productions that stage definitions.
* `Pairing.agrees_declaration` — declarations.
* `Pairing.Settles` — productions that match alike at the very end of the first text too.
* `Pairing.settles_declaration` — declarations.
-/

namespace CInterface

namespace Pairing

variable {K : Pairing} {α β : Type} {due goal : List Punct} {s : Stage} {n : Nat}

/-! ### Staging -/

/-- The production leaves the tokens alone and stages the same in both texts. -/
def Alike (K : Pairing) (p q : Production α) : Prop :=
  ∀ s : Stage, ∃ a t, p s = .ok (a, t) ∧ q (K.stage s) = .ok (a, K.stage t) ∧ t.rest = s.rest

namespace Alike

theorem pure (a : α) : K.Alike (pure a : Production α) (pure a) := fun s => ⟨a, s, rfl, rfl, rfl⟩

theorem define (name : String) (d : Definition) : K.Alike (define name d) (define name d) :=
  fun s => ⟨(), { s with staged := (name, d) :: s.staged }, rfl, rfl, rfl⟩

theorem bind {p q : Production α} {f f' : α → Production β} (hp : K.Alike p q)
    (hf : ∀ a, K.Alike (f a) (f' a)) : K.Alike (p >>= f) (q >>= f') := by
  intro s
  obtain ⟨a, t, hps, hqs, ht⟩ := hp s
  obtain ⟨b, u, hfs, hfs', hu⟩ := hf a t
  refine ⟨b, u, ?_, ?_, hu.trans ht⟩
  · show (p s >>= _) = _
    rw [hps]
    exact hfs
  · show (q (K.stage s) >>= _) = _
    rw [hqs]
    exact hfs'

theorem agrees {p q : Production α} (h : K.Alike p q) (hforward : Forward p) :
    K.Agrees n due due p q := by
  refine ⟨hforward, fun s hready _ => ?_⟩
  obtain ⟨a, t, hps, hqs, ht⟩ := h s
  rw [hps, hqs]
  exact .matched a t (ht ▸ hready)

end Alike

theorem alike_declare (storage : List String) (name : String) (t : CType) (value : Option Value) :
    K.Alike (declare storage name t value) (declare storage name t value) := by
  unfold declare
  split
  · exact .define _ _
  · split
    · exact (Alike.define _ _).bind fun _ => .define _ _
    · exact (Alike.pure ()).bind fun _ => .define _ _

/-! ### Declarations -/

theorem agrees_declare (storage : List String) (name : String) (t : CType) (value : Option Value) :
    K.Agrees n due due (declare storage name t value) (declare storage name t value) :=
  (alike_declare storage name t value).agrees (forward_declare storage name t value)

theorem agrees_objects {f f' : Nat} (hf : n ≤ f) (hf' : n ≤ f') (specs : Specifiers)
    (declared : String × List LayerStep) :
    K.Agrees n due due (K.source.objects specs f declared) (K.other.objects specs f' declared) := by
  induction f generalizing f' n declared with
  | zero =>
    obtain rfl : n = 0 := Nat.le_zero.1 hf
    exact .zero (forward_objects specs 0 declared)
  | succ f ih =>
    cases f' with
    | zero =>
      obtain rfl : n = 0 := Nat.le_zero.1 hf'
      exact .zero (forward_objects specs (f + 1) declared)
    | succ f' =>
      rw [Source.objects, Source.objects]
      refine .optional rfl agrees_initializer (.pure none) fun value => ?_
      refine (agrees_declare _ _ _ value).bind (fun _ => .accept rfl id ?_ (.pure ())) id
      exact agrees_declarator.bind (fun next => ih (by omega) (by omega) next) id

theorem agrees_typedefNames {f f' : Nat} (hf : n ≤ f) (hf' : n ≤ f') (base : CType) :
    K.Agrees n due due (K.source.typedefNames base f) (K.other.typedefNames base f') := by
  induction f generalizing f' n with
  | zero =>
    obtain rfl : n = 0 := Nat.le_zero.1 hf
    exact .zero (forward_typedefNames base 0)
  | succ f ih =>
    cases f' with
    | zero =>
      obtain rfl : n = 0 := Nat.le_zero.1 hf'
      exact .zero (forward_typedefNames base (f + 1))
    | succ f' =>
      rw [Source.typedefNames, Source.typedefNames]
      refine agrees_declarator.bind (fun declared => ?_) id
      refine (Agrees.define _ _).bind (fun _ => .accept rfl id ?_ (.pure ())) id
      exact ih (by omega) (by omega)

theorem agrees_allTypedefNames (base : CType) :
    K.Agrees n due due (K.source.typedefNames base K.source.fuel)
      (K.other.typedefNames base K.other.fuel) :=
  .of_size fun _ hm => agrees_typedefNames (K.le_fuel hm).1 (K.le_fuel hm).2 base

theorem agrees_allObjects (specs : Specifiers) (declared : String × List LayerStep) :
    K.Agrees n due due (K.source.objects specs K.source.fuel declared)
      (K.other.objects specs K.other.fuel declared) :=
  .of_size fun _ hm => agrees_objects (K.le_fuel hm).1 (K.le_fuel hm).2 specs declared

theorem agrees_expectSemi : K.Agrees n due due (K.source.expect .semi) (K.other.expect .semi) := by
  have h : K.Agrees n due due (K.source.expect .semi >>= pure) (K.other.expect .semi >>= pure) :=
    .expect rfl id (.pure ())
  rw [bind_pure, bind_pure] at h
  exact h

theorem agrees_typedefBody : K.Agrees n due due K.source.typedefBody K.other.typedefBody := by
  refine agrees_specifiers.bind (fun specs => (Agrees.comes .semi).bind (fun _ => ?_) id) id
  exact .ite ((agrees_allTypedefNames specs.base).bind (fun _ => agrees_expectSemi) id)
    agrees_expectSemi

theorem agrees_acceptWord (word : String) :
    K.Agrees n due due (acceptWord word) (acceptWord word) := by
  refine .get (forward_acceptWord word) id fun s hready hn hseen => ?_
  rw [stage_rest, word?_tokens hseen]
  split
  · rename_i hword
    obtain ⟨t, ts, hs, ht⟩ := word?_eq_some hword
    refine Agrees.dropped hs hready hn (by rw [ht]; rfl) ?_
    exact .pure true
  · exact .matched false s hready

/-- **A declaration reads both texts alike.** -/
theorem agrees_declaration : K.Agrees n due due K.source.declaration K.other.declaration := by
  refine (agrees_acceptWord "typedef").bind (fun _ => .ite agrees_typedefBody ?_) id
  refine agrees_specifiers.bind (fun specs => .accept rfl id (.pure ()) ?_) id
  refine agrees_declarator.bind (fun declared => ?_) id
  refine (Agrees.comes .lbrace).bind (fun _ => .ite ?_ ?_) id
  · have hbody : K.Agrees n due due
        (do
          K.source.skipBlock
          declare specs.storage declared.1 (buildType specs.base declared.2) none)
        (do
          K.other.skipBlock
          declare specs.storage declared.1 (buildType specs.base declared.2) none) :=
      agrees_skipBlock.bind (fun _ => agrees_declare _ _ _ none) id
    exact .ite ((Agrees.fail _).bind (fun _ => hbody) id) hbody
  · exact (agrees_allObjects specs declared).bind (fun _ => agrees_expectSemi) id

/-! ### Matches at the end of the text -/

/-- Where the production `p` matches in the first text, `q` matches in the second alike. -/
def Matches (K : Pairing) (due goal : List Punct) (p q : Production α) : Prop :=
  ∀ s : Stage, K.Ready due s.rest → ∀ a t, p s = .ok (a, t) →
    q (K.stage s) = .ok (a, K.stage t) ∧ K.Ready goal t.rest

/-- The production matches alike, and not at the end of the first text. So it does not matter what
follows there. -/
structure Settles (K : Pairing) (due : List Punct) (p q : Production α) : Prop where
  forward : K.Matches due due p q
  passes : Passes p

namespace Settles

variable {p q x x' y y' : Production α}

/-- What comes before may be lax, since nothing matches behind the end. -/
theorem behind {f f' : α → Production β} (hp : ∀ n, K.Agrees n due due p q)
    (hf : ∀ a, K.Settles due (f a) (f' a)) : K.Settles due (p >>= f) (q >>= f') := by
  refine ⟨fun s hready b u hrun => ?_, .behind (hp 0).forward fun a => (hf a).passes⟩
  obtain ⟨a, t, hps, hft⟩ := Production.bind_eq_ok hrun
  have houtcome := (hp (s.rest.length + 1)).outcome s hready (Nat.lt_succ_self _)
  rw [hps] at houtcome
  show (q (K.stage s) >>= fun r => f' r.1 r.2) = _ ∧ _
  generalize q (K.stage s) = r at houtcome
  cases houtcome with
  | matched a t h => exact (hf a).forward t h b u hft
  | ended a t r h hrest =>
    have hlt := (hf a).passes t b u hft
    rw [hrest] at hlt
    exact absurd hlt (Nat.not_lt_zero _)

theorem ite {c : Prop} [Decidable c] (hx : K.Settles due x x') (hy : K.Settles due y y') :
    K.Settles due (if c then x else y) (if c then x' else y') := by
  split
  · exact hx
  · exact hy

theorem fail (e : Expected) :
    K.Settles due (K.source.fail e : Production α) (K.other.fail e) := by
  refine ⟨fun s _ a t hrun => ?_, fun s a t hrun => ?_⟩
  · cases hrun
  · cases hrun

/-- Behind a punctuator that is accepted, the text may end. -/
theorem accept {c : Punct} (hc : (TokenKind.punct c).due due = some next) (hx : Forward x)
    (hmatches : K.Matches next due x x') (hy : K.Settles due y y') :
    K.Settles due (CInterface.accept c >>= fun found => if found = true then x else y)
      (CInterface.accept c >>= fun found => if found = true then x' else y') := by
  refine ⟨fun s hready b u hrun => ?_, .accept hx hy.passes⟩
  obtain ⟨found, t, haccept, hrest⟩ := Production.bind_eq_ok hrun
  rcases accept_eq_ok haccept with ⟨v, hv, hs, rfl⟩ | ⟨rfl, rfl⟩
  · have hother : CInterface.accept c (K.stage s) = .ok (true, K.stage t) := by
      have htokens : (K.stage s).rest = K.move v :: K.tokens t.rest := congrArg K.tokens hs
      have hfirst := haccept.symm.trans (accept_of_head hs hv)
      have hstage : t = { s with rest := t.rest } := congrArg Prod.snd (Except.ok.inj hfirst)
      rw [accept_of_head htokens ((K.kind_move v).trans hv), hstage]
      rfl
    show (CInterface.accept c (K.stage s) >>= _) = _ ∧ _
    rw [hother]
    rw [hs] at hready
    exact hmatches t (hready.behind (hv ▸ hc)) b u hrest
  · -- the production goes on, so there is a token, and the same one in both texts
    have hlt := hy.passes _ b u hrest
    have hseen : K.Seen t.rest := Or.inr fun hnil => by
      rw [hnil] at hlt
      exact absurd hlt (Nat.not_lt_zero _)
    have hne : t.rest.head?.map (·.kind) ≠ some (.punct c) := by
      intro hhead
      obtain ⟨v, hv, hkind⟩ := Option.map_eq_some_iff.1 hhead
      obtain ⟨vs, hvs⟩ := List.head?_eq_some_iff.1 hv
      rw [accept_of_head hvs hkind] at haccept
      cases haccept
    have hother : (K.stage t).rest.head?.map (·.kind) ≠ some (.punct c) := by
      rw [stage_rest, head?_tokens hseen]
      exact hne
    show (CInterface.accept c (K.stage t) >>= _) = _ ∧ _
    rw [accept_of_not_head hother]
    exact hy.forward t hready b u hrest

theorem expect {c : Punct} (hc : (TokenKind.punct c).due due = some next)
    {f f' : Unit → Production α} (hf : Forward (f ())) (hmatches : K.Matches next due (f ()) (f' ())) :
    K.Settles due (K.source.expect c >>= f) (K.other.expect c >>= f') := by
  rw [Source.expect_bind, Source.expect_bind]
  exact .accept hc hf hmatches (.fail _)

/-- What is staged behind the last token is staged alike. -/
theorem before {f f' : α → Production β} (hp : K.Settles due p q) (hf : ∀ a, K.Alike (f a) (f' a))
    (hforward : ∀ a, Forward (f a)) : K.Settles due (p >>= f) (q >>= f') := by
  refine ⟨fun s hready b u hrun => ?_, hp.passes.before hforward⟩
  obtain ⟨a, t, hps, hft⟩ := Production.bind_eq_ok hrun
  obtain ⟨hq, ht⟩ := hp.forward s hready a t hps
  obtain ⟨b', u', hfirst, hsecond, hrest⟩ := hf a t
  cases hft.symm.trans hfirst
  show (q (K.stage s) >>= _) = _ ∧ _
  rw [hq]
  exact ⟨hsecond, hrest ▸ ht⟩

end Settles

theorem matches_pure (a : α) : K.Matches due due (pure a : Production α) (pure a) := by
  intro s hready b t hrun
  cases hrun
  exact ⟨rfl, hready⟩

theorem settles_expectSemi : K.Settles due (K.source.expect .semi) (K.other.expect .semi) := by
  have h : K.Settles due (K.source.expect .semi >>= pure) (K.other.expect .semi >>= pure) :=
    .expect rfl (.pure ()) (matches_pure ())
  rw [bind_pure, bind_pure] at h
  exact h

theorem settles_skipBlock : K.Settles due K.source.skipBlock K.other.skipBlock := by
  refine .expect (TokenKind.due_open due rfl) forward_block fun s hready a t hrun => ?_
  obtain ⟨htokens, hrest⟩ := hready.afterBlock_tokens
  obtain ⟨rest, hscan, rfl⟩ := block_eq_ok hrun
  exact ⟨block_of_some (htokens.trans (congrArg _ hscan)), hrest rest hscan⟩

theorem settles_typedefBody : K.Settles due K.source.typedefBody K.other.typedefBody := by
  refine .behind (fun _ => agrees_specifiers) fun specs => .behind (fun _ => .comes .semi) fun _ => ?_
  exact .ite (.behind (fun _ => agrees_allTypedefNames specs.base) fun _ => settles_expectSemi)
    settles_expectSemi

/-- **A declaration that matches in the first text matches alike in the second**, also where it is the
last of the first text. -/
theorem settles_declaration : K.Settles due K.source.declaration K.other.declaration := by
  refine .behind (fun _ => agrees_acceptWord "typedef") fun _ => .ite settles_typedefBody ?_
  refine .behind (fun _ => agrees_specifiers) fun specs => ?_
  refine .accept rfl (.pure ()) (matches_pure ()) ?_
  refine .behind (fun _ => agrees_declarator) fun declared => ?_
  refine .behind (fun _ => .comes .lbrace) fun _ => .ite ?_ ?_
  · have hbody : K.Settles due
        (do
          K.source.skipBlock
          declare specs.storage declared.1 (buildType specs.base declared.2) none)
        (do
          K.other.skipBlock
          declare specs.storage declared.1 (buildType specs.base declared.2) none) :=
      settles_skipBlock.before (fun _ => alike_declare _ _ _ none) fun _ => forward_declare _ _ _ none
    exact .ite (.behind (fun _ => .fail _) fun _ => hbody) hbody
  · exact .behind (fun _ => agrees_allObjects specs declared) fun _ => settles_expectSemi

end Pairing

end CInterface
