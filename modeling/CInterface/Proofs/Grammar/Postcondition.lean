import CInterface.Proofs.Grammar.Progress
import CInterface.Proofs.Grammar.Script
/-!
# Postconditions of productions

Some things can be said of every finding by itself, whatever else was found: that the types of a
definition are in order, or that an error is of a certain kind. A production that stages only such
findings is judged part by part, with what is known of the values that its parts give.

* `Stage.All` — every finding so far has a property.
* `Yields` — the production stages only such findings, and its values have another property.
* `Yields.bind`, `Yields.forIn`, … — how productions are put together.
* `yields_accept`, `yields_tokensUntil`, … — what only passes tokens stages nothing.
-/

namespace CInterface

variable {α β : Type} {src : Source} {Φ : Finding → Prop}

/-- Every definition and every error that is staged has the property. -/
structure Stage.All (Φ : Finding → Prop) (s : Stage) : Prop where
  definitions : ∀ d ∈ s.staged, Φ (.definition d.1 d.2)
  errors : ∀ e ∈ s.errors, Φ (.error e)

/-- Whatever the production finds has the property `Φ`, and what it gives has the property
`post`. -/
def Yields (Φ : Finding → Prop) (p : Production α) (post : α → Prop) : Prop :=
  ∀ s : Stage, s.All Φ → ∀ (a : α) (s' : Stage), p s = .ok (a, s') → s'.All Φ ∧ post a

/-- Nothing is said of what the production gives. -/
abbrev Finds (Φ : Finding → Prop) (p : Production α) : Prop := Yields Φ p fun _ => True

/-- What was found on the way of a match has the property. -/
theorem Yields.found {p : Production α} {post : α → Prop} (hp : Yields Φ p post)
    {ts us : List Token} {found : List Finding} {a : α}
    (h : p ⟨ts, [], []⟩ = .ok (a, stageOf us found)) :
    (∀ d ∈ definitionsOf found, Φ (.definition d.1 d.2)) ∧ ∀ e ∈ errorsOf found, Φ (.error e) := by
  have hstart : Stage.All Φ ⟨ts, [], []⟩ :=
    ⟨fun d hd => absurd hd List.not_mem_nil, fun e he => absurd he List.not_mem_nil⟩
  obtain ⟨hdefinitions, herrors⟩ := (hp _ hstart a _ h).1
  exact ⟨fun d hd => hdefinitions d (List.mem_reverse.2 hd),
    fun e he => herrors e (List.mem_reverse.2 he)⟩

namespace Yields

variable {post : α → Prop}

theorem pure {a : α} (h : post a) : Yields Φ (pure a) post := by
  intro s hs b s' hrun
  cases hrun
  exact ⟨hs, h⟩

/-- What the first part gives is known to the second. -/
theorem bind {p : Production α} {q : α → Production β} {mid : α → Prop} {post : β → Prop}
    (hp : Yields Φ p mid) (hq : ∀ a, mid a → Yields Φ (q a) post) : Yields Φ (p >>= q) post := by
  intro s hs b s' hrun
  obtain ⟨a, t, hfirst, hrest⟩ := Production.bind_eq_ok hrun
  obtain ⟨ht, ha⟩ := hp s hs a t hfirst
  exact hq a ha t ht b s' hrest

/-- Nothing has to be known of what the first part gives. -/
theorem pass {p : Production α} {q : α → Production β} {post : β → Prop} (hp : Finds Φ p)
    (hq : ∀ a, Yields Φ (q a) post) : Yields Φ (p >>= q) post := hp.bind fun a _ => hq a

/-- The stage that a production looks at may be any. -/
theorem get_bind {q : Stage → Production β} {post : β → Prop} (hq : ∀ s, Yields Φ (q s) post) :
    Yields Φ (get >>= q) post := fun s => hq s s

theorem ite {c : Prop} [Decidable c] {p q : Production α} (hp : Yields Φ p post)
    (hq : Yields Φ q post) : Yields Φ (if c then p else q) post := by
  split
  · exact hp
  · exact hq

/-- Both branches of a test go on alike. -/
theorem join {c : Prop} [Decidable c] {p q : Production α} {k : α → Production β}
    {post : β → Prop} (hp : Finds Φ p) (hq : Finds Φ q) (hk : ∀ a, Yields Φ (k a) post) :
    Yields Φ (if c then p >>= k else q >>= k) post := .ite (hp.pass hk) (hq.pass hk)

theorem fail (expected : Expected) : Yields Φ (src.fail expected) post := by
  intro s hs a s' hrun
  cases hrun

theorem throw (e : ParseError) : Yields Φ (throw e) post := by
  intro s hs a s' hrun
  cases hrun

theorem moveTo (rest : List Token) : Finds Φ (moveTo rest) := by
  intro s hs a s' hrun
  cases hrun
  exact ⟨⟨hs.definitions, hs.errors⟩, trivial⟩

theorem moveTo_bind {rest : List Token} {q : Unit → Production β} {post : β → Prop}
    (hq : Yields Φ (q ()) post) : Yields Φ (CInterface.moveTo rest >>= q) post :=
  (moveTo rest).pass fun _ => hq

/-- Passing some of the tokens to come. -/
theorem drop {n : Nat} {q : Production β} {post : β → Prop} (hq : Yields Φ q post) :
    Yields Φ (get >>= fun s => CInterface.moveTo (s.rest.drop n) >>= fun _ => q) post :=
  .get_bind fun _ => .moveTo_bind hq

theorem define {name : String} {x : Definition} (h : Φ (.definition name x)) :
    Finds Φ (define name x) := by
  intro s hs a s' hrun
  cases hrun
  refine ⟨⟨?_, hs.errors⟩, trivial⟩
  intro d hd
  cases List.mem_cons.1 hd with
  | inl hd =>
    rw [hd]
    exact h
  | inr hd => exact hs.definitions d hd

theorem report {e : DefinitionError} (h : Φ (.error e)) : Finds Φ (report e) := by
  intro s hs a s' hrun
  cases hrun
  refine ⟨⟨hs.definitions, ?_⟩, trivial⟩
  intro f hf
  cases List.mem_cons.1 hf with
  | inl hf =>
    rw [hf]
    exact h
  | inr hf => exact hs.errors f hf

/-- What an alternative gives is known if it is taken. -/
theorem attempt {p : Production α} (hp : Yields Φ p post) :
    Yields Φ (attempt p) fun a => ∀ b, a = some b → post b := by
  intro s hs a s' hrun
  cases hps : p s with
  | error e =>
    simp only [CInterface.attempt, hps] at hrun
    cases hrun
    refine ⟨hs, fun b hb => ?_⟩
    cases hb
  | ok r =>
    obtain ⟨b, t⟩ := r
    simp only [CInterface.attempt, hps] at hrun
    cases hrun
    obtain ⟨ht, hb⟩ := hp s hs b _ hps
    refine ⟨ht, fun c hc => ?_⟩
    rw [← Option.some.inj hc]
    exact hb

theorem either {p q : Production α} (hp : Yields Φ p post) (hq : Yields Φ q post) :
    Yields Φ (either p q) post := by
  intro s hs a s' hrun
  cases hps : p s with
  | error e =>
    simp only [CInterface.either, hps] at hrun
    exact hq s hs a s' hrun
  | ok r =>
    simp only [CInterface.either, hps] at hrun
    cases hrun
    exact hp s hs a s' hps

theorem forIn {σ : Type} {l : List α} {f : α → σ → Production (ForInStep σ)}
    (hf : ∀ x b, Finds Φ (f x b)) (b : σ) : Finds Φ (forIn l b f) := by
  induction l generalizing b with
  | nil => exact .pure trivial
  | cons x l ih =>
    rw [List.forIn_cons]
    refine (hf x b).pass fun step => ?_
    cases step with
    | done c => exact .pure trivial
    | yield c => exact ih c

end Yields

/-! ### Passing tokens -/

theorem yields_comes (p : Punct) : Finds Φ (comes p) :=
  .pass (.get_bind fun _ => .pure trivial) fun _ => .pure trivial

theorem yields_accept (p : Punct) : Finds Φ (accept p) :=
  (yields_comes p).pass fun _ => .ite (.drop (.pure trivial)) (.pure trivial)

theorem yields_acceptWord (word : String) : Finds Φ (acceptWord word) :=
  .get_bind fun _ => .ite (.drop (.pure trivial)) (.pure trivial)

theorem yields_line : Finds Φ src.line := .get_bind fun _ => .pure trivial

theorem yields_expect (p : Punct) : Finds Φ (src.expect p) :=
  (yields_accept p).pass fun _ => .ite (.fail _) (.pure trivial)

theorem yields_tokensUntil (stops : List Punct) : Finds Φ (src.tokensUntil stops) := by
  refine .get_bind fun s => ?_
  split
  · exact .moveTo_bind (.pure trivial)
  · exact .moveTo_bind (.fail _)

theorem yields_skipBlock : Finds Φ src.skipBlock := by
  refine (yields_expect .lbrace).pass fun _ => .get_bind fun s => ?_
  split
  · exact .moveTo _
  · exact .moveTo_bind (.fail _)

theorem yields_name? : Finds Φ src.name? := by
  refine .get_bind fun s => ?_
  split
  · exact .ite (.pure trivial) (.drop (.pure trivial))
  · exact .pure trivial

theorem yields_evaluate (members : EnumDef) (ts : List TokenKind) :
    Finds Φ (src.evaluate members ts) := .get_bind fun _ => .pure trivial

theorem yields_anonymousName (keyword : String) : Finds Φ (src.anonymousName keyword) :=
  .get_bind fun _ => .pure trivial

theorem yields_fundamentalWords : Finds Φ src.fundamentalWords :=
  .get_bind fun _ => .drop (.pure trivial)

theorem yields_arrayBounds (fuel : Nat) : Finds Φ (src.arrayBounds fuel) := by
  induction fuel with
  | zero => exact .pure trivial
  | succ fuel ih =>
    rw [Source.arrayBounds]
    refine (yields_accept .lbracket).pass fun _ => .ite ?_ (.pure trivial)
    refine (yields_tokensUntil _).pass fun tokens => (yields_expect _).pass fun _ => ?_
    exact (yields_evaluate _ tokens).pass fun _ => ih.pass fun _ => .pure trivial

theorem yields_initializers (fuel : Nat) :
    Finds Φ (src.initializer fuel) ∧ Finds Φ (src.initializerItems fuel) := by
  induction fuel with
  | zero => exact ⟨.fail _, .fail _⟩
  | succ fuel ih =>
    obtain ⟨hvalue, hitems⟩ := ih
    constructor
    · rw [Source.initializer]
      refine (yields_accept .lbrace).pass fun _ => .ite ?_ ?_
      · exact hitems.pass fun _ => (yields_expect _).pass fun _ => .pure trivial
      · refine (yields_tokensUntil _).pass fun tokens => .ite (.fail _) ?_
        exact (yields_evaluate _ tokens).pass fun _ => .pure trivial
    · rw [Source.initializerItems]
      refine (yields_comes .rbrace).pass fun _ => .ite (.pure trivial) ?_
      refine hvalue.pass fun item => (yields_accept .comma).pass fun _ => .ite ?_ (.pure trivial)
      exact hitems.pass fun _ => .pure trivial

theorem yields_initializer (fuel : Nat) : Finds Φ (src.initializer fuel) :=
  (yields_initializers fuel).1

end CInterface
