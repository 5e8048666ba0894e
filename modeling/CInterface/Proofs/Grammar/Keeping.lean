import CInterface.Proofs.Grammar.Forward
import CInterface.Proofs.Registry.Tags
/-!
# What a production keeps

While a declaration is read, the definitions in sight are those of the registry and those that are
staged. A production that keeps the tags goes from closed views to closed views, and no aggregate in
sight gets lost or loses its members; besides it tells what it knows of the names that it gives.

* `Source.sight` — the definitions in sight.
* `Fact` — what is known of a name; it stays true while definitions are added.
* `Advances` — what every step of reading does, whether the declaration is in error or not.
* `KeepsAt`, `Keeps` — from some facts a production gives others, from one stage or from any; the
  lemmas below them are the rules by which productions are put together.

A declaration with an error is dropped, so closedness is only asked of a stage without errors.
-/

namespace CInterface

/-- The definitions that a declaration sees. -/
def Source.sight (src : Source) (s : Stage) : Definitions :=
  s.staged.foldr (fun v d => d.insert v.1 v.2) src.registry.flat

/-- The token is no word with a blank in it. -/
def Token.IsPlain (t : Token) : Prop := ∀ word : String, t.kind = .ident word → ' ' ∉ word.toList

theorem word?_eq_some {ts : List Token} {word : String} (h : word? ts = some word) :
    ∃ t rest, ts = t :: rest ∧ t.kind = .ident word := by
  cases ts with
  | nil => cases h
  | cons t rest =>
    have hident : t.kind.ident? = some word := h
    cases hkind : t.kind <;> rw [hkind] at hident <;> cases hident
    exact ⟨t, rest, rfl, hkind⟩

/-! ### Facts about names -/

/-- What is known of a name that a production gives. -/
inductive Fact where
  /-- A base name: if it is a tag, the aggregate is defined. -/
  | known (base : String)
  /-- A declared name: it is one word. -/
  | word (name : String)

namespace Fact

/-- The fact is true of a view. -/
def Holds (d : Definitions) : Fact → Prop
  | known base => d.Known base
  | word name => ' ' ∉ name.toList

theorem Holds.mono {d e : Definitions} (h : d.Extends e) {f : Fact} (hf : f.Holds d) :
    f.Holds e := by
  cases f with
  | known base => exact h.known hf
  | word name => exact hf

/-- The facts of some base names. -/
def ofBases (names : List String) : List Fact := names.map known

theorem mem_ofBases {names : List String} {f : Fact} :
    f ∈ ofBases names ↔ ∃ b ∈ names, known b = f := List.mem_map

end Fact

/-! ### Steps of reading -/

/-- What every step of reading does: it passes tokens, adds errors and definitions, and leaves no
aggregate without the members that it had. -/
structure Advances (src : Source) (s s' : Stage) : Prop where
  rest : s'.rest ⊆ s.rest
  errors : s'.errors = [] → s.errors = []
  extends_sight : (src.sight s).Extends (src.sight s')

/-- From the stage, every result of the production is an advance. If it is without errors and all
of `given` holds, the view stays closed, and `gives` holds behind it. -/
def KeepsAt {α : Type} (src : Source) (s : Stage) (given : List Fact) (p : Production α)
    (gives : α → List Fact) : Prop :=
  (∀ t ∈ s.rest, t.IsPlain) → ∀ (a : α) (s' : Stage), p s = .ok (a, s') →
    Advances src s s' ∧ (s'.errors = [] → (src.sight s).Closed →
      (∀ f ∈ given, f.Holds (src.sight s)) →
        (src.sight s').Closed ∧ ∀ f ∈ gives a, f.Holds (src.sight s'))

/-- `KeepsAt` from any stage. -/
def Keeps {α : Type} (src : Source) (given : List Fact) (p : Production α)
    (gives : α → List Fact) : Prop := ∀ s : Stage, KeepsAt src s given p gives

/-- The production keeps the tags, and gives nothing that would have to be known. -/
abbrev Silent {α : Type} (src : Source) (p : Production α) : Prop :=
  ∀ {given : List Fact}, Keeps src given p fun _ => []

variable {α β : Type} {src : Source} {s : Stage} {given : List Fact} {p : Production α}

theorem Advances.refl (src : Source) (s : Stage) : Advances src s s :=
  ⟨fun _ h => h, id, .refl _⟩

theorem Advances.trans {s t u : Stage} (h : Advances src s t) (h' : Advances src t u) :
    Advances src s u :=
  ⟨fun _ ht => h.rest (h'.rest ht), fun hu => h.errors (h'.errors hu),
    h.extends_sight.trans h'.extends_sight⟩

/-- What a declaration sees of a name is its definition in sight. -/
theorem Source.visible?_eq (src : Source) (s : Stage) (c : Category) (name : String) :
    src.visible? s c name = ((src.sight s).map c).get? name := by
  obtain ⟨rest, staged, errors⟩ := s
  show (staged? c name staged).or ((src.registry.flat.map c).get? name) = _
  induction staged with
  | nil => rfl
  | cons v staged ih =>
    obtain ⟨n, ⟨e, x⟩⟩ := v
    have hsight : src.sight ⟨rest, (n, ⟨e, x⟩) :: staged, errors⟩ =
        (src.sight ⟨rest, staged, errors⟩).insert n ⟨e, x⟩ := rfl
    rw [hsight, Definitions.insert, Definitions.update, staged?]
    by_cases hc : e = c
    · subst hc
      rw [dif_pos rfl, Definitions.map_set_self, OrderedMap.get?_insert]
      by_cases hn : n = name
      · rw [if_pos hn, if_pos hn.symm]
        rfl
      · rw [if_neg hn, if_neg (Ne.symm hn)]
        exact ih
    · rw [dif_neg hc, Definitions.map_set_of_ne _ (Ne.symm hc)]
      exact ih

namespace KeepsAt

theorem pure {a : α} {gives : α → List Fact} (h : gives a ⊆ given) :
    KeepsAt src s given (pure a) gives := by
  intro _ b s' hrun
  cases hrun
  exact ⟨.refl src s, fun _ hclosed hgiven => ⟨hclosed, fun f hf => hgiven f (h hf)⟩⟩

/-- What the first production gives is given to the second. -/
theorem bind {q : α → Production β} {mid : α → List Fact} {gives : β → List Fact}
    (hp : KeepsAt src s given p mid) (hq : ∀ a, Keeps src (mid a ++ given) (q a) gives) :
    KeepsAt src s given (p >>= q) gives := by
  intro hplain b s' h
  have hrun : (p s >>= fun (a, s) => q a s) = .ok (b, s') := h
  cases hps : p s with
  | error e =>
    rw [hps] at hrun
    cases hrun
  | ok r =>
    obtain ⟨a, t⟩ := r
    rw [hps] at hrun
    obtain ⟨hfirst, hmid⟩ := hp hplain a t hps
    obtain ⟨hsecond, hend⟩ := hq a t (fun u hu => hplain u (hfirst.rest hu)) b s' hrun
    refine ⟨hfirst.trans hsecond, fun herrors hclosed hgiven => ?_⟩
    obtain ⟨hclosed', hfacts⟩ := hmid (hsecond.errors herrors) hclosed hgiven
    refine hend herrors hclosed' fun f hf => ?_
    cases List.mem_append.1 hf with
    | inl hf => exact hfacts f hf
    | inr hf => exact (hgiven f hf).mono hfirst.extends_sight

theorem get_bind {q : Stage → Production β} {gives : β → List Fact}
    (hq : KeepsAt src s given (q s) gives) : KeepsAt src s given (get >>= q) gives := hq

/-- What a test tells of the stage may be used behind it. -/
theorem ite {c : Prop} [Decidable c] {q : Production α} {gives : α → List Fact}
    (hp : c → KeepsAt src s given p gives) (hq : ¬c → KeepsAt src s given q gives) :
    KeepsAt src s given (if c then p else q) gives := by
  split
  · rename_i h
    exact hp h
  · rename_i h
    exact hq h

theorem fail (expected : Expected) (gives : α → List Fact) :
    KeepsAt src s given (src.fail expected) gives := by
  intro _ a s' h
  cases h

theorem moveTo {rest : List Token} (h : rest ⊆ s.rest) :
    KeepsAt src s given (moveTo rest) fun _ => [] := by
  intro _ a s' hrun
  cases hrun
  exact ⟨⟨h, id, .refl _⟩, fun _ hclosed _ => ⟨hclosed, fun f hf => absurd hf List.not_mem_nil⟩⟩

theorem moveTo_bind {rest : List Token} {q : Unit → Production β} {gives : β → List Fact}
    (h : rest ⊆ s.rest) (hq : Keeps src given (q ()) gives) :
    KeepsAt src s given (CInterface.moveTo rest >>= q) gives :=
  (moveTo h).bind fun _ => hq

/-- A word at the head of the tokens is known to be one. -/
theorem passWord {word : String} {gives : α → List Fact} (hword : word? s.rest = some word)
    (hp : Keeps src (.word word :: .known word :: given) p gives) :
    KeepsAt src s given (get >>= fun s => CInterface.moveTo (s.rest.drop 1) >>= fun _ => p)
      gives := by
  intro hplain
  obtain ⟨t, rest, hrest, hkind⟩ := word?_eq_some hword
  have hblank : ' ' ∉ word.toList := hplain t (by rw [hrest]; exact List.mem_cons_self) word hkind
  have hp' : Keeps src given p gives := by
    intro u hu a u' hrun
    obtain ⟨hadvances, hend⟩ := hp u hu a u' hrun
    refine ⟨hadvances, fun herrors hclosed hgiven => hend herrors hclosed ?_⟩
    intro f hf
    rcases List.mem_cons.1 hf with rfl | hf
    · exact hblank
    · rcases List.mem_cons.1 hf with rfl | hf
      · exact Definitions.known_of_not_mem hblank
      · exact hgiven f hf
  exact moveTo_bind (q := fun _ => p) (fun u hu => List.mem_of_mem_drop hu) hp' hplain

end KeepsAt

namespace Keeps

theorem pure {a : α} {gives : α → List Fact} (h : gives a ⊆ given) :
    Keeps src given (pure a) gives := fun _ => .pure h

/-- A sequence is judged piece by piece. -/
theorem bind {q : α → Production β} {mid : α → List Fact} {gives : β → List Fact}
    (hp : Keeps src given p mid) (hq : ∀ a, Keeps src (mid a ++ given) (q a) gives) :
    Keeps src given (p >>= q) gives := fun s => (hp s).bind hq

theorem get_bind {q : Stage → Production β} {gives : β → List Fact}
    (hq : ∀ s, KeepsAt src s given (q s) gives) : Keeps src given (get >>= q) gives :=
  fun s => .get_bind (hq s)

theorem ite {c : Prop} [Decidable c] {q : Production α} {gives : α → List Fact}
    (hp : Keeps src given p gives) (hq : Keeps src given q gives) :
    Keeps src given (if c then p else q) gives := by
  split
  · exact hp
  · exact hq

/-- A production that gives nothing leaves what was given. -/
theorem pass {q : α → Production β} {gives : β → List Fact} (hp : Keeps src given p fun _ => [])
    (hq : ∀ a, Keeps src given (q a) gives) : Keeps src given (p >>= q) gives := hp.bind hq

/-- Both branches of a test go on alike. -/
theorem join {c : Prop} [Decidable c] {q : Production α} {k : α → Production β}
    {gives : β → List Fact} (hp : Keeps src given p fun _ => [])
    (hq : Keeps src given q fun _ => []) (hk : ∀ a, Keeps src given (k a) gives) :
    Keeps src given (if c then p >>= k else q >>= k) gives := .ite (hp.pass hk) (hq.pass hk)

theorem fail (expected : Expected) (gives : α → List Fact) :
    Keeps src given (src.fail expected) gives := fun _ => .fail expected gives

theorem drop {n : Nat} {gives : β → List Fact} {q : Production β} (hq : Keeps src given q gives) :
    Keeps src given (get >>= fun s => moveTo (s.rest.drop n) >>= fun _ => q) gives :=
  .get_bind fun _ => .moveTo_bind (fun _ hu => List.mem_of_mem_drop hu) hq

/-- A definition that is no aggregate is staged, when its tags are known and its name is no tag. -/
theorem define {name : String} {x : Definition} (hx : ∀ k : TagKind, k.category ≠ x.category)
    (hname : x.category = .types → .word name ∈ given) (hbases : Fact.ofBases x.baseNames ⊆ given) :
    Keeps src given (define name x) fun _ => [] := by
  intro s _ a s' hrun
  cases hrun
  refine ⟨⟨fun _ h => h, id, .insert fun k hk => absurd hk (hx k)⟩, fun _ hclosed hgiven => ?_⟩
  refine ⟨hclosed.insert hx ?_ ?_, fun f hf => absurd hf List.not_mem_nil⟩
  · intro htypes
    exact TagKind.ne_tag_of_not_mem (hgiven _ (hname htypes))
  · intro b hb
    exact hgiven (.known b) (hbases (List.mem_map_of_mem hb))

/-- Behind an error nothing is asked. -/
theorem report (e : DefinitionError) (gives : Unit → List Fact) :
    Keeps src given (report e) gives := by
  intro s _ a s' hrun
  cases hrun
  exact ⟨⟨fun _ h => h, fun h => absurd h (List.cons_ne_nil _ _), .refl _⟩,
    fun h => absurd h (List.cons_ne_nil _ _)⟩

/-- What an alternative gives is known if it is taken. -/
theorem attempt {gives : α → List Fact} (hp : Keeps src given p gives) :
    Keeps src given (attempt p) fun a => (a.map gives).getD [] := by
  intro s hplain a s' h
  cases hps : p s with
  | error e =>
    simp only [CInterface.attempt, hps] at h
    cases h
    exact ⟨.refl src s, fun _ hclosed _ => ⟨hclosed, fun f hf => absurd hf List.not_mem_nil⟩⟩
  | ok r =>
    obtain ⟨b, t⟩ := r
    simp only [CInterface.attempt, hps] at h
    cases h
    exact hp s hplain b _ hps

theorem either {q : Production α} {gives : α → List Fact} (hp : Keeps src given p gives)
    (hq : Keeps src given q gives) : Keeps src given (either p q) gives := by
  intro s hplain a s' h
  cases hps : p s with
  | error e =>
    simp only [CInterface.either, hps] at h
    exact hq s hplain a s' h
  | ok r =>
    simp only [CInterface.either, hps] at h
    cases h
    exact hp s hplain a s' hps

theorem forIn {σ : Type} {l : List α} {f : α → σ → Production (ForInStep σ)}
    (hf : ∀ x b, Silent src (f x b)) (b : σ) : Silent src (forIn l b f) := by
  induction l generalizing b with
  | nil => exact .pure (List.nil_subset _)
  | cons x l ih =>
    intro given
    rw [List.forIn_cons]
    refine (hf x b).bind fun step => ?_
    cases step with
    | done c => exact .pure (List.nil_subset _)
    | yield c => exact ih c

end Keeps

end CInterface
