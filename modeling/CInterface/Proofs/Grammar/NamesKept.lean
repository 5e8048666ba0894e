import CInterface.Proofs.Grammar.Progress
import CInterface.Proofs.Grammar.TagsKept
/-!
# Every aggregate keeps its type name

A view is named if every structure, union and enumeration of it is, with its keyword, a type name as
well. Nothing that is read takes a type name away, and every aggregate is staged together with its
own, so a declaration that starts with a named view ends with one, whatever it stages.

* `Definitions.Named` — every aggregate has its type name.
* `NamesKept` — a production that goes from named views to named views; the lemmas below it are the
  rules by which such productions are put together.
* `namesKept_accept`, `namesKept_enumMembers`, … — productions that stage no aggregate.
* `namesKept_defineEnum`, `namesKept_defineCompound` — those that stage one.
-/

namespace CInterface

namespace Definitions

/-- Every aggregate is, with its keyword, a type name. -/
def Named (d : Definitions) : Prop :=
  ∀ (k : TagKind) (name : String), d.contains k.category name = true →
    d.contains .types (k.tag name) = true

theorem contains_insert_iff {d : Definitions} {name other : String} {x : Definition}
    {c : Category} : (d.insert name x).contains c other = true ↔
      (c = x.category ∧ other = name) ∨ d.contains c other = true := by
  rw [contains_eq, get?_insert, contains_eq]
  split
  · rename_i hsame
    exact ⟨fun _ => Or.inl hsame, fun _ => rfl⟩
  · rename_i hother
    exact ⟨Or.inr, fun h => h.resolve_left hother⟩

namespace Named

variable {d : Definitions} {name : String} {x : Definition}

/-- Nothing has to be done for a definition that is no aggregate. -/
theorem insert (hd : d.Named) (hx : ∀ k : TagKind, k.category ≠ x.category) :
    (d.insert name x).Named := by
  intro k n hn
  have hold := (contains_insert_iff.1 hn).resolve_left fun h => hx k h.1
  exact contains_insert_iff.2 (Or.inr (hd k n hold))

/-- An aggregate comes with its type name. -/
theorem insertAggregate (hd : d.Named) {k : TagKind} (hx : x.category = k.category) {t : CType} :
    ((d.insert name x).insert (k.tag name) ⟨.types, t⟩).Named := by
  intro l n hn
  have hview := (contains_insert_iff.1 hn).resolve_left fun h => l.category_ne_types h.1
  refine contains_insert_iff.2 ?_
  rcases contains_insert_iff.1 hview with ⟨hcategory, rfl⟩ | hold
  · obtain rfl : l = k := TagKind.category_injective (hcategory.trans hx)
    exact Or.inl ⟨rfl, rfl⟩
  · exact Or.inr (contains_insert_iff.2 (Or.inr (hd l n hold)))

end Named

end Definitions

variable {α β : Type} {src : Source}

/-- From a stage with a named view in sight the production leads to such stages only. -/
def NamesKept (src : Source) (p : Production α) : Prop :=
  ∀ s : Stage, (src.sight s).Named → ∀ (a : α) (s' : Stage), p s = .ok (a, s') →
    (src.sight s').Named

namespace NamesKept

theorem pure (a : α) : NamesKept src (pure a : Production α) := by
  intro s hs b s' hrun
  cases hrun
  exact hs

theorem bind {p : Production α} {q : α → Production β} (hp : NamesKept src p)
    (hq : ∀ a, NamesKept src (q a)) : NamesKept src (p >>= q) := by
  intro s hs b s' hrun
  obtain ⟨a, t, hfirst, hrest⟩ := Production.bind_eq_ok hrun
  exact hq a t (hp s hs a t hfirst) b s' hrest

theorem get_bind {q : Stage → Production β} (hq : ∀ s, NamesKept src (q s)) :
    NamesKept src (get >>= q) := fun s => hq s s

theorem ite {c : Prop} [Decidable c] {p q : Production α} (hp : NamesKept src p)
    (hq : NamesKept src q) : NamesKept src (if c then p else q) := by
  split
  · exact hp
  · exact hq

/-- Both branches of a test go on alike. -/
theorem join {c : Prop} [Decidable c] {p q : Production α} {k : α → Production β}
    (hp : NamesKept src p) (hq : NamesKept src q) (hk : ∀ a, NamesKept src (k a)) :
    NamesKept src (if c then p >>= k else q >>= k) := .ite (hp.bind hk) (hq.bind hk)

theorem fail (expected : Expected) : NamesKept src (src.fail expected : Production α) := by
  intro s hs a s' hrun
  cases hrun

theorem moveTo (rest : List Token) : NamesKept src (moveTo rest) := by
  intro s hs a s' hrun
  cases hrun
  exact hs

/-- Passing some of the tokens to come. -/
theorem drop {n : Nat} {q : Production β} (hq : NamesKept src q) :
    NamesKept src (get >>= fun s => CInterface.moveTo (s.rest.drop n) >>= fun _ => q) :=
  .get_bind fun _ => (moveTo _).bind fun _ => hq

theorem report (e : DefinitionError) : NamesKept src (report e) := by
  intro s hs a s' hrun
  cases hrun
  exact hs

/-- A definition that is no aggregate is staged. -/
theorem define {name : String} {x : Definition} (hx : ∀ k : TagKind, k.category ≠ x.category) :
    NamesKept src (define name x) := by
  intro s hs a s' hrun
  cases hrun
  exact hs.insert hx

/-- An aggregate is staged with its type name. -/
theorem defineAggregate {k : TagKind} {name : String} {x : Definition}
    (hx : x.category = k.category) :
    NamesKept src (CInterface.define name x >>= fun _ => defineSynonym k.keyword name) := by
  intro s hs a s' hrun
  cases hrun
  exact hs.insertAggregate hx

theorem forIn {σ : Type} {l : List α} {f : α → σ → Production (ForInStep σ)}
    (hf : ∀ x b, NamesKept src (f x b)) (b : σ) : NamesKept src (forIn l b f) := by
  induction l generalizing b with
  | nil => exact .pure b
  | cons x l ih =>
    rw [List.forIn_cons]
    refine (hf x b).bind fun step => ?_
    cases step with
    | done c => exact .pure c
    | yield c => exact ih c

end NamesKept

/-! ### Productions that stage no aggregate -/

theorem namesKept_comes (p : Punct) : NamesKept src (comes p) :=
  .bind (.get_bind fun _ => .pure _) fun _ => .pure _

theorem namesKept_accept (p : Punct) : NamesKept src (accept p) :=
  (namesKept_comes p).bind fun _ => .ite (.drop (.pure true)) (.pure false)

theorem namesKept_acceptWord (word : String) : NamesKept src (acceptWord word) :=
  .get_bind fun _ => .ite (.drop (.pure true)) (.pure false)

theorem namesKept_line : NamesKept src src.line := .get_bind fun _ => .pure _

theorem namesKept_expect (p : Punct) : NamesKept src (src.expect p) :=
  (namesKept_accept p).bind fun _ => .ite (.fail _) (.pure ())

theorem namesKept_tokensUntil (stops : List Punct) : NamesKept src (src.tokensUntil stops) := by
  refine .get_bind fun s => ?_
  split
  · exact (NamesKept.moveTo _).bind fun _ => .pure _
  · exact (NamesKept.moveTo _).bind fun _ => .fail _

theorem namesKept_skipBlock : NamesKept src src.skipBlock := by
  refine (namesKept_expect .lbrace).bind fun _ => .get_bind fun s => ?_
  split
  · exact .moveTo _
  · exact (NamesKept.moveTo _).bind fun _ => .fail _

theorem namesKept_name? : NamesKept src src.name? := by
  refine .get_bind fun s => ?_
  split
  · exact .ite (.pure none) (.drop (.pure _))
  · exact .pure none

theorem namesKept_qualifiers (beforeType : Bool) (quals : Qualifiers) :
    NamesKept src (src.qualifiers beforeType quals) :=
  .get_bind fun _ => (NamesKept.moveTo _).bind fun _ => .pure _

theorem namesKept_evaluate (members : EnumDef) (ts : List TokenKind) :
    NamesKept src (src.evaluate members ts) := .get_bind fun _ => .pure _

theorem namesKept_leadingWords (fuel : Nat) (storage : List String) (quals : Qualifiers) :
    NamesKept src (src.leadingWords fuel storage quals) := by
  induction fuel generalizing storage quals with
  | zero => exact .pure _
  | succ fuel ih =>
    rw [Source.leadingWords]
    refine .get_bind fun s => ?_
    split
    · exact .drop (ih _ _)
    · refine .get_bind fun s => ?_
      split
      · exact (NamesKept.moveTo _).bind fun _ => ih _ _
      · exact .pure _

theorem namesKept_fundamentalWords : NamesKept src src.fundamentalWords :=
  .get_bind fun _ => .drop (.pure _)

theorem namesKept_indirections (fuel : Nat) : NamesKept src (src.indirections fuel) := by
  induction fuel with
  | zero => exact .pure _
  | succ fuel ih =>
    rw [Source.indirections]
    refine (namesKept_qualifiers _ _).bind fun quals => (namesKept_accept .star).bind fun _ => ?_
    refine .ite (ih.bind fun _ => .pure _) ?_
    exact (namesKept_accept .amp).bind fun _ => .ite (ih.bind fun _ => .pure _) (.pure _)

theorem namesKept_arrayBounds (fuel : Nat) : NamesKept src (src.arrayBounds fuel) := by
  induction fuel with
  | zero => exact .pure _
  | succ fuel ih =>
    rw [Source.arrayBounds]
    refine (namesKept_accept .lbracket).bind fun _ => .ite ?_ (.pure _)
    refine (namesKept_tokensUntil _).bind fun tokens => (namesKept_expect _).bind fun _ => ?_
    exact (namesKept_evaluate _ tokens).bind fun _ => ih.bind fun _ => .pure _

theorem namesKept_initializers (fuel : Nat) :
    NamesKept src (src.initializer fuel) ∧ NamesKept src (src.initializerItems fuel) := by
  induction fuel with
  | zero => exact ⟨.fail _, .fail _⟩
  | succ fuel ih =>
    obtain ⟨hvalue, hitems⟩ := ih
    constructor
    · rw [Source.initializer]
      refine (namesKept_accept .lbrace).bind fun _ => .ite ?_ ?_
      · exact hitems.bind fun _ => (namesKept_expect _).bind fun _ => .pure _
      · refine (namesKept_tokensUntil _).bind fun tokens => .ite (.fail _) ?_
        exact (namesKept_evaluate _ tokens).bind fun _ => .pure _
    · rw [Source.initializerItems]
      refine (namesKept_comes .rbrace).bind fun _ => .ite (.pure _) ?_
      refine hvalue.bind fun item => (namesKept_accept .comma).bind fun _ => .ite ?_ (.pure _)
      exact hitems.bind fun _ => .pure _

theorem namesKept_initializer (fuel : Nat) : NamesKept src (src.initializer fuel) :=
  (namesKept_initializers fuel).1

theorem namesKept_bitWidth (field : String) (line : Nat) :
    NamesKept src (src.bitWidth field line) := by
  refine (namesKept_tokensUntil _).bind fun tokens => (namesKept_evaluate _ tokens).bind fun v => ?_
  exact .ite ((NamesKept.report _).bind fun _ => .pure _) (.pure _)

theorem namesKept_memberValue (d : EnumDef) (member : String) :
    NamesKept src (src.memberValue d member) := by
  refine namesKept_line.bind fun line => (namesKept_tokensUntil _).bind fun tokens => ?_
  refine (namesKept_evaluate d tokens).bind fun value => ?_
  split
  · exact .pure _
  · exact (NamesKept.report _).bind fun _ => .pure _
  · exact (NamesKept.report _).bind fun _ => .pure _

theorem namesKept_enumMembers (fuel : Nat) (d : EnumDef) :
    NamesKept src (src.enumMembers fuel d) := by
  induction fuel generalizing d with
  | zero => exact .fail _
  | succ fuel ih =>
    rw [Source.enumMembers]
    refine (namesKept_comes .rbrace).bind fun _ => .ite (.pure d) ?_
    refine namesKept_name?.bind fun name => ?_
    cases name with
    | none => exact .fail _
    | some member =>
      refine (namesKept_accept .assign).bind fun _ => ?_
      refine .join (namesKept_memberValue d member) (.pure d.nextValue) fun value => ?_
      exact (namesKept_accept .comma).bind fun _ => .ite (ih _) (.pure _)

/-- The category is of no kind of aggregate. -/
theorem TagKind.category_ne_of_not_mem {c : Category} (h : c ∉ [.structs, .unions, .enums])
    (k : TagKind) : k.category ≠ c := by
  rintro rfl
  cases k <;> exact h (by decide)

/-- A declared name is no aggregate. -/
theorem namesKept_declare (storage : List String) (name : String) (t : CType)
    (value : Option Value) : NamesKept src (declare storage name t value) := by
  unfold declare
  split
  · exact .define (TagKind.category_ne_of_not_mem (c := .functions) (by decide))
  · have hvar : ∀ v : Variable, NamesKept src (define name ⟨.vars, v⟩) :=
      fun v => .define (TagKind.category_ne_of_not_mem (c := .vars) (by decide))
    split
    · exact (NamesKept.define
        (TagKind.category_ne_of_not_mem (c := .values) (by decide))).bind fun _ => hvar _
    · exact hvar _

/-! ### Productions that stage an aggregate -/

theorem namesKept_defineEnum (name : String) (d : EnumDef) : NamesKept src (defineEnum name d) :=
  .defineAggregate (k := .enum) rfl

theorem namesKept_defineCompound (kind : CompoundKind) (name : String) (c : Compound) :
    NamesKept src (defineCompound kind name c) := by
  rw [defineCompound, ← kind.keyword_tagKind]
  exact .defineAggregate (kind.category_definition c)

theorem namesKept_defineMembers (name : String) (d : EnumDef) :
    NamesKept src (src.defineMembers name d) := by
  refine .get_bind fun s => .ite ?_ (.pure ())
  refine (NamesKept.forIn (fun (x : String × Int64) _ => ?_) _).bind
    fun _ => namesKept_defineEnum name d
  exact (NamesKept.define
    (TagKind.category_ne_of_not_mem (c := .values) (by decide))).bind fun _ => .pure _

theorem namesKept_defineFields (kind : CompoundKind) (name : String) (line : Nat)
    (fields : List Field) : NamesKept src (src.defineFields kind name line fields) := by
  refine .get_bind fun s => .ite ?_ (.pure ())
  split
  · exact namesKept_defineCompound kind name _
  · exact .report _

end CInterface
