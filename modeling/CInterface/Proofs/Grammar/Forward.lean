import CInterface.Grammar.Header
/-!
# Reading goes forward

No production of the grammar leaves tokens that were not before it: it passes some of them, from the
first on, and leaves the others.

* `Forward` — what a production leaves is an end of the tokens before it.
* `Forward.bind`, `Forward.either`, … — how productions are put together.
* `forward_accept`, `forward_expect`, … — the productions that pass tokens.
* `forward_enumeration` — enumerations.
* `forward_atFuel` — the productions that need one another, by induction on their fuel.
* `forward_declaration` — declarations.
-/

namespace CInterface

variable {α β : Type} {src : Source}

/-! ### Going forward -/

/-- A sequence that matches is one match behind the other. -/
theorem Production.bind_eq_ok {p : Production α} {q : α → Production β} {s s' : Stage} {b : β}
    (h : (p >>= q) s = .ok (b, s')) : ∃ a t, p s = .ok (a, t) ∧ q a t = .ok (b, s') := by
  have hrun : (p s >>= fun (a, t) => q a t) = .ok (b, s') := h
  cases hp : p s with
  | error e =>
    rw [hp] at hrun
    cases hrun
  | ok r =>
    rw [hp] at hrun
    exact ⟨r.1, r.2, rfl, hrun⟩

/-- What the production leaves of the tokens at a stage is an end of them. -/
def ForwardFrom (s : Stage) (p : Production α) : Prop :=
  ∀ (a : α) (t : Stage), p s = .ok (a, t) → t.rest <:+ s.rest

/-- What the production leaves of the tokens is an end of them. -/
def Forward (p : Production α) : Prop := ∀ s : Stage, ForwardFrom s p

namespace ForwardFrom

variable {s : Stage}

theorem pure (a : α) : ForwardFrom s (pure a : Production α) := by
  intro b t h
  cases h
  exact List.suffix_refl _

theorem bind {p : Production α} {q : α → Production β} (hp : ForwardFrom s p)
    (hq : ∀ a, Forward (q a)) : ForwardFrom s (p >>= q) := by
  intro b t h
  obtain ⟨a, u, hfirst, hrest⟩ := Production.bind_eq_ok h
  exact (hq a u b t hrest).trans (hp a u hfirst)

theorem get_bind {q : Stage → Production β} (hq : ForwardFrom s (q s)) :
    ForwardFrom s (get >>= q) := hq

theorem moveTo_bind {rest : List Token} {q : Unit → Production β} (h : rest <:+ s.rest)
    (hq : Forward (q ())) : ForwardFrom s (moveTo rest >>= q) :=
  fun b t hrun => (hq { s with rest } b t hrun).trans h

theorem moveTo {rest : List Token} (h : rest <:+ s.rest) : ForwardFrom s (moveTo rest) := by
  intro a t hrun
  cases hrun
  exact h

end ForwardFrom

namespace Forward

theorem pure (a : α) : Forward (pure a : Production α) := fun _ => .pure a

theorem bind {p : Production α} {q : α → Production β} (hp : Forward p)
    (hq : ∀ a, Forward (q a)) : Forward (p >>= q) := fun s => (hp s).bind hq

theorem get_bind {q : Stage → Production β} (hq : ∀ s, ForwardFrom s (q s)) :
    Forward (get >>= q) := fun s => .get_bind (hq s)

theorem ite {c : Prop} [Decidable c] {p q : Production α} (hp : Forward p) (hq : Forward q) :
    Forward (if c then p else q) := by
  split
  · exact hp
  · exact hq

theorem fail (src : Source) (expected : Expected) :
    Forward (src.fail expected : Production α) := by
  intro s a t h
  cases h

theorem define (name : String) (x : Definition) : Forward (define name x) := by
  intro s a t h
  cases h
  exact List.suffix_refl _

theorem report (e : DefinitionError) : Forward (report e) := by
  intro s a t h
  cases h
  exact List.suffix_refl _

theorem suffix {p : Production α} (hp : Forward p) {s t : Stage} {a : α} (h : p s = .ok (a, t)) :
    t.rest <:+ s.rest := hp s a t h

/-- An alternative that is given up leaves the tokens as they were. -/
theorem attempt {p : Production α} (hp : Forward p) : Forward (attempt p) := by
  intro s a t h
  rw [CInterface.attempt] at h
  split at h
  · rename_i b u hrun
    cases h
    exact hp s b t hrun
  · cases h
    exact List.suffix_refl _

theorem either {p q : Production α} (hp : Forward p) (hq : Forward q) : Forward (either p q) := by
  intro s a t h
  rw [CInterface.either] at h
  split at h
  · rename_i r hrun
    cases h
    exact hp s a t hrun
  · exact hq s a t h

end Forward

/-! ### Parts of token lists -/

theorem balancedUntil_suffix {stops : List Punct} {depth : Nat} {ts inside rest : List Token}
    (h : balancedUntil stops depth ts = some (inside, rest)) : rest <:+ ts :=
  ⟨inside, balancedUntil_eq_append h⟩

theorem afterBlock_suffix {depth : Nat} {ts rest : List Token}
    (h : afterBlock depth ts = some rest) : rest <:+ ts := by
  induction ts generalizing depth with
  | nil => cases h
  | cons t ts ih =>
    have hcons : ts <:+ t :: ts := List.suffix_cons t ts
    simp only [afterBlock] at h
    split at h
    · exact (ih h).trans hcons
    · split at h
      · cases depth with
        | zero =>
          cases h
          exact hcons
        | succ depth => exact (ih h).trans hcons
      · exact (ih h).trans hcons

theorem withArguments_suffix (word : String) (ts : List Token) :
    (Grammar.withArguments word ts).2 <:+ ts := by
  unfold Grammar.withArguments
  split
  · rename_i t inside
    split
    · split
      · rename_i h
        split
        · exact ((List.suffix_cons _ _).trans (balancedUntil_suffix h)).trans (List.suffix_cons t inside)
        · exact List.suffix_refl _
      · exact List.suffix_refl _
    · exact List.suffix_refl _
  · exact List.suffix_refl _

theorem qualifier?_suffix {g : Grammar} {beforeType : Bool} {ts rest : List Token} {q : String}
    (h : g.qualifier? beforeType ts = some (q, rest)) : rest <:+ ts := by
  unfold Grammar.qualifier? at h
  split at h
  · cases h
  · rename_i t ts
    have hcons : ts <:+ t :: ts := List.suffix_cons t ts
    split at h
    · rename_i word _
      split at h
      · cases h
        exact hcons
      · split at h
        · have hrest : (Grammar.withArguments word ts).2 = rest := by rw [Option.some.inj h]
          rw [← hrest]
          exact (withArguments_suffix word ts).trans hcons
        · cases h
    · cases h

theorem qualifiersAt_suffix (g : Grammar) (beforeType : Bool) (quals : Qualifiers)
    (ts : List Token) : (g.qualifiersAt beforeType quals ts).2 <:+ ts := by
  induction h : ts.length using Nat.strongRecOn generalizing quals ts with
  | _ n ih =>
    rw [Grammar.qualifiersAt]
    split
    · exact List.suffix_refl _
    · rename_i q rest heq
      have hlt := Grammar.qualifier?_length heq
      exact (ih rest.length (h ▸ hlt) _ rest rfl).trans (qualifier?_suffix heq)

/-! ### Passing tokens -/

/-- Both branches of a test go on alike. -/
theorem Forward.join {c : Prop} [Decidable c] {p q : Production α} {k : α → Production β}
    (hp : Forward p) (hq : Forward q) (hk : ∀ a, Forward (k a)) :
    Forward (if c then p >>= k else q >>= k) := .ite (hp.bind hk) (hq.bind hk)

/-- Passing some of the tokens to come. -/
theorem Forward.drop {n : Nat} {q : Production β} (hq : Forward q) :
    Forward (get >>= fun s => moveTo (s.rest.drop n) >>= fun _ => q) :=
  .get_bind fun s => .moveTo_bind (List.drop_suffix n s.rest) hq

theorem forward_comes (p : Punct) : Forward (comes p) :=
  .bind (.get_bind fun _ => .pure _) fun _ => .pure _

theorem forward_accept (p : Punct) : Forward (accept p) :=
  (forward_comes p).bind fun _ => .ite (.drop (.pure true)) (.pure false)

theorem forward_acceptWord (word : String) : Forward (acceptWord word) := by
  refine .get_bind fun s => ?_
  split
  · exact Forward.drop (.pure true) s
  · exact .pure false

theorem forward_line : Forward src.line := .get_bind fun _ => .pure _

theorem forward_expect (p : Punct) : Forward (src.expect p) :=
  (forward_accept p).bind fun _ => .ite (.fail src _) (.pure ())

theorem forward_tokensUntil (stops : List Punct) : Forward (src.tokensUntil stops) := by
  refine .get_bind fun s => ?_
  split
  · rename_i inside rest h
    exact .moveTo_bind (balancedUntil_suffix h) (.pure _)
  · exact .moveTo_bind List.nil_suffix (.fail src _)

theorem forward_skipBlock : Forward src.skipBlock := by
  refine (forward_expect .lbrace).bind fun _ => .get_bind fun s => ?_
  split
  · rename_i rest h
    exact .moveTo (afterBlock_suffix h)
  · exact .moveTo_bind List.nil_suffix (.fail src _)

theorem forward_name? : Forward src.name? := by
  refine .get_bind fun s => ?_
  split
  · split
    · exact .pure none
    · exact Forward.drop (.pure _) s
  · exact .pure none

theorem forward_qualifiers (beforeType : Bool) (quals : Qualifiers) :
    Forward (src.qualifiers beforeType quals) :=
  .get_bind fun _ => .moveTo_bind (qualifiersAt_suffix _ _ _ _) (.pure _)

theorem forward_evaluate (members : EnumDef) (ts : List TokenKind) :
    Forward (src.evaluate members ts) := .get_bind fun _ => .pure _

/-! ### Enumerations -/

theorem forward_defineEnum (name : String) (d : EnumDef) : Forward (defineEnum name d) :=
  (Forward.define _ _).bind fun _ => .define _ _

theorem forward_defineCompound (kind : CompoundKind) (name : String) (c : Compound) :
    Forward (defineCompound kind name c) :=
  (Forward.define _ _).bind fun _ => .define _ _

theorem forward_memberValue (d : EnumDef) (member : String) :
    Forward (src.memberValue d member) := by
  refine forward_line.bind fun line => (forward_tokensUntil _).bind fun tokens => ?_
  refine (forward_evaluate d tokens).bind fun value => ?_
  split
  · exact .pure _
  · exact (Forward.report _).bind fun _ => .pure _
  · exact (Forward.report _).bind fun _ => .pure _

theorem forward_enumMembers (fuel : Nat) (d : EnumDef) :
    Forward (src.enumMembers fuel d) := by
  induction fuel generalizing d with
  | zero => exact .fail src _
  | succ fuel ih =>
    rw [Source.enumMembers]
    refine (forward_comes .rbrace).bind fun _ => .ite (.pure d) ?_
    refine forward_name?.bind fun name => ?_
    cases name with
    | none => exact .fail src _
    | some member =>
      refine (forward_accept .assign).bind fun _ => ?_
      refine .join (forward_memberValue d member) (.pure d.nextValue) fun value => ?_
      exact (forward_accept .comma).bind fun _ => .ite (ih _) (.pure _)

theorem Forward.forIn {σ : Type} {l : List α} {f : α → σ → Production (ForInStep σ)}
    (hf : ∀ x b, Forward (f x b)) (b : σ) : Forward (forIn l b f) := by
  induction l generalizing b with
  | nil => exact .pure b
  | cons x l ih =>
    rw [List.forIn_cons]
    refine (hf x b).bind fun step => ?_
    cases step with
    | done c => exact .pure c
    | yield c => exact ih c

theorem forward_defineMembers (name : String) (d : EnumDef) :
    Forward (src.defineMembers name d) := by
  have hdefine : Forward (do
      for e in d.members.entries do
        define e.1 ⟨.values, .int e.2⟩
      defineEnum name d) :=
    (Forward.forIn (fun (x : String × Int64) _ =>
      (Forward.define x.1 _).bind fun _ => .pure _) _).bind
      fun _ => forward_defineEnum name d
  exact .get_bind fun s => Forward.ite hdefine (.pure ()) s

theorem forward_anonymousName (keyword : String) : Forward (src.anonymousName keyword) :=
  .get_bind fun _ => .pure _

theorem forward_enumeration : Forward src.enumeration := by
  refine forward_name?.bind fun name => (forward_accept .lbrace).bind fun _ => .ite ?_ ?_
  · refine (forward_enumMembers src.fuel .empty).bind fun d => ?_
    refine (forward_expect .rbrace).bind fun _ => ?_
    have hnext : ∀ name : String, Forward (do
        src.defineMembers name d
        return "enum " ++ name) := fun name => (forward_defineMembers name d).bind fun _ => .pure _
    cases name with
    | some name => exact (Forward.pure name).bind hnext
    | none => exact (forward_anonymousName "enum").bind hnext
  · cases name with
    | none => exact .fail src _
    | some name =>
      have hdefine : Forward (do
          let _ ← defineEnum name .empty
          return "enum " ++ name) := (forward_defineEnum name .empty).bind fun _ => .pure _
      exact .get_bind fun s => Forward.ite hdefine (.pure _) s

/-! ### Productions without recursion through declarations -/

theorem forward_defineFields (kind : CompoundKind) (name : String) (line : Nat)
    (fields : List Field) : Forward (src.defineFields kind name line fields) := by
  refine .get_bind fun s => ?_
  refine Forward.ite ?_ (.pure ()) s
  split
  · exact forward_defineCompound kind name _
  · exact .report _

theorem forward_leadingWords (fuel : Nat) (storage : List String) (quals : Qualifiers) :
    Forward (src.leadingWords fuel storage quals) := by
  induction fuel generalizing storage quals with
  | zero => exact .pure _
  | succ fuel ih =>
    rw [Source.leadingWords]
    refine .get_bind fun s => ?_
    split
    · exact Forward.drop (ih _ _) s
    · refine .get_bind ?_
      split
      · rename_i q rest h
        exact .moveTo_bind (qualifier?_suffix h) (ih _ _)
      · exact .pure _

theorem forward_fundamentalWords : Forward src.fundamentalWords :=
  .get_bind fun s => Forward.drop (.pure _) s

theorem forward_indirections (fuel : Nat) : Forward (src.indirections fuel) := by
  induction fuel with
  | zero => exact .pure _
  | succ fuel ih =>
    rw [Source.indirections]
    refine (forward_qualifiers false []).bind fun quals => ?_
    refine (forward_accept .star).bind fun _ => .ite (ih.bind fun _ => .pure _) ?_
    exact (forward_accept .amp).bind fun _ => .ite (ih.bind fun _ => .pure _) (.pure _)

theorem forward_arrayBounds (fuel : Nat) : Forward (src.arrayBounds fuel) := by
  induction fuel with
  | zero => exact .pure _
  | succ fuel ih =>
    rw [Source.arrayBounds]
    refine (forward_accept .lbracket).bind fun _ => .ite ?_ (.pure [])
    refine (forward_tokensUntil _).bind fun tokens => (forward_expect _).bind fun _ => ?_
    exact (forward_evaluate _ tokens).bind fun _ => ih.bind fun _ => .pure _

theorem forward_initializers (fuel : Nat) :
    Forward (src.initializer fuel) ∧ Forward (src.initializerItems fuel) := by
  induction fuel with
  | zero => exact ⟨.fail src _, .fail src _⟩
  | succ fuel ih =>
    obtain ⟨hvalue, hitems⟩ := ih
    refine ⟨?_, ?_⟩
    · rw [Source.initializer]
      refine (forward_accept .lbrace).bind fun _ => .ite ?_ ?_
      · exact hitems.bind fun _ => (forward_expect _).bind fun _ => .pure _
      · refine (forward_tokensUntil _).bind fun tokens => .ite (.fail src _) ?_
        exact (forward_evaluate _ tokens).bind fun _ => .pure _
    · rw [Source.initializerItems]
      refine (forward_comes .rbrace).bind fun _ => .ite (.pure []) ?_
      refine hvalue.bind fun item => (forward_accept .comma).bind fun _ => .ite ?_ (.pure _)
      exact hitems.bind fun _ => .pure _

theorem forward_initializer (fuel : Nat) : Forward (src.initializer fuel) :=
  (forward_initializers fuel).1

theorem forward_bitWidth (field : String) (line : Nat) : Forward (src.bitWidth field line) := by
  refine (forward_tokensUntil _).bind fun tokens => (forward_evaluate _ tokens).bind fun v => ?_
  exact .ite ((Forward.report _).bind fun _ => .pure _) (.pure _)

/-! ### Productions that need one another -/

/-- The productions that need one another go forward with the fuel. -/
structure ForwardAtFuel (src : Source) (fuel : Nat) : Prop where
  specifiers : Forward (src.specifiers fuel)
  typeName : Forward (src.typeName fuel)
  compound : ∀ kind, Forward (src.compound fuel kind)
  members : Forward (src.members fuel)
  member : Forward (src.member fuel)
  fields : ∀ base line declared, Forward (src.fields fuel base line declared)
  declarator : Forward (src.declarator fuel)
  center : Forward (src.center fuel)
  abstractDeclarator : Forward (src.abstractDeclarator fuel)
  abstractCenter : Forward (src.abstractCenter fuel)
  suffix : ∀ quals, Forward (src.suffix fuel quals)
  parameterList : Forward (src.parameterList fuel)
  parameters : Forward (src.parameters fuel)

namespace ForwardAtFuel

theorem zero : ForwardAtFuel src 0 where
  specifiers := .fail src _
  typeName := .fail src _
  compound _ := .fail src _
  members := .fail src _
  member := .fail src _
  fields _ _ _ := .fail src _
  declarator := .fail src _
  center := .fail src _
  abstractDeclarator := .fail src _
  abstractCenter := .fail src _
  suffix _ := .fail src _
  parameterList := .fail src _
  parameters := .fail src _

variable {fuel : Nat}

theorem specifiers_succ (h : ForwardAtFuel src fuel) : Forward (src.specifiers (fuel + 1)) := by
  rw [Source.specifiers]
  exact (forward_leadingWords _ _ _).bind fun _ => h.typeName.bind fun _ => .pure _

theorem typeName_succ (h : ForwardAtFuel src fuel) : Forward (src.typeName (fuel + 1)) := by
  rw [Source.typeName]
  refine .get_bind fun s => ?_
  split
  · exact Forward.fail src _ s
  · rename_i word _
    refine Forward.ite (h.compound .struct) (.ite (h.compound .union) (.ite ?_ (.ite ?_
      (.ite ?_ (.fail src _))))) s
    · exact .drop forward_enumeration
    · exact forward_fundamentalWords.bind fun _ => .pure _
    · exact .drop (.pure word)

theorem compound_succ (h : ForwardAtFuel src fuel) (kind : CompoundKind) :
    Forward (src.compound (fuel + 1) kind) := by
  rw [Source.compound]
  refine forward_line.bind fun line => .drop (forward_name?.bind fun name => ?_)
  refine (forward_accept .lbrace).bind fun _ => .ite (h.members.bind fun fields => ?_) ?_
  · have hnext : ∀ name : String, Forward (do
        src.defineFields kind name line fields
        return kind.keyword ++ " " ++ name) :=
      fun name => (forward_defineFields kind name line fields).bind fun _ => .pure _
    cases name with
    | some name => exact (Forward.pure name).bind hnext
    | none => exact (forward_anonymousName _).bind hnext
  · cases name with
    | none => exact .fail src _
    | some name =>
      have hdefine : Forward (do
          let _ ← defineCompound kind name .empty
          return kind.keyword ++ " " ++ name) :=
        (forward_defineCompound kind name .empty).bind fun _ => .pure _
      exact .get_bind fun s => Forward.ite hdefine (.pure _) s

theorem members_succ (h : ForwardAtFuel src fuel) : Forward (src.members (fuel + 1)) := by
  rw [Source.members]
  refine (forward_accept .rbrace).bind fun _ => .ite (.pure []) ?_
  refine (forward_accept .semi).bind fun _ => .ite h.members ?_
  refine .get_bind fun s => Forward.ite (.fail src _) ?_ s
  exact h.member.bind fun _ => h.members.bind fun _ => .pure _

/-- A body without a return type is looked for first, and where there is none reading starts again
from the same token. -/
theorem member_succ (h : ForwardAtFuel src fuel) : Forward (src.member (fuel + 1)) := by
  have hbody : Forward (do
      src.skipBlock
      let _ ← accept .semi
      return ([] : List Field)) :=
    forward_skipBlock.bind fun _ => (forward_accept .semi).bind fun _ => .pure []
  rw [Source.member]
  refine (Forward.attempt (h.declarator.bind fun _ => (forward_comes .lbrace).bind fun _ =>
    .ite (.fail src _) (.pure ()))).bind fun _ => .ite hbody ?_
  refine forward_line.bind fun line => h.specifiers.bind fun specs => ?_
  refine (forward_accept .semi).bind fun _ => .ite (.pure _) ?_
  refine (forward_accept .colon).bind fun _ => .ite ?_ ?_
  · exact (forward_bitWidth _ line).bind fun _ => (forward_expect .semi).bind fun _ => .pure _
  · refine h.declarator.bind fun declared => (forward_comes .lbrace).bind fun _ => .ite hbody ?_
    exact (h.fields specs.base line declared).bind fun _ =>
      (forward_expect .semi).bind fun _ => .pure _

theorem fields_succ (h : ForwardAtFuel src fuel) (base : CType) (line : Nat)
    (declared : String × List LayerStep) :
    Forward (src.fields (fuel + 1) base line declared) := by
  rw [Source.fields]
  refine (forward_accept .colon).bind fun _ => ?_
  refine .join (forward_bitWidth declared.1 line) (.pure none) fun bits => ?_
  refine (forward_accept .assign).bind fun _ => ?_
  refine .join (forward_initializer src.fuel) (.pure none) fun default => ?_
  refine (forward_accept .comma).bind fun _ => .ite ?_ (.pure _)
  exact h.declarator.bind fun next => (h.fields base line next).bind fun _ => .pure _

theorem declarator_succ (h : ForwardAtFuel src fuel) : Forward (src.declarator (fuel + 1)) := by
  rw [Source.declarator]
  refine (forward_indirections src.fuel).bind fun before => h.center.bind fun center => ?_
  exact (h.suffix before.2).bind fun _ => .pure _

theorem center_succ (h : ForwardAtFuel src fuel) : Forward (src.center (fuel + 1)) := by
  rw [Source.center]
  refine forward_name?.bind fun name => ?_
  cases name with
  | some name => exact .pure _
  | none =>
    refine (forward_accept .lparen).bind fun _ => .ite ?_ (.fail src _)
    exact h.declarator.bind fun _ => (forward_expect .rparen).bind fun _ => .pure _

theorem abstractDeclarator_succ (h : ForwardAtFuel src fuel) :
    Forward (src.abstractDeclarator (fuel + 1)) := by
  rw [Source.abstractDeclarator]
  refine (forward_indirections src.fuel).bind fun before => ?_
  refine (Forward.attempt h.abstractCenter).bind fun center => ?_
  exact (h.suffix before.2).bind fun _ => .pure _

theorem abstractCenter_succ (h : ForwardAtFuel src fuel) :
    Forward (src.abstractCenter (fuel + 1)) := by
  rw [Source.abstractCenter]
  refine (forward_expect .lparen).bind fun _ => h.abstractDeclarator.bind fun inner => ?_
  have hnext : Forward (do
      src.expect .rparen
      return inner) := (forward_expect .rparen).bind fun _ => .pure inner
  exact .ite ((Forward.fail src _).bind fun _ => hnext) hnext

theorem suffix_succ (h : ForwardAtFuel src fuel) (quals : Qualifiers) :
    Forward (src.suffix (fuel + 1) quals) := by
  rw [Source.suffix]
  have hnext : ∀ params : List LayerStep, Forward (do
      let bounds ← src.arrayBounds src.fuel
      return params ++ qualifySteps quals ++ boundSteps bounds) :=
    fun params => (forward_arrayBounds src.fuel).bind fun _ => .pure _
  refine (forward_comes .lparen).bind fun _ => .ite ?_ ((Forward.pure []).bind hnext)
  exact h.parameterList.bind fun _ => (Forward.pure _).bind hnext

theorem parameterList_succ (h : ForwardAtFuel src fuel) :
    Forward (src.parameterList (fuel + 1)) := by
  rw [Source.parameterList]
  refine (forward_expect .lparen).bind fun _ => ?_
  refine (forward_accept .rparen).bind fun _ => .ite (.pure _) ?_
  have hnext : Forward (do
      let found ← src.parameters fuel
      src.expect .rparen
      return found) := h.parameters.bind fun _ => (forward_expect .rparen).bind fun _ => .pure _
  refine .get_bind fun s => ?_
  split
  · rename_i t u rest hrest
    have hsuffix : rest <:+ s.rest := ⟨[t, u], hrest.symm⟩
    split
    · exact .moveTo_bind hsuffix (.pure _)
    · exact hnext s
  · exact hnext s

/-- A parameter is first read with a name; where that fails, it is read anew without one. -/
theorem parameters_succ (h : ForwardAtFuel src fuel) : Forward (src.parameters (fuel + 1)) := by
  rw [Source.parameters]
  refine (forward_accept .ellipsis).bind fun _ => .ite (.pure _) ?_
  refine h.specifiers.bind fun specs => ?_
  refine (Forward.either (h.declarator.bind fun _ => .pure _)
    (h.abstractDeclarator.bind fun _ => .pure _)).bind fun declared => ?_
  refine (forward_accept .assign).bind fun _ => ?_
  have hnext : ∀ default : Option Value, Forward (do
      let param : Param := ⟨declared.1, buildType specs.base declared.2, default⟩
      if ← accept .comma then
        let found ← src.parameters fuel
        return (param :: found.1, found.2)
      else return ([param], false)) := fun default =>
    (forward_accept .comma).bind fun _ => .ite (h.parameters.bind fun _ => .pure _) (.pure _)
  refine .ite ?_ ((Forward.pure none).bind hnext)
  refine (forward_tokensUntil _).bind fun tokens => (forward_evaluate _ tokens).bind fun _ => ?_
  exact (Forward.pure _).bind hnext

end ForwardAtFuel

/-- With any fuel, each of the productions goes forward. -/
theorem forward_atFuel (fuel : Nat) : ForwardAtFuel src fuel := by
  induction fuel with
  | zero => exact .zero
  | succ fuel ih =>
    exact
      { specifiers := ih.specifiers_succ
        typeName := ih.typeName_succ
        compound := ih.compound_succ
        members := ih.members_succ
        member := ih.member_succ
        fields := ih.fields_succ
        declarator := ih.declarator_succ
        center := ih.center_succ
        abstractDeclarator := ih.abstractDeclarator_succ
        abstractCenter := ih.abstractCenter_succ
        suffix := ih.suffix_succ
        parameterList := ih.parameterList_succ
        parameters := ih.parameters_succ }

/-! ### Declarations -/

theorem forward_declare (storage : List String) (name : String) (t : CType)
    (value : Option Value) : Forward (declare storage name t value) := by
  unfold declare
  split
  · exact .define _ _
  · split
    · exact (Forward.define _ _).bind fun _ => .define _ _
    · exact (Forward.pure ()).bind fun _ => .define _ _

theorem forward_objects (specs : Specifiers) (fuel : Nat)
    (declared : String × List LayerStep) : Forward (src.objects specs fuel declared) := by
  induction fuel generalizing declared with
  | zero => exact .fail src _
  | succ fuel ih =>
    rw [Source.objects]
    refine (forward_accept .assign).bind fun _ => ?_
    refine .join (forward_initializer src.fuel) (.pure none) fun value => ?_
    refine (forward_declare _ _ _ value).bind fun _ => (forward_accept .comma).bind fun _ => ?_
    exact .ite ((forward_atFuel src.fuel).declarator.bind fun next => ih next) (.pure ())

theorem forward_typedefNames (base : CType) (fuel : Nat) :
    Forward (src.typedefNames base fuel) := by
  induction fuel with
  | zero => exact .fail src _
  | succ fuel ih =>
    rw [Source.typedefNames]
    refine (forward_atFuel src.fuel).declarator.bind fun declared => ?_
    refine (Forward.define _ _).bind fun _ => (forward_accept .comma).bind fun _ => ?_
    exact .ite ih (.pure ())

theorem forward_typedefBody : Forward src.typedefBody := by
  have hend : Forward (src.expect .semi) := forward_expect .semi
  refine (forward_atFuel src.fuel).specifiers.bind fun specs => ?_
  refine (forward_comes .semi).bind fun _ => .ite ?_ hend
  exact (forward_typedefNames specs.base src.fuel).bind fun _ => hend

/-- **A declaration goes forward.** -/
theorem forward_declaration : Forward src.declaration := by
  refine (forward_acceptWord "typedef").bind fun _ => .ite forward_typedefBody ?_
  refine (forward_atFuel src.fuel).specifiers.bind fun specs => ?_
  refine (forward_accept .semi).bind fun _ => .ite (.pure ()) ?_
  refine (forward_atFuel src.fuel).declarator.bind fun declared => ?_
  refine (forward_comes .lbrace).bind fun _ => .ite ?_ ?_
  · have hbody : Forward (do
        src.skipBlock
        declare specs.storage declared.1 (buildType specs.base declared.2) none) :=
      forward_skipBlock.bind fun _ => forward_declare _ _ _ none
    exact .ite ((Forward.fail src _).bind fun _ => hbody) hbody
  · exact (forward_objects specs src.fuel declared).bind fun _ => forward_expect .semi

end CInterface
