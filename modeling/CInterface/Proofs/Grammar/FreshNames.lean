import CInterface.Proofs.Grammar.Closure
import CInterface.Proofs.Grammar.Inventions
import CInterface.Proofs.Grammar.NamesKept
import CInterface.Proofs.Grammar.Recording
import Mathlib.Data.List.Nodup
import Mathlib.Data.List.Perm.Subperm
/-!
# Invented names are new

A name for an aggregate without one is the first of a numbered series that is no type name yet. If
every aggregate in sight has its type name, it is no aggregate of its kind either, so nothing is
overwritten; and since every declaration keeps that, this is so wherever a header invents a name.

* `anonymousName_search` — the search for a number ends at the first that is free.
* `Invention.Fresh` — the name was new at its moment.
* `Inventive` — from a named view a step leads to a named one, and what it invents is fresh.
* `inventive_loggedDeclaration` — declarations.
* `parseFile_inventions` — the reading of a whole header.
-/

namespace CInterface

variable {α β : Type} {src : Source}

/-! ### The search for a number -/

theorem anonymousText_injective {keyword : String} {m n : Nat}
    (h : anonymousText keyword m = anonymousText keyword n) : m = n := by
  have hlist := congrArg String.toList h
  simp only [anonymousText, String.toList_append] at hlist
  have hdigits := List.append_cancel_left hlist
  simpa using congrArg (fun digits => Nat.ofDigitChars 10 digits 0) hdigits

theorem TagKind.tag_anonymousText_injective {k : TagKind} {m n : Nat}
    (h : k.tag (anonymousText k.keyword m) = k.tag (anonymousText k.keyword n)) : m = n :=
  anonymousText_injective (TagKind.tag_injective h).2

/-- What is in sight is staged or registered. -/
theorem contains_sight_iff {s : Stage} {c : Category} {name : String} :
    (src.sight s).contains c name = true ↔
      (∃ d ∈ s.staged, d.2.category = c ∧ d.1 = name) ∨
        src.registry.flat.contains c name = true := by
  obtain ⟨rest, staged, errors⟩ := s
  induction staged with
  | nil => exact ⟨Or.inr, fun h => h.resolve_left fun ⟨d, hd, _⟩ => absurd hd List.not_mem_nil⟩
  | cons d staged ih =>
    have hsight : src.sight ⟨rest, d :: staged, errors⟩ =
        (src.sight ⟨rest, staged, errors⟩).insert d.1 d.2 := rfl
    rw [hsight, Definitions.contains_insert_iff, ih, List.exists_mem_cons_iff, or_assoc,
      eq_comm (a := c), eq_comm (a := name)]

/-- The type name that an aggregate with this number would get is there already. -/
def Source.Taken (src : Source) (s : Stage) (k : TagKind) (n : Nat) : Prop :=
  (src.sight s).contains .types (k.tag (anonymousText k.keyword n)) = true

/-- Among one number more than there are names, one is free. -/
theorem exists_not_taken (src : Source) (s : Stage) (k : TagKind) :
    ∃ n < s.staged.length + src.registry.flat.types.size + 1, ¬ src.Taken s k n := by
  by_contra hall
  have htaken : ∀ n < s.staged.length + src.registry.flat.types.size + 1, src.Taken s k n :=
    fun n hn => by_contra fun hfree => hall ⟨n, hn, hfree⟩
  have hnodup : ((List.range (s.staged.length + src.registry.flat.types.size + 1)).map
      fun n => k.tag (anonymousText k.keyword n)).Nodup :=
    List.Nodup.map (fun _ _ => TagKind.tag_anonymousText_injective) List.nodup_range
  have hsubset : ((List.range (s.staged.length + src.registry.flat.types.size + 1)).map
      fun n => k.tag (anonymousText k.keyword n)) ⊆
        s.staged.map Prod.fst ++ src.registry.flat.types.keys := by
    intro name hname
    obtain ⟨n, hn, rfl⟩ := List.mem_map.1 hname
    rcases contains_sight_iff.1 (htaken n (List.mem_range.1 hn)) with ⟨d, hd, -, heq⟩ | hregistry
    · exact List.mem_append_left _ (List.mem_map.2 ⟨d, hd, heq⟩)
    · obtain ⟨t, ht⟩ := Option.isSome_iff_exists.1 hregistry
      exact List.mem_append_right _ (OrderedMap.mem_keys_of_get? ht)
  have hlength := hnodup.length_le_of_subset hsubset
  have hkeys : src.registry.flat.types.keys.length = src.registry.flat.types.size :=
    List.length_map ..
  rw [List.length_map, List.length_range, List.length_append, List.length_map, hkeys] at hlength
  omega

/-- **The search ends.** It finds the first number that is free. -/
theorem anonymousName_search (src : Source) (s : Stage) (k : TagKind) :
    ∃ n, src.anonymousName k.keyword s = .ok (anonymousText k.keyword n, s) ∧
      ¬ src.Taken s k n ∧ ∀ m < n, src.Taken s k m := by
  have hfree : ∀ n, (src.visible? s .types
      (k.keyword ++ " " ++ anonymousText k.keyword n)).isNone = true ↔ ¬ src.Taken s k n := by
    intro n
    rw [Source.visible?_eq, ← Option.not_isSome, Bool.not_eq_true', Source.Taken, Bool.not_eq_true]
    rfl
  obtain ⟨free, hbound, hnot⟩ := exists_not_taken src s k
  have hsome : ((List.range (s.staged.length + src.registry.flat.types.size + 1)).find?
      fun n => (src.visible? s .types
        (k.keyword ++ " " ++ anonymousText k.keyword n)).isNone).isSome = true :=
    List.find?_isSome.2 ⟨free, List.mem_range.2 hbound, (hfree free).2 hnot⟩
  obtain ⟨n, hn⟩ := Option.isSome_iff_exists.1 hsome
  obtain ⟨hfirst, -, hbefore⟩ := List.find?_range_eq_some.1 hn
  refine ⟨n, ?_, (hfree n).1 hfirst, fun m hm => ?_⟩
  · change Except.ok (anonymousText k.keyword (((List.range _).find? _).getD _), s) = _
    rw [hn, Option.getD_some]
  · by_contra hnot
    have htaken := hbefore m hm
    rw [(hfree m).2 hnot] at htaken
    cases htaken

/-! ### Fresh names -/

namespace Invention

/-- Neither the registry nor any staged definition has the name in the category. -/
def Absent (i : Invention) (c : Category) (name : String) : Prop :=
  i.registry.flat.contains c name = false ∧
    ∀ d ∈ i.staged, ¬ (d.2.category = c ∧ d.1 = name)

/-- The name is new: neither an aggregate of its kind nor a type with its keyword. It has the first
number for which the latter is so. -/
structure Fresh (i : Invention) : Prop where
  aggregate : i.Absent i.kind.category i.name
  typeName : i.Absent .types (i.kind.tag i.name)
  first : ∃ n, i.name = anonymousText i.kind.keyword n ∧
    ∀ m < n, ¬ i.Absent .types (i.kind.tag (anonymousText i.kind.keyword m))

theorem absent_iff {s : Stage} {k : TagKind} {name : String} {c : Category} {other : String} :
    (Invention.mk src.registry s.staged k name).Absent c other ↔
      ¬ (src.sight s).contains c other = true := by
  rw [contains_sight_iff, not_or, Bool.not_eq_true, Absent, and_comm]
  simp only [not_exists, not_and]

end Invention

/-- From a stage with a named view in sight, what the step invents is fresh, and it leads to such
stages only. -/
def Inventive (src : Source) (p : Logged α) : Prop :=
  ∀ s : Stage, (src.sight s).Named → (∀ i ∈ (p.run s).1, i.Fresh) ∧
    ∀ (a : α) (s' : Stage), (p.run s).2 = .ok (a, s') → (src.sight s').Named

namespace Inventive

theorem lift {p : Production α} (hp : NamesKept src p) : Inventive src (liftM p) :=
  fun s hs => ⟨fun _ hi => absurd hi List.not_mem_nil, hp s hs⟩

theorem pure (a : α) : Inventive src (pure a) := lift (.pure a)

theorem fail (expected : Expected) : Inventive src (liftM (src.fail expected : Production α)) :=
  lift (.fail expected)

theorem get_bind {q : Stage → Logged β} (hq : ∀ s, Inventive src (q s)) :
    Inventive src (get >>= q) := fun s => hq s s

theorem bind {p : Logged α} {q : α → Logged β} (hp : Inventive src p)
    (hq : ∀ a, Inventive src (q a)) : Inventive src (p >>= q) := by
  intro s hs
  obtain ⟨hfirst, hmid⟩ := hp s hs
  rw [Logged.run_bind]
  rcases hrun : p.run s with ⟨log, e | ⟨a, t⟩⟩ <;> rw [hrun] at hfirst hmid
  · exact ⟨hfirst, nofun⟩
  · obtain ⟨hsecond, hend⟩ := hq a t (hmid a t rfl)
    exact ⟨List.forall_mem_append.2 ⟨hfirst, hsecond⟩, hend⟩

theorem ite {c : Prop} [Decidable c] {p q : Logged α} (hp : Inventive src p)
    (hq : Inventive src q) : Inventive src (if c then p else q) := by
  split
  · exact hp
  · exact hq

/-- Both branches of a test go on alike. -/
theorem join {c : Prop} [Decidable c] {p q : Logged α} {k : α → Logged β} (hp : Inventive src p)
    (hq : Inventive src q) (hk : ∀ a, Inventive src (k a)) :
    Inventive src (if c then p >>= k else q >>= k) := .ite (hp.bind hk) (hq.bind hk)

/-- A way that is given up has its inventions, and leaves the view as it was. -/
theorem attempt {p : Logged α} (hp : Inventive src p) : Inventive src p.attempt := by
  intro s hs
  obtain ⟨hlog, hend⟩ := hp s hs
  simp only [Logged.attempt]
  rcases hrun : p.run s with ⟨log, e | ⟨a, t⟩⟩ <;> rw [hrun] at hlog hend
  · refine ⟨hlog, fun b s' h => ?_⟩
    cases h
    exact hs
  · refine ⟨hlog, fun b s' h => ?_⟩
    cases h
    exact hend a _ rfl

theorem either {p q : Logged α} (hp : Inventive src p) (hq : Inventive src q) :
    Inventive src (p.either q) := by
  intro s hs
  obtain ⟨hlog, hend⟩ := hp s hs
  simp only [Logged.either]
  rcases hrun : p.run s with ⟨log, e | ⟨a, t⟩⟩ <;> rw [hrun] at hlog hend
  · obtain ⟨hsecond, hlast⟩ := hq s hs
    exact ⟨List.forall_mem_append.2 ⟨hlog, hsecond⟩, hlast⟩
  · exact ⟨hlog, hend⟩

/-- **An invented name is fresh**, where every aggregate in sight has its type name. -/
theorem invent (k : TagKind) : Inventive src (src.invent k) := by
  intro s hs
  obtain ⟨n, hname, hfree, hfirst⟩ := anonymousName_search src s k
  have hrun : (src.invent k).run s =
      ([⟨src.registry, s.staged, k, anonymousText k.keyword n⟩],
        .ok (anonymousText k.keyword n, s)) := by
    simp only [Source.invent, hname]
  rw [hrun]
  refine ⟨fun i hi => ?_, fun a s' h => ?_⟩
  · obtain rfl := List.mem_singleton.1 hi
    constructor
    · -- an aggregate with the name would have its type name, which is free
      exact Invention.absent_iff.2 fun h => hfree (hs k _ h)
    · exact Invention.absent_iff.2 hfree
    · exact ⟨n, rfl, fun m hm habsent => Invention.absent_iff.1 habsent (hfirst m hm)⟩
  · cases h
    exact hs

end Inventive

/-! ### Productions -/

theorem inventive_loggedEnumeration : Inventive src src.loggedEnumeration := by
  refine .bind (.lift namesKept_name?) fun name => ?_
  refine .bind (.lift (namesKept_accept .lbrace)) fun _ => .ite ?_ ?_
  · refine .bind (.lift (namesKept_enumMembers src.fuel .empty)) fun d => ?_
    refine .bind (.lift (namesKept_expect .rbrace)) fun _ => ?_
    have hnext : ∀ name : String, Inventive src (do
        src.defineMembers name d
        return "enum " ++ name) := fun name =>
      .bind (.lift (namesKept_defineMembers name d)) fun _ => .pure _
    cases name with
    | some name => exact (Inventive.pure name).bind hnext
    | none => exact (Inventive.invent .enum).bind hnext
  · cases name with
    | none => exact .fail _
    | some name =>
      refine .get_bind fun s => .ite ?_ (.pure _)
      exact .bind (.lift (namesKept_defineEnum name .empty)) fun _ => .pure _

/-- With this fuel what the productions that need one another invent is fresh. -/
structure InventiveAtFuel (src : Source) (fuel : Nat) : Prop where
  specifiers : Inventive src (src.loggedSpecifiers fuel)
  typeName : Inventive src (src.loggedTypeName fuel)
  compound : ∀ kind, Inventive src (src.loggedCompound fuel kind)
  members : Inventive src (src.loggedMembers fuel)
  member : Inventive src (src.loggedMember fuel)
  fields : ∀ base line declared, Inventive src (src.loggedFields fuel base line declared)
  declarator : Inventive src (src.loggedDeclarator fuel)
  center : Inventive src (src.loggedCenter fuel)
  abstractDeclarator : Inventive src (src.loggedAbstractDeclarator fuel)
  abstractCenter : Inventive src (src.loggedAbstractCenter fuel)
  suffix : ∀ quals, Inventive src (src.loggedSuffix fuel quals)
  parameterList : Inventive src (src.loggedParameterList fuel)
  parameters : Inventive src (src.loggedParameters fuel)

namespace InventiveAtFuel

variable {fuel : Nat}

theorem zero : InventiveAtFuel src 0 where
  specifiers := .fail _
  typeName := .fail _
  compound _ := .fail _
  members := .fail _
  member := .fail _
  fields _ _ _ := .fail _
  declarator := .fail _
  center := .fail _
  abstractDeclarator := .fail _
  abstractCenter := .fail _
  suffix _ := .fail _
  parameterList := .fail _
  parameters := .fail _

theorem specifiers_succ (h : InventiveAtFuel src fuel) :
    Inventive src (src.loggedSpecifiers (fuel + 1)) := by
  rw [Source.loggedSpecifiers]
  exact .bind (.lift (namesKept_leadingWords _ _ _)) fun _ => h.typeName.bind fun _ => .pure _

theorem typeName_succ (h : InventiveAtFuel src fuel) :
    Inventive src (src.loggedTypeName (fuel + 1)) := by
  rw [Source.loggedTypeName]
  refine .get_bind fun s => ?_
  split
  · exact .fail _
  · refine .ite (h.compound .struct) (.ite (h.compound .union) (.ite ?_ (.ite ?_ (.ite ?_ ?_))))
    · exact .get_bind fun _ => .bind (.lift (.moveTo _)) fun _ => inventive_loggedEnumeration
    · exact .bind (.lift namesKept_fundamentalWords) fun _ => .pure _
    · exact .get_bind fun _ => .bind (.lift (.moveTo _)) fun _ => .pure _
    · exact .fail _

/-- A name is invented when the body has been read, and the aggregate is staged right behind it. -/
theorem compound_succ (h : InventiveAtFuel src fuel) (kind : CompoundKind) :
    Inventive src (src.loggedCompound (fuel + 1) kind) := by
  rw [Source.loggedCompound]
  refine .bind (.lift namesKept_line) fun line => .get_bind fun _ => ?_
  refine .bind (.lift (.moveTo _)) fun _ => .bind (.lift namesKept_name?) fun name => ?_
  refine .bind (.lift (namesKept_accept .lbrace)) fun _ => .ite ?_ ?_
  · refine h.members.bind fun fields => ?_
    have hnext : ∀ name : String, Inventive src (do
        src.defineFields kind name line fields
        return kind.keyword ++ " " ++ name) := fun name =>
      .bind (.lift (namesKept_defineFields kind name line fields)) fun _ => .pure _
    cases name with
    | some name => exact (Inventive.pure name).bind hnext
    | none => exact (Inventive.invent kind.tagKind).bind hnext
  · cases name with
    | none => exact .fail _
    | some name =>
      refine .get_bind fun s => .ite ?_ (.pure _)
      exact .bind (.lift (namesKept_defineCompound kind name .empty)) fun _ => .pure _

theorem members_succ (h : InventiveAtFuel src fuel) :
    Inventive src (src.loggedMembers (fuel + 1)) := by
  rw [Source.loggedMembers]
  refine .bind (.lift (namesKept_accept .rbrace)) fun _ => .ite (.pure _) ?_
  refine .bind (.lift (namesKept_accept .semi)) fun _ => .ite h.members ?_
  refine .get_bind fun s => .ite (.fail _) ?_
  exact h.member.bind fun fields => h.members.bind fun _ => .pure _

theorem member_succ (h : InventiveAtFuel src fuel) :
    Inventive src (src.loggedMember (fuel + 1)) := by
  have hbody : Inventive src (do
      src.skipBlock
      let _ ← accept .semi
      return ([] : List Field)) :=
    .bind (.lift namesKept_skipBlock) fun _ => .bind (.lift (namesKept_accept _)) fun _ => .pure _
  rw [Source.loggedMember]
  refine .bind (.attempt (h.declarator.bind fun _ =>
    .bind (.lift (namesKept_comes _)) fun _ => .ite (.fail _) (.pure _))) fun body => ?_
  refine .ite hbody (.bind (.lift namesKept_line) fun line => h.specifiers.bind fun specs => ?_)
  refine .bind (.lift (namesKept_accept .semi)) fun _ => .ite (.pure _) ?_
  refine .bind (.lift (namesKept_accept .colon)) fun _ => .ite ?_ ?_
  · exact .bind (.lift (namesKept_bitWidth _ line)) fun _ =>
      .bind (.lift (namesKept_expect _)) fun _ => .pure _
  · refine h.declarator.bind fun declared => ?_
    refine .bind (.lift (namesKept_comes .lbrace)) fun _ => .ite hbody ?_
    exact (h.fields _ _ _).bind fun fields => .bind (.lift (namesKept_expect _)) fun _ => .pure _

theorem fields_succ (h : InventiveAtFuel src fuel) (base : CType) (line : Nat)
    (declared : String × List LayerStep) :
    Inventive src (src.loggedFields (fuel + 1) base line declared) := by
  rw [Source.loggedFields]
  have hmore : ∀ (bits : Option UInt32) (default : Option Value), Inventive src (do
      let field : Field := ⟨some declared.1, buildType base declared.2, default, bits⟩
      if ← accept .comma then
        let next ← src.loggedDeclarator fuel
        return field :: (← src.loggedFields fuel base line next)
      else return [field]) := fun bits default =>
    .bind (.lift (namesKept_accept .comma)) fun _ =>
      .ite (h.declarator.bind fun next => (h.fields _ _ next).bind fun _ => .pure _) (.pure _)
  refine .bind (.lift (namesKept_accept .colon)) fun _ => ?_
  refine .join (.lift (namesKept_bitWidth _ line)) (.pure none) fun bits => ?_
  refine .bind (.lift (namesKept_accept .assign)) fun _ => ?_
  exact .join (.lift (namesKept_initializer src.fuel)) (.pure none) (hmore bits)

theorem declarator_succ (h : InventiveAtFuel src fuel) :
    Inventive src (src.loggedDeclarator (fuel + 1)) := by
  rw [Source.loggedDeclarator]
  refine .bind (.lift (namesKept_indirections src.fuel)) fun before => ?_
  exact h.center.bind fun center => (h.suffix before.2).bind fun _ => .pure _

theorem center_succ (h : InventiveAtFuel src fuel) :
    Inventive src (src.loggedCenter (fuel + 1)) := by
  rw [Source.loggedCenter]
  refine .bind (.lift namesKept_name?) fun name => ?_
  cases name with
  | some name => exact .pure _
  | none =>
    refine .bind (.lift (namesKept_accept .lparen)) fun _ => .ite ?_ (.fail _)
    exact h.declarator.bind fun inner => .bind (.lift (namesKept_expect _)) fun _ => .pure _

theorem abstractDeclarator_succ (h : InventiveAtFuel src fuel) :
    Inventive src (src.loggedAbstractDeclarator (fuel + 1)) := by
  rw [Source.loggedAbstractDeclarator]
  refine .bind (.lift (namesKept_indirections src.fuel)) fun before => ?_
  exact h.abstractCenter.attempt.bind fun _ => (h.suffix before.2).bind fun _ => .pure _

theorem abstractCenter_succ (h : InventiveAtFuel src fuel) :
    Inventive src (src.loggedAbstractCenter (fuel + 1)) := by
  rw [Source.loggedAbstractCenter]
  refine .bind (.lift (namesKept_expect .lparen)) fun _ => h.abstractDeclarator.bind fun inner => ?_
  have hnext : Inventive src (do
      src.expect .rparen
      return inner) := .bind (.lift (namesKept_expect .rparen)) fun _ => .pure _
  exact .ite (.bind (.fail _) fun _ => hnext) hnext

theorem suffix_succ (h : InventiveAtFuel src fuel) (quals : Qualifiers) :
    Inventive src (src.loggedSuffix (fuel + 1) quals) := by
  rw [Source.loggedSuffix]
  have hnext : ∀ params : List LayerStep, Inventive src (do
      let bounds ← src.arrayBounds src.fuel
      return params ++ qualifySteps quals ++ boundSteps bounds) := fun params =>
    .bind (.lift (namesKept_arrayBounds src.fuel)) fun _ => .pure _
  refine .bind (.lift (namesKept_comes .lparen)) fun _ => .ite ?_ (.bind (.pure []) hnext)
  exact h.parameterList.bind fun _ => .bind (.pure _) hnext

theorem parameterList_succ (h : InventiveAtFuel src fuel) :
    Inventive src (src.loggedParameterList (fuel + 1)) := by
  rw [Source.loggedParameterList]
  refine .bind (.lift (namesKept_expect .lparen)) fun _ => ?_
  refine .bind (.lift (namesKept_accept .rparen)) fun _ => .ite (.pure _) ?_
  have hnext : Inventive src (do
      let found ← src.loggedParameters fuel
      src.expect .rparen
      return found) :=
    h.parameters.bind fun _ => .bind (.lift (namesKept_expect .rparen)) fun _ => .pure _
  refine .get_bind fun s => ?_
  split
  · exact .ite (.bind (.lift (.moveTo _)) fun _ => .pure _) hnext
  · exact hnext

theorem parameters_succ (h : InventiveAtFuel src fuel) :
    Inventive src (src.loggedParameters (fuel + 1)) := by
  rw [Source.loggedParameters]
  refine .bind (.lift (namesKept_accept .ellipsis)) fun _ => .ite (.pure _) ?_
  refine h.specifiers.bind fun specs => .bind (.either ?_ ?_) fun declared => ?_
  · exact h.declarator.bind fun _ => .pure _
  · exact h.abstractDeclarator.bind fun _ => .pure _
  · have hnext : ∀ default : Option Value, Inventive src (do
        let param : Param := ⟨declared.1, buildType specs.base declared.2, default⟩
        if ← accept .comma then
          let found ← src.loggedParameters fuel
          return (param :: found.1, found.2)
        else return ([param], false)) := fun default =>
      .bind (.lift (namesKept_accept .comma)) fun _ =>
        .ite (h.parameters.bind fun _ => .pure _) (.pure _)
    refine .bind (.lift (namesKept_accept .assign)) fun _ => .ite ?_ (.bind (.pure none) hnext)
    refine .bind (.lift (namesKept_tokensUntil _)) fun tokens => ?_
    exact .bind (.lift (namesKept_evaluate _ tokens)) fun _ => .bind (.pure _) hnext

end InventiveAtFuel

theorem inventiveAtFuel (fuel : Nat) : InventiveAtFuel src fuel := by
  induction fuel with
  | zero => exact .zero
  | succ fuel ih =>
    exact
      { specifiers := ih.specifiers_succ
        typeName := ih.typeName_succ
        compound := ih.compound_succ
        members := ih.members_succ
        member := ih.member_succ
        fields := ih.fields_succ
        declarator := ih.declarator_succ
        center := ih.center_succ
        abstractDeclarator := ih.abstractDeclarator_succ
        abstractCenter := ih.abstractCenter_succ
        suffix := ih.suffix_succ
        parameterList := ih.parameterList_succ
        parameters := ih.parameters_succ }

/-! ### Declarations -/

theorem inventive_loggedObjects (specs : Specifiers) (fuel : Nat)
    (declared : String × List LayerStep) :
    Inventive src (src.loggedObjects specs fuel declared) := by
  induction fuel generalizing declared with
  | zero => exact .fail _
  | succ fuel ih =>
    rw [Source.loggedObjects]
    refine .bind (.lift (namesKept_accept .assign)) fun _ => ?_
    refine .join (.lift (namesKept_initializer src.fuel)) (.pure none) fun value => ?_
    refine .bind (.lift (namesKept_declare _ _ _ value)) fun _ => ?_
    refine .bind (.lift (namesKept_accept .comma)) fun _ => .ite ?_ (.pure ())
    exact (inventiveAtFuel src.fuel).declarator.bind fun next => ih next

theorem inventive_loggedTypedefNames (base : CType) (fuel : Nat) :
    Inventive src (src.loggedTypedefNames base fuel) := by
  induction fuel with
  | zero => exact .fail _
  | succ fuel ih =>
    rw [Source.loggedTypedefNames]
    refine (inventiveAtFuel src.fuel).declarator.bind fun declared => ?_
    have hdefine : NamesKept src (define declared.1 ⟨.types, buildType base declared.2⟩) :=
      .define TagKind.category_ne_types
    refine .bind (.lift hdefine) fun _ => ?_
    exact .bind (.lift (namesKept_accept .comma)) fun _ => .ite ih (.pure ())

theorem inventive_loggedTypedefBody : Inventive src src.loggedTypedefBody := by
  refine (inventiveAtFuel src.fuel).specifiers.bind fun specs => ?_
  have hend : Inventive src (liftM (src.expect .semi)) := .lift (namesKept_expect .semi)
  refine .bind (.lift (namesKept_comes .semi)) fun _ => .ite ?_ hend
  exact (inventive_loggedTypedefNames specs.base src.fuel).bind fun _ => hend

/-- **What a declaration invents is fresh**, also on the ways that it gives up, and every aggregate
in sight has its type name behind it. -/
theorem inventive_loggedDeclaration : Inventive src src.loggedDeclaration := by
  refine .bind (.lift (namesKept_acceptWord "typedef")) fun _ => ?_
  refine .ite inventive_loggedTypedefBody ?_
  refine (inventiveAtFuel src.fuel).specifiers.bind fun specs => ?_
  refine .bind (.lift (namesKept_accept .semi)) fun _ => .ite (.pure ()) ?_
  refine (inventiveAtFuel src.fuel).declarator.bind fun declared => ?_
  refine .bind (.lift (namesKept_comes .lbrace)) fun _ => .ite ?_ ?_
  · have hbody : Inventive src (do
        src.skipBlock
        declare specs.storage declared.1 (buildType specs.base declared.2) none) :=
      .bind (.lift namesKept_skipBlock) fun _ => .lift (namesKept_declare _ _ _ none)
    exact .ite (.bind (.fail _) fun _ => hbody) hbody
  · exact (inventive_loggedObjects specs src.fuel declared).bind
      fun _ => .lift (namesKept_expect .semi)

/-! ### Headers -/

namespace HeaderText

variable {h : HeaderText} {s : HeaderState}

/-- Reads a declaration, or skips it, and logs what it invents. -/
def loggedDeclaration (h : HeaderText) (s : HeaderState) : HeaderState × List Invention :=
  let src := h.source s.registry
  match src.loggedDeclaration.run s.stage with
  | (log, .ok (_, stage)) => (h.commit s stage, log)
  | (log, .error _) => (h.skip s src, log)

theorem loggedDeclaration_fst (h : HeaderText) (s : HeaderState) :
    (h.loggedDeclaration s).1 = h.declaration s := by
  rw [loggedDeclaration, declaration, ← Source.erase_loggedDeclaration]
  simp only [Logged.erase]
  rcases (h.source s.registry).loggedDeclaration.run s.stage with ⟨log, e | ⟨⟨⟩, stage⟩⟩ <;> rfl

/-- What is taken over was in sight. -/
theorem named_commit {stage : Stage} (hs : s.registry.flat.Named)
    (hstage : ((h.source s.registry).sight stage).Named) :
    (h.commit s stage).registry.flat.Named := by
  rw [commit]
  dsimp only
  split
  · change (s.registry.insertAll h.file stage.staged.reverse).flat.Named
    rw [Registry.flat_insertAll, List.foldl_reverse]
    exact hstage
  · exact hs

theorem tells_loggedDeclaration (hs : s.Idle) (hnamed : s.registry.flat.Named) :
    Tells (fun r => r.flat.Named) Invention.Fresh (h.loggedDeclaration s) := by
  have hsight : (h.source s.registry).sight s.stage = s.registry.flat := by
    rw [Source.sight, hs.1]
    rfl
  obtain ⟨hlog, hend⟩ := inventive_loggedDeclaration s.stage (hsight ▸ hnamed)
  have hidle : (h.loggedDeclaration s).1.Idle := by
    rw [loggedDeclaration_fst]
    exact idle_declaration hs
  suffices hresult : (h.loggedDeclaration s).1.registry.flat.Named ∧
      ∀ i ∈ (h.loggedDeclaration s).2, i.Fresh from ⟨⟨hidle, hresult.1⟩, hresult.2⟩
  rw [loggedDeclaration]
  rcases hrun : (h.source s.registry).loggedDeclaration.run s.stage with ⟨log, result⟩
  rw [hrun] at hlog hend
  cases result with
  | error e => exact ⟨hnamed, hlog⟩
  | ok r => exact ⟨named_commit hnamed (hend r.1 r.2 rfl), hlog⟩

end HeaderText

/-- The registry with the definitions of a header, the report of its reading, and the names that are
invented on the way. -/
def Grammar.loggedParseFile (g : Grammar) (registry : Registry) (file : String)
    (packing : PackingLog) (text : String) : (Registry × ParseReport) × List Invention :=
  g.parseFileWith registry file packing text HeaderText.loggedDeclaration

/-- **Aggregates without a name overwrite nothing.** A header is read with a log of the names that
are invented, in all its declarations, those that are dropped included, and on all ways that are
given up; let every aggregate in the registry have its type name.

* The reading is the usual one, and every aggregate has its type name behind it.
* At its moment each name in the log is no aggregate of its kind and, with its keyword, no type
  name, neither in the registry nor among the staged definitions.
* The search for a number ends in any case, at the first number that is free. -/
theorem parseFile_inventions (g : Grammar) (registry : Registry) (file : String)
    (packing : PackingLog) (text : String) (hnamed : registry.flat.Named) :
    let result := g.loggedParseFile registry file packing text
    result.1 = g.parseFile registry file packing text ∧ result.1.1.flat.Named ∧
      (∀ i ∈ result.2, i.Fresh) ∧
      ∀ (src : Source) (s : Stage) (k : TagKind),
        ∃ n, src.anonymousName k.keyword s = .ok (anonymousText k.keyword n, s) ∧
          ¬ src.Taken s k n ∧ ∀ m < n, src.Taken s k m := by
  have hrecord : (g.loggedParseFile registry file packing text).1.1.flat.Named ∧
      ∀ i ∈ (g.loggedParseFile registry file packing text).2, i.Fresh :=
    Grammar.forall_mem_parseFileWith (R := fun r => r.flat.Named)
      (fun _ hs hnamed => HeaderText.tells_loggedDeclaration hs hnamed) hnamed
  refine ⟨Grammar.parseFileWith_fst fun h s => h.loggedDeclaration_fst s, hrecord.1, hrecord.2, ?_⟩
  exact anonymousName_search

/-- Unnamed aggregates inside another and beside it, one in a declaration that is dropped, and one
in a parameter of what turns out to be no declaration. -/
def unnamedText : String :=
  "struct \x7b struct \x7b int a; \x7d p; union \x7b int b; \x7d q; \x7d x;\n" ++
    "enum \x7b E = y \x7d e; enum \x7b F \x7d f;\n" ++
    "struct s \x7b g(struct \x7b int a; \x7d v); \x7d;"

/-- A registry with the first name for a structure. -/
def unnamedBefore : Registry :=
  (Registry.empty.insert none "anon_struct0" ⟨.structs, .empty⟩).insert none "struct anon_struct0"
    ⟨.types, .named "struct anon_struct0"⟩

theorem named_unnamedBefore : unnamedBefore.flat.Named := by
  have hempty : Definitions.empty.Named := by
    intro k name h
    cases k <;> cases h
  exact hempty.insertAggregate (k := .struct) rfl

theorem parseFile_inventions_unnamedText :
    let result := Grammar.standard.loggedParseFile unnamedBefore "a.h" .initial unnamedText
    unnamedBefore.flat.Named ∧
      result.2.map (·.name) = ["anon_struct1", "anon_union0", "anon_struct2", "anon_enum0",
        "anon_enum0", "anon_struct3"] ∧
      result.1 = Grammar.standard.parseFile unnamedBefore "a.h" .initial unnamedText ∧
      result.1.1.flat.Named ∧ ∀ i ∈ result.2, i.Fresh := by
  obtain ⟨hresult, hafter, hlog, -⟩ :=
    parseFile_inventions .standard unnamedBefore "a.h" .initial unnamedText named_unnamedBefore
  exact ⟨named_unnamedBefore, by decide +kernel, hresult, hafter, hlog⟩

end CInterface
