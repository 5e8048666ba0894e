import CInterface.CType.Resolve
import CInterface.Proofs.CType.Qualifiers
import Mathlib.Data.List.Induction
import Mathlib.Data.List.ModifyLast
/-!
# Types in two lists

A type may as well be kept as its base name with two lists that grow and shrink at their ends: one of
its layers from the base outward, and one of its sets of qualifiers, of which the first is that of the
base. Nothing in such a value says that the second list is longer by one. The operations read and
write the lists by position, and there is no answer where a place outside a list is read or written,
or where lists are put together that do not fit.

* `FlatType` — types in two lists, with `push`, `addOuter?`, `signature?`, `splice?`, `resolve?`, …
* `FlatType.Throughout` — what holds of a type and of the types of its parameters, at any depth.
* `FlatType.Leveled`, `FlatType.Sound` — the lists fit, and no set repeats a qualifier.
* `FlatType.Sound.splice`, `FlatType.Sound.resolve`, … — the operations keep this.
-/

namespace CInterface

/-! ### The lists -/

mutual

/-- A type with its layers and its sets of qualifiers in two lists, from the base outward. -/
structure FlatType where
  base : String
  layers : List FlatLayer
  quals : List Qualifiers

/-- A layer of a type in two lists. -/
inductive FlatLayer where
  | pointer
  | reference
  | array (size : Option UInt64)
  | function (params : List FlatParam) (variadic : Bool)

/-- A parameter with its type in two lists. -/
structure FlatParam where
  name : Option String
  type : FlatType
  default : Option Value

end

/-- The parameters of a layer. -/
def FlatLayer.params : FlatLayer → List FlatParam
  | function params _ => params
  | pointer | reference | array _ => []

/-- A function in two lists, with the qualifiers of its own. -/
structure FlatFunction where
  ret : FlatType
  params : List FlatParam
  variadic : Bool
  quals : Qualifiers

namespace FlatType

/-- The type with a name and no qualifiers. -/
def new (name : String) : FlatType := ⟨name, [], [[]]⟩

/-- The type of some lists, which have to fit. -/
def ofParts? (base : String) (layers : List FlatLayer) (quals : List Qualifiers) :
    Option FlatType :=
  if quals.length = layers.length + 1 then some ⟨base, layers, quals⟩ else none

/-- The type with one more layer, which has no qualifiers yet. -/
def push (f : FlatType) (l : FlatLayer) : FlatType := ⟨f.base, f.layers ++ [l], f.quals ++ [[]]⟩

/-- The type with more qualifiers in the last set. -/
def addOuter? (f : FlatType) (more : Qualifiers) : Option FlatType :=
  if f.quals.length = 0 then none
  else some ⟨f.base, f.layers, f.quals.modifyLast (·.union more)⟩

/-- The type with another name at its base. -/
def withBase (f : FlatType) (name : String) : FlatType := ⟨name, f.layers, f.quals⟩

/-- The base is a tag, or is made of words of the vocabulary alone. -/
def isFundamental (vocab : Vocabulary) (f : FlatType) : Bool :=
  (CType.named f.base).isFundamental vocab

/-- Without a `signed` that changes nothing. -/
def stripSigned (f : FlatType) : FlatType :=
  let words := CType.nameWords f.base
  if words.contains "signed" && !words.contains "char" then
    let rest := words.filter (· ≠ "signed")
    f.withBase (if rest.isEmpty then "int" else " ".intercalate rest)
  else f

/-- The return type, the parameters and whether more may follow them, where the last layer is a
parameter list; the type itself where it is not. The return type has the layers before it, with as
many sets of qualifiers and one more. -/
def signature? (f : FlatType) : Option (Except FlatType (FlatType × List FlatParam × Bool)) :=
  match f.layers.getLast? with
  | some (.function params variadic) =>
    let n := f.layers.length - 1
    if n < f.quals.length then do
      let ret ← ofParts? f.base (f.layers.take n) (f.quals.take (n + 1))
      return .ok (ret, params, variadic)
    else none
  | _ => some (.error f)

/-- The type `onto` in the place of the base of a type, whose first set of qualifiers joins the last
one of `onto`, if there is one. -/
def splice? (onto f : FlatType) : Option FlatType :=
  match f.quals with
  | [] => none
  | inner :: outer =>
    ofParts? onto.base (onto.layers ++ f.layers)
      (onto.quals.modifyLast (·.union inner) ++ outer)

/-- Splices the definitions of typedef names into a type until its base is fundamental; `chain` are
the names passed so far. -/
def resolveFrom? (typedefs : OrderedMap FlatType) (vocab : Vocabulary) (chain : List String)
    (f : FlatType) : Option (Except TypeError FlatType) :=
  if f.isFundamental vocab then some (.ok f.stripSigned)
  else if hc : f.base ∈ chain then some (.error (.recursive (chain ++ [f.base])))
  else match hf : typedefs.get? f.base with
    | none => some (.error (.unresolved f.base chain))
    | some definition => do
      let next ← definition.splice? f
      have := CType.unvisited_lt hc hf
      resolveFrom? typedefs vocab (chain ++ [f.base]) next
  termination_by (CType.unvisited typedefs chain).length

/-- The fundamental type that a type comes to, by a table of typedefs. -/
def resolve? (f : FlatType) (typedefs : OrderedMap FlatType) (vocab : Vocabulary) :
    Option (Except TypeError FlatType) :=
  resolveFrom? typedefs vocab [] f

section Resolving

variable {typedefs : OrderedMap FlatType} {vocab : Vocabulary} {chain : List String}
  {f definition : FlatType}

theorem resolveFrom?_of_fundamental (hf : f.isFundamental vocab) :
    resolveFrom? typedefs vocab chain f = some (.ok f.stripSigned) := by
  rw [resolveFrom?, if_pos hf]

theorem resolveFrom?_of_mem (hf : ¬f.isFundamental vocab) (hc : f.base ∈ chain) :
    resolveFrom? typedefs vocab chain f = some (.error (.recursive (chain ++ [f.base]))) := by
  rw [resolveFrom?, if_neg hf, dif_pos hc]

theorem resolveFrom?_of_get?_none (hf : ¬f.isFundamental vocab) (hc : f.base ∉ chain)
    (hget : typedefs.get? f.base = none) :
    resolveFrom? typedefs vocab chain f = some (.error (.unresolved f.base chain)) := by
  rw [resolveFrom?, if_neg hf, dif_neg hc]
  split
  · rfl
  · rename_i heq
    cases hget.symm.trans heq

theorem resolveFrom?_of_get? (hf : ¬f.isFundamental vocab) (hc : f.base ∉ chain)
    (hget : typedefs.get? f.base = some definition) :
    resolveFrom? typedefs vocab chain f =
      (definition.splice? f).bind (resolveFrom? typedefs vocab (chain ++ [f.base])) := by
  rw [resolveFrom?, if_neg hf, dif_neg hc]
  split
  · rename_i heq
    cases hget.symm.trans heq
  · rename_i heq
    cases hget.symm.trans heq
    rfl

end Resolving

end FlatType

namespace FlatFunction

/-- The function of a type, which has to be that of a function; the type itself where it is not. -/
def ofType? (f : FlatType) : Option (Except FlatType FlatFunction) := do
  let signature ← f.signature?
  return signature.map fun s => ⟨s.1, s.2.1, s.2.2, f.quals.getLast?.getD []⟩

/-- The type of the function. -/
def type? (f : FlatFunction) : Option FlatType :=
  (f.ret.push (.function f.params f.variadic)).addOuter? f.quals

end FlatFunction

/-! ### At any depth -/

namespace FlatType

/-- The property holds of the type, and of the types of its parameters at any depth. -/
inductive Throughout (P : FlatType → Prop) : FlatType → Prop where
  | mk {f : FlatType} (own : P f) (params : ∀ l ∈ f.layers, ∀ p ∈ l.params, Throughout P p.type) :
    Throughout P f

/-- There is one set of qualifiers more than there are layers, here and in the types of the parameters
at any depth. -/
def Leveled (f : FlatType) : Prop := f.Throughout fun g => g.quals.length = g.layers.length + 1

/-- There is one set more, and none repeats a qualifier, at any depth. -/
def Sound (f : FlatType) : Prop :=
  f.Throughout fun g => g.quals.length = g.layers.length + 1 ∧ ∀ q ∈ g.quals, q.Nodup

namespace Throughout

variable {P : FlatType → Prop} {f g : FlatType}

theorem own (hf : f.Throughout P) : P f := by
  cases hf with
  | mk own => exact own

theorem params (hf : f.Throughout P) {l : FlatLayer} (hl : l ∈ f.layers) {p : FlatParam}
    (hp : p ∈ l.params) : p.type.Throughout P := by
  cases hf with
  | mk _ params => exact params l hl p hp

/-- A type with layers of a type that has the property is judged by its own lists. -/
theorem of_subset (hf : f.Throughout P) (hlayers : g.layers ⊆ f.layers) (own : P g) :
    g.Throughout P := .mk own fun _ hl _ hp => hf.params (hlayers hl) hp

end Throughout

/-! ### What the operations keep -/

/-- Of sets of qualifiers without repetition each is still one when the last is changed into one. -/
theorem nodup_modifyLast {quals : List Qualifiers} (h : ∀ q ∈ quals, q.Nodup)
    (more : Qualifiers) : ∀ q ∈ quals.modifyLast (·.union more), q.Nodup := by
  induction quals using List.reverseRecOn with
  | nil => exact h
  | append_singleton before last _ =>
    obtain ⟨hbefore, hlast⟩ := List.forall_mem_append.1 h
    rw [List.modifyLast_concat]
    refine List.forall_mem_append.2 ⟨hbefore, fun q hq => ?_⟩
    rw [List.mem_singleton.1 hq]
    exact Qualifiers.nodup_union (hlast last (List.mem_singleton_self last)) more

theorem length_modifyLast {α : Type} (f : α → α) (xs : List α) :
    (xs.modifyLast f).length = xs.length := by
  induction xs using List.reverseRecOn with
  | nil => rfl
  | append_singleton before last _ =>
    rw [List.modifyLast_concat, List.length_append, List.length_append, List.length_singleton,
      List.length_singleton]

theorem ofParts?_eq_some {base : String} {layers : List FlatLayer} {quals : List Qualifiers}
    {f : FlatType} (h : ofParts? base layers quals = some f) :
    quals.length = layers.length + 1 ∧ f = ⟨base, layers, quals⟩ := by
  unfold ofParts? at h
  split at h
  · rename_i hlength
    exact ⟨hlength, (Option.some.inj h).symm⟩
  · cases h

theorem sound_new (name : String) : (new name).Sound := by
  refine .mk ⟨rfl, fun q hq => ?_⟩ fun l hl => absurd hl List.not_mem_nil
  rw [List.mem_singleton.1 hq]
  exact List.nodup_nil

namespace Sound

variable {f g onto : FlatType}

theorem push (hf : f.Sound) {l : FlatLayer} (hl : ∀ p ∈ l.params, p.type.Sound) :
    (f.push l).Sound := by
  obtain ⟨hlength, hnodup⟩ := hf.own
  refine .mk ⟨?_, ?_⟩ fun k hk p hp => ?_
  · show (f.quals ++ [[]]).length = (f.layers ++ [l]).length + 1
    rw [List.length_append, List.length_append, hlength]
    rfl
  · refine List.forall_mem_append.2 ⟨hnodup, fun q hq => ?_⟩
    rw [List.mem_singleton.1 hq]
    exact List.nodup_nil
  · rcases List.mem_append.1 hk with hk | hk
    · exact hf.params hk hp
    · rw [List.mem_singleton.1 hk] at hp
      exact hl p hp

theorem addOuter {more : Qualifiers} (hf : f.Sound) (h : f.addOuter? more = some g) : g.Sound := by
  obtain ⟨hlength, hnodup⟩ := hf.own
  unfold addOuter? at h
  split at h
  · cases h
  · cases h
    exact hf.of_subset (List.Subset.refl _)
      ⟨(length_modifyLast _ _).trans hlength, nodup_modifyLast hnodup more⟩

theorem withBase (hf : f.Sound) (name : String) : (f.withBase name).Sound :=
  hf.of_subset (List.Subset.refl _) hf.own

theorem stripSigned (hf : f.Sound) : f.stripSigned.Sound := by
  unfold FlatType.stripSigned
  dsimp only
  split
  · exact hf.withBase _
  · exact hf

/-- The return type of a function, and the types of its parameters. -/
theorem signature {ret : FlatType} {params : List FlatParam} {variadic : Bool} (hf : f.Sound)
    (h : f.signature? = some (.ok (ret, params, variadic))) :
    ret.Sound ∧ ∀ p ∈ params, p.type.Sound := by
  obtain ⟨_, hnodup⟩ := hf.own
  unfold signature? at h
  split at h
  · rename_i params' variadic' hlast
    dsimp only at h
    split at h
    · obtain ⟨ret', hret, heq⟩ := Option.bind_eq_some_iff.1 h
      cases heq
      obtain ⟨hlength, rfl⟩ := ofParts?_eq_some hret
      constructor
      · exact hf.of_subset (List.take_subset _ _)
          ⟨hlength, fun q hq => hnodup q (List.mem_of_mem_take hq)⟩
      · exact fun p hp => hf.params (List.mem_of_getLast? hlast) hp
    · cases h
  · cases h

/-- **A splice is sound**: where the lists meet, the qualifiers are joined. -/
theorem splice (honto : onto.Sound) (hf : f.Sound) (h : onto.splice? f = some g) : g.Sound := by
  unfold splice? at h
  split at h
  · cases h
  · rename_i inner outer hquals
    obtain ⟨hlength, rfl⟩ := ofParts?_eq_some h
    have hnodup := hf.own.2
    rw [hquals] at hnodup
    obtain ⟨_, houter⟩ := List.forall_mem_cons.1 hnodup
    refine .mk ⟨hlength, ?_⟩ fun l hl p hp => ?_
    · exact List.forall_mem_append.2 ⟨nodup_modifyLast honto.own.2 inner, houter⟩
    · rcases List.mem_append.1 hl with hl | hl
      · exact honto.params hl hp
      · exact hf.params hl hp

/-- **Resolving keeps types sound**, if those of the table are. -/
theorem resolveFrom {typedefs : OrderedMap FlatType} {vocab : Vocabulary} {chain : List String}
    (htable : ∀ name d, typedefs.get? name = some d → d.Sound) (hf : f.Sound)
    (h : resolveFrom? typedefs vocab chain f = some (.ok g)) : g.Sound := by
  induction chain, f using resolveFrom?.induct typedefs vocab with
  | case1 chain f hfundamental =>
    rw [resolveFrom?_of_fundamental hfundamental] at h
    cases h
    exact hf.stripSigned
  | case2 chain f hfundamental hc =>
    rw [resolveFrom?_of_mem hfundamental hc] at h
    cases h
  | case3 chain f hfundamental hc hget =>
    rw [resolveFrom?_of_get?_none hfundamental hc hget] at h
    cases h
  | case4 chain f hfundamental hc definition hget ih =>
    rw [resolveFrom?_of_get? hfundamental hc hget] at h
    obtain ⟨next, hnext, hrest⟩ := Option.bind_eq_some_iff.1 h
    exact ih next ((htable _ _ hget).splice hf hnext) hrest

end Sound

end FlatType

end CInterface
