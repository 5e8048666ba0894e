import CInterface.Proofs.CType.Qualifiers
import CInterface.Proofs.CType.Resolution
import CInterface.Proofs.Json.Contents
/-!
# Splicing and resolving

To resolve a type is to splice definitions under it, one after the other. Since splices may be
grouped in any way, the type can just as well be set aside, its base name be resolved alone, and the
result be spliced under it at last.

* `CType.splice_assoc` — splices of three types.
* `CType.resolveFrom_splice` — resolving a splice is resolving what is put in.
* `CType.resolve_eq_map_splice` — a type is resolved by its base name alone, and a layer around a
  type stays around what the type resolves to.
-/

namespace CInterface

namespace CType

variable {typedefs : OrderedMap CType} {vocab : Vocabulary}

/-! ### Splicing -/

@[simp] theorem addOuter_nil (t : CType) : t.addOuter [] = t := by
  cases t <;> rfl

theorem addOuter_addOuter (t : CType) (p q : Qualifiers) :
    (t.addOuter p).addOuter q = t.addOuter (p.union q) := by
  cases t <;> simp only [addOuter, Qualifiers.union_assoc]

/-- Qualifiers of the outermost layer can be added before or after a splice. -/
theorem splice_addOuter (onto t : CType) (q : Qualifiers) :
    splice onto (t.addOuter q) = (splice onto t).addOuter q := by
  cases t with
  | base n p => exact (addOuter_addOuter onto p q).symm
  | pointer t p | reference t p | array t n p | function t ps v p => rfl

/-- **Splices may be grouped in any way.** -/
theorem splice_assoc (s t u : CType) : splice (splice s t) u = splice s (splice t u) := by
  induction u using splice.induct with
  | case1 n q => exact (splice_addOuter s t q).symm
  | case2 u q ih | case3 u q ih | case4 u n q ih | case5 u ps v q ih =>
    simp only [splice, ih]

/-- The base name alone can be put in the place of the base. -/
theorem splice_named_baseName {t : CType} (h : t.baseQuals.Nodup) :
    splice (named t.baseName) t = t := by
  induction t using splice.induct with
  | case1 n q => exact congrArg (base n) (Qualifiers.nil_union h)
  | case2 t q ih | case3 t q ih | case4 t n q ih | case5 t ps v q ih =>
    simp only [splice, baseName, ih h]

theorem withBase_splice (name : String) (onto t : CType) :
    (splice onto t).withBase name = splice (onto.withBase name) t := by
  induction t using splice.induct with
  | case1 n q => cases onto <;> rfl
  | case2 t q ih | case3 t q ih | case4 t n q ih | case5 t ps v q ih =>
    simp only [splice, withBase, ih]

/-- Dropping `signed` is a matter of what is put in. -/
theorem stripSigned_splice (onto t : CType) :
    (splice onto t).stripSigned = splice onto.stripSigned t := by
  rw [stripSigned, stripSigned, baseName_splice]
  dsimp only
  split
  · exact withBase_splice _ onto t
  · rfl

theorem isFundamental_splice (onto t : CType) :
    (splice onto t).isFundamental vocab = onto.isFundamental vocab := by
  rw [isFundamental, isFundamental, isTagged, isTagged, baseName_splice]

/-- A layer is put around a type by splicing the type under it. -/
theorem splice_withLayer (t : CType) (name : String) (l : Layer) (q : Qualifiers) :
    splice t ((named name).withLayer l q) = t.withLayer l q := by
  cases l <;> simp only [withLayer, splice, named, addOuter_nil]

/-! ### Resolving -/

/-- **Resolving a splice is resolving what is put in.** -/
theorem resolveFrom_splice (chain : List String) (u t : CType) :
    resolveFrom typedefs vocab chain (splice u t) =
      (resolveFrom typedefs vocab chain u).map (splice · t) := by
  have hname := baseName_splice u t
  have hsame : (splice u t).isFundamental vocab = u.isFundamental vocab := isFundamental_splice u t
  induction chain, u using resolveFrom.induct typedefs vocab with
  | case1 chain u hf =>
    rw [resolveFrom_of_fundamental hf, resolveFrom_of_fundamental (hsame.trans hf),
      stripSigned_splice]
    rfl
  | case2 chain u hf hc =>
    have hf : u.isFundamental vocab = false := by simpa using hf
    rw [resolveFrom_of_mem hf hc, resolveFrom_of_mem (hsame.trans hf) (hname ▸ hc), hname]
    rfl
  | case3 chain u hf hc hget =>
    have hf : u.isFundamental vocab = false := by simpa using hf
    rw [resolveFrom_of_get?_none hf hc hget,
      resolveFrom_of_get?_none (hsame.trans hf) (hname ▸ hc) (hname ▸ hget), hname]
    rfl
  | case4 chain u hf hc definition hget hless ih =>
    have hf : u.isFundamental vocab = false := by simpa using hf
    rw [resolveFrom_of_get? hf hc hget,
      resolveFrom_of_get? (hsame.trans hf) (hname ▸ hc) (hname ▸ hget), hname, ← splice_assoc]
    exact ih (baseName_splice _ t) (isFundamental_splice _ t)

theorem resolve_splice (u t : CType) :
    (splice u t).resolve typedefs vocab = (u.resolve typedefs vocab).map (splice · t) :=
  resolveFrom_splice [] u t

/-- **A type is resolved by its base name alone.** What the name resolves to is spliced under the
type, and where the name does not resolve the error is the same. So a pointer, a reference, an array
or a parameter list around a type stays around what the type resolves to. -/
theorem resolve_eq_map_splice (typedefs : OrderedMap CType) (vocab : Vocabulary) (t : CType)
    (h : t.baseQuals.Nodup) :
    t.resolve typedefs vocab =
        ((named t.baseName).resolve typedefs vocab).map (splice · t) ∧
      ∀ (l : Layer) (q : Qualifiers), (t.withLayer l q).resolve typedefs vocab =
        (t.resolve typedefs vocab).map (·.withLayer l q) := by
  constructor
  · rw [← resolve_splice, splice_named_baseName h]
  · intro l q
    have hlayer : (·.withLayer l q) = fun u => splice u ((named "").withLayer l q) :=
      funext fun u => (splice_withLayer u "" l q).symm
    rw [hlayer, ← resolve_splice, splice_withLayer]

/-- An array of a qualified typedef name, where the name stands for a qualified pointer. -/
theorem resolve_volatile_array :
    (array (base "A" ["volatile"]) (some 2) []).baseQuals.Nodup ∧
      (array (base "A" ["volatile"]) (some 2) []).resolve sampleTypedefs .standard =
        .ok (array (pointer (named "long") ["const", "volatile"]) (some 2) []) ∧
      (pointer (array (base "A" ["volatile"]) (some 2) []) []).resolve sampleTypedefs .standard =
        .ok (pointer (array (pointer (named "long") ["const", "volatile"]) (some 2) []) []) := by
  have hquals : (array (base "A" ["volatile"]) (some 2) []).baseQuals.Nodup := by decide
  have hname : (named "A").resolve sampleTypedefs .standard =
      .ok (pointer (named "long") ["const"]) := by
    have hget : sampleTypedefs.get? "A" = some (pointer (named "signed long") ["const"]) := rfl
    rw [resolve_of_get? (by decide +kernel) hget (by decide +kernel)]
    rfl
  obtain ⟨hresolve, hlayer⟩ := resolve_eq_map_splice sampleTypedefs .standard
    (array (base "A" ["volatile"]) (some 2) []) hquals
  have harray := hresolve.trans (congrArg (Except.map _) hname)
  exact ⟨hquals, harray, (hlayer .pointer []).trans (congrArg (Except.map _) harray)⟩

end CType

end CInterface
