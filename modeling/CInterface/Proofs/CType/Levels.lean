import CInterface.Proofs.Json.Contents
import Mathlib.Data.List.ModifyLast
/-!
# The levels of a type

A type has one level of qualifiers for its base and one for each layer around it, and the parameters
of its parameter lists are types again.

* `CType.levels` — the qualifiers level by level; `CType.length_levels` says how many levels.
* `CType.levels_addOuter`, `CType.levels_splice`, … — the levels of what the operations give.
* `CType.withLayers_parts` — a type that is put together has the lists that it is put together of.
* `CType.Within` — a type stands in another, at any depth of the parameter lists.
-/

namespace CInterface

/-- The parameters of a layer. -/
def Layer.params : Layer → List Param
  | function params _ => params
  | pointer | reference | array _ => []

namespace CType

/-! ### Levels and parameters -/

/-- The qualifiers of a type level by level, those of the base first. -/
def levels (t : CType) : List Qualifiers := t.baseQuals :: t.layerQuals

/-- The parameters of a type, in all its parameter lists from the base outward. -/
def params : CType → List Param
  | .base _ _ => []
  | .pointer t _ | .reference t _ | .array t _ _ => params t
  | .function t ps _ _ => params t ++ ps

/-- There is one level more than there are layers. -/
theorem length_levels (t : CType) : t.levels.length = t.layers.length + 1 := by
  rw [levels, List.length_cons, length_layerQuals]

/-- The outermost level takes in the qualifiers that are added; the others stay. -/
theorem levels_addOuter (t : CType) (more : Qualifiers) :
    (t.addOuter more).levels = t.levels.modifyLast (·.union more) := by
  cases t with
  | base n q => rfl
  | pointer t q | reference t q | array t n q | function t ps v q =>
    exact (List.modifyLast_concat (·.union more) q t.levels).symm

theorem getLast?_levels (t : CType) : t.levels.getLast? = some t.outer := by
  cases t with
  | base n q => rfl
  | pointer t q | reference t q | array t n q | function t ps v q =>
    exact List.getLast?_concat (l := t.levels) (a := q)

/-- **A splice joins two lists of levels.** The base of the one type is the outermost layer of the
other, so their qualifiers share a level. -/
theorem levels_splice (onto t : CType) :
    (splice onto t).levels = onto.levels.modifyLast (·.union t.baseQuals) ++ t.layerQuals := by
  induction t using splice.induct with
  | case1 n q => exact (levels_addOuter onto q).trans (List.append_nil _).symm
  | case2 t q ih | case3 t q ih | case4 t n q ih | case5 t ps v q ih =>
    show (splice onto t).levels ++ [q]
      = onto.levels.modifyLast (·.union t.baseQuals) ++ (t.layerQuals ++ [q])
    rw [ih, List.append_assoc]

theorem levels_withBase (name : String) (t : CType) : (t.withBase name).levels = t.levels := by
  induction t using withBase.induct with
  | case1 => rfl
  | case2 t q ih | case3 t q ih | case4 t n q ih | case5 t ps v q ih =>
    show (t.withBase name).levels ++ [q] = t.levels ++ [q]
    rw [ih]

/-! ### Layers and levels as lists -/

/-- A type with layers around it has them, their qualifiers and their parameters. -/
theorem withLayers_parts {ls : List Layer} {qs : List Qualifiers} (h : ls.length = qs.length)
    (t : CType) :
    (t.withLayers ls qs).layers = t.layers ++ ls ∧
      (t.withLayers ls qs).levels = t.levels ++ qs ∧
      (t.withLayers ls qs).params = t.params ++ ls.flatMap Layer.params := by
  induction ls generalizing qs t with
  | nil =>
    obtain rfl := List.eq_nil_of_length_eq_zero h.symm
    simp [withLayers]
  | cons l ls ih =>
    cases qs with
    | nil => cases h
    | cons q qs =>
      have hone : (t.withLayer l q).layers = t.layers ++ [l] ∧
          (t.withLayer l q).levels = t.levels ++ [q] ∧
          (t.withLayer l q).params = t.params ++ l.params := by
        cases l <;> simp [withLayer, layers, levels, baseQuals, layerQuals, params, Layer.params]
      obtain ⟨hlayers, hlevels, hparams⟩ := ih (Nat.succ.inj h) (t.withLayer l q)
      rw [hone.1, List.append_assoc] at hlayers
      rw [hone.2.1, List.append_assoc] at hlevels
      rw [hone.2.2, List.append_assoc] at hparams
      exact ⟨hlayers, hlevels, hparams⟩

theorem baseName_withLayers (ls : List Layer) (qs : List Qualifiers) (t : CType) :
    (t.withLayers ls qs).baseName = t.baseName := by
  have hzip : ∀ (zs : List (Layer × Qualifiers)) (t : CType),
      (zs.foldl (fun t l => t.withLayer l.1 l.2) t).baseName = t.baseName := by
    intro zs
    induction zs with
    | nil => exact fun t => rfl
    | cons z zs ih =>
      intro t
      rw [List.foldl_cons, ih]
      cases z.1 <;> rfl
  exact hzip (ls.zip qs) t

/-! ### Types within types -/

/-- The type stands in the other: it is the other, or stands in the type of a parameter. -/
inductive Within (s : CType) : CType → Prop where
  | refl : Within s s
  | param {t : CType} {p : Param} (hp : p ∈ t.params) (h : Within s p.type) : Within s t

end CType

end CInterface
