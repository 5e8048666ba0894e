/-!
# Ranges one behind the other

* `Tiles` — ranges that cover all places from one to another, each of them once.
* `Tiles.concat` — one more range behind the others.
* `Tiles.pairwise` — no two of the ranges share a place.
-/

namespace CInterface

/-- Ranges one behind the other from `start` to `stop`, none of them empty. -/
def Tiles (start stop : Nat) : List (Nat × Nat) → Prop
  | [] => start = stop
  | (first, behind) :: rest => first = start ∧ first < behind ∧ Tiles behind stop rest

namespace Tiles

variable {start stop behind : Nat} {ranges : List (Nat × Nat)}

theorem concat (h : Tiles start stop ranges) (hlt : stop < behind) :
    Tiles start behind (ranges ++ [(stop, behind)]) := by
  induction ranges generalizing start with
  | nil =>
    obtain rfl : start = stop := h
    exact ⟨rfl, hlt, rfl⟩
  | cons r ranges ih => exact ⟨h.1, h.2.1, ih h.2.2⟩

theorem le_first {r : Nat × Nat} (h : Tiles start stop ranges) (hr : r ∈ ranges) : start ≤ r.1 := by
  induction ranges generalizing start with
  | nil => cases hr
  | cons q ranges ih =>
    obtain ⟨hfirst, hlt, hrest⟩ := h
    rcases List.mem_cons.1 hr with rfl | hr
    · exact Nat.le_of_eq hfirst.symm
    · have hle := ih hrest hr
      omega

/-- Of two ranges the first ends before the second begins. -/
theorem pairwise (h : Tiles start stop ranges) : ranges.Pairwise fun a b => a.2 ≤ b.1 := by
  induction ranges generalizing start with
  | nil => exact .nil
  | cons r ranges ih => exact .cons (fun b hb => h.2.2.le_first hb) (ih h.2.2)

end Tiles

end CInterface
