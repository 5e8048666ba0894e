import CInterface.CType
/-!
# The laws of qualifiers

The qualifiers of a level are words in order, and a word is only put behind them if it is not among
them. So joining qualifiers is a union that keeps the order.

* `Qualifiers.mem_union` — the words of a union.
* `Qualifiers.nodup_union`, `Qualifiers.union_eq_append` — no word is repeated, and distinct words
  stay as they are.
* `Qualifiers.union_assoc` — in which order levels are joined does not matter.
-/

namespace CInterface

namespace Qualifiers

variable {qs : Qualifiers}

@[simp] theorem union_nil (qs : Qualifiers) : qs.union [] = qs := rfl

theorem union_cons (qs : Qualifiers) (q : String) (more : Qualifiers) :
    qs.union (q :: more) = (qs.insert q).union more := rfl

theorem insert_of_mem {q : String} (h : q ∈ qs) : qs.insert q = qs := if_pos h

theorem insert_of_not_mem {q : String} (h : q ∉ qs) : qs.insert q = qs ++ [q] := if_neg h

theorem mem_insert {p q : String} : p ∈ qs.insert q ↔ p ∈ qs ∨ p = q := by
  by_cases hq : q ∈ qs
  · rw [insert_of_mem hq]
    exact ⟨.inl, fun h => h.elim id fun heq => heq ▸ hq⟩
  · rw [insert_of_not_mem hq, List.mem_append, List.mem_singleton]

theorem mem_union {p : String} {more : Qualifiers} : p ∈ qs.union more ↔ p ∈ qs ∨ p ∈ more := by
  induction more generalizing qs with
  | nil => simp
  | cons q more ih => rw [union_cons, ih, mem_insert, List.mem_cons, or_assoc]

theorem nodup_insert (h : qs.Nodup) (q : String) : (qs.insert q).Nodup := by
  rw [insert]
  split
  · exact h
  · rename_i hq
    apply List.nodup_append.2
    refine ⟨h, by simp, ?_⟩
    intro a ha b hb hab
    rw [hab, List.mem_singleton.1 hb] at ha
    exact hq ha

/-- Whatever joins qualifiers, none of them is repeated. -/
theorem nodup_union (h : qs.Nodup) (more : Qualifiers) : (qs.union more).Nodup := by
  induction more generalizing qs with
  | nil => exact h
  | cons q more ih => exact ih (nodup_insert h q)

/-- Distinct qualifiers are put one behind the other. -/
theorem union_eq_append {more : Qualifiers} (h : (qs ++ more).Nodup) :
    qs.union more = qs ++ more := by
  induction more generalizing qs with
  | nil => simp
  | cons q more ih =>
    have hq : q ∉ qs := fun hmem =>
      (List.nodup_append.1 h).2.2 q hmem q List.mem_cons_self rfl
    rw [union_cons, insert_of_not_mem hq, ih (by simpa using h)]
    simp

theorem nil_union (h : qs.Nodup) : union [] qs = qs := union_eq_append h

theorem union_insert (qs more : Qualifiers) (q : String) :
    qs.union (more.insert q) = (qs.union more).insert q := by
  by_cases hq : q ∈ more
  · rw [insert_of_mem hq, insert_of_mem (mem_union.2 (.inr hq))]
  · rw [insert_of_not_mem hq, union, union, List.foldl_append]
    rfl

/-- In which order three levels are joined does not matter. -/
theorem union_assoc (p q r : Qualifiers) : (p.union q).union r = p.union (q.union r) := by
  induction r generalizing q with
  | nil => rfl
  | cons x r ih => rw [union_cons, union_cons, ← ih, union_insert]

end Qualifiers

end CInterface
