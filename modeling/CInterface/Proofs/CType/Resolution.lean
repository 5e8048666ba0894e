import CInterface.CType.Resolve
/-!
# Following typedef names

Resolving a type follows a table of typedefs from name to name. Which way the names go, and where
they end, can be said without types and without the loop that resolves them.

* `CType.follow?`, `CType.Passes` — the name behind a name, and the names on the way to another.
* `CType.resolve_induction` — what every step to a fundamental type carries on.
* `CType.resolveWithin` — resolving, cut off after some number of steps.
* `CType.resolve_follows` — resolving ends in as many steps as the table has names and one more, and
  what it gives is said by the names that are passed: a fundamental type, a name without definition,
  or a name for the second time.

The vocabulary has to hold `int`, which is what a lone `signed` becomes, and `signed` must not be a
word of a tag: it would be dropped there as well, and the tag would be another one.
-/

namespace CInterface

open Text

/-! ### Words -/

namespace Text

/-- A run of characters without blanks. -/
def IsWord (w : List Char) : Prop := w ≠ [] ∧ ∀ c ∈ w, isBlank c = false

theorem wordsFrom_append {w : List Char} (hw : ∀ c ∈ w, isBlank c = false)
    (run rest : List Char) : wordsFrom run (w ++ rest) = wordsFrom (w.reverse ++ run) rest := by
  induction w generalizing run with
  | nil => rfl
  | cons c w ih =>
    have hc : isBlank c = false := hw c List.mem_cons_self
    rw [List.cons_append, wordsFrom, hc, if_neg Bool.false_ne_true,
      ih fun d hd => hw d (List.mem_cons_of_mem c hd)]
    simp

/-- Words with a space between any two are cut into these words. -/
theorem words_joinWith {ws : List (List Char)} (h : ∀ w ∈ ws, IsWord w) :
    words (joinWith [' '] ws) = ws := by
  induction ws with
  | nil => rfl
  | cons w ws ih =>
    obtain ⟨hne, hw⟩ := h w List.mem_cons_self
    have hrun : w.reverse.isEmpty = false := by simpa using hne
    cases ws with
    | nil =>
      have hstep := wordsFrom_append hw [] []
      rw [List.append_nil, List.append_nil, wordsFrom, hrun, if_neg Bool.false_ne_true,
        List.reverse_reverse] at hstep
      rw [joinWith, List.intercalate_singleton]
      exact hstep
    | cons v ws =>
      have hrest := ih fun u hu => h u (List.mem_cons_of_mem w hu)
      rw [joinWith, List.intercalate_cons_cons, List.append_assoc, List.singleton_append, words,
        wordsFrom_append hw, List.append_nil, wordsFrom, if_pos (by decide), hrun,
        if_neg Bool.false_ne_true, List.reverse_reverse]
      exact congrArg (w :: ·) hrest

theorem isWord_of_mem_wordsFrom {cs run w : List Char} (hrun : ∀ c ∈ run, isBlank c = false)
    (hw : w ∈ wordsFrom run cs) : IsWord w := by
  have hreverse : run.isEmpty = false → IsWord run.reverse := by
    intro hne
    exact ⟨by simpa using hne, fun c hc => hrun c (List.mem_reverse.1 hc)⟩
  induction cs generalizing run with
  | nil =>
    rw [wordsFrom] at hw
    by_cases hne : run.isEmpty = true
    · rw [if_pos hne] at hw
      cases hw
    · rw [if_neg hne, List.mem_singleton] at hw
      exact hw ▸ hreverse (by simpa using hne)
  | cons c r ih =>
    have hnil : ∀ d ∈ ([] : List Char), isBlank d = false := by simp
    rw [wordsFrom] at hw
    by_cases hc : isBlank c = true
    · rw [if_pos hc] at hw
      by_cases hne : run.isEmpty = true
      · rw [if_pos hne] at hw
        exact ih hnil hw (by simp)
      · rw [if_neg hne] at hw
        rcases List.mem_cons.1 hw with rfl | hw
        · exact hreverse (by simpa using hne)
        · exact ih hnil hw (by simp)
    · rw [if_neg hc] at hw
      have hcons : ∀ d ∈ c :: run, isBlank d = false := by
        intro d hd
        rcases List.mem_cons.1 hd with rfl | hd
        · simpa using hc
        · exact hrun d hd
      refine ih hcons hw fun _ => ⟨by simp, fun d hd => hcons d (List.mem_reverse.1 hd)⟩

theorem isWord_of_mem_words {cs w : List Char} (hw : w ∈ words cs) : IsWord w :=
  isWord_of_mem_wordsFrom (by simp) hw

end Text

namespace CType

variable {typedefs : OrderedMap CType} {vocab : Vocabulary}

/-! ### Dropping `signed` -/

/-- Words of a name with a space between any two make a name with these words. -/
theorem nameWords_intercalate {name : String} {ws : List String}
    (h : ∀ w ∈ ws, w ∈ nameWords name) : nameWords (" ".intercalate ws) = ws := by
  have hword : ∀ w ∈ ws.map String.toList, IsWord w := by
    intro w hw
    obtain ⟨s, hs, rfl⟩ := List.mem_map.1 hw
    obtain ⟨u, hu, rfl⟩ := List.mem_map.1 (h s hs)
    rw [String.toList_ofList]
    exact isWord_of_mem_words hu
  rw [nameWords, String.toList_intercalate]
  show (words (joinWith [' '] (ws.map String.toList))).map String.ofList = ws
  rw [words_joinWith hword, List.map_map]
  simp [Function.comp_def]

@[simp] theorem baseName_withBase (name : String) (t : CType) :
    (t.withBase name).baseName = name := by
  induction t using withBase.induct with
  | case1 n q => rfl
  | case2 t q ih | case3 t q ih | case4 t n q ih | case5 t ps v q ih => exact ih

/-- Dropping `signed` is a matter of the base alone. -/
theorem baseName_stripSigned (t : CType) :
    t.stripSigned.baseName = (named t.baseName).stripSigned.baseName := by
  rw [stripSigned, stripSigned]
  show (if _ then _ else t).baseName = (if _ then _ else named t.baseName).baseName
  rw [apply_ite baseName, apply_ite baseName, baseName_withBase, baseName_withBase]
  rfl

theorem stripSigned_eq_self {t : CType}
    (h : "signed" ∉ nameWords t.baseName ∨ "char" ∈ nameWords t.baseName) : t.stripSigned = t := by
  have hcond : ((nameWords t.baseName).contains "signed" &&
      !(nameWords t.baseName).contains "char") = false := by
    simp only [Bool.and_eq_false_iff, Bool.not_eq_false', List.contains_iff_mem]
    exact h.imp (fun hnone => by simpa using hnone) id
  rw [stripSigned]
  simp only [hcond]
  rfl

/-- Dropping `signed` keeps a type, or leaves it with the other words of its base, or with `int` if
there are no others. -/
theorem stripSigned_cases (t : CType) :
    t.stripSigned = t ∨
      "signed" ∈ nameWords t.baseName ∧ ∃ base, t.stripSigned = t.withBase base ∧
        nameWords base ≠ [] ∧ "signed" ∉ nameWords base ∧
        ∀ w ∈ nameWords base, w = "int" ∨ w ∈ nameWords t.baseName := by
  by_cases hkeep : "signed" ∉ nameWords t.baseName ∨ "char" ∈ nameWords t.baseName
  · exact .inl (stripSigned_eq_self hkeep)
  · obtain ⟨hsigned, hchar⟩ := not_or.1 hkeep
    have hsigned := Decidable.not_not.1 hsigned
    refine .inr ⟨hsigned, ?_⟩
    have hcond : ((nameWords t.baseName).contains "signed" &&
        !(nameWords t.baseName).contains "char") = true := by
      simp [hsigned, hchar]
    rw [stripSigned]
    simp only [hcond, if_true]
    refine ⟨_, rfl, ?_⟩
    generalize hrest : (nameWords t.baseName).filter (· ≠ "signed") = rest
    have hmem : ∀ w ∈ rest, w ∈ nameWords t.baseName ∧ w ≠ "signed" := by
      intro w hw
      rw [← hrest] at hw
      simpa using List.mem_filter.1 hw
    by_cases hempty : rest.isEmpty = true
    · have hint : nameWords "int" = ["int"] := by decide
      rw [if_pos hempty, hint]
      exact ⟨by simp, by decide, fun w hw => .inl (List.mem_singleton.1 hw)⟩
    · rw [if_neg hempty, nameWords_intercalate fun w hw => (hmem w hw).1]
      refine ⟨by simpa using hempty, ?_, fun w hw => .inr (hmem w hw).1⟩
      intro hw
      exact (hmem _ hw).2 rfl

/-- `signed` is dropped once and for all. -/
theorem stripSigned_stripSigned (t : CType) : t.stripSigned.stripSigned = t.stripSigned := by
  rcases stripSigned_cases t with hsame | ⟨-, base, hstrip, -, hnone, -⟩
  · rw [hsame, hsame]
  · rw [hstrip]
    exact stripSigned_eq_self (.inl (by rwa [baseName_withBase]))

theorem isFundamental_of_words {t : CType} (hne : nameWords t.baseName ≠ [])
    (hwords : ∀ w ∈ nameWords t.baseName, vocab.contains w = true) :
    t.isFundamental vocab = true := by
  have hempty : (nameWords t.baseName).isEmpty = false := by simpa using hne
  rw [isFundamental, hempty, List.all_eq_true.2 hwords]
  exact Bool.or_true _

theorem contains_of_isFundamental {t : CType} (ht : t.isFundamental vocab = true)
    (htag : t.isTagged = false) : ∀ w ∈ nameWords t.baseName, vocab.contains w = true := by
  rw [isFundamental, htag, Bool.false_or, Bool.and_eq_true] at ht
  exact List.all_eq_true.1 ht.2

/-- A fundamental type stays fundamental without `signed`. -/
theorem isFundamental_stripSigned {t : CType} (ht : t.isFundamental vocab = true)
    (hint : vocab.contains "int" = true)
    (htag : t.isTagged = true → "signed" ∉ nameWords t.baseName) :
    t.stripSigned.isFundamental vocab = true := by
  rcases stripSigned_cases t with hsame | ⟨hsigned, base, hstrip, hne, -, hwords⟩
  · rwa [hsame]
  · have htagged : t.isTagged = false := by
      cases h : t.isTagged with
      | false => rfl
      | true => exact absurd hsigned (htag h)
    rw [hstrip]
    refine isFundamental_of_words (by rwa [baseName_withBase]) ?_
    rw [baseName_withBase]
    intro w hw
    rcases hwords w hw with rfl | hmem
    · exact hint
    · exact contains_of_isFundamental ht htagged w hmem

/-! ### Names behind names -/

/-- The name at the base of the definition of a name. Nothing stands behind a fundamental name, nor
behind a name without definition. -/
def follow? (typedefs : OrderedMap CType) (vocab : Vocabulary) (name : String) : Option String :=
  if (named name).isFundamental vocab then none else (typedefs.get? name).map baseName

/-- From `name` the table leads to `last`, and the names on the way are `chain`, with `name` as its
first. -/
inductive Passes (typedefs : OrderedMap CType) (vocab : Vocabulary) :
    String → List String → String → Prop where
  | here (name : String) : Passes typedefs vocab name [] name
  | there {name next last : String} {chain : List String}
      (hnext : follow? typedefs vocab name = some next)
      (hrest : Passes typedefs vocab next chain last) :
      Passes typedefs vocab name (name :: chain) last

theorem follow?_eq_some {name next : String} (h : follow? typedefs vocab name = some next) :
    (named name).isFundamental vocab = false ∧
      ∃ definition, typedefs.get? name = some definition ∧ definition.baseName = next := by
  rw [follow?] at h
  by_cases hf : (named name).isFundamental vocab = true
  · rw [if_pos hf] at h
    cases h
  · rw [if_neg hf] at h
    obtain ⟨definition, hget, hbase⟩ := Option.map_eq_some_iff.1 h
    exact ⟨by simpa using hf, definition, hget, hbase⟩

theorem follow?_of_fundamental {name : String} (h : (named name).isFundamental vocab = true) :
    follow? typedefs vocab name = none := by
  rw [follow?, if_pos h]

theorem follow?_of_get?_none {name : String} (h : typedefs.get? name = none) :
    follow? typedefs vocab name = none := by
  rw [follow?, h, Option.map_none, ite_self]

theorem follow?_of_get? {name : String} {definition : CType}
    (hf : (named name).isFundamental vocab = false) (hget : typedefs.get? name = some definition) :
    follow? typedefs vocab name = some definition.baseName := by
  rw [follow?, hf, if_neg Bool.false_ne_true, hget, Option.map_some]

namespace Passes

variable {name last : String} {chain : List String}

/-- Something stands behind every name on the way. -/
theorem follow?_ne_none (h : Passes typedefs vocab name chain last) :
    ∀ n ∈ chain, follow? typedefs vocab n ≠ none := by
  induction h with
  | here name => simp
  | there hnext hrest ih =>
    intro n hn
    rcases List.mem_cons.1 hn with rfl | hn
    · rw [hnext]
      exact Option.some_ne_none _
    · exact ih n hn

/-- The way from any name that is passed is the rest of the way. -/
theorem suffix (h : Passes typedefs vocab name chain last) {n : String} (hn : n ∈ chain) :
    ∃ before after, chain = before ++ n :: after ∧ Passes typedefs vocab n (n :: after) last := by
  induction h with
  | here name => cases hn
  | @there name next last chain hnext hrest ih =>
    by_cases hname : n = name
    · subst hname
      exact ⟨[], chain, rfl, .there hnext hrest⟩
    · have hmem : n ∈ chain := (List.mem_cons.1 hn).resolve_left hname
      obtain ⟨before, after, rfl, hafter⟩ := ih hmem
      exact ⟨name :: before, after, rfl, hafter⟩

/-- From a name there is one way to where the table ends. -/
theorem chain_unique {chain' : List String} {last' : String}
    (h : Passes typedefs vocab name chain last) (hend : follow? typedefs vocab last = none)
    (h' : Passes typedefs vocab name chain' last') (hend' : follow? typedefs vocab last' = none) :
    chain = chain' ∧ last = last' := by
  induction h generalizing chain' with
  | here name =>
    cases h' with
    | here => exact ⟨rfl, rfl⟩
    | there hnext hrest =>
      rw [hend] at hnext
      cases hnext
  | @there name next last chain hnext hrest ih =>
    cases h' with
    | here =>
      rw [hend'] at hnext
      cases hnext
    | there hnext' hrest' =>
      rw [hnext] at hnext'
      cases hnext'
      obtain ⟨rfl, rfl⟩ := ih hend hrest'
      exact ⟨rfl, rfl⟩

/-- A way to where the table ends passes no name twice: it would go round for ever. -/
theorem nodup_of_end (h : Passes typedefs vocab name chain last)
    (hend : follow? typedefs vocab last = none) : (chain ++ [last]).Nodup := by
  induction h with
  | here name => simp
  | @there name next last chain hnext hrest ih =>
    have hrepeat : name ∉ chain := by
      intro hmem
      obtain ⟨before, after, hchain, hafter⟩ := hrest.suffix hmem
      have hsame := (hafter.chain_unique hend (.there hnext hrest) hend).1
      have hlength := congrArg List.length hsame
      rw [hchain] at hlength
      simp only [List.length_cons, List.length_append] at hlength
      omega
    have hlast : name ≠ last := by
      intro heq
      rw [heq, hend] at hnext
      cases hnext
    rw [List.cons_append, List.nodup_cons]
    refine ⟨?_, ih hend⟩
    simp [hrepeat, hlast]

/-- The names that are reached are bases of the table. -/
theorem last_mem (h : Passes typedefs vocab name chain last) :
    last = name ∨ ∃ u ∈ typedefs.values, u.baseName = last := by
  induction h with
  | here name => exact .inl rfl
  | there hnext hrest ih =>
    obtain ⟨-, definition, hget, hbase⟩ := follow?_eq_some hnext
    refine .inr (ih.elim (fun hlast => ?_) id)
    exact ⟨definition, OrderedMap.mem_values_of_get? hget, hbase.trans hlast.symm⟩

end Passes

/-! ### Resolving -/

/-- Resolving, cut off after some steps: each step looks at one name. -/
def resolveWithin (typedefs : OrderedMap CType) (vocab : Vocabulary) :
    Nat → List String → CType → Option (Except TypeError CType)
  | 0, _, _ => none
  | steps + 1, chain, t =>
    if t.isFundamental vocab then some (.ok t.stripSigned)
    else if t.baseName ∈ chain then some (.error (.recursive (chain ++ [t.baseName])))
    else match typedefs.get? t.baseName with
      | none => some (.error (.unresolved t.baseName chain))
      | some definition =>
        resolveWithin typedefs vocab steps (chain ++ [t.baseName]) (splice definition t)

variable {t : CType} {chain : List String}

theorem resolveFrom_of_fundamental (ht : t.isFundamental vocab = true) :
    resolveFrom typedefs vocab chain t = .ok t.stripSigned := by
  rw [resolveFrom, if_pos ht]

theorem resolveFrom_of_mem (ht : t.isFundamental vocab = false) (hc : t.baseName ∈ chain) :
    resolveFrom typedefs vocab chain t = .error (.recursive (chain ++ [t.baseName])) := by
  rw [resolveFrom, ht, if_neg Bool.false_ne_true, dif_pos hc]

theorem resolveFrom_of_get?_none (ht : t.isFundamental vocab = false) (hc : t.baseName ∉ chain)
    (hget : typedefs.get? t.baseName = none) :
    resolveFrom typedefs vocab chain t = .error (.unresolved t.baseName chain) := by
  rw [resolveFrom, ht, if_neg Bool.false_ne_true, dif_neg hc]
  split
  · rfl
  · rename_i heq
    cases hget.symm.trans heq

theorem resolveFrom_of_get? {definition : CType} (ht : t.isFundamental vocab = false)
    (hc : t.baseName ∉ chain) (hget : typedefs.get? t.baseName = some definition) :
    resolveFrom typedefs vocab chain t =
      resolveFrom typedefs vocab (chain ++ [t.baseName]) (splice definition t) := by
  rw [resolveFrom, ht, if_neg Bool.false_ne_true, dif_neg hc]
  split
  · rename_i heq
    cases hget.symm.trans heq
  · rename_i heq
    cases hget.symm.trans heq
    rfl

/-- A name is looked up once if its definition is fundamental. -/
theorem resolve_of_get? {definition : CType} (ht : t.isFundamental vocab = false)
    (hget : typedefs.get? t.baseName = some definition)
    (hd : (splice definition t).isFundamental vocab = true) :
    t.resolve typedefs vocab = .ok (splice definition t).stripSigned := by
  rw [resolve, resolveFrom_of_get? ht List.not_mem_nil hget, resolveFrom_of_fundamental hd]

/-- **Resolving step by step.** What holds of fundamental types, and of any other type if it holds
with the definition of its base spliced in, holds wherever resolving succeeds. -/
theorem resolve_induction {motive : CType → CType → Prop}
    (fundamental : ∀ t : CType, t.isFundamental vocab = true → motive t t.stripSigned)
    (synonym : ∀ t d r : CType, t.isFundamental vocab = false →
      typedefs.get? t.baseName = some d → motive (splice d t) r → motive t r)
    {r : CType} (h : t.resolve typedefs vocab = .ok r) : motive t r := by
  rw [resolve] at h
  generalize [] = chain at h
  induction chain, t using resolveFrom.induct typedefs vocab with
  | case1 chain t hf =>
    rw [resolveFrom_of_fundamental hf] at h
    cases h
    exact fundamental t hf
  | case2 chain t hf hc =>
    rw [resolveFrom_of_mem (Bool.eq_false_iff.2 hf) hc] at h
    cases h
  | case3 chain t hf hc hget =>
    rw [resolveFrom_of_get?_none (Bool.eq_false_iff.2 hf) hc hget] at h
    cases h
  | case4 chain t hf hc d hget hless ih =>
    rw [resolveFrom_of_get? (Bool.eq_false_iff.2 hf) hc hget] at h
    exact synonym t d r (Bool.eq_false_iff.2 hf) hget (ih h)

/-- Every step takes a name of the table that was not passed before, up to the last. -/
theorem resolveWithin_eq {steps : Nat} (chain : List String) (t : CType)
    (h : (unvisited typedefs chain).length < steps) :
    resolveWithin typedefs vocab steps chain t = some (resolveFrom typedefs vocab chain t) := by
  induction steps generalizing chain t with
  | zero => omega
  | succ steps ih =>
    rw [resolveWithin]
    by_cases ht : t.isFundamental vocab = true
    · rw [if_pos ht, resolveFrom_of_fundamental ht]
    · have ht' : t.isFundamental vocab = false := by simpa using ht
      rw [if_neg ht]
      by_cases hc : t.baseName ∈ chain
      · rw [if_pos hc, resolveFrom_of_mem ht' hc]
      · rw [if_neg hc]
        cases hget : typedefs.get? t.baseName with
        | none => rw [resolveFrom_of_get?_none ht' hc hget]
        | some definition =>
          have hless := unvisited_lt hc hget
          rw [resolveFrom_of_get? ht' hc hget]
          exact ih _ _ (by omega)

/-- Resolving gets to any name that the table leads to without passing a name twice, with the names
on the way as its chain. -/
theorem Passes.resolveFrom_eq {name last : String} {chain : List String}
    (h : Passes typedefs vocab name chain last) (passed : List String)
    (hnodup : (passed ++ chain).Nodup) (t : CType) (ht : t.baseName = name) :
    ∃ u : CType, u.baseName = last ∧
      resolveFrom typedefs vocab passed t = resolveFrom typedefs vocab (passed ++ chain) u := by
  induction h generalizing passed t with
  | here name => exact ⟨t, ht, by rw [List.append_nil]⟩
  | @there name next last chain hnext hrest ih =>
    subst ht
    obtain ⟨hf, definition, hget, hbase⟩ := follow?_eq_some hnext
    have hnew : t.baseName ∉ passed := by
      intro hmem
      exact (List.nodup_append.1 hnodup).2.2 _ hmem _ List.mem_cons_self rfl
    have hnodup' : (passed ++ [t.baseName] ++ chain).Nodup := by simpa using hnodup
    obtain ⟨u, hu, heq⟩ := ih _ hnodup' (splice definition t)
      ((baseName_splice definition t).trans hbase)
    refine ⟨u, hu, ?_⟩
    have hstep := resolveFrom_of_get? (t := t) hf hnew hget
    rw [hstep, heq, List.append_assoc, List.singleton_append]

/-- The table leads from every name to one where resolving ends. -/
theorem exists_passes_end (typedefs : OrderedMap CType) (vocab : Vocabulary) (passed : List String)
    (t : CType) (hpassed : passed.Nodup) :
    ∃ chain last, Passes typedefs vocab t.baseName chain last ∧ (passed ++ chain).Nodup ∧
      ((named last).isFundamental vocab = true ∨ last ∈ passed ++ chain ∨
        typedefs.get? last = none) := by
  induction passed, t using resolveFrom.induct typedefs vocab with
  | case1 passed t hf =>
    exact ⟨[], t.baseName, .here _, by simpa using hpassed, .inl hf⟩
  | case2 passed t hf hc =>
    exact ⟨[], t.baseName, .here _, by simpa using hpassed, .inr (.inl (by simpa using hc))⟩
  | case3 passed t hf hc hget =>
    exact ⟨[], t.baseName, .here _, by simpa using hpassed, .inr (.inr hget)⟩
  | case4 passed t hf hc definition hget hless ih =>
    have hnodup : (passed ++ [t.baseName]).Nodup := by
      rw [List.nodup_append]
      refine ⟨hpassed, by simp, fun a ha b hb hab => hc ?_⟩
      rw [← List.mem_singleton.1 hb, ← hab]
      exact ha
    obtain ⟨chain, last, hpass, hchain, hend⟩ := ih hnodup
    rw [baseName_splice] at hpass
    rw [List.append_assoc, List.singleton_append] at hchain hend
    have hname : (named t.baseName).isFundamental vocab = false := Bool.eq_false_iff.2 hf
    have hfollow := follow?_of_get? hname hget
    exact ⟨t.baseName :: chain, last, .there hfollow hpass, hchain, hend⟩

/-- Where a way ends at a fundamental name, resolving gives a type with that base. -/
theorem Passes.resolve_of_fundamental {last : String}
    (h : Passes typedefs vocab t.baseName chain last)
    (hlast : (named last).isFundamental vocab = true) :
    ∃ u : CType, u.baseName = last ∧ t.resolve typedefs vocab = .ok u.stripSigned := by
  have hnodup := h.nodup_of_end (follow?_of_fundamental hlast)
  obtain ⟨u, rfl, heq⟩ := h.resolveFrom_eq [] (List.nodup_append.1 hnodup).1 t rfl
  exact ⟨u, rfl, heq.trans (resolveFrom_of_fundamental hlast)⟩

/-- Where a way ends at a name without definition, resolving reports it with the names before. -/
theorem Passes.resolve_of_get?_none {last : String}
    (h : Passes typedefs vocab t.baseName chain last)
    (hlast : (named last).isFundamental vocab = false) (hget : typedefs.get? last = none) :
    t.resolve typedefs vocab = .error (.unresolved last chain) := by
  have hnodup := h.nodup_of_end (follow?_of_get?_none hget)
  rw [List.nodup_append] at hnodup
  obtain ⟨u, rfl, heq⟩ := h.resolveFrom_eq [] hnodup.1 t rfl
  have hnew : u.baseName ∉ [] ++ chain := fun hmem => hnodup.2.2 _ hmem _ (by simp) rfl
  exact heq.trans (resolveFrom_of_get?_none hlast hnew hget)

/-- Where a way comes back to one of its names, resolving reports all of it. -/
theorem Passes.resolve_of_mem {last : String}
    (h : Passes typedefs vocab t.baseName chain last) (hchain : chain.Nodup)
    (hmem : last ∈ chain) : t.resolve typedefs vocab = .error (.recursive (chain ++ [last])) := by
  obtain ⟨u, rfl, heq⟩ := h.resolveFrom_eq [] hchain t rfl
  have hlast : u.isFundamental vocab = false := by
    cases hf : u.isFundamental vocab with
    | false => rfl
    | true => exact absurd (follow?_of_fundamental hf) (h.follow?_ne_none _ hmem)
  exact heq.trans (resolveFrom_of_mem hlast hmem)

/-- The one way to the end decides which of the three answers is given. -/
theorem resolve_cases (typedefs : OrderedMap CType) (vocab : Vocabulary) (t : CType) :
    ∃ chain last, Passes typedefs vocab t.baseName chain last ∧
      (((named last).isFundamental vocab = true ∧
          ∃ u : CType, u.baseName = last ∧ t.resolve typedefs vocab = .ok u.stripSigned) ∨
        ((named last).isFundamental vocab = false ∧ typedefs.get? last = none ∧
          t.resolve typedefs vocab = .error (.unresolved last chain)) ∨
        (chain.Nodup ∧ last ∈ chain ∧
          t.resolve typedefs vocab = .error (.recursive (chain ++ [last])))) := by
  obtain ⟨chain, last, hpass, hnodup, hend⟩ := exists_passes_end typedefs vocab [] t List.nodup_nil
  rw [List.nil_append] at hnodup hend
  refine ⟨chain, last, hpass, ?_⟩
  by_cases hf : (named last).isFundamental vocab = true
  · exact .inl ⟨hf, hpass.resolve_of_fundamental hf⟩
  · have hf' : (named last).isFundamental vocab = false := by simpa using hf
    rcases hend.resolve_left hf with hmem | hget
    · exact .inr (.inr ⟨hnodup, hmem, hpass.resolve_of_mem hnodup hmem⟩)
    · exact .inr (.inl ⟨hf', hget, hpass.resolve_of_get?_none hf' hget⟩)

theorem exists_resolve_eq_ok_iff : (∃ r, t.resolve typedefs vocab = .ok r) ↔
    ∃ chain name, Passes typedefs vocab t.baseName chain name ∧ (chain ++ [name]).Nodup ∧
      (named name).isFundamental vocab = true := by
  refine ⟨fun ⟨r, hr⟩ => ?_, fun ⟨chain, name, hpass, _, hf⟩ => ?_⟩
  · obtain ⟨chain, last, hpass, ⟨hf, -⟩ | ⟨-, -, hu⟩ | ⟨-, -, hu⟩⟩ := resolve_cases typedefs vocab t
    · exact ⟨chain, last, hpass, hpass.nodup_of_end (follow?_of_fundamental hf), hf⟩
    · cases hr.symm.trans hu
    · cases hr.symm.trans hu
  · obtain ⟨u, -, hu⟩ := hpass.resolve_of_fundamental hf
    exact ⟨_, hu⟩

theorem resolve_eq_unresolved_iff {name : String} :
    t.resolve typedefs vocab = .error (.unresolved name chain) ↔
      Passes typedefs vocab t.baseName chain name ∧
        (named name).isFundamental vocab = false ∧ typedefs.get? name = none := by
  refine ⟨fun hr => ?_, fun ⟨hpass, hf, hget⟩ => hpass.resolve_of_get?_none hf hget⟩
  obtain ⟨chain, last, hpass, ⟨-, u, -, hu⟩ | ⟨hf, hget, hu⟩ | ⟨-, -, hu⟩⟩ :=
    resolve_cases typedefs vocab t
  · cases hr.symm.trans hu
  · cases hr.symm.trans hu
    exact ⟨hpass, hf, hget⟩
  · cases hr.symm.trans hu

theorem resolve_eq_recursive_iff : t.resolve typedefs vocab = .error (.recursive chain) ↔
    ∃ before name, chain = before ++ [name] ∧ Passes typedefs vocab t.baseName before name ∧
      before.Nodup ∧ name ∈ before := by
  refine ⟨fun hr => ?_, ?_⟩
  · obtain ⟨chain, last, hpass, ⟨-, u, -, hu⟩ | ⟨-, -, hu⟩ | ⟨hnodup, hmem, hu⟩⟩ :=
      resolve_cases typedefs vocab t
    · cases hr.symm.trans hu
    · cases hr.symm.trans hu
    · cases hr.symm.trans hu
      exact ⟨_, last, rfl, hpass, hnodup, hmem⟩
  · rintro ⟨before, name, rfl, hpass, hnodup, hmem⟩
    exact hpass.resolve_of_mem hnodup hmem

theorem error_of_resolve {e : TypeError} (he : t.resolve typedefs vocab = .error e) :
    (∃ name chain, e = .unresolved name chain) ∨ ∃ chain, e = .recursive chain := by
  obtain ⟨chain, last, -, ⟨-, u, -, hu⟩ | ⟨-, -, hu⟩ | ⟨-, -, hu⟩⟩ := resolve_cases typedefs vocab t
  · cases he.symm.trans hu
  · cases he.symm.trans hu
    exact .inl ⟨_, _, rfl⟩
  · cases he.symm.trans hu
    exact .inr ⟨_, rfl⟩

theorem unvisited_nil (typedefs : OrderedMap CType) :
    (unvisited typedefs []).length = typedefs.size := by
  rw [unvisited, List.filter_eq_self.2 (by simp), OrderedMap.keys, List.length_map]
  rfl

/-- **Resolving follows the table.** It ends after at most one step for each name of the table and
one more. It gives a type if and only if the way of the names comes to a fundamental one before a
name is met again; that type has this name as its base, without `signed`, is fundamental, and comes
to itself. It reports an unresolved name if and only if the way comes to a name without definition,
and a recursive one if and only if it comes back, each with the names on the way. -/
theorem resolve_follows (typedefs : OrderedMap CType) (vocab : Vocabulary) (t : CType)
    (hint : vocab.contains "int" = true)
    (hsigned : ∀ u ∈ t :: typedefs.values, u.isTagged = true → "signed" ∉ nameWords u.baseName) :
    resolveWithin typedefs vocab (typedefs.size + 1) [] t = some (t.resolve typedefs vocab) ∧
    ((∃ r, t.resolve typedefs vocab = .ok r) ↔
      ∃ chain name, Passes typedefs vocab t.baseName chain name ∧ (chain ++ [name]).Nodup ∧
        (named name).isFundamental vocab = true) ∧
    (∀ r chain name, t.resolve typedefs vocab = .ok r →
      Passes typedefs vocab t.baseName chain name → (named name).isFundamental vocab = true →
      r.baseName = (named name).stripSigned.baseName ∧ r.isFundamental vocab = true ∧
        r.resolve typedefs vocab = .ok r) ∧
    (∀ chain name, t.resolve typedefs vocab = .error (.unresolved name chain) ↔
      Passes typedefs vocab t.baseName chain name ∧
        (named name).isFundamental vocab = false ∧ typedefs.get? name = none) ∧
    (∀ chain, t.resolve typedefs vocab = .error (.recursive chain) ↔
      ∃ before name, chain = before ++ [name] ∧ Passes typedefs vocab t.baseName before name ∧
        before.Nodup ∧ name ∈ before) ∧
    (∀ e, t.resolve typedefs vocab = .error e →
      (∃ name chain, e = .unresolved name chain) ∨ ∃ chain, e = .recursive chain) := by
  refine ⟨?_, exists_resolve_eq_ok_iff, ?_, fun _ _ => resolve_eq_unresolved_iff,
    fun _ => resolve_eq_recursive_iff, fun _ => error_of_resolve⟩
  · exact resolveWithin_eq [] t (Nat.lt_succ_of_le (Nat.le_of_eq (unvisited_nil typedefs)))
  · intro r chain name hr hpass hf
    have htag : (named name).isTagged = true → "signed" ∉ nameWords name := by
      rcases hpass.last_mem with rfl | ⟨u, hu, rfl⟩
      · exact hsigned t List.mem_cons_self
      · exact hsigned u (List.mem_cons_of_mem t hu)
    obtain ⟨u, rfl, hu⟩ := hpass.resolve_of_fundamental hf
    cases hr.symm.trans hu
    have hfix : u.stripSigned.isFundamental vocab = true := isFundamental_stripSigned hf hint htag
    refine ⟨baseName_stripSigned u, hfix, ?_⟩
    exact (resolveFrom_of_fundamental hfix).trans (by rw [stripSigned_stripSigned])

/-- Typedefs of an array of pointers to a signed type, and of a cycle entered from outside. -/
def sampleTypedefs : OrderedMap CType :=
  .ofList [("A", .pointer (named "signed long") ["const"]), ("B", .array (named "A") (some 4) []),
    ("P", .pointer (named "Q") []), ("Q", named "R"), ("R", .pointer (named "Q") []),
    ("T", named "struct S")]

theorem resolve_sampleTypedefs :
    (Vocabulary.standard.contains "int" = true ∧
      ∀ u ∈ named "B" :: named "P" :: sampleTypedefs.values,
        u.isTagged = true → "signed" ∉ nameWords u.baseName) ∧
    (∃ r, (named "B").resolve sampleTypedefs .standard = .ok r ∧ r.baseName = "long" ∧
      r.resolve sampleTypedefs .standard = .ok r) ∧
    (named "P").resolve sampleTypedefs .standard = .error (.recursive ["P", "Q", "R", "Q"]) := by
  have hint : Vocabulary.standard.contains "int" = true := by decide
  have hsigned : ∀ u ∈ named "B" :: named "P" :: sampleTypedefs.values,
      u.isTagged = true → "signed" ∉ nameWords u.baseName := by decide
  have hfollow : ∀ e ∈ [("B", "A"), ("A", "signed long"), ("P", "Q"), ("Q", "R"), ("R", "Q")],
      follow? sampleTypedefs .standard e.1 = some e.2 := by decide
  have hB : Passes sampleTypedefs .standard "B" ["B", "A"] "signed long" :=
    .there (hfollow ("B", "A") (by simp))
      (.there (hfollow ("A", "signed long") (by simp)) (.here _))
  have hP : Passes sampleTypedefs .standard "P" ["P", "Q", "R"] "Q" :=
    .there (hfollow ("P", "Q") (by simp)) (.there (hfollow ("Q", "R") (by simp))
      (.there (hfollow ("R", "Q") (by simp)) (.here _)))
  have hlong : (named "signed long").isFundamental .standard = true := by decide
  refine ⟨⟨hint, hsigned⟩, ?_, ?_⟩
  · obtain ⟨-, hok, hbase, -⟩ := resolve_follows sampleTypedefs .standard (named "B") hint
      fun u hu => hsigned u (by grind)
    obtain ⟨r, hr⟩ := hok.2 ⟨_, _, hB, by decide, hlong⟩
    obtain ⟨hname, -, hfix⟩ := hbase r _ _ hr hB hlong
    exact ⟨r, hr, hname.trans (by decide), hfix⟩
  · obtain ⟨-, -, -, -, hrecursive, -⟩ := resolve_follows sampleTypedefs .standard (named "P") hint
      fun u hu => hsigned u (by grind)
    exact (hrecursive _).2 ⟨_, _, rfl, hP, by decide, by decide⟩

end CType

end CInterface
