import CInterface.Proofs.Macro.Boundaries
import CInterface.Proofs.Macro.Calls
/-!
# Texts with gaps for a word

Two texts that differ only in a word that stands at some places, as one text with gaps there. Where
each gap is a whole word of the text that the one word gives, the text that any other word gives has
the same segments, and its calls have the same arguments.

* `wordPlaces` — where a word stands in a text.
* `fill` — the text of a gapped one, with a word in the gaps.
* `Standing` — the gaps are whole words.
* `Standing.cases` — a gapped text begins with a gap or with a segment that both texts have.
* `callArguments?_fill` — a call has gapped arguments.
-/

namespace CInterface

open Text

/-! ### Words -/

/-- A text that is one word. -/
def isWord : List Char → Bool
  | [] => false
  | c :: r => isWordHead c && r.all isWordTail

variable {c : Char} {w w' u v word rest : List Char} {kind : SegmentKind}

theorem isWordHead_of_ident {r : List Char} (h : (nextSegment c r).1 = .ident) :
    isWordHead c = true := by
  cases hhead : isWordHead c
  · unfold nextSegment at h
    rw [hhead, if_neg Bool.false_ne_true] at h
    split at h
    · cases h
    · split at h
      · cases h
      · split at h <;> cases h
  · rfl

theorem nextSegment_of_isWordHead (h : isWordHead c = true) (r : List Char) :
    nextSegment c r = (.ident, (r.takeWhile isWordTail).length) := by
  have hquote : ¬ (c = '"' || c = '\x27') = true := by
    rw [Bool.or_eq_true, decide_eq_true_eq, decide_eq_true_eq]
    rintro (rfl | rfl) <;> exact absurd h (by decide)
  rw [nextSegment, if_neg hquote, if_pos h]

/-- Behind a word stands nothing that would go on with it. -/
theorem firstSegment_ident :
    FirstSegment .ident w v ↔ isWord w = true ∧ v.head?.any isWordTail = false := by
  cases w with
  | nil => exact ⟨fun h => absurd rfl h.ne_nil, fun h => absurd h.1 Bool.false_ne_true⟩
  | cons c w =>
    rw [isWord, Bool.and_eq_true, and_assoc, ← length_takeWhile_append_eq]
    constructor
    · rintro ⟨_, _, he, hn⟩
      obtain ⟨rfl, rfl⟩ := List.cons.inj he
      have hhead : isWordHead c = true := isWordHead_of_ident (by rw [hn])
      rw [nextSegment_of_isWordHead hhead] at hn
      exact ⟨hhead, (Prod.mk.inj hn).2⟩
    · rintro ⟨hhead, hlength⟩
      refine ⟨c, w, rfl, ?_⟩
      rw [nextSegment_of_isWordHead hhead, hlength]

theorem isWordTail_of_isWord (h : isWord w = true) (hc : c ∈ w) : isWordTail c = true := by
  cases w with
  | nil => cases hc
  | cons d w =>
    rw [isWord, Bool.and_eq_true, List.all_eq_true] at h
    rcases List.mem_cons.1 hc with rfl | hc
    · exact isWordTail_of_isWordHead h.1
    · exact h.2 c hc

theorem isBlank_of_isWordTail (h : isWordTail c = true) : isBlank c = false := by
  rw [Bool.eq_false_iff]
  intro hblank
  have hranges : (decide (c.val ≥ 'A'.val ∧ c.val ≤ 'Z'.val) ||
      (decide (c.val ≥ 'a'.val) && decide (c.val ≤ 'z'.val)) ||
      (decide (c.val ≥ '0'.val) && decide (c.val ≤ '9'.val)) || decide (c = '_')) = true := h
  simp only [Bool.or_eq_true, Bool.and_eq_true, decide_eq_true_eq, UInt32.le_iff_toNat_le,
    ge_iff_le] at hranges
  simp only [isBlank, Bool.or_eq_true, Bool.and_eq_true, decide_eq_true_eq, beq_iff_eq] at hblank
  have hval : c.toNat = c.val.toNat := rfl
  rcases hranges with ((⟨h1, h2⟩ | ⟨h1, h2⟩) | ⟨h1, h2⟩) | rfl
  · simp at h1 h2
    omega
  · simp at h1 h2
    omega
  · simp at h1 h2
    omega
  · exact absurd hblank (by decide)

/-- A text has one first segment. -/
theorem FirstSegment.unique {kind' : SegmentKind} {word' rest' : List Char}
    (h : FirstSegment kind word rest) (h' : FirstSegment kind' word' rest')
    (he : word ++ rest = word' ++ rest') : kind = kind' ∧ word = word' ∧ rest = rest' := by
  obtain ⟨c, w, rfl, hn⟩ := h
  obtain ⟨c', w', rfl, hn'⟩ := h'
  obtain ⟨rfl, htail⟩ : c = c' ∧ w ++ rest = w' ++ rest' := List.cons.inj he
  rw [htail, hn'] at hn
  obtain ⟨rfl, hlength⟩ := Prod.mk.inj hn
  obtain ⟨rfl, rfl⟩ := List.append_inj htail hlength.symm
  exact ⟨rfl, rfl, rfl⟩

/-! ### The places of a word -/

/-- The places, counted from the end of the text, where a word stands outside literals and
numbers. -/
def wordPlaces (word : List Char) (cs : List Char) : List Nat :=
  match cs with
  | [] => []
  | c :: r =>
    let n := (nextSegment c r).2
    let places := wordPlaces word (r.drop n)
    if (nextSegment c r).1 = .ident ∧ c :: r.take n = word then (c :: r).length :: places
    else places
  termination_by cs.length
  decreasing_by simp only [List.length_cons, List.length_drop]; omega

@[simp] theorem wordPlaces_nil (word : List Char) : wordPlaces word [] = [] := by
  rw [wordPlaces]

theorem wordPlaces_append (h : FirstSegment kind word rest) (w : List Char) :
    wordPlaces w (word ++ rest) =
      if kind = .ident ∧ word = w then (word ++ rest).length :: wordPlaces w rest
      else wordPlaces w rest := by
  obtain ⟨c, u, rfl, hn⟩ := h
  rw [List.cons_append, wordPlaces, hn]
  simp only [List.take_left, List.drop_left]

theorem le_of_mem_wordPlaces {cs : List Char} {k : Nat} (h : k ∈ wordPlaces w cs) :
    k ≤ cs.length := by
  induction cs using firstSegment_induction with
  | hnil =>
    rw [wordPlaces_nil] at h
    cases h
  | hsegment kind word rest hfirst ih =>
    rw [wordPlaces_append hfirst] at h
    split at h
    · rcases List.mem_cons.1 h with rfl | h
      · exact Nat.le_refl _
      · exact Nat.le_trans (ih h) (by simp)
    · exact Nat.le_trans (ih h) (by simp)

/-- A place of the text is its beginning or a place behind the first segment. -/
theorem mem_wordPlaces_append (h : FirstSegment kind word rest) {k : Nat}
    (hk : k ∈ wordPlaces w (word ++ rest)) :
    (kind = .ident ∧ word = w ∧ k = (word ++ rest).length) ∨ k ∈ wordPlaces w rest := by
  rw [wordPlaces_append h] at hk
  split at hk
  · rename_i hw
    exact (List.mem_cons.1 hk).imp_left fun hk => ⟨hw.1, hw.2, hk⟩
  · exact Or.inr hk

theorem mem_wordPlaces_of_mem (h : FirstSegment kind word rest) {k : Nat}
    (hk : k ∈ wordPlaces w rest) : k ∈ wordPlaces w (word ++ rest) := by
  rw [wordPlaces_append h]
  split
  · exact List.mem_cons_of_mem _ hk
  · exact hk

/-- The word at the beginning of a text. -/
theorem firstSegment_of_mem_wordPlaces (h : (w ++ v).length ∈ wordPlaces w (w ++ v)) :
    FirstSegment .ident w v := by
  cases hcs : w ++ v with
  | nil =>
    rw [hcs, wordPlaces_nil] at h
    cases h
  | cons c r =>
    obtain ⟨kind, word, rest, he, hfirst⟩ := exists_firstSegment c r
    rw [hcs, he] at h
    rcases mem_wordPlaces_append hfirst h with ⟨rfl, rfl, -⟩ | h
    · rw [List.append_cancel_left (hcs.trans he)]
      exact hfirst
    · have hle := le_of_mem_wordPlaces h
      have hpos := List.length_pos_iff.2 hfirst.ne_nil
      rw [List.length_append] at hle
      omega

theorem append_eq_append_of_length_le {u v word rest : List Char} (h : word ++ rest = u ++ v)
    (hle : word.length ≤ u.length) : ∃ u', u = word ++ u' ∧ rest = u' ++ v := by
  obtain ⟨u', rfl⟩ : word <+: u :=
    List.prefix_of_prefix_length_le ⟨rest, h⟩ (List.prefix_append u v) hle
  rw [List.append_assoc, List.append_cancel_left_eq] at h
  exact ⟨u', rfl, h⟩

/-- A place of a word that ends before the end of a text is a place in the text alone. -/
theorem mem_wordPlaces_of_append (hw : w ≠ []) {k : Nat} (u : List Char)
    (h : k + v.length ∈ wordPlaces w (u ++ v)) (hk : w.length ≤ k) : k ∈ wordPlaces w u := by
  have hpos := List.length_pos_iff.2 hw
  match hu : u with
  | [] =>
    have := le_of_mem_wordPlaces h
    rw [List.nil_append] at this
    omega
  | c :: r =>
    obtain ⟨kind, word, rest, he, hfirst⟩ := exists_firstSegment c (r ++ v)
    rw [List.cons_append, he] at h
    have hword := List.length_pos_iff.2 hfirst.ne_nil
    have hlength := congrArg List.length he
    rw [← List.cons_append, List.length_append, List.length_append] at hlength
    have hle : word.length ≤ (c :: r).length := by
      rcases mem_wordPlaces_append hfirst h with ⟨-, rfl, hlast⟩ | h
      · rw [List.length_append] at hlast
        omega
      · have := le_of_mem_wordPlaces h
        omega
    obtain ⟨u', hu', rfl⟩ := append_eq_append_of_length_le he.symm hle
    have hfirst' : FirstSegment kind word u' := hfirst.beginsLike (BeginsLike.of_append u' v)
    rw [hu']
    rcases mem_wordPlaces_append hfirst h with ⟨rfl, rfl, hlast⟩ | h
    · rw [wordPlaces_append hfirst', if_pos ⟨rfl, rfl⟩]
      have hsame : k = (word ++ u').length := by
        rw [List.length_append] at hlast ⊢
        rw [List.length_append] at hlast
        omega
      rw [hsame]
      exact List.mem_cons_self
    · have hshorter : u'.length < u.length := by
        rw [hu, hu', List.length_append]
        omega
      exact mem_wordPlaces_of_mem hfirst' (mem_wordPlaces_of_append hw u' h hk)
  termination_by u.length
  decreasing_by exact hu ▸ hshorter

/-! ### Gapped texts -/

/-- The text of a gapped one, with the word `w` in the gaps. -/
def fill (w : List Char) (g : List (Option Char)) : List Char := g.flatMap (·.elim w ([·]))

variable {g s : List (Option Char)}

@[simp] theorem fill_nil (w : List Char) : fill w [] = [] := rfl

@[simp] theorem fill_none (w : List Char) (g : List (Option Char)) :
    fill w (none :: g) = w ++ fill w g := rfl

@[simp] theorem fill_some (w : List Char) (c : Char) (g : List (Option Char)) :
    fill w (some c :: g) = c :: fill w g := rfl

@[simp] theorem fill_append (w : List Char) (g g' : List (Option Char)) :
    fill w (g ++ g') = fill w g ++ fill w g' := List.flatMap_append

@[simp] theorem fill_map_some (w u : List Char) : fill w (u.map some) = u := by
  induction u with
  | nil => rfl
  | cons c u ih => rw [List.map_cons, fill_some, ih]

theorem fill_reverse (w : List Char) (g : List (Option Char)) :
    (fill w g).reverse = fill w.reverse g.reverse := by
  induction g with
  | nil => rfl
  | cons o g ih =>
    rw [List.reverse_cons, fill_append, ← ih]
    cases o with
    | none => simp
    | some c => simp

theorem length_fill_le (w : List Char) (h : s <:+ g) : (fill w s).length ≤ (fill w g).length := by
  obtain ⟨g', rfl⟩ := h
  rw [fill_append, List.length_append]
  exact Nat.le_add_left _ _

theorem length_fill_lt (hw : w ≠ []) (h : s <:+ g) (hne : s ≠ g) :
    (fill w s).length < (fill w g).length := by
  obtain ⟨g', rfl⟩ := h
  cases g' with
  | nil => exact absurd rfl hne
  | cons o g' =>
    have hpos := List.length_pos_iff.2 hw
    rw [fill_append, List.length_append]
    cases o with
    | none => rw [fill_none, List.length_append]; omega
    | some c => rw [fill_some, List.length_cons]; omega

/-- Gaps are not in a text that stands before them. -/
theorem suffix_of_map_some_append (u : List Char) (h : none :: s <:+ u.map some ++ g) :
    none :: s <:+ g := by
  induction u with
  | nil => exact h
  | cons c u ih =>
    rw [List.map_cons, List.cons_append, List.suffix_cons_iff] at h
    rcases h with h | h
    · cases h
    · exact ih h

/-- A text that stands before the gaps. -/
theorem exists_map_some_append (h : fill w g = word ++ rest)
    (hgaps : ∀ s, none :: s <:+ g → (fill w (none :: s)).length ≤ rest.length) :
    ∃ g', g = word.map some ++ g' ∧ fill w g' = rest := by
  induction word generalizing g with
  | nil => exact ⟨g, rfl, h⟩
  | cons c word ih =>
    match g with
    | [] => cases h
    | none :: s =>
      have hle := hgaps s List.suffix_rfl
      rw [h, List.length_append, List.length_cons] at hle
      omega
    | some d :: g =>
      rw [fill_some, List.cons_append, List.cons_eq_cons] at h
      obtain ⟨g', rfl, hg'⟩ := ih h.2 fun s hs => hgaps s (hs.trans (List.suffix_cons _ _))
      exact ⟨g', by rw [h.1]; rfl, hg'⟩

/-! ### Gaps that are words -/

/-- Each gap is a whole word of the text that `w` gives. -/
def Standing (w : List Char) (g : List (Option Char)) : Prop :=
  ∀ s, none :: s <:+ g → (fill w (none :: s)).length ∈ wordPlaces w (fill w g)

namespace Standing

theorem nil (w : List Char) : Standing w [] := fun s hs => by cases List.suffix_nil.1 hs

/-- A text before the gaps, where no gap goes into a longer segment with it. -/
theorem map_some_append (h : Standing w g) {u : List Char}
    (hu : ∀ k ∈ wordPlaces w (fill w g), k ∈ wordPlaces w (u ++ fill w g)) :
    Standing w (u.map some ++ g) := by
  intro s hs
  rw [fill_append, fill_map_some]
  exact hu _ (h s (suffix_of_map_some_append u hs))

/-- What follows the first segment. -/
theorem of_append {g' : List (Option Char)} (h : Standing w (g ++ g'))
    (hfirst : FirstSegment kind (fill w g) (fill w g')) : Standing w g' := by
  intro s hs
  have hmem := h s (hs.trans (List.suffix_append g g'))
  rw [fill_append] at hmem
  rcases mem_wordPlaces_append hfirst hmem with ⟨-, -, hlast⟩ | hmem
  · have hle := length_fill_le w hs
    have hpos := List.length_pos_iff.2 hfirst.ne_nil
    rw [hlast, List.length_append] at hle
    omega
  · exact hmem

/-- A gapped text that ends earlier. -/
theorem of_append_left (hw : w ≠ []) {g' : List (Option Char)} (h : Standing w (g ++ g')) :
    Standing w g := by
  rintro s ⟨u, rfl⟩
  have hmem : (fill w (none :: s)).length + (fill w g').length ∈
      wordPlaces w (fill w (u ++ none :: s) ++ fill w g') := by
    rw [← List.length_append, ← fill_append, ← fill_append]
    exact h (s ++ g') ⟨u, by simp⟩
  exact mem_wordPlaces_of_append hw _ hmem (by simp)

/-- A gapped text is empty, or it begins with a gap or with a segment without one. -/
theorem cases (h : Standing w g) :
    g = [] ∨ (∃ g', g = none :: g' ∧ FirstSegment .ident w (fill w g') ∧ Standing w g') ∨
      ∃ kind u g', g = u.map some ++ g' ∧ FirstSegment kind u (fill w g') ∧ Standing w g' := by
  match g with
  | [] => exact Or.inl rfl
  | none :: g' =>
    have hfirst : FirstSegment .ident w (fill w g') :=
      firstSegment_of_mem_wordPlaces (h g' List.suffix_rfl)
    refine Or.inr (Or.inl ⟨g', rfl, hfirst, ?_⟩)
    exact of_append (g := [none]) h (by simpa [fill] using hfirst)
  | some c :: g₁ =>
    obtain ⟨kind, u, rest, he, hfirst⟩ := exists_firstSegment c (fill w g₁)
    have hgaps : ∀ s, none :: s <:+ some c :: g₁ → (fill w (none :: s)).length ≤ rest.length := by
      intro s hs
      have hmem := h s hs
      rw [fill_some, he] at hmem
      rcases mem_wordPlaces_append hfirst hmem with ⟨-, -, hlast⟩ | hmem
      · -- the gap would be the whole text, which begins with `c`
        rw [← he, ← fill_some] at hlast
        have hne : none :: s ≠ some c :: g₁ := by simp
        rcases List.suffix_cons_iff.1 hs with hs | hs
        · exact absurd hs hne
        · have hle := length_fill_le w hs
          rw [hlast, fill_some, List.length_cons] at hle
          omega
      · exact le_of_mem_wordPlaces hmem
    obtain ⟨g', hg', rfl⟩ := exists_map_some_append (g := some c :: g₁) (by rwa [fill_some]) hgaps
    refine Or.inr (Or.inr ⟨kind, u, g', hg', hfirst, ?_⟩)
    exact of_append (hg' ▸ h) (by rwa [fill_map_some])

/-- With another word in the gaps the text begins alike. -/
theorem beginsLike (h : Standing w g) (hw' : isWord w' = true) :
    BeginsLike (fill w g) (fill w' g) := by
  match g with
  | [] => exact .refl _
  | some c :: g => exact Or.inr (Or.inl rfl)
  | none :: g =>
    have hw := (firstSegment_ident.1 (firstSegment_of_mem_wordPlaces (h g List.suffix_rfl))).1
    match w, w', hw, hw' with
    | c :: w, c' :: w', hw, hw' =>
      rw [isWord, Bool.and_eq_true] at hw hw'
      exact Or.inr (Or.inr ⟨c, rfl, c', rfl, hw.1, hw'.1⟩)

/-- With another word in the gaps, the first segment is the other word or the same segment. -/
theorem firstSegment_cases (h : Standing w g) (hw' : isWord w' = true) :
    g = [] ∨
      (∃ g', g = none :: g' ∧ FirstSegment .ident w (fill w g') ∧
        FirstSegment .ident w' (fill w' g') ∧ Standing w g') ∨
      ∃ kind u g', g = u.map some ++ g' ∧ FirstSegment kind u (fill w g') ∧
        FirstSegment kind u (fill w' g') ∧ Standing w g' := by
  rcases h.cases with rfl | ⟨g', rfl, hfirst, hg'⟩ | ⟨kind, u, g', rfl, hfirst, hg'⟩
  · exact Or.inl rfl
  · have hbehind := (hg'.beginsLike hw').head?_any isWordTail_congr (firstSegment_ident.1 hfirst).2
    exact Or.inr (Or.inl ⟨g', rfl, hfirst, firstSegment_ident.2 ⟨hw', hbehind⟩, hg'⟩)
  · exact Or.inr (Or.inr ⟨kind, u, g', rfl, hfirst, hfirst.beginsLike (hg'.beginsLike hw'), hg'⟩)

end Standing

/-! ### The gaps of a text -/

/-- The text with another word in the place of the word `w`, outside literals and numbers. -/
def renameWord (w w' : List Char) (cs : List Char) : List Char :=
  (segments cs).flatMap fun s => if s.kind = .ident ∧ s.text = w then w' else s.text

/-- The text with gaps in the place of the word `w`. -/
def gaps (w : List Char) (cs : List Char) : List (Option Char) :=
  (segments cs).flatMap fun s => if s.kind = .ident ∧ s.text = w then [none] else s.text.map some

theorem fill_gaps (w w' cs : List Char) : fill w' (gaps w cs) = renameWord w w' cs := by
  unfold gaps renameWord
  induction segments cs with
  | nil => rfl
  | cons s segs ih =>
    rw [List.flatMap_cons, List.flatMap_cons, fill_append, ih]
    split
    · rw [fill_none, fill_nil, List.append_nil]
    · rw [fill_map_some]

theorem renameWord_self (w cs : List Char) : renameWord w w cs = cs := by
  induction cs using firstSegment_induction with
  | hnil => rw [renameWord, segments, List.flatMap_nil]
  | hsegment kind word rest h ih =>
    rw [renameWord, segments_append h, List.flatMap_cons, ← renameWord, ih]
    split
    · rename_i hword
      obtain ⟨-, rfl⟩ := hword
      rfl
    · rfl

/-- What is no word stands nowhere as one. -/
theorem renameWord_of_not_word (hw : isWord w ≠ true) (w' cs : List Char) :
    renameWord w w' cs = cs := by
  induction cs using firstSegment_induction with
  | hnil => rw [renameWord, segments, List.flatMap_nil]
  | hsegment kind word rest h ih =>
    have hnot : ¬ (kind = .ident ∧ word = w) := by
      rintro ⟨rfl, rfl⟩
      exact hw (firstSegment_ident.1 h).1
    rw [renameWord, segments_append h, List.flatMap_cons, ← renameWord, ih, if_neg hnot]

theorem Standing.none_cons (hg : Standing w g) (h : FirstSegment .ident w (fill w g)) :
    Standing w (none :: g) := by
  intro s hs
  rw [fill_none w g]
  rcases List.suffix_cons_iff.1 hs with hs | hs
  · rw [hs, fill_none, wordPlaces_append h, if_pos ⟨rfl, rfl⟩]
    exact List.mem_cons_self
  · exact mem_wordPlaces_of_mem h (hg s hs)

theorem standing_gaps (w cs : List Char) : Standing w (gaps w cs) := by
  induction cs using firstSegment_induction with
  | hnil =>
    rw [gaps, segments, List.flatMap_nil]
    exact .nil w
  | hsegment kind word rest h ih =>
    have hrest : fill w (gaps w rest) = rest := by rw [fill_gaps, renameWord_self]
    rw [gaps, segments_append h, List.flatMap_cons, ← gaps]
    split
    · rename_i hword
      obtain ⟨rfl, rfl⟩ := hword
      exact ih.none_cons (by rwa [hrest])
    · refine ih.map_some_append fun k hk => ?_
      rw [hrest] at hk ⊢
      exact mem_wordPlaces_of_mem h hk

/-! ### Blanks at the ends -/

theorem nextSegment_of_isBlank (hc : isBlank c = true) (r : List Char) :
    nextSegment c r =
      if isWordSpace c then (.other, (r.takeWhile isWordSpace).length) else (.other, 0) := by
  have hquote : ¬ (c = '"' || c = '\x27') = true := by
    rw [Bool.or_eq_true, decide_eq_true_eq, decide_eq_true_eq]
    rintro (rfl | rfl) <;> exact absurd hc (by decide)
  have htail : isWordTail c = false := Bool.eq_false_iff.2 fun h => by
    rw [isBlank_of_isWordTail h] at hc
    cases hc
  have hhead : ¬ isWordHead c = true := fun h => by
    rw [isWordTail_of_isWordHead h] at htail
    cases htail
  have hdigit : c.isDigit = false := Bool.eq_false_iff.2 fun h => by
    rw [isWordTail_of_isDigit h] at htail
    cases htail
  have hpoint : c ≠ '.' := by
    rintro rfl
    exact absurd hc (by decide)
  have hnumber : ¬ startsNumber c r = true := by simp [startsNumber, hdigit, hpoint]
  rw [nextSegment, if_neg hquote, if_neg hhead, if_neg hnumber]

theorem isBlank_of_isWordSpace (h : isWordSpace c = true) : isBlank c = true := by
  simp only [isWordSpace, Bool.or_eq_true, decide_eq_true_eq] at h
  rcases h with (((rfl | rfl) | rfl) | rfl) | rfl <;> decide

theorem wordPlaces_of_isBlank (hc : isBlank c = true) (w r : List Char) :
    wordPlaces w (c :: r) = wordPlaces w (r.drop (nextSegment c r).2) := by
  have hk : ¬ ((nextSegment c r).1 = .ident ∧ c :: r.take (nextSegment c r).2 = w) := by
    rw [nextSegment_of_isBlank hc]
    split <;> exact fun h => by cases h.1
  rw [wordPlaces]
  exact if_neg hk

/-- A blank at the beginning is no part of a word. -/
theorem wordPlaces_cons_of_isBlank (hc : isBlank c = true) (w r : List Char) :
    wordPlaces w (c :: r) = wordPlaces w r := by
  rw [wordPlaces_of_isBlank hc, nextSegment_of_isBlank hc]
  split
  · -- a run of blanks goes on behind the first
    cases r with
    | nil => rfl
    | cons d r =>
      cases hd : isWordSpace d
      · rw [List.takeWhile_cons, hd]
        rfl
      · rw [wordPlaces_of_isBlank (isBlank_of_isWordSpace hd),
          nextSegment_of_isBlank (isBlank_of_isWordSpace hd), hd, if_pos rfl, List.takeWhile_cons,
          hd]
        rfl
  · rfl

/-- A word that is no blank text and has none in it. -/
theorem fill_dropWhile (hw : w ≠ []) (hblank : ∀ c ∈ w, isBlank c = false)
    (g : List (Option Char)) :
    (fill w g).dropWhile isBlank = fill w (g.dropWhile (·.any isBlank)) := by
  induction g with
  | nil => rfl
  | cons o g ih =>
    cases o with
    | none =>
      obtain ⟨c, w, rfl⟩ := List.exists_cons_of_ne_nil hw
      rw [fill_none, List.cons_append, List.dropWhile_cons, hblank c List.mem_cons_self]
      rfl
    | some c =>
      rw [fill_some, List.dropWhile_cons, List.dropWhile_cons, Option.any_some, ih]
      split <;> rfl

theorem Standing.dropWhile (h : Standing w g) : Standing w (g.dropWhile (·.any isBlank)) := by
  induction g with
  | nil => exact h
  | cons o g ih =>
    rw [List.dropWhile_cons]
    split
    · rename_i hblank
      cases o with
      | none => cases hblank
      | some c =>
        refine ih fun s hs => ?_
        have hmem := h s (hs.trans (List.suffix_cons _ _))
        rwa [fill_some, wordPlaces_cons_of_isBlank hblank] at hmem
    · exact h

/-- A gapped text without the blanks at either end. -/
def trimGaps (g : List (Option Char)) : List (Option Char) :=
  ((g.dropWhile (·.any isBlank)).reverse.dropWhile (·.any isBlank)).reverse

theorem isWord.ne_nil (hw : isWord w = true) : w ≠ [] := by
  rintro rfl
  cases hw

theorem isWord.isBlank (hw : isWord w = true) (c : Char) (hc : c ∈ w) : isBlank c = false :=
  isBlank_of_isWordTail (isWordTail_of_isWord hw hc)

theorem trim_fill (hw : isWord w = true) (g : List (Option Char)) :
    trim (fill w g) = fill w (trimGaps g) := by
  have hreverse : w.reverse ≠ [] := fun h => isWord.ne_nil hw (List.reverse_eq_nil_iff.1 h)
  rw [trim, trimEnd, dropEndWhile, trimStart, fill_dropWhile (isWord.ne_nil hw) (isWord.isBlank hw),
    fill_reverse, fill_dropWhile hreverse fun c hc => isWord.isBlank hw c (List.mem_reverse.1 hc),
    fill_reverse, List.reverse_reverse, trimGaps]

theorem Standing.trimGaps (hw : w ≠ []) (h : Standing w g) : Standing w (trimGaps g) := by
  obtain ⟨u, hu⟩ : (g.dropWhile (·.any Text.isBlank)).reverse.dropWhile (·.any Text.isBlank) <:+
      (g.dropWhile (·.any Text.isBlank)).reverse := List.dropWhile_suffix _
  have hsplit := congrArg List.reverse hu
  rw [List.reverse_append, List.reverse_reverse] at hsplit
  exact (hsplit ▸ h.dropWhile).of_append_left hw

/-! ### Calls -/

/-- A segment that is no parenthesis and no comma between arguments belongs to an argument. -/
theorem argumentsFrom_segment (h : FirstSegment kind word rest) (ho : word ≠ ['('])
    (hcl : word ≠ [')']) {depth : Nat} (hcomma : ¬ (word = [','] ∧ depth = 0))
    (arg : List Char) :
    argumentsFrom depth arg (word ++ rest) =
      argumentsFrom depth (word.reverse ++ arg) rest := by
  obtain ⟨c, u, rfl, hn⟩ := h
  have hsingle : (nextSegment c (u ++ rest)).2 = 0 → c :: u = [c] := by
    rw [hn]
    intro hu
    rw [List.length_eq_zero_iff.1 hu]
  have hc : c ≠ '(' ∧ c ≠ ')' ∧ ¬ (c = ',' ∧ depth = 0) := by
    refine ⟨?_, ?_, ?_⟩
    · rintro rfl
      exact ho (hsingle (by rw [nextSegment_opening]))
    · rintro rfl
      exact hcl (hsingle (by rw [nextSegment_closing]))
    · rintro ⟨rfl, hdepth⟩
      exact hcomma ⟨hsingle (by rw [nextSegment_comma]), hdepth⟩
  rw [List.cons_append, argumentsFrom_word hc.1 hc.2.1 (Or.inr hc.2.2), hn, List.take_left,
    List.drop_left]

/-- The arguments of a call and the text behind it, with a word in the gaps. -/
def fillCall (w : List Char) (p : List (List (Option Char)) × List (Option Char)) :
    List (List Char) × List Char :=
  (p.1.map (fill w), fill w p.2)

/-- What is read of two texts is what a word each gives in some gapped arguments and a gapped text,
which is an end of `g`. -/
def ReadAlike (w w' : List Char) (g : List (Option Char))
    (read read' : Option (List (List Char) × List Char)) : Prop :=
  ∃ found : Option (List (List (Option Char)) × List (Option Char)),
    read = found.map (fillCall w) ∧ read' = found.map (fillCall w') ∧
      ∀ p ∈ found, (∀ a ∈ p.1, Standing w a) ∧ Standing w p.2 ∧ p.2 <:+ g

namespace ReadAlike

variable {g' a : List (Option Char)} {read read' : Option (List (List Char) × List Char)}

theorem of_suffix (h : ReadAlike w w' g' read read') (hs : g' <:+ g) :
    ReadAlike w w' g read read' := by
  obtain ⟨found, hread, hread', hfound⟩ := h
  exact ⟨found, hread, hread', fun p hp =>
    ⟨(hfound p hp).1, (hfound p hp).2.1, (hfound p hp).2.2.trans hs⟩⟩

/-- One argument more. -/
theorem cons (h : ReadAlike w w' g read read') (ha : Standing w a) :
    ReadAlike w w' g (read.map fun p => (fill w a :: p.1, p.2))
      (read'.map fun p => (fill w' a :: p.1, p.2)) := by
  obtain ⟨found, rfl, rfl, hfound⟩ := h
  refine ⟨found.map fun p => (a :: p.1, p.2), ?_, ?_, fun p hp => ?_⟩
  · rw [Option.map_map, Option.map_map]
    rfl
  · rw [Option.map_map, Option.map_map]
    rfl
  · obtain ⟨q, hq, rfl⟩ := Option.map_eq_some_iff.1 hp
    obtain ⟨hargs, hrest⟩ := hfound q hq
    refine ⟨fun x hx => ?_, hrest⟩
    rcases List.mem_cons.1 hx with rfl | hx
    · exact ha
    · exact hargs x hx

/-- The last argument. -/
theorem last (ha : Standing w a) (hg : Standing w g) :
    ReadAlike w w' g (some ([fill w a], fill w g)) (some ([fill w' a], fill w' g)) := by
  refine ⟨some ([a], g), rfl, rfl, fun p hp => ?_⟩
  obtain rfl := Option.some.inj hp
  exact ⟨fun x hx => by rwa [List.mem_singleton.1 hx], hg, List.suffix_rfl⟩

end ReadAlike

/-- The arguments of a list in a gapped text, behind the part `a` of the present argument. -/
theorem argumentsFrom_fill (hw : isWord w = true) (hw' : isWord w' = true) (depth : Nat)
    (a g : List (Option Char)) (ha : Standing w (a ++ g)) (hg : Standing w g) :
    ReadAlike w w' g (argumentsFrom depth (fill w a).reverse (fill w g))
      (argumentsFrom depth (fill w' a).reverse (fill w' g)) := by
  have hmove : ∀ (v : List Char) (b : List (Option Char)),
      (fill v b).reverse ++ (fill v a).reverse = (fill v (a ++ b)).reverse := fun v b => by
    rw [fill_append, List.reverse_append]
  have hword : ∀ {v : List Char} {c : Char}, isWord v = true → isWord [c] = false → v ≠ [c] := by
    rintro v c hv hc rfl
    rw [hv] at hc
    cases hc
  have htrim := ha.of_append_left (isWord.ne_nil hw) |>.trimGaps (isWord.ne_nil hw)
  rcases hg.firstSegment_cases hw' with rfl | ⟨g', rfl, h, h', hg'⟩ | ⟨kind, u, g', rfl, h, h', hg'⟩
  · refine ⟨none, argumentsFrom_nil depth _, argumentsFrom_nil depth _, fun p hp => by cases hp⟩
  · have ih := argumentsFrom_fill hw hw' depth (a ++ [none]) g' (by simpa using ha) hg'
    rw [← hmove, ← hmove] at ih
    rw [fill_none, fill_none,
      argumentsFrom_segment h (hword hw rfl) (hword hw rfl) fun he => hword hw rfl he.1,
      argumentsFrom_segment h' (hword hw' rfl) (hword hw' rfl) fun he => hword hw' rfl he.1]
    simpa using ih.of_suffix (List.suffix_cons none g')
  · have hshorter : g'.length < (u.map some ++ g').length := by
      rw [List.length_append, List.length_map]
      exact Nat.lt_add_of_pos_left (List.length_pos_iff.2 h.ne_nil)
    have ih := fun depth => argumentsFrom_fill hw hw' depth (a ++ u.map some) g'
      (by rwa [List.append_assoc]) hg'
    simp only [← hmove, fill_map_some] at ih
    have hs : g' <:+ u.map some ++ g' := List.suffix_append _ _
    rw [fill_append, fill_append, fill_map_some, fill_map_some]
    by_cases ho : u = ['(']
    · subst ho
      rw [List.singleton_append, List.singleton_append, argumentsFrom_opening,
        argumentsFrom_opening]
      exact (ih (depth + 1)).of_suffix hs
    by_cases hcl : u = [')']
    · subst hcl
      rw [List.singleton_append, List.singleton_append]
      cases depth with
      | zero =>
        rw [argumentsFrom_closing_zero, argumentsFrom_closing_zero, List.reverse_reverse,
          List.reverse_reverse, trim_fill hw, trim_fill hw']
        exact (ReadAlike.last htrim hg').of_suffix hs
      | succ depth =>
        rw [argumentsFrom_closing_succ, argumentsFrom_closing_succ]
        exact (ih depth).of_suffix hs
    by_cases hcomma : u = [','] ∧ depth = 0
    · obtain ⟨rfl, rfl⟩ := hcomma
      rw [List.singleton_append, List.singleton_append, argumentsFrom_comma, argumentsFrom_comma,
        List.reverse_reverse, List.reverse_reverse, trim_fill hw, trim_fill hw']
      exact ((argumentsFrom_fill hw hw' 0 [] g' hg' hg').cons htrim).of_suffix hs
    · rw [argumentsFrom_segment h ho hcl hcomma, argumentsFrom_segment h' ho hcl hcomma]
      exact (ih depth).of_suffix hs
  termination_by g.length

/-- The call whose name a gapped text follows. -/
theorem callArguments?_fill (hw : isWord w = true) (hw' : isWord w' = true) (hg : Standing w g) :
    (∀ p, callArguments? (fill w g) ≠ some (.ok p) ∧ callArguments? (fill w' g) ≠ some (.ok p)) ∨
      ∃ found, callArguments? (fill w g) = some (.ok (fillCall w found)) ∧
        callArguments? (fill w' g) = some (.ok (fillCall w' found)) ∧
        (∀ a ∈ found.1, Standing w a) ∧ Standing w found.2 ∧ found.2 <:+ g := by
  have htrim : ∀ {v}, isWord v = true →
      trimStart (fill v g) = fill v (g.dropWhile (·.any isBlank)) := fun hv =>
    fill_dropWhile (isWord.ne_nil hv) (isWord.isBlank hv) g
  have hnone : ∀ {v : List Char} {c : Char} {list : List Char},
      trimStart (fill v g) = c :: list → c ≠ '(' → ∀ p, callArguments? (fill v g) ≠ some (.ok p) :=
    fun hv hc p => by simp [callArguments?_of_ne hv hc]
  have hsuffix : g.dropWhile (·.any isBlank) <:+ g := List.dropWhile_suffix _
  have hstanding := hg.dropWhile
  match hg₁ : g.dropWhile (·.any isBlank) with
  | [] =>
    have hempty : ∀ {v : List Char}, isWord v = true → callArguments? (fill v g) = none := by
      intro v hv
      rw [callArguments?, htrim hv, hg₁]
      rfl
    refine Or.inl fun p => ⟨?_, ?_⟩
    · simp [hempty hw]
    · simp [hempty hw']
  | none :: g₂ =>
    have hhead : ∀ {v : List Char}, isWord v = true →
        ∀ p, callArguments? (fill v g) ≠ some (.ok p) := by
      intro v hv
      obtain ⟨c, v, rfl⟩ := List.exists_cons_of_ne_nil (isWord.ne_nil hv)
      have hstart : trimStart (fill (c :: v) g) = c :: (v ++ fill (c :: v) g₂) := by
        rw [htrim hv, hg₁]
        rfl
      refine hnone hstart ?_
      rintro rfl
      cases hv
    exact Or.inl fun p => ⟨hhead hw p, hhead hw' p⟩
  | some c :: g₂ =>
    by_cases hc : c = '('
    · subst hc
      rw [hg₁] at hsuffix hstanding
      have hfirst : FirstSegment .other (fill w [some '(']) (fill w g₂) :=
        ⟨'(', [], rfl, nextSegment_opening _⟩
      have hg₂ : Standing w g₂ := Standing.of_append (g := [some '(']) hstanding hfirst
      have hstart : ∀ {v : List Char}, isWord v = true →
          trimStart (fill v g) = '(' :: fill v g₂ := fun hv => by
        rw [htrim hv, hg₁, fill_some]
      obtain ⟨found, hread, hread', hfound⟩ := argumentsFrom_fill hw hw' 0 [] g₂ hg₂ hg₂
      rw [fill_nil, List.reverse_nil] at hread
      rw [fill_nil, List.reverse_nil] at hread'
      rw [callArguments?_of_call (hstart hw), callArguments?_of_call (hstart hw'), hread, hread']
      cases found with
      | none => exact Or.inl fun p => ⟨by simp, by simp⟩
      | some found =>
        obtain ⟨hargs, hafter, hend⟩ := hfound found rfl
        exact Or.inr ⟨found, rfl, rfl, hargs, hafter,
          (hend.trans (List.suffix_cons _ _)).trans hsuffix⟩
    · refine Or.inl fun p => ⟨?_, ?_⟩
      · exact hnone (by rw [htrim hw, hg₁, fill_some]) hc p
      · exact hnone (by rw [htrim hw', hg₁, fill_some]) hc p

end CInterface
