import CInterface.Proofs.Macro.Brackets
/-!
# Where segments end

Where the first segment of a text ends is decided by the segment and by the character behind it. So
the same segment is found where nothing follows it any more, where the text behind it begins as
before, and where that begins with another word.

* `BeginsLike` — texts that may stand for one another behind a segment.
* `nextSegment_beginsLike` — the segment is the same.
-/

namespace CInterface

open Text

/-- In the place of `v` the text `v'` may stand behind a segment: it is empty, or begins with the
same character, or both begin with a word. -/
def BeginsLike (v v' : List Char) : Prop :=
  v' = [] ∨ v'.head? = v.head? ∨ ∃ c ∈ v.head?, ∃ c' ∈ v'.head?, isWordHead c ∧ isWordHead c'

variable {c : Char} {w v v' : List Char}

namespace BeginsLike

theorem refl (v : List Char) : BeginsLike v v := Or.inr (Or.inl rfl)

/-- Texts with the same beginning. -/
theorem append_left (h : BeginsLike v v') (w : List Char) : BeginsLike (w ++ v) (w ++ v') := by
  cases w with
  | nil => exact h
  | cons c w => exact Or.inr (Or.inl rfl)

/-- Nothing more may follow a text. -/
theorem of_append (u v : List Char) : BeginsLike (u ++ v) u := by
  cases u with
  | nil => exact Or.inl rfl
  | cons c u => exact Or.inr (Or.inl rfl)

/-- A property of characters that all words begin with or none: where it does not hold of the first
character of `v`, it does not hold of that of `v'`. -/
theorem head?_any (h : BeginsLike v v') {p : Char → Bool}
    (hp : ∀ a b, isWordHead a = true → isWordHead b = true → p a = p b)
    (hv : v.head?.any p = false) : v'.head?.any p = false := by
  rcases h with rfl | heq | ⟨a, ha, b, hb, hwa, hwb⟩
  · rfl
  · rw [heq, hv]
  · rw [Option.mem_def.1 ha, Option.any_some] at hv
    rw [Option.mem_def.1 hb, Option.any_some, ← hp a b hwa hwb, hv]

end BeginsLike

theorem isWordTail_of_isWordHead (h : isWordHead c = true) : isWordTail c = true := by
  rw [isWordHead, Bool.or_eq_true] at h
  rw [isWordTail, Bool.or_eq_true]
  exact h.imp_left fun h => by rw [Char.isAlphanum, h, Bool.true_or]

/-- All words begin with a character that may stand inside one. -/
theorem isWordTail_congr (a b : Char) (ha : isWordHead a = true) (hb : isWordHead b = true) :
    isWordTail a = isWordTail b := by
  rw [isWordTail_of_isWordHead ha, isWordTail_of_isWordHead hb]

theorem isWordTail_of_isDigit (h : c.isDigit = true) : isWordTail c = true := by
  rw [isWordTail, Char.isAlphanum, h, Bool.or_true, Bool.true_or]

theorem isDigit_of_isWordHead (h : isWordHead c = true) : c.isDigit = false := by
  have hranges : (decide (c.val ≥ 'A'.val ∧ c.val ≤ 'Z'.val) ||
      (decide (c.val ≥ 'a'.val) && decide (c.val ≤ 'z'.val)) || decide (c = '_')) = true := h
  simp only [Char.isDigit, Bool.or_eq_true, Bool.and_eq_true, decide_eq_true_eq,
    Bool.and_eq_false_iff, decide_eq_false_iff_not, UInt32.le_iff_toNat_le, ge_iff_le]
    at hranges ⊢
  rcases hranges with (⟨h1, h2⟩ | ⟨h1, h2⟩) | rfl
  · simp at h1 h2 ⊢
    omega
  · simp at h1 h2 ⊢
    omega
  · decide

theorem isWordSpace_of_isWordHead (h : isWordHead c = true) : isWordSpace c = false := by
  rw [Bool.eq_false_iff]
  intro hspace
  simp only [isWordSpace, Bool.or_eq_true, decide_eq_true_eq] at hspace
  rcases hspace with (((rfl | rfl) | rfl) | rfl) | rfl <;> exact absurd h (by decide)

/-! ### Runs of a class -/

theorem length_takeWhile_append_eq {p : Char → Bool} :
    ((w ++ v).takeWhile p).length = w.length ↔ w.all p = true ∧ v.head?.any p = false := by
  induction w with
  | nil =>
    cases v with
    | nil => simp
    | cons d v => cases hd : p d <;> simp [hd]
  | cons d w ih =>
    cases hd : p d
    · simp [hd]
    · simpa [hd] using ih

theorem numberTail_beginsLike (hv : BeginsLike v v') {hex : Bool} {before : Char}
    (h : numberTail hex before (w ++ v) = w.length) :
    numberTail hex before (w ++ v') = w.length := by
  induction w generalizing before with
  | nil =>
    rw [List.nil_append] at h ⊢
    rcases hv with rfl | heq | ⟨a, ha, b, -, hwa, -⟩
    · rfl
    · cases v' with
      | nil => rfl
      | cons d v' =>
        cases v with
        | nil => cases heq
        | cons e v =>
          obtain rfl := Option.some.inj heq
          rw [numberTail] at h ⊢
          split at h
          · rw [List.length_nil] at h
            omega
          · rename_i hd
            rw [if_neg hd]
            rfl
    · cases v with
      | nil => cases ha
      | cons d v =>
        obtain rfl := Option.some.inj ha
        rw [numberTail, if_pos (by simp [isWordTail_of_isWordHead hwa]), List.length_nil] at h
        omega
  | cons d w ih =>
    rw [List.cons_append, numberTail] at h ⊢
    split at h
    · rename_i hd
      rw [if_pos hd, ih (by rw [List.length_cons] at h; omega), List.length_cons, Nat.add_comm]
    · cases h

theorem quotedTail_eq_zero {quote : Char} :
    quotedTail quote v = 0 ↔ v = [] ∨ v.head? = some '\n' := by
  match v with
  | [] => simp [quotedTail]
  | [d] => by_cases hd : d = '\n' <;> simp [quotedTail, hd]
  | d :: e :: v =>
    rw [quotedTail]
    split_ifs with hescape hnewline hquote
    · simp [hescape]
    · simp [hnewline]
    · simp [hnewline]
    · simp [hnewline]

theorem quotedTail_beginsLike_zero (hv : BeginsLike v v') {quote : Char}
    (h : quotedTail quote v = 0) : quotedTail quote v' = 0 := by
  rw [quotedTail_eq_zero] at h ⊢
  rcases hv with rfl | heq | ⟨a, ha, b, -, hwa, -⟩
  · exact Or.inl rfl
  · rw [← List.head?_eq_none_iff, heq, List.head?_eq_none_iff]
    exact h
  · rcases h with rfl | h
    · cases ha
    · obtain rfl := Option.some.inj (h.symm.trans ha)
      exact absurd hwa (by decide)

theorem quotedTail_beginsLike (hv : BeginsLike v v') {quote : Char}
    (h : quotedTail quote (w ++ v) = w.length) : quotedTail quote (w ++ v') = w.length := by
  fun_induction quotedTail quote w with
  | case1 => exact quotedTail_beginsLike_zero hv h
  | case2 =>
    cases v with
    | nil => exact absurd h (by simp [quotedTail])
    | cons d v => exact absurd h (by simp [quotedTail])
  | case3 a hnewline =>
    have hone : quotedTail quote [a] = 1 := by rw [quotedTail, if_neg hnewline]
    cases v' with
    | nil => exact hone
    | cons d' v' =>
      cases v with
      | nil => rcases hv with hv | hv | ⟨_, hv, _⟩ <;> cases hv
      | cons d v =>
        rw [List.singleton_append, quotedTail, List.length_singleton] at h ⊢
        split_ifs at h ⊢ with hescape hquote
        · omega
        · rfl
        · rw [quotedTail_beginsLike_zero hv (by omega)]
  | case4 b w ih =>
    rw [List.cons_append, List.cons_append, quotedTail, if_pos rfl, List.length_cons,
      List.length_cons] at h ⊢
    rw [ih (by omega)]
    omega
  | case5 b w =>
    rw [List.cons_append, List.cons_append, quotedTail, if_neg (by decide), if_pos rfl] at h
    exact absurd h (by simp)
  | case6 b w hescape hnewline =>
    rw [List.cons_append, List.cons_append, quotedTail, if_neg hescape, if_neg hnewline,
      if_pos rfl] at h
    exact absurd h (by simp)
  | case7 a b w hescape hnewline hquote ih =>
    rw [List.cons_append, List.cons_append, quotedTail, if_neg hescape, if_neg hnewline,
      if_neg hquote, ← List.cons_append, List.length_cons] at h ⊢
    rw [ih (by omega), Nat.add_comm]

/-! ### Segments -/

theorem startsNumber_beginsLike (hv : BeginsLike v v') (h : startsNumber c (w ++ v) = false) :
    startsNumber c (w ++ v') = false := by
  rw [startsNumber, Bool.or_eq_false_iff, Bool.and_eq_false_iff] at h ⊢
  refine ⟨h.1, h.2.imp_right fun h => (hv.append_left w).head?_any (fun a b ha hb => ?_) h⟩
  rw [isDigit_of_isWordHead ha, isDigit_of_isWordHead hb]

/-- Behind a first character that is a number alone stands no word. -/
theorem numberTail_of_head {hex : Bool} {before : Char} {x : Char} (hx : x ∈ v.head?)
    (htail : isWordTail x = true) : numberTail hex before v ≠ 0 := by
  cases v with
  | nil => cases hx
  | cons d v =>
    obtain rfl := Option.some.inj hx
    rw [numberTail, if_pos (by simp [htail])]
    omega

/-- A number does not depend on what follows it. -/
theorem number_beginsLike (hv : BeginsLike v v') (hnumber : startsNumber c (w ++ v) = true)
    (h : numberTail (startsHex c (w ++ v)) c (w ++ v) = w.length) :
    startsNumber c (w ++ v') = true ∧
      numberTail (startsHex c (w ++ v')) c (w ++ v') = w.length := by
  cases w with
  | cons d w => exact ⟨hnumber, numberTail_beginsLike hv h⟩
  | nil =>
    -- the number is one character, so that no digit or letter stands behind it
    have hhead : ∀ x ∈ v.head?, isWordTail x = false := fun x hx =>
      Bool.eq_false_iff.2 fun htail => numberTail_of_head hx htail h
    rcases hv with rfl | heq | ⟨a, ha, _, _, hwa, _⟩
    · refine ⟨?_, rfl⟩
      rw [startsNumber, Bool.or_eq_true, Bool.and_eq_true] at hnumber
      rcases hnumber with hdigit | ⟨-, hpoint⟩
      · rw [startsNumber, hdigit, Bool.true_or]
      · obtain ⟨x, hx, hdigit⟩ := (Option.any_eq_true _ _).1 hpoint
        have hno := hhead x hx
        rw [isWordTail_of_isDigit hdigit] at hno
        cases hno
    · have hn : startsNumber c v' = startsNumber c v := by rw [startsNumber, startsNumber, heq]
      have hx : startsHex c v' = startsHex c v := by rw [startsHex, startsHex, heq]
      rw [List.nil_append, hn, hx]
      exact ⟨hnumber, numberTail_beginsLike (w := []) (Or.inr (Or.inl heq)) h⟩
    · have hno := hhead a ha
      rw [isWordTail_of_isWordHead hwa] at hno
      cases hno

/-- A segment does not depend on what follows it, as long as that begins alike. -/
theorem nextSegment_beginsLike (hv : BeginsLike v v') {kind : SegmentKind}
    (h : nextSegment c (w ++ v) = (kind, w.length)) :
    nextSegment c (w ++ v') = (kind, w.length) := by
  have hspace : ∀ a b, isWordHead a = true → isWordHead b = true →
      isWordSpace a = isWordSpace b :=
    fun a b ha hb => by rw [isWordSpace_of_isWordHead ha, isWordSpace_of_isWordHead hb]
  unfold nextSegment at h ⊢
  by_cases hquote : (c = '"' || c = '\x27') = true
  · rw [if_pos hquote] at h ⊢
    obtain ⟨rfl, hlength⟩ := Prod.mk.inj h
    rw [quotedTail_beginsLike hv hlength]
  rw [if_neg hquote] at h ⊢
  by_cases hhead : isWordHead c = true
  · rw [if_pos hhead] at h ⊢
    obtain ⟨rfl, hlength⟩ := Prod.mk.inj h
    rw [length_takeWhile_append_eq] at hlength
    rw [length_takeWhile_append_eq.2 ⟨hlength.1, hv.head?_any isWordTail_congr hlength.2⟩]
  rw [if_neg hhead] at h ⊢
  by_cases hnumber : startsNumber c (w ++ v) = true
  · rw [if_pos hnumber] at h
    obtain ⟨rfl, hlength⟩ := Prod.mk.inj h
    obtain ⟨hnumber', hlength'⟩ := number_beginsLike hv hnumber hlength
    rw [if_pos hnumber', hlength']
  · rw [if_neg hnumber] at h
    rw [if_neg (Bool.eq_false_iff.1 (startsNumber_beginsLike hv (Bool.eq_false_iff.2 hnumber)))]
    by_cases hblank : isWordSpace c = true
    · rw [if_pos hblank] at h ⊢
      obtain ⟨rfl, hlength⟩ := Prod.mk.inj h
      rw [length_takeWhile_append_eq] at hlength
      rw [length_takeWhile_append_eq.2 ⟨hlength.1, hv.head?_any hspace hlength.2⟩]
    · rwa [if_neg hblank] at h ⊢

/-! ### First segments -/

theorem numberTail_le (hex : Bool) (before : Char) (r : List Char) :
    numberTail hex before r ≤ r.length := by
  induction r generalizing before with
  | nil => exact Nat.le_refl 0
  | cons c r ih =>
    have ih := ih c
    rw [numberTail, List.length_cons]
    split <;> omega

theorem quotedTail_le (quote : Char) (r : List Char) : quotedTail quote r ≤ r.length := by
  fun_induction quotedTail quote r with
  | case1 => exact Nat.le_refl 0
  | case2 => exact Nat.zero_le _
  | case3 => exact Nat.le_refl 1
  | case4 d r ih =>
    rw [List.length_cons, List.length_cons]
    omega
  | case5 => exact Nat.zero_le _
  | case6 d r => exact Nat.succ_le_succ (Nat.zero_le _)
  | case7 c d r hescape hnewline hquote ih =>
    rw [List.length_cons]
    omega

theorem nextSegment_le (c : Char) (r : List Char) : (nextSegment c r).2 ≤ r.length := by
  unfold nextSegment
  split_ifs
  · exact quotedTail_le c r
  · exact (List.takeWhile_prefix _).length_le
  · exact numberTail_le _ c r
  · exact (List.takeWhile_prefix _).length_le
  · exact Nat.zero_le _

/-- The text `word ++ rest` begins with the segment `word`. -/
def FirstSegment (kind : SegmentKind) (word rest : List Char) : Prop :=
  ∃ c w, word = c :: w ∧ nextSegment c (w ++ rest) = (kind, w.length)

/-- Every text but the empty one begins with a segment. -/
theorem exists_firstSegment (c : Char) (r : List Char) :
    ∃ kind word rest, c :: r = word ++ rest ∧ FirstSegment kind word rest := by
  refine ⟨(nextSegment c r).1, c :: r.take (nextSegment c r).2, r.drop (nextSegment c r).2, ?_,
    c, r.take (nextSegment c r).2, rfl, ?_⟩
  · rw [List.cons_append, List.take_append_drop]
  · rw [List.take_append_drop, List.length_take, Nat.min_eq_left (nextSegment_le c r)]

variable {kind : SegmentKind} {word : List Char}

theorem FirstSegment.beginsLike (h : FirstSegment kind word v) (hv : BeginsLike v v') :
    FirstSegment kind word v' := by
  obtain ⟨c, w, rfl, hn⟩ := h
  exact ⟨c, w, rfl, nextSegment_beginsLike hv hn⟩

theorem segments_append (h : FirstSegment kind word v) :
    segments (word ++ v) = ⟨kind, word⟩ :: segments v := by
  obtain ⟨c, w, rfl, hn⟩ := h
  rw [List.cons_append, segments, hn]
  simp only [List.take_left, List.drop_left]

theorem FirstSegment.ne_nil (h : FirstSegment kind word v) : word ≠ [] := by
  obtain ⟨c, w, rfl, -⟩ := h
  exact List.cons_ne_nil c w

/-- A text begins with a segment, or is empty. -/
theorem firstSegment_induction {P : List Char → Prop} (hnil : P [])
    (hsegment : ∀ kind word rest, FirstSegment kind word rest → P rest → P (word ++ rest))
    (cs : List Char) : P cs := by
  match cs with
  | [] => exact hnil
  | c :: r =>
    obtain ⟨kind, word, rest, he, h⟩ := exists_firstSegment c r
    have hlt : rest.length < (c :: r).length := by
      rw [he, List.length_append]
      exact Nat.lt_add_of_pos_left (List.length_pos_iff.2 h.ne_nil)
    rw [he]
    exact hsegment kind word rest h (firstSegment_induction hnil hsegment rest)
  termination_by cs.length
  decreasing_by exact hlt

end CInterface
