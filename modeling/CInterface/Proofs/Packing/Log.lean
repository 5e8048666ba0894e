import CInterface.Preprocess
import CInterface.Proofs.Conditional.Nesting
import CInterface.Proofs.Grammar.Findings
import Mathlib.Algebra.Group.Nat.Defs
import Mathlib.Data.List.TakeWhile
/-!
# The packing log

While a header is preprocessed, packing pragmas change a stack of packings, and each change is
recorded with its line. Looked up by a line, the log gives the packing that the stack has behind
that line, so the layout of a structure can be settled long after the pragmas are gone.

* `PackPragma.ofLine?` — the packing pragma that a line is; `PackState.after` is what it does.
* `PackState.atLine` — the packings before a line, from the pragmas alone.
* `PackState.apply_eq_error` — which pragmas there is nothing to do for.
* `PreprocessState.packings_line` — what one line does to the packings and their log.
* `PackingLog.ofPragmas` — the log that pragmas make; `PackingLog.packAt_ofPragmas` looks it up.
* `PreprocessState.packings_beforeLine` — preprocessing has the packings and the log of the pragmas.
* `packing_log_by_line` — the log of a whole text.
-/

namespace CInterface

open Text

/-! ### Pragmas -/

/-- The packing pragma that a directive is. One whose packing cannot be used is none. -/
def Directive.packPragma? (d : Directive) : Option PackPragma :=
  match d.keyword with
  | .pragma => (PackPragma.ofText? d.rest).bind Except.toOption
  | _ => none

/-- The packing pragma that a line is. -/
def PackPragma.ofLine? (line : List Char) : Option PackPragma :=
  (Directive.ofLine? line).bind Directive.packPragma?

namespace PackState

/-- The state after a pragma. Where nothing can be brought back it stays. -/
def after (s : PackState) (p : PackPragma) : PackState := (s.apply p).toOption.getD s

/-- The state before line `k`, where `pragma?` gives the pragmas by line. -/
def atLine (pragma? : Nat → Option PackPragma) (k : Nat) : PackState :=
  ((List.range k).filterMap pragma?).foldl after {}

/-- The change of packing that the pragma of line `k` makes. -/
def change? (pragma? : Nat → Option PackPragma) (k : Nat) : Option (Nat × Option UInt32) :=
  (pragma? k).bind fun p => ((atLine pragma? k).apply p).toOption.map fun s => (k, s.current)

theorem atLine_succ (pragma? : Nat → Option PackPragma) (k : Nat) :
    atLine pragma? (k + 1) = (pragma? k).elim (atLine pragma? k) (atLine pragma? k).after := by
  rw [atLine, List.range_succ, List.filterMap_append, List.foldl_append]
  cases h : pragma? k <;> simp [h, atLine]

theorem target_eq_nil {s : PackState} {id : Option String} :
    s.target id = [] ↔ ∀ save ∈ s.saved, id ≠ none ∧ save.2 ≠ id := by
  cases id with
  | none =>
    show s.saved = [] ↔ _
    rw [List.eq_nil_iff_forall_not_mem]
    exact forall_congr' fun save => ⟨fun h hs => absurd hs h, fun h hs => (h hs).1 rfl⟩
  | some name =>
    rw [target, List.dropWhile_eq_nil_iff]
    simp

/-- **The only pragma that fails is a pop** for which nothing was saved, or nothing under its
name. -/
theorem apply_eq_error {s : PackState} {p : PackPragma} {e : PackIssue} :
    s.apply p = .error e ↔
      e = .underflow ∧ p.action = .pop ∧ ∀ save ∈ s.saved, p.id ≠ none ∧ save.2 ≠ p.id := by
  rw [← target_eq_nil]
  unfold apply
  cases p.action with
  | set | push | «show» => simp
  | pop =>
    cases s.target p.id with
    | nil => simp [eq_comm]
    | cons save rest => simp

end PackState

/-! ### Packings that can be used -/

/-- The packing of the pragma, if it has one, is a power of two. -/
def PackPragma.Valid (p : PackPragma) : Prop := p.value.all isPowerOfTwo = true

/-- The present packing and those that are saved are powers of two, or none. -/
structure PackState.Valid (s : PackState) : Prop where
  current : s.current.all isPowerOfTwo = true
  saved : ∀ save ∈ s.saved, save.1.all isPowerOfTwo = true

namespace PackPragma

theorem value?_isPowerOfTwo {digits : List Char} {v : UInt32} (h : value? digits = some v) :
    isPowerOfTwo v = true := by
  unfold value? at h
  split at h
  · split at h
    · rename_i hn
      cases h
      exact (Bool.and_eq_true_iff.1 hn).2
    · cases h
  · cases h

theorem Valid.withOption {p q : PackPragma} (h : p.Valid) {option : List Char}
    (hq : p.withOption option = .ok q) : q.Valid := by
  unfold PackPragma.withOption at hq
  dsimp only at hq
  split at hq
  · cases hq
    exact h
  · split at hq
    · cases hq
      exact h
    · split at hq
      · cases hq
        exact h
      · split at hq
        · split at hq
          · rename_i v hv
            cases hq
            exact value?_isPowerOfTwo hv
          · cases hq
        · cases hq
          exact h

theorem Valid.foldlM {p q : PackPragma} (h : p.Valid) {options : List (List Char)}
    (hq : options.foldlM PackPragma.withOption p = .ok q) : q.Valid := by
  induction options generalizing p with
  | nil =>
    cases hq
    exact h
  | cons option options ih =>
    rw [List.foldlM_cons] at hq
    cases hoption : p.withOption option with
    | error e =>
      rw [hoption] at hq
      cases hq
    | ok next =>
      rw [hoption] at hq
      exact ih (h.withOption hoption) hq

theorem valid_of_ofText? {rest : List Char} {p : PackPragma} (h : ofText? rest = some (.ok p)) :
    p.Valid := by
  unfold ofText? at h
  simp only [Option.bind_eq_bind, Option.bind_eq_some_iff] at h
  obtain ⟨_, _, _, _, _, _, hoptions⟩ := h
  have hstart : Valid {} := rfl
  exact hstart.foldlM (Option.some.inj hoptions)

/-- A pragma that is read has a packing that can be used. -/
theorem valid_of_ofLine? {line : List Char} {p : PackPragma} (h : ofLine? line = some p) :
    p.Valid := by
  obtain ⟨d, _, hd⟩ := Option.bind_eq_some_iff.1 h
  unfold Directive.packPragma? at hd
  split at hd
  · obtain ⟨parsed, htext, hparsed⟩ := Option.bind_eq_some_iff.1 hd
    cases parsed with
    | error e => cases hparsed
    | ok q =>
      cases hparsed
      exact valid_of_ofText? htext
  · cases hd

end PackPragma

namespace PackState

theorem valid_start : Valid {} := ⟨rfl, fun _ h => absurd h List.not_mem_nil⟩

theorem all_or {a b : Option UInt32} (ha : a.all isPowerOfTwo = true)
    (hb : b.all isPowerOfTwo = true) : (a.or b).all isPowerOfTwo = true := by
  cases a with
  | none => exact hb
  | some v => exact ha

theorem target_suffix (s : PackState) (id : Option String) : s.target id <:+ s.saved := by
  cases id with
  | none => exact List.suffix_refl _
  | some name => exact List.dropWhile_suffix _

/-- What a pragma sets, saves or brings back can be used. -/
theorem Valid.apply {s t : PackState} {p : PackPragma} (h : s.Valid) (hp : p.Valid)
    (ht : s.apply p = .ok t) : t.Valid := by
  unfold PackState.apply at ht
  cases haction : p.action with
  | «show» =>
    rw [haction] at ht
    cases ht
    exact h
  | set =>
    rw [haction] at ht
    cases ht
    exact ⟨hp, h.saved⟩
  | push =>
    rw [haction] at ht
    cases ht
    exact ⟨all_or hp h.current, List.forall_mem_cons.2 ⟨h.current, h.saved⟩⟩
  | pop =>
    rw [haction] at ht
    dsimp only at ht
    have hsuffix := s.target_suffix p.id
    split at ht
    · cases ht
    · rename_i save rest htarget
      cases ht
      rw [htarget] at hsuffix
      have hkept : ∀ x ∈ save :: rest, x.1.all isPowerOfTwo = true :=
        fun x hx => h.saved x (hsuffix.subset hx)
      exact ⟨all_or hp (hkept save List.mem_cons_self),
        fun x hx => hkept x (List.mem_cons_of_mem _ hx)⟩

theorem Valid.after {s : PackState} {p : PackPragma} (h : s.Valid) (hp : p.Valid) :
    (s.after p).Valid := by
  unfold PackState.after
  cases ht : s.apply p with
  | error e => exact h
  | ok t => exact h.apply hp ht

theorem valid_atLine {pragma? : Nat → Option PackPragma}
    (h : ∀ k p, pragma? k = some p → p.Valid) (k : Nat) : (atLine pragma? k).Valid := by
  induction k with
  | zero => exact valid_start
  | succ k ih =>
    rw [atLine_succ]
    cases hp : pragma? k with
    | none => exact ih
    | some p => exact ih.after (h k p hp)

end PackState

/-! ### One line -/

namespace PreprocessState

variable {s : PreprocessState} {file : String} {number : Nat}

/-- The packings with their log. -/
def packings (s : PreprocessState) : PackState × PackingLog := (s.pack, s.packing)

/-- The packings with their log after a pragma on a line, or without one. -/
def packingsAfter (s : PreprocessState) (number : Nat) (p? : Option PackPragma) :
    PackState × PackingLog :=
  match p?.bind fun p => (s.pack.apply p).toOption with
  | some pack => (pack, s.packing.record number pack.current)
  | none => s.packings

theorem packings_pragma (rest : List Char) :
    (s.pragma number rest).packings =
      s.packingsAfter number ((PackPragma.ofText? rest).bind Except.toOption) := by
  rw [pragma]
  cases PackPragma.ofText? rest with
  | none => rfl
  | some parsed =>
    cases parsed with
    | error issue => cases issue <;> rfl
    | ok p =>
      rw [packingsAfter]
      dsimp only [Option.bind_some, Except.toOption, Except.bind]
      cases s.pack.apply p with
      | ok pack => rfl
      | error issue => cases issue <;> rfl

theorem packings_regroup (directive : GroupDirective) (next : Option ConditionStack) :
    (s.regroup number directive next).packings = s.packings := by
  cases next <;> rfl

theorem packings_define (rest : List Char) :
    (s.define file number rest).packings = s.packings := by
  rw [define]
  split <;> rfl

theorem packings_undef (rest : List Char) : (s.undef number rest).packings = s.packings := by
  rw [undef]
  split <;> rfl

/-- Only pragmas change the packing, where lines count. -/
theorem packings_directive (d : Directive) :
    (s.directive file number d).packings =
      s.packingsAfter number (if s.conditions.isActive then d.packPragma? else none) := by
  obtain ⟨keyword, rest⟩ := d
  rw [directive, Directive.packPragma?]
  cases keyword with
  | pragma =>
    dsimp only
    split
    · exact packings_pragma rest
    · rfl
  | ifTrue | ifdef | ifndef | other => simp only [ite_self]; rfl
  | elif | otherwise | endif =>
    simp only [ite_self]
    exact packings_regroup _ _
  | define =>
    simp only [ite_self]
    split
    · exact packings_define rest
    · rfl
  | undef =>
    simp only [ite_self]
    split
    · exact packings_undef rest
    · rfl

/-- The packing pragma of a line, where lines count. -/
def pragma? (s : PreprocessState) (text : List Char) : Option PackPragma :=
  if s.conditions.isActive then PackPragma.ofLine? text else none

/-- **A line changes the packing by its pragma**, and the log with it. -/
theorem packings_line (text : List Char) :
    (s.line file number text).1.packings = s.packingsAfter number (s.pragma? text) := by
  rw [line, pragma?, PackPragma.ofLine?]
  cases Directive.ofLine? text with
  | some d => exact packings_directive d
  | none =>
    simp only [Option.bind_none, ite_self]
    split <;> rfl

theorem fst_packingsAfter (p? : Option PackPragma) :
    (s.packingsAfter number p?).1 = p?.elim s.pack s.pack.after := by
  cases p? with
  | none => rfl
  | some p =>
    show _ = (s.pack.apply p).toOption.getD s.pack
    rw [packingsAfter, Option.bind_some]
    cases (s.pack.apply p).toOption <;> rfl

end PreprocessState

/-! ### The log of pragmas -/

namespace PackingLog

/-- The log of the pragmas on the first `k` lines: the default, and the changes line by line. -/
def ofPragmas (pragma? : Nat → Option PackPragma) (k : Nat) : PackingLog :=
  ⟨(0, none) :: (List.range k).filterMap (PackState.change? pragma?)⟩

variable {pragma? : Nat → Option PackPragma} {k : Nat}

theorem ofPragmas_succ :
    ofPragmas pragma? (k + 1) =
      match (pragma? k).bind fun p => ((PackState.atLine pragma? k).apply p).toOption with
      | some pack => (ofPragmas pragma? k).record k pack.current
      | none => ofPragmas pragma? k := by
  have hchange : PackState.change? pragma? k =
      ((pragma? k).bind fun p => ((PackState.atLine pragma? k).apply p).toOption).map
        fun pack => (k, pack.current) := by
    rw [PackState.change?, Option.map_bind]
    rfl
  rw [ofPragmas, List.range_succ, List.filterMap_append]
  simp only [List.filterMap_cons, List.filterMap_nil, hchange]
  cases (pragma? k).bind fun p => ((PackState.atLine pragma? k).apply p).toOption with
  | none => simp [ofPragmas]
  | some pack => simp [ofPragmas, record]

theorem le_of_mem_ofPragmas {e : Nat × Option UInt32} (h : e ∈ (ofPragmas pragma? k).entries) :
    e.1 ≤ k := by
  cases List.mem_cons.1 h with
  | inl h =>
    rw [h]
    exact Nat.zero_le k
  | inr h =>
    obtain ⟨n, hn, hchange⟩ := List.mem_filterMap.1 h
    obtain ⟨p, _, happly⟩ := Option.bind_eq_some_iff.1 hchange
    obtain ⟨pack, _, rfl⟩ := Option.map_eq_some_iff.1 happly
    exact Nat.le_of_lt (List.mem_range.1 hn)

/-- The lines of the log go upward. -/
theorem pairwise_ofPragmas (pragma? : Nat → Option PackPragma) (k : Nat) :
    (ofPragmas pragma? k).entries.Pairwise fun e f => e.1 ≤ f.1 := by
  induction k with
  | zero => exact List.pairwise_singleton _ _
  | succ k ih =>
    rw [ofPragmas_succ]
    split
    · apply List.pairwise_append.2
      refine ⟨ih, List.pairwise_singleton _ _, fun e he f hf => ?_⟩
      rw [List.mem_singleton.1 hf]
      exact le_of_mem_ofPragmas he
    · exact ih

/-- Changes on later lines do not matter. -/
theorem packAt_record_of_lt {log : PackingLog} {line l : Nat} {pack : Option UInt32}
    (h : l < line) : (log.record line pack).packAt l = log.packAt l := by
  have hnot : ¬ line ≤ l := Nat.not_le.2 h
  rw [packAt, record, List.takeWhile_append]
  split
  · rename_i hall
    rw [List.takeWhile_cons_of_neg (by simpa using hnot), List.append_nil,
      packAt, (List.takeWhile_prefix _).eq_of_length hall]
  · rfl

/-- The last change is the one in effect. -/
theorem packAt_record_of_le {log : PackingLog} {line l : Nat} {pack : Option UInt32}
    (hlog : ∀ e ∈ log.entries, e.1 ≤ l) (h : line ≤ l) :
    (log.record line pack).packAt l = pack := by
  have hall : (log.record line pack).entries.takeWhile (·.1 ≤ l) =
      (log.record line pack).entries := by
    apply List.takeWhile_eq_self_iff.2
    intro e he
    cases List.mem_append.1 he with
    | inl he => exact decide_eq_true (hlog e he)
    | inr he =>
      rw [List.mem_singleton.1 he]
      exact decide_eq_true h
  rw [packAt, hall, record, List.getLast?_concat]
  rfl

/-- **Looked up by line, the log is the state behind that line**, as far as the log goes. -/
theorem packAt_ofPragmas (pragma? : Nat → Option PackPragma) (k l : Nat) :
    (ofPragmas pragma? k).packAt l = (PackState.atLine pragma? (min (l + 1) k)).current := by
  induction k with
  | zero => rfl
  | succ k ih =>
    by_cases hl : l < k
    · -- the line is behind: its packing is settled
      have hmin : min (l + 1) (k + 1) = min (l + 1) k := by omega
      rw [hmin, ← ih, ofPragmas_succ]
      split
      · exact packAt_record_of_lt hl
      · rfl
    · have hmin : min (l + 1) (k + 1) = k + 1 := by omega
      have hbefore : min (l + 1) k = k := by omega
      rw [hbefore] at ih
      rw [hmin, ofPragmas_succ, PackState.atLine_succ]
      cases hp : pragma? k with
      | none => exact ih
      | some p =>
        rw [Option.bind_some, Option.elim_some, PackState.after]
        cases ((PackState.atLine pragma? k).apply p).toOption with
        | none => exact ih
        | some pack =>
          exact packAt_record_of_le
            (fun e he => Nat.le_trans (le_of_mem_ofPragmas he) (Nat.not_lt.1 hl))
            (Nat.not_lt.1 hl)

/-- The packings of the log can be used. -/
theorem valid_ofPragmas (h : ∀ k p, pragma? k = some p → p.Valid) (k : Nat) :
    ∀ e ∈ (ofPragmas pragma? k).entries, e.2.all isPowerOfTwo = true := by
  intro e he
  cases List.mem_cons.1 he with
  | inl he =>
    rw [he]
    rfl
  | inr he =>
    obtain ⟨n, _, hchange⟩ := List.mem_filterMap.1 he
    obtain ⟨p, hp, happly⟩ := Option.bind_eq_some_iff.1 hchange
    obtain ⟨pack, hpack, rfl⟩ := Option.map_eq_some_iff.1 happly
    have hok : (PackState.atLine pragma? n).apply p = .ok pack := by
      cases hresult : (PackState.atLine pragma? n).apply p with
      | error issue =>
        rw [hresult] at hpack
        cases hpack
      | ok t =>
        rw [hresult] at hpack
        cases hpack
        rfl
    exact ((PackState.valid_atLine h n).apply (h n p hp) hok).current

end PackingLog

/-! ### Texts -/

namespace PreprocessState

/-- The state before line `k` of a text, given by its lines. -/
def beforeLine (r : Registry) (file : String) (source : List (List Char)) (k : Nat) :
    PreprocessState := (lines { registry := r } file 0 (source.take k)).1

/-- The packing pragma of line `k`, where lines count. -/
def pragmaAt? (r : Registry) (file : String) (source : List (List Char)) (k : Nat) :
    Option PackPragma := source[k]?.bind (beforeLine r file source k).pragma?

variable (r : Registry) (file : String) (source : List (List Char))

theorem beforeLine_succ (k : Nat) :
    beforeLine r file source (k + 1) =
      source[k]?.elim (beforeLine r file source k)
        fun text => ((beforeLine r file source k).line file k text).1 := by
  rw [beforeLine, List.take_add_one, lines_append]
  cases h : source[k]? with
  | none => rfl
  | some text =>
    have hk : k ≤ source.length := Nat.le_of_lt (List.getElem?_eq_some_iff.1 h).1
    rw [List.length_take_of_le hk, Nat.zero_add]
    rfl

theorem packings_beforeLine_succ (k : Nat) :
    (beforeLine r file source (k + 1)).packings =
      (beforeLine r file source k).packingsAfter k (pragmaAt? r file source k) := by
  rw [beforeLine_succ, pragmaAt?]
  cases source[k]? with
  | none => rfl
  | some text => exact packings_line text

/-- **The packings and the log follow the pragmas**, line by line. -/
theorem packings_beforeLine (k : Nat) :
    (beforeLine r file source k).packings =
      (PackState.atLine (pragmaAt? r file source) k,
        PackingLog.ofPragmas (pragmaAt? r file source) k) := by
  induction k with
  | zero => rfl
  | succ k ih =>
    have hpack : (beforeLine r file source k).pack = PackState.atLine (pragmaAt? r file source) k :=
      congrArg Prod.fst ih
    have hlog : (beforeLine r file source k).packing =
        PackingLog.ofPragmas (pragmaAt? r file source) k := congrArg Prod.snd ih
    rw [packings_beforeLine_succ]
    apply Prod.ext
    · rw [fst_packingsAfter, hpack, PackState.atLine_succ]
    · rw [packingsAfter, hpack, hlog, PackingLog.ofPragmas_succ]
      cases (pragmaAt? r file source k).bind fun p =>
        ((PackState.atLine (pragmaAt? r file source) k).apply p).toOption with
      | none => exact hlog
      | some pack => rfl

theorem valid_pragmaAt? {k : Nat} {p : PackPragma} (h : pragmaAt? r file source k = some p) :
    p.Valid := by
  obtain ⟨text, _, htext⟩ := Option.bind_eq_some_iff.1 h
  unfold pragma? at htext
  split at htext
  · exact PackPragma.valid_of_ofLine? htext
  · cases htext

/-- A line without a pragma leaves the packings and the log alone. -/
theorem packings_beforeLine_of_none {k : Nat} (hp : pragmaAt? r file source k = none) :
    (beforeLine r file source (k + 1)).packings = (beforeLine r file source k).packings := by
  rw [packings_beforeLine_succ, hp]
  rfl

/-- A pop with nothing to bring back leaves the packings and the log alone. -/
theorem packings_beforeLine_of_pop {k : Nat} {p : PackPragma}
    (hp : pragmaAt? r file source k = some p) (haction : p.action = .pop)
    (hsaved : ∀ save ∈ (beforeLine r file source k).pack.saved, p.id ≠ none ∧ save.2 ≠ p.id) :
    (beforeLine r file source (k + 1)).packings = (beforeLine r file source k).packings := by
  rw [packings_beforeLine_succ, hp, packingsAfter, Option.bind_some,
    PackState.apply_eq_error.2 ⟨rfl, haction, hsaved⟩]
  rfl

theorem packings_finish (s : PreprocessState) : s.finish.packings = s.packings := by
  rw [finish]
  split <;> rfl

end PreprocessState

/-- The log of a text is that of the pragmas on its lines, and of any lines behind them. -/
theorem packing_preprocessNormal (r : Registry) (file text : String) {k : Nat}
    (hk : (splitAt '\n' text.toList).length ≤ k) :
    (preprocessNormal r file text).2.packing =
      PackingLog.ofPragmas (PreprocessState.pragmaAt? r file (splitAt '\n' text.toList)) k := by
  have hend : (preprocessNormal r file text).2.packing =
      (PreprocessState.beforeLine r file (splitAt '\n' text.toList) k).finish.packing := by
    rw [PreprocessState.beforeLine, List.take_of_length_le hk]
    rfl
  have hlog := (PreprocessState.packings_finish _).trans
    (PreprocessState.packings_beforeLine r file (splitAt '\n' text.toList) k)
  rw [hend]
  exact congrArg Prod.snd hlog

/-- The packings of the log of a text can be used. -/
theorem isPowerOfTwo_of_mem_packing {r : Registry} {file text : String}
    {e : Nat × Option UInt32} (he : e ∈ (preprocessNormal r file text).2.packing.entries)
    {p : UInt32} (hp : e.2 = some p) : isPowerOfTwo p = true := by
  rw [packing_preprocessNormal r file text (Nat.le_refl _)] at he
  have hvalid := PackingLog.valid_ofPragmas
    (fun k q hq => PreprocessState.valid_pragmaAt? r file _ hq) _ e he
  rw [hp] at hvalid
  exact hvalid

theorem exists_pow_of_isPowerOfTwo {n : UInt32} (h : isPowerOfTwo n = true) :
    ∃ i, n.toNat = 2 ^ i := by
  obtain ⟨hne, hand⟩ := Bool.and_eq_true_iff.1 h
  have hpos : n.toNat ≠ 0 := by
    intro hzero
    rw [bne_iff_ne] at hne
    exact hne (UInt32.toNat_inj.1 hzero)
  have hle : (1 : UInt32) ≤ n := by
    rw [UInt32.le_iff_toNat_le]
    exact Nat.one_le_iff_ne_zero.2 hpos
  have hnat : n.toNat &&& (n.toNat - 1) = 0 := by
    have hand := congrArg UInt32.toNat (eq_of_beq hand)
    rwa [UInt32.toNat_and, UInt32.toNat_sub_of_le _ _ hle] at hand
  exact (Nat.and_sub_one_eq_zero_iff_isPowerOfTwo hpos).1 hnat

theorem PackingLog.exists_of_packAt {log : PackingLog} {line : Nat} {p : UInt32}
    (h : log.packAt line = some p) : ∃ e ∈ log.entries, e.2 = some p := by
  obtain ⟨e, hlast, he⟩ := Option.bind_eq_some_iff.1 h
  exact ⟨e, (List.takeWhile_sublist _).subset (List.mem_of_getLast? hlast), he⟩

/-- No aggregate is refused for its packing if the packings of the log can be used. -/
theorem not_mem_errors_of_packing {log : PackingLog}
    (hlog : ∀ e ∈ log.entries, ∀ p, e.2 = some p → isPowerOfTwo p = true) (g : Grammar)
    (registry : Registry) (name text : String) (line : Nat) (kind : CompoundKind) (tag : String)
    (p : UInt32) : .aggregate line kind tag (.invalidPack p) ∉
      (g.parseFile registry name log text).2.errors := by
  intro hmem
  obtain ⟨q, _, hpack, hq⟩ := (parseFile_regular g registry name log text).2 _ hmem
  obtain ⟨e, he, hvalue⟩ := PackingLog.exists_of_packAt hpack
  rw [hlog e he q hvalue] at hq
  cases hq

/-- **The packing log is the packing state by line.** Here `pragma? k` is the packing pragma of line
`k`, if that line counts and the packing can be used, and `state k` is what the pragmas before line
`k` make of the packings, one after the other.

* The lines of the log go upward, and looked up by line it gives the present packing behind the
  line.
* Preprocessing has these packings before each line, and the log has one entry for each pragma that
  does not fail.
* Lines without such a pragma, and pops for which nothing was saved, or nothing under their name,
  leave the packings and the log alone.
* Each packing in the log is a power of two, so no aggregate that is read with the log is refused
  for its packing. -/
theorem packing_log_by_line (r : Registry) (file text : String) :
    let source := splitAt '\n' text.toList
    let before := PreprocessState.beforeLine r file source
    let pragma? := PreprocessState.pragmaAt? r file source
    let state := PackState.atLine pragma?
    let log := (preprocessNormal r file text).2.packing
    log.entries.Pairwise (fun e f => e.1 ≤ f.1) ∧
      (∀ l, log.packAt l = (state (l + 1)).current) ∧
      (∀ k, (before k).pack = state k) ∧
      log.entries = (0, none) :: (List.range source.length).filterMap (fun k =>
        (pragma? k).bind fun p => ((state k).apply p).toOption.map fun s => (k, s.current)) ∧
      (∀ k, pragma? k = none → (before (k + 1)).pack = (before k).pack ∧
        (before (k + 1)).packing = (before k).packing) ∧
      (∀ k p, pragma? k = some p → p.action = .pop →
        (∀ save ∈ (before k).pack.saved, p.id ≠ none ∧ save.2 ≠ p.id) →
          (before (k + 1)).pack = (before k).pack ∧
            (before (k + 1)).packing = (before k).packing) ∧
      (∀ e ∈ log.entries, ∀ p, e.2 = some p → ∃ i, p.toNat = 2 ^ i) ∧
      ∀ (g : Grammar) (registry : Registry) (name parsed : String) (line : Nat)
        (kind : CompoundKind) (tag : String) (p : UInt32),
        .aggregate line kind tag (.invalidPack p) ∉
          (g.parseFile registry name log parsed).2.errors := by
  intro source before pragma? state log
  have hbefore := PreprocessState.packings_beforeLine r file source
  have hlog : log = PackingLog.ofPragmas pragma? source.length :=
    packing_preprocessNormal r file text (Nat.le_refl _)
  have hpowers : ∀ e ∈ log.entries, ∀ p, e.2 = some p → isPowerOfTwo p = true :=
    fun e he p hp => isPowerOfTwo_of_mem_packing he hp
  refine ⟨?_, ?_, ?_, ?_, ?_, ?_, ?_, ?_⟩
  · rw [hlog]
    exact PackingLog.pairwise_ofPragmas _ _
  · intro l
    -- the log is also that of enough lines for line `l` to be among them
    have hlines : log = PackingLog.ofPragmas pragma? (max source.length (l + 1)) :=
      packing_preprocessNormal r file text (Nat.le_max_left _ _)
    have hmin : min (l + 1) (max source.length (l + 1)) = l + 1 := by omega
    rw [hlines, PackingLog.packAt_ofPragmas, hmin]
  · intro k
    exact congrArg Prod.fst (hbefore k)
  · rw [hlog]
    rfl
  · intro k hk
    have hnone := PreprocessState.packings_beforeLine_of_none r file source hk
    exact ⟨congrArg Prod.fst hnone, congrArg Prod.snd hnone⟩
  · intro k p hk haction hsaved
    have hpop := PreprocessState.packings_beforeLine_of_pop r file source hk haction hsaved
    exact ⟨congrArg Prod.fst hpop, congrArg Prod.snd hpop⟩
  · intro e he p hp
    exact exists_pow_of_isPowerOfTwo (hpowers e he p hp)
  · exact fun g registry => not_mem_errors_of_packing hpowers g registry

/-- A packing that is brought back, and a pop with nothing left to bring back. -/
def popTwiceText : String :=
  "#pragma pack(push, 2)\nint a;\n#pragma pack(pop)\n#pragma pack(pop)"

theorem packing_log_by_line_popTwice :
    let before := PreprocessState.beforeLine .empty "a.h" (splitAt '\n' popTwiceText.toList)
    let log := (preprocessNormal .empty "a.h" popTwiceText).2.packing
    log.entries = [(0, none), (0, some 2), (2, none)] ∧ (before 1).pack.current = log.packAt 0 ∧
      (before 2).pack = (before 1).pack ∧
      (before 4).pack = (before 3).pack ∧ (before 4).packing = (before 3).packing := by
  obtain ⟨-, hlookup, hstate, -, hnone, hpop, -, -⟩ :=
    packing_log_by_line .empty "a.h" popTwiceText
  refine ⟨by decide, ?_, (hnone 1 (by decide)).1, hpop 3 { action := .pop } (by decide) rfl ?_⟩
  · rw [hlookup 0, hstate 1]
  · decide

end CInterface
