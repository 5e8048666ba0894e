import CInterface.Proofs.Json.Reading
import Mathlib.Data.List.Basic
/-!
# Round trips through JSON

* `Json.RoundTrips` — a value is read back from its document, on as many levels as the document
  nests, and the document is read back from its text.
* `Json.RoundTrips.decode` — so the value is read back from its text.
* `Json.roundTrips_text`, `Json.roundTrips_list`, `Json.roundTrips_map`, … — round trips of simple
  data, and of data made of others.
* `Json.record?_ofMembers`, `Json.variant?_ofVariant` — records and variants.
-/

namespace CInterface

namespace Json

variable {α β : Type}

/-! ### Nesting -/

theorem depthItems_le {js : List Json} {n : Nat} : depthItems js ≤ n ↔ ∀ j ∈ js, depth j ≤ n := by
  induction js with
  | nil => simp [depthItems]
  | cons j js ih => rw [depthItems, Nat.max_le, ih, List.forall_mem_cons]

theorem depthMembers_le {ms : List (List Char × Json)} {n : Nat} :
    depthMembers ms ≤ n ↔ ∀ m ∈ ms, depth m.2 ≤ n := by
  induction ms with
  | nil => simp [depthMembers]
  | cons m ms ih =>
    obtain ⟨key, j⟩ := m
    rw [depthMembers, Nat.max_le, ih, List.forall_mem_cons]

/-- The items of an array are nested one level less. -/
theorem depth_array_le {js : List Json} {n : Nat} :
    depth (array js) ≤ n ↔ ∃ d, n = d + 1 ∧ ∀ j ∈ js, depth j ≤ d := by
  rw [depth]
  constructor
  · intro h
    refine ⟨n - 1, by omega, depthItems_le.1 (by omega)⟩
  · rintro ⟨d, rfl, h⟩
    exact Nat.succ_le_succ (depthItems_le.2 h)

/-- The members of an object are nested one level less. -/
theorem depth_ofMembers_le {ms : List (String × Json)} {n : Nat} :
    depth (ofMembers ms) ≤ n ↔ ∃ d, n = d + 1 ∧ ∀ m ∈ ms, depth m.2 ≤ d := by
  rw [ofMembers, depth]
  constructor
  · intro h
    refine ⟨n - 1, by omega, fun m hm => ?_⟩
    have hmembers : depthMembers (ms.map fun m => (quote m.1.toList, m.2)) ≤ n - 1 := by omega
    exact depthMembers_le.1 hmembers _ (List.mem_map_of_mem hm)
  · rintro ⟨d, rfl, h⟩
    refine Nat.succ_le_succ (depthMembers_le.2 fun m hm => ?_)
    obtain ⟨m', hm', rfl⟩ := List.mem_map.1 hm
    exact h m' hm'

/-! ### Round trips -/

/-- The value is read back from its document where there are levels enough, and the document from
its text. -/
structure RoundTrips (toJson : α → Json) (read? : Nat → Json → Option α) (x : α) : Prop where
  readable : (toJson x).Readable
  reads : ∀ n, (toJson x).depth ≤ n → read? n (toJson x) = some x

/-- **What makes the round trip is read back from its text**, unless it is nested too deep. -/
theorem RoundTrips.decode {toJson : α → Json} {read? : Nat → Json → Option α} {x : α}
    (h : RoundTrips toJson read? x) (hdepth : (toJson x).depth ≤ nestingLimit) :
    decode? read? (toJson x).text = some x := by
  rw [decode?, parse?_text h.readable]
  exact h.reads nestingLimit hdepth

/-! ### Simple data -/

theorem readable_ofString (s : String) : (ofString s).Readable := .string s.toList

theorem text?_ofString (s : String) : text? (ofString s) = some s := by
  show (unquote? (quote s.toList)).map String.ofList = some s
  rw [unquote?_quote]
  exact congrArg some String.ofList_toList

theorem roundTrips_text (s : String) : RoundTrips ofString (fun _ => text?) s :=
  ⟨readable_ofString s, fun _ _ => text?_ofString s⟩

theorem isNumber_toString (n : Int) : IsNumber (toString n).toList := by
  constructor
  · rw [toList_toString]
    by_cases hneg : n < 0
    · rw [if_pos hneg]
      exact ⟨'-', _, rfl, Or.inr rfl⟩
    · rw [if_neg hneg]
      cases hds : Nat.toDigits 10 n.natAbs with
      | nil => exact absurd hds Nat.toDigits_ne_nil
      | cons d ds =>
        refine ⟨d, ds, rfl, Or.inl (digits_toDigits n.natAbs d ?_)⟩
        rw [hds]
        exact List.mem_cons_self
  · exact fun r hr => numberLength?_toString n hr

theorem readable_ofInt (n : Int) : (ofInt n).Readable := .number (isNumber_toString n)

theorem integer?_ofInt {n : Int} (hlow : Int64.minValue.toInt ≤ n) (hhigh : n < UInt64.size) :
    integer? (ofInt n) = some n := by
  rw [ofInt, integer?, number?_toString hlow hhigh]

theorem roundTrips_int64 (n : Int64) :
    RoundTrips (fun n : Int64 => ofInt n.toInt) (fun _ => int64?) n := by
  refine ⟨readable_ofInt _, fun _ _ => ?_⟩
  have hlow : Int64.minValue.toInt ≤ n.toInt := Int64.minValue_le_toInt n
  have hhigh : n.toInt ≤ Int64.maxValue.toInt := Int64.toInt_le n
  have hmax : Int64.maxValue.toInt = 9223372036854775807 := by decide
  have hsize : UInt64.size = 18446744073709551616 := rfl
  show int64? (ofInt n.toInt) = some n
  rw [int64?, integer?_ofInt hlow (by omega)]
  show (if Int64.minValue.toInt ≤ n.toInt && n.toInt ≤ Int64.maxValue.toInt then
    some (Int64.ofInt n.toInt) else none) = some n
  rw [if_pos (by rw [Bool.and_eq_true, decide_eq_true_eq, decide_eq_true_eq]; exact ⟨hlow, hhigh⟩),
    Int64.ofInt_toInt]

theorem nat?_ofInt {bound n : Nat} (hbound : bound ≤ UInt64.size) (h : n < bound) :
    nat? bound (ofInt n) = some n := by
  have hmin : Int64.minValue.toInt = -9223372036854775808 := by decide
  rw [nat?, integer?_ofInt (by omega) (by omega)]
  show (if 0 ≤ (n : Int) && (n : Int) < bound then some (n : Int).toNat else none) = some n
  rw [if_pos (by rw [Bool.and_eq_true, decide_eq_true_eq, decide_eq_true_eq]; omega),
    Int.toNat_natCast]

theorem roundTrips_nat {bound n : Nat} (hbound : bound ≤ UInt64.size) (h : n < bound) :
    RoundTrips (fun n : Nat => ofInt n) (fun _ => nat? bound) n :=
  ⟨readable_ofInt _, fun _ _ => nat?_ofInt hbound h⟩

theorem roundTrips_uint64 (n : UInt64) :
    RoundTrips (fun n : UInt64 => ofInt n.toNat) (fun _ => uint64?) n := by
  refine ⟨readable_ofInt _, fun _ _ => ?_⟩
  show (nat? UInt64.size (ofInt n.toNat)).map UInt64.ofNat = some n
  rw [nat?_ofInt (Nat.le_refl _) n.toNat_lt, Option.map_some, UInt64.ofNat_toNat]

theorem roundTrips_uint32 (n : UInt32) : RoundTrips ofUInt32 (fun _ => uint32?) n := by
  refine ⟨readable_ofInt _, fun _ _ => ?_⟩
  show (nat? UInt32.size (ofInt n.toNat)).map UInt32.ofNat = some n
  rw [nat?_ofInt (by decide) n.toNat_lt, Option.map_some, UInt32.ofNat_toNat]

variable {toJson : α → Json} {read? : Nat → Json → Option α}

/-- A value that may be missing, where its document is not null. -/
theorem roundTrips_option {x : Option α} (hnull : ∀ y, toJson y ≠ null)
    (h : ∀ y ∈ x, RoundTrips toJson read? y) :
    RoundTrips (ofOption toJson) (fun n => option? (read? n)) x := by
  cases x with
  | none => exact ⟨.null, fun _ _ => rfl⟩
  | some y =>
    have hy := h y rfl
    refine ⟨hy.readable, fun n hn => ?_⟩
    show option? (read? n) (toJson y) = some (some y)
    rw [option?, hy.reads n hn]
    · rfl
    · exact hnull y

/-! ### Lists and maps -/

theorem mapM_map_eq_some {f : α → β} {g : β → Option α} {xs : List α}
    (h : ∀ x ∈ xs, g (f x) = some x) : (xs.map f).mapM g = some xs := by
  induction xs with
  | nil => rfl
  | cons x xs ih =>
    have hx := h x List.mem_cons_self
    have hxs := ih fun y hy => h y (List.mem_cons_of_mem _ hy)
    rw [List.map_cons, List.mapM_cons, hx, hxs]
    rfl

theorem roundTrips_list {xs : List α} (h : ∀ x ∈ xs, RoundTrips toJson read? x) :
    RoundTrips (ofList toJson) (list? read?) xs := by
  constructor
  · refine .array fun j hj => ?_
    obtain ⟨x, hx, rfl⟩ := List.mem_map.1 hj
    exact (h x hx).readable
  · intro n hn
    obtain ⟨d, rfl, hd⟩ := depth_array_le.1 hn
    show (xs.map toJson).mapM (read? d) = some xs
    exact mapM_map_eq_some fun x hx => (h x hx).reads d (hd _ (List.mem_map_of_mem hx))

theorem roundTrips_texts (xs : List String) : RoundTrips ofStrings texts? xs :=
  roundTrips_list fun x _ => roundTrips_text x

/-- An object of named documents. -/
theorem readable_ofMembers {ms : List (String × Json)} (h : ∀ m ∈ ms, m.2.Readable) :
    (ofMembers ms).Readable := by
  refine .object (fun m hm => ?_) fun m hm => ?_
  · obtain ⟨m', _, rfl⟩ := List.mem_map.1 hm
    exact ⟨m'.1.toList, rfl⟩
  · obtain ⟨m', hm', rfl⟩ := List.mem_map.1 hm
    exact h m' hm'

theorem named?_quoted (ms : List (String × Json)) :
    named? (ms.map fun m => (quote m.1.toList, m.2)) = some ms := by
  refine mapM_map_eq_some fun m _ => ?_
  show (unquote? (quote m.1.toList)).map (fun name => (String.ofList name, m.2)) = some m
  rw [unquote?_quote, Option.map_some, String.ofList_toList]

theorem roundTrips_map {m : OrderedMap α} (h : ∀ e ∈ m.entries, RoundTrips toJson read? e.2) :
    RoundTrips (ofMap toJson) (map? read?) m := by
  constructor
  · refine readable_ofMembers fun e he => ?_
    obtain ⟨e', he', rfl⟩ := List.mem_map.1 he
    exact (h e' he').readable
  · intro n hn
    obtain ⟨d, rfl, hd⟩ := depth_ofMembers_le.1 hn
    have hentries : (m.entries.map fun e => (e.1, toJson e.2)).mapM
        (fun e : String × Json => (read? d e.2).map (e.1, ·)) = some m.entries := by
      refine mapM_map_eq_some fun e he => ?_
      show (read? d (toJson e.2)).map (e.1, ·) = some e
      rw [(h e he).reads d (hd (e.1, toJson e.2) (List.mem_map_of_mem he))]
      rfl
    rw [ofMap, ofMembers, map?, named?_quoted]
    show OrderedMap.ofList <$> (m.entries.map fun e => (e.1, toJson e.2)).mapM _ = some m
    rw [hentries]
    exact congrArg some (OrderedMap.ofList_entries m)

/-! ### Records and variants -/

theorem member?_eq {ms : List (String × Json)} (hnodup : (ms.map Prod.fst).Nodup)
    {m : String × Json} (hm : m ∈ ms) : member? m.1 ms = some (some m.2) := by
  have hfilter : ms.filter (·.1 = m.1) = [m] := by
    induction ms with
    | nil => cases hm
    | cons e ms ih =>
      obtain ⟨hnew, hrest⟩ := List.nodup_cons.1 hnodup
      cases List.mem_cons.1 hm with
      | inl heq =>
        subst heq
        rw [List.filter_cons_of_pos (by simp), List.filter_eq_nil_iff.2]
        intro e he heq
        refine hnew ?_
        rw [← of_decide_eq_true heq]
        exact List.mem_map_of_mem he
      | inr hmem =>
        have hne : e.1 ≠ m.1 := fun heq => hnew (by rw [heq]; exact List.mem_map_of_mem hmem)
        rw [List.filter_cons_of_neg (by simp [hne])]
        exact ih hrest hmem
  rw [member?, hfilter]

/-- A record that is written with each of its fields is read with each of them. -/
theorem record?_ofMembers {ms : List (String × Json)} (hnodup : (ms.map Prod.fst).Nodup) :
    record? (ms.map Prod.fst) (ofMembers ms) = some (ms.map fun m => some m.2) := by
  have hfields : (ms.map Prod.fst).mapM (member? · ms) = some (ms.map fun m => some m.2) := by
    have hmem : ∀ (es : List (String × Json)), (∀ e ∈ es, e ∈ ms) →
        (es.map Prod.fst).mapM (member? · ms) = some (es.map fun m => some m.2) := by
      intro es
      induction es with
      | nil => exact fun _ => rfl
      | cons e es ih =>
        intro hes
        rw [List.map_cons, List.mapM_cons, member?_eq hnodup (hes e List.mem_cons_self),
          ih fun e' he' => hes e' (List.mem_cons_of_mem _ he')]
        rfl
    exact hmem ms fun _ he => he
  rw [ofMembers, record?, named?_quoted]
  exact hfields

/-- A record makes the round trip, if it is read from the documents of its fields. -/
theorem RoundTrips.record {x : α} (names : List String) (docs : List Json)
    (hlength : names.length = docs.length) (hjson : toJson x = ofMembers (names.zip docs))
    (hnodup : names.Nodup) (hreadable : docs.Forall Readable)
    (hread : ∀ d, docs.Forall (depth · ≤ d) →
      record? names (toJson x) = some (docs.map some) → read? (d + 1) (toJson x) = some x) :
    RoundTrips toJson read? x := by
  have hnames : (names.zip docs).map Prod.fst = names := List.map_fst_zip (by omega)
  have hdocs : (names.zip docs).map Prod.snd = docs := List.map_snd_zip (by omega)
  have hmem : ∀ m ∈ names.zip docs, m.2 ∈ docs := by
    intro m hm
    rw [← hdocs]
    exact List.mem_map_of_mem hm
  constructor
  · rw [hjson]
    exact readable_ofMembers fun m hm => List.forall_iff_forall_mem.1 hreadable _ (hmem m hm)
  · intro n hn
    rw [hjson] at hn
    obtain ⟨d, rfl, hd⟩ := depth_ofMembers_le.1 hn
    apply hread d
    · refine List.forall_iff_forall_mem.2 fun j hj => ?_
      rw [← hdocs] at hj
      obtain ⟨m, hm, rfl⟩ := List.mem_map.1 hj
      exact hd m hm
    · have hkeys : ((names.zip docs).map Prod.fst).Nodup := by
        rw [hnames]
        exact hnodup
      have hrecord := record?_ofMembers hkeys
      have hsome : (names.zip docs).map (fun m => some m.2) = docs.map some := by
        rw [← hdocs, List.map_map, hdocs]
        rfl
      rw [hnames, hsome, ← hjson] at hrecord
      exact hrecord

theorem variant?_ofVariant (name : String) (content : Json) :
    variant? (ofVariant name content) = some (name, content) := by
  show (unquote? (quote name.toList)).map (fun name => (String.ofList name, content)) = _
  rw [unquote?_quote, Option.map_some, String.ofList_toList]

theorem readable_ofVariant {name : String} {content : Json} (h : content.Readable) :
    (ofVariant name content).Readable := by
  refine readable_ofMembers fun m hm => ?_
  obtain rfl := List.mem_singleton.1 hm
  exact h

theorem depth_ofVariant_le {name : String} {content : Json} {n : Nat} :
    depth (ofVariant name content) ≤ n ↔ ∃ d, n = d + 1 ∧ depth content ≤ d := by
  rw [ofVariant, depth_ofMembers_le]
  simp only [List.mem_singleton, forall_eq]

end Json

end CInterface
