import CInterface.Proofs.Json.Contents
/-!
# The JSON encoding loses nothing

A registry is read back from its JSON text as it was, with the order of the names in every category
and of the files, where it holds no float and is not nested too deep. So are its parts by
themselves.

* `Definitions.All`, `Registry.All` — a property of all definitions of a view, and of a registry.
* `Registry.roundTrips`, `PackingLog.roundTrips` — the round trips.
* `json_roundTrip` — everything that is kept as JSON, by its text; `json_roundTrip_sampleRegistry`
  is a case.
-/

namespace CInterface

open Json (RoundTrips ofFloat float? decode?)

/-! ### Views -/

/-- All definitions of the view have the property. -/
def Definitions.All (P : Definition → Prop) (d : Definitions) : Prop :=
  ∀ c : Category, ∀ x ∈ (d.map c).values, P ⟨c, x⟩

/-- All definitions of the registry have the property, in the view of all files and in that of
each. -/
def Registry.All (P : Definition → Prop) (r : Registry) : Prop :=
  r.flat.All P ∧ ∀ d ∈ r.files.values, d.All P

namespace Definitions

theorem map_foldl_set (d : Definitions) (cs : List Category) (e : Definitions) (c : Category) :
    (cs.foldl (fun e c => e.set c (d.map c)) e).map c = if c ∈ cs then d.map c else e.map c := by
  induction cs generalizing e with
  | nil => rfl
  | cons b cs ih =>
    rw [List.foldl_cons, ih]
    by_cases hb : c = b
    · subst hb
      rw [map_set_self, if_pos List.mem_cons_self]
      split <;> rfl
    · have hmem : c ∈ b :: cs ↔ c ∈ cs := by simp [hb]
      simp only [map_set_of_ne e hb, hmem]

/-- A view is made of its categories. -/
theorem foldl_set (d : Definitions) :
    Category.all.foldl (fun e c => e.set c (d.map c)) Definitions.empty = d := by
  apply ext_map
  intro c
  rw [map_foldl_set, if_pos c.mem_all]

/-- Categories are read one after the other. -/
theorem foldlM_read {d : Definitions} {depth : Nat} {cs : List Category}
    (h : ∀ c ∈ cs, Json.map? c.ofJson? depth (Json.ofMap c.toJson (d.map c)) = some (d.map c))
    (e : Definitions) :
    (cs.zip (cs.map fun c => some (Json.ofMap c.toJson (d.map c)))).foldlM
      (fun e f => return e.set f.1 (← Json.map? f.1.ofJson? depth (← f.2))) e =
        some (cs.foldl (fun e c => e.set c (d.map c)) e) := by
  induction cs generalizing e with
  | nil => rfl
  | cons c cs ih =>
    have hread := h c List.mem_cons_self
    rw [List.map_cons, List.zip_cons_cons, List.foldlM_cons, List.foldl_cons]
    simp only [Option.bind_eq_bind, Option.bind_some, hread]
    exact ih (fun c' hc' => h c' (List.mem_cons_of_mem _ hc')) _

/-- **A view is read back.** -/
theorem roundTrips {d : Definitions} (h : d.All Definition.Storable) :
    RoundTrips toJson ofJson? d := by
  have hmap : ∀ c : Category, RoundTrips (Json.ofMap c.toJson) (Json.map? c.ofJson?) (d.map c) :=
    fun c => Json.roundTrips_map fun e he => Category.roundTrips (h c e.2 (List.mem_map_of_mem he))
  refine .record (Category.all.map Category.name)
    (Category.all.map fun c => Json.ofMap c.toJson (d.map c)) (by simp) rfl (by decide) ?_
    fun depth hd hrecord => ?_
  · refine List.forall_iff_forall_mem.2 fun j hj => ?_
    obtain ⟨c, _, rfl⟩ := List.mem_map.1 hj
    exact (hmap c).readable
  · have hread : ∀ c ∈ Category.all,
        Json.map? c.ofJson? depth (Json.ofMap c.toJson (d.map c)) = some (d.map c) := by
      intro c hc
      apply (hmap c).reads
      exact List.forall_iff_forall_mem.1 hd _ (List.mem_map_of_mem hc)
    have hfold := foldlM_read hread .empty
    rw [foldl_set] at hfold
    rw [ofJson?, hrecord, List.map_map]
    exact hfold

end Definitions

/-! ### Registries and packing logs -/

/-- **A registry is read back.** -/
theorem Registry.roundTrips {r : Registry} (h : r.All Definition.Storable) :
    RoundTrips toJson ofJson? r := by
  have hflat := Definitions.roundTrips h.1
  have hfiles := Json.roundTrips_map (m := r.files) fun e he =>
    Definitions.roundTrips (h.2 e.2 (List.mem_map_of_mem he))
  refine .record ["flat", "files"] [r.flat.toJson, Json.ofMap Definitions.toJson r.files] rfl rfl
    (by simp) ⟨hflat.readable, hfiles.readable⟩ fun d hd hrecord => ?_
  rw [ofJson?, hrecord]
  simp only [List.map_cons, List.map_nil, Option.bind_eq_bind, Option.bind_some,
    hflat.reads d hd.1, hfiles.reads d hd.2]
  rfl

theorem PackingLog.roundTrips_change {e : Nat × Option UInt32} (h : e.1 < UInt64.size) :
    RoundTrips (fun e : Nat × Option UInt32 =>
      .array [Json.ofInt e.1, Json.ofOption Json.ofUInt32 e.2]) changeOfJson? e := by
  have hline := Json.roundTrips_nat (Nat.le_refl _) h
  have hpack := Json.roundTrips_uint32Option e.2
  constructor
  · refine .array ?_
    rw [List.forall_mem_cons, List.forall_mem_singleton]
    exact ⟨hline.readable, hpack.readable⟩
  · intro n hn
    obtain ⟨d, rfl, hd⟩ := Json.depth_array_le.1 hn
    rw [List.forall_mem_cons, List.forall_mem_singleton] at hd
    rw [changeOfJson?]
    simp only [Option.bind_eq_bind, Option.bind_some, hline.reads d hd.1, hpack.reads d hd.2]
    rfl

/-- A packing log is read back, if its lines are words. -/
theorem PackingLog.roundTrips {log : PackingLog} (h : ∀ e ∈ log.entries, e.1 < UInt64.size) :
    RoundTrips toJson ofJson? log := by
  have hentries := Json.roundTrips_list fun e he => roundTrips_change (h e he)
  refine .record ["entries"] [Json.ofList (fun e : Nat × Option UInt32 =>
    .array [Json.ofInt e.1, Json.ofOption Json.ofUInt32 e.2]) log.entries] rfl rfl (by simp)
    hentries.readable fun d hd hrecord => ?_
  rw [ofJson?, hrecord]
  simp only [List.map_cons, List.map_nil, Option.bind_eq_bind, Option.bind_some,
    hentries.reads d hd]
  rfl

/-! ### What is built up -/

theorem Template.slots_cut_lt {params : List String} {piece : List Char} {segments : List Segment}
    {n : Nat} (h : n ∈ (cut params piece segments).slots) : n < params.length := by
  induction segments generalizing piece with
  | nil => cases h
  | cons s rest ih =>
    rw [cut] at h
    split at h
    · rename_i i hslot
      cases List.mem_cons.1 h with
      | inl heq =>
        rw [heq]
        split at hslot
        · exact slot?_lt hslot
        · cases hslot
      | inr hmem => exact ih hmem
    · exact ih h

/-- The slots of a macro that is made from its content are numbers of its parameters. -/
theorem FnMacro.slots_ofContent_lt {params : List String} {content : String} {variadic : Bool}
    {n : Nat} (h : n ∈ (ofContent params content variadic).template.slots) : n < params.length :=
  Template.slots_cut_lt h

theorem OrderedMap.mem_values_insert {α : Type} {m : OrderedMap α} {key : String} {x y : α}
    (h : y ∈ (m.insert key x).values) : y = x ∨ y ∈ m.values := by
  have hput : ∀ es : List (String × α), y ∈ (put key x es).map Prod.snd →
      y = x ∨ y ∈ es.map Prod.snd := by
    intro es
    induction es with
    | nil => exact fun hy => Or.inl (List.mem_singleton.1 hy)
    | cons e es ih =>
      obtain ⟨k, v⟩ := e
      intro hy
      rw [put] at hy
      split at hy
      · exact (List.mem_cons.1 hy).imp_right fun hmem => List.mem_cons_of_mem _ hmem
      · cases List.mem_cons.1 hy with
        | inl heq => exact Or.inr (by rw [heq]; exact List.mem_cons_self)
        | inr hmem => exact (ih hmem).imp_right fun hmem => List.mem_cons_of_mem _ hmem
  exact hput m.entries h

variable {P : Definition → Prop}

theorem Definitions.all_empty : Definitions.empty.All P := by
  intro c x hx
  cases c <;> cases hx

theorem Definitions.All.insert {d : Definitions} (h : d.All P) {x : Definition} (hx : P x)
    (name : String) : (d.insert name x).All P := by
  obtain ⟨c, content⟩ := x
  intro e y hy
  rw [Definitions.insert, update] at hy
  by_cases he : e = c
  · subst he
    rw [map_set_self] at hy
    cases OrderedMap.mem_values_insert hy with
    | inl heq =>
      rw [heq]
      exact hx
    | inr hmem => exact h e y hmem
  · rw [map_set_of_ne d he] at hy
    exact h e y hy

theorem Registry.all_empty : Registry.empty.All P :=
  ⟨Definitions.all_empty, fun _ hd => absurd hd List.not_mem_nil⟩

/-- What holds of all definitions still does when one more is inserted of which it holds. -/
theorem Registry.All.insert {r : Registry} (h : r.All P) {x : Definition} (hx : P x)
    (file : Option String) (name : String) : (r.insert file name x).All P := by
  refine ⟨h.1.insert hx name, fun d hd => ?_⟩
  cases file with
  | none => exact h.2 d hd
  | some file =>
    cases OrderedMap.mem_values_insert hd with
    | inl heq =>
      have hview : (r.fileView file).All P := by
        rw [fileView]
        cases hfile : r.files.get? file with
        | none => exact Definitions.all_empty
        | some e => exact h.2 e (OrderedMap.mem_values_of_get? hfile)
      rw [heq]
      exact hview.insert hx name
    | inr hmem => exact h.2 d hmem

/-! ### The encoding -/

/-- The definition holds no float, and the slots of its template are words. -/
structure Definition.Lossless (x : Definition) : Prop where
  floats : x.floats = []
  slots : ∀ n ∈ x.slots, n < UInt64.size

/-- Without floats nothing has to be asked of them. -/
theorem Json.floats_roundTrip {l : List Float} (h : l = []) :
    ∀ x ∈ l, RoundTrips ofFloat (fun _ => float?) x := by
  intro x hx
  rw [h] at hx
  cases hx

theorem Definition.Lossless.storable {x : Definition} (h : x.Lossless) : x.Storable :=
  ⟨Json.floats_roundTrip h.floats, h.slots⟩

theorem Registry.All.imp {Q : Definition → Prop} {r : Registry} (h : r.All P)
    (himp : ∀ x, P x → Q x) : r.All Q :=
  ⟨fun c x hx => himp _ (h.1 c x hx), fun d hd c x hx => himp _ (h.2 d hd c x hx)⟩

/-- **The JSON encoding loses nothing.** A registry without floats, nested less than 128 levels
deep, is read back from its text: the same names in the same order in every category, all together
and for each file, and the same files in the same order. A macro is read back with its template, so
it substitutes as before. Values, types, structures and unions, enumerations, definitions, macros
and packing logs are read back in the same way. Slots and line numbers are machine words. -/
theorem json_roundTrip :
    (∀ r : Registry, r.All Definition.Lossless → r.toJson.depth < 128 →
      decode? Registry.ofJson? r.toJson.text = some r) ∧
    (∀ v : Value, v.floats = [] → v.toJson.depth < 128 →
      decode? Value.ofJson? v.toJson.text = some v) ∧
    (∀ t : CType, t.floats = [] → t.toJson.depth < 128 →
      decode? CType.ofJson? t.toJson.text = some t) ∧
    (∀ c : Compound, c.floats = [] → c.toJson.depth < 128 →
      decode? Compound.ofJson? c.toJson.text = some c) ∧
    (∀ e : EnumDef, e.toJson.depth < 128 → decode? EnumDef.ofJson? e.toJson.text = some e) ∧
    (∀ x : Definition, x.Lossless → x.toJson.depth < 128 →
      decode? Definition.ofJson? x.toJson.text = some x) ∧
    (∀ m : FnMacro, (∀ n ∈ m.template.slots, n < UInt64.size) → m.toJson.depth < 128 →
      decode? FnMacro.ofJson? m.toJson.text = some m) ∧
    (∀ log : PackingLog, (∀ e ∈ log.entries, e.1 < UInt64.size) → log.toJson.depth < 128 →
      decode? PackingLog.ofJson? log.toJson.text = some log) := by
  refine ⟨?_, ?_, ?_, ?_, ?_, ?_, ?_, ?_⟩
  · intro r h hdepth
    exact (Registry.roundTrips (h.imp fun _ hx => hx.storable)).decode (Nat.le_of_lt_succ hdepth)
  · intro v h hdepth
    exact (Value.roundTrips v (Json.floats_roundTrip h)).decode (Nat.le_of_lt_succ hdepth)
  · intro t h hdepth
    exact (CType.roundTrips (Json.floats_roundTrip h)).decode (Nat.le_of_lt_succ hdepth)
  · intro c h hdepth
    exact (Compound.roundTrips (Json.floats_roundTrip h)).decode (Nat.le_of_lt_succ hdepth)
  · intro e hdepth
    exact (EnumDef.roundTrips e).decode (Nat.le_of_lt_succ hdepth)
  · intro x h hdepth
    exact (Definition.roundTrips h.storable).decode (Nat.le_of_lt_succ hdepth)
  · intro m h hdepth
    exact (FnMacro.roundTrips h).decode (Nat.le_of_lt_succ hdepth)
  · intro log h hdepth
    exact (PackingLog.roundTrips h).decode (Nat.le_of_lt_succ hdepth)

/-! A registry from two files and from none. -/

def sampleNode : Compound :=
  ⟨[⟨some "next", .pointer (.named "struct node") [], none, none⟩,
    ⟨some "flags", .named "unsigned", none, some 3⟩], some 2, rfl⟩

def sampleAt : FnMacro := .ofContent ["p", "i"] "(p)[i]" false

def sampleVisit : CType :=
  let text : Param := ⟨none, .reference (.array (.named "char") (some 4) []) [], some (.int (-1))⟩
  .pointer (.function (.named "int") [text] true []) ["const"]

def sampleColor : EnumDef := ⟨.ofList [("RED", 0), ("GREEN", -7)]⟩

def sampleNames : Value := .list [.str "\"\u00e9\x01\"", .list [], .int 5]

def sampleRegistry : Registry :=
  Registry.empty
    |>.insert (some "node.h") "node" ⟨.structs, sampleNode⟩
    |>.insert (some "node.h") "AT" ⟨.fnmacros, sampleAt⟩
    |>.insert (some "a\n.h") "visit" ⟨.types, sampleVisit⟩
    |>.insert (some "a\n.h") "color" ⟨.enums, sampleColor⟩
    |>.insert none "names" ⟨.values, sampleNames⟩
    |>.insert (some "node.h") "node" ⟨.macros, "struct node"⟩

theorem slots_sampleAt : ∀ n ∈ sampleAt.template.slots, n < UInt64.size :=
  fun _ hn => Nat.lt_trans (FnMacro.slots_ofContent_lt hn) (by decide)

theorem sampleRegistry_lossless : sampleRegistry.All Definition.Lossless := by
  have hnode := Registry.all_empty.insert (P := Definition.Lossless)
    (x := ⟨.structs, sampleNode⟩) ⟨rfl, nofun⟩ (some "node.h") "node"
  have hat := hnode.insert (x := ⟨.fnmacros, sampleAt⟩) ⟨rfl, slots_sampleAt⟩ (some "node.h") "AT"
  have hvisit := hat.insert (x := ⟨.types, sampleVisit⟩) ⟨rfl, nofun⟩ (some "a\n.h") "visit"
  have hcolor := hvisit.insert (x := ⟨.enums, sampleColor⟩) ⟨rfl, nofun⟩ (some "a\n.h") "color"
  have hnames := hcolor.insert (x := ⟨.values, sampleNames⟩) ⟨rfl, nofun⟩ none "names"
  exact hnames.insert (x := ⟨.macros, "struct node"⟩) ⟨rfl, nofun⟩ (some "node.h") "node"

theorem json_roundTrip_sampleRegistry :
    decode? Registry.ofJson? sampleRegistry.toJson.text = some sampleRegistry ∧
      decode? Value.ofJson? sampleNames.toJson.text = some sampleNames ∧
      decode? CType.ofJson? sampleVisit.toJson.text = some sampleVisit ∧
      decode? Compound.ofJson? sampleNode.toJson.text = some sampleNode ∧
      decode? EnumDef.ofJson? sampleColor.toJson.text = some sampleColor ∧
      decode? Definition.ofJson? (Definition.toJson ⟨.fnmacros, sampleAt⟩).text =
        some ⟨.fnmacros, sampleAt⟩ ∧
      decode? FnMacro.ofJson? sampleAt.toJson.text = some sampleAt ∧
      decode? PackingLog.ofJson? (PackingLog.initial.record 3 (some 2)).toJson.text =
        some (PackingLog.initial.record 3 (some 2)) := by
  obtain ⟨hregistry, hvalue, htype, hcompound, henum, hdefinition, hmacro, hlog⟩ := json_roundTrip
  refine ⟨?_, ?_, ?_, ?_, ?_, ?_, ?_, ?_⟩
  · exact hregistry sampleRegistry sampleRegistry_lossless (by decide +kernel)
  · exact hvalue sampleNames rfl (by decide +kernel)
  · exact htype sampleVisit rfl (by decide +kernel)
  · exact hcompound sampleNode rfl (by decide +kernel)
  · exact henum sampleColor (by decide +kernel)
  · exact hdefinition ⟨.fnmacros, sampleAt⟩ ⟨rfl, slots_sampleAt⟩ (by decide +kernel)
  · exact hmacro sampleAt slots_sampleAt (by decide +kernel)
  · exact hlog (PackingLog.initial.record 3 (some 2)) (by decide) (by decide +kernel)

end CInterface
