import CInterface.Proofs.Json.Shapes
import CInterface.Registry.Json
/-!
# Definitions are read back from JSON

* `Value.floats`, `CType.floats`, `Definition.floats` — the floats in a value, a type, a definition.
* `Definition.slots` — the parameters that stand in the template of a macro, by their numbers.
* `Value.roundTrips`, `CType.roundTrips`, … `Definition.roundTrips` — the round trips, where the
  floats make theirs and the slots are words.
-/

namespace CInterface

open Json (RoundTrips ofFloat float? readable_ofVariant readable_ofMembers depth_ofVariant_le
  depth_ofMembers_le variant?_ofVariant record?_ofMembers)

/-! ### Values -/

namespace Value

mutual

/-- The floats in a value. -/
def floats : Value → List Float
  | float x => [x]
  | list items => floatsAll items
  | int _ | str _ => []

/-- The floats in some values. -/
def floatsAll : List Value → List Float
  | [] => []
  | v :: vs => floats v ++ floatsAll vs

end

/-- The floats in a value that may be missing. -/
def optionFloats (v : Option Value) : List Float := v.toList.flatMap floats

theorem toJsonAll_eq (vs : List Value) : toJsonAll vs = vs.map toJson := by
  induction vs with
  | nil => rfl
  | cons v vs ih => rw [toJsonAll, ih, List.map_cons]

theorem toJson_ne_null (v : Value) : toJson v ≠ .null := by
  cases v <;> exact nofun

mutual

/-- **A value is read back**, if its floats are. -/
theorem roundTrips : ∀ v : Value, (∀ x ∈ v.floats, RoundTrips ofFloat (fun _ => float?) x) →
    RoundTrips toJson ofJson? v
  | int n, _ => by
    have hn := Json.roundTrips_int64 n
    refine ⟨readable_ofVariant hn.readable, fun depth hdepth => ?_⟩
    obtain ⟨d, rfl, hd⟩ := depth_ofVariant_le.1 hdepth
    rw [toJson, ofJson?, variant?_ofVariant]
    show int <$> (Json.ofInt n.toInt).int64? = some (int n)
    rw [hn.reads d hd]
    rfl
  | float x, h => by
    have hx := h x List.mem_cons_self
    refine ⟨readable_ofVariant hx.readable, fun depth hdepth => ?_⟩
    obtain ⟨d, rfl, hd⟩ := depth_ofVariant_le.1 hdepth
    rw [toJson, ofJson?, variant?_ofVariant]
    show float <$> (Json.ofFloat x).float? = some (float x)
    rw [hx.reads d hd]
    rfl
  | str s, _ => by
    refine ⟨readable_ofVariant (Json.readable_ofString s), fun depth hdepth => ?_⟩
    obtain ⟨d, rfl, _⟩ := depth_ofVariant_le.1 hdepth
    rw [toJson, ofJson?, variant?_ofVariant]
    show str <$> (Json.ofString s).text? = some (str s)
    rw [Json.text?_ofString]
    rfl
  | list items, h => by
    have hitems := Json.roundTrips_list (roundTrips_all items h)
    have harray : Json.ofList toJson items = .array (toJsonAll items) := by
      rw [toJsonAll_eq]
      rfl
    refine ⟨readable_ofVariant (by rw [← harray]; exact hitems.readable), fun depth hdepth => ?_⟩
    obtain ⟨d, rfl, hd⟩ := depth_ofVariant_le.1 hdepth
    have hread := hitems.reads d (by rw [harray]; exact hd)
    obtain ⟨d, rfl, _⟩ := Json.depth_array_le.1 hd
    rw [toJson, ofJson?, variant?_ofVariant]
    show list <$> (toJsonAll items).mapM (ofJson? d) = some (list items)
    rw [toJsonAll_eq]
    exact congrArg (list <$> ·) hread

/-- Each of some values is read back. -/
theorem roundTrips_all : ∀ vs : List Value,
    (∀ x ∈ floatsAll vs, RoundTrips ofFloat (fun _ => float?) x) →
      ∀ v ∈ vs, RoundTrips toJson ofJson? v
  | [], _ => fun _ hv => absurd hv List.not_mem_nil
  | v :: vs, h => by
    intro w hw
    cases List.mem_cons.1 hw with
    | inl heq =>
      rw [heq]
      exact roundTrips v fun x hx => h x (List.mem_append_left _ hx)
    | inr hmem =>
      exact roundTrips_all vs (fun x hx => h x (List.mem_append_right _ hx)) w hmem

end

/-- A value that may be missing is read back. -/
theorem roundTrips_option {v : Option Value}
    (h : ∀ x ∈ optionFloats v, RoundTrips ofFloat (fun _ => float?) x) :
    RoundTrips (Json.ofOption toJson) (fun n => Json.option? (ofJson? n)) v := by
  refine Json.roundTrips_option toJson_ne_null fun w hw => roundTrips w fun x hx => h x ?_
  rw [optionFloats, Option.mem_def.1 hw]
  exact List.mem_flatMap.2 ⟨w, List.mem_singleton_self w, hx⟩

end Value

/-! ### Types -/

namespace CType

mutual

/-- The floats in a type: those in the default values of its parameters. -/
def floats : CType → List Float
  | .base _ _ => []
  | .pointer t _ | .reference t _ | .array t _ _ => floats t
  | .function ret params _ _ => floats ret ++ paramFloats params

/-- The floats in some parameters. -/
def paramFloats : List Param → List Float
  | [] => []
  | ⟨_, t, default⟩ :: params => floats t ++ Value.optionFloats default ++ paramFloats params

end

/-- The layers of a type, from the base outward. -/
def layers : CType → List Layer
  | .base _ _ => []
  | .pointer t _ => layers t ++ [.pointer]
  | .reference t _ => layers t ++ [.reference]
  | .array t n _ => layers t ++ [.array n]
  | .function t params variadic _ => layers t ++ [.function params variadic]

/-- The qualifiers of the layers of a type, from the base outward. -/
def layerQuals : CType → List Qualifiers
  | .base _ _ => []
  | .pointer t q | .reference t q | .array t _ q | .function t _ _ q => layerQuals t ++ [q]

/-- The qualifiers of the base of a type. -/
def baseQuals : CType → Qualifiers
  | .base _ q => q
  | .pointer t _ | .reference t _ | .array t _ _ | .function t _ _ _ => baseQuals t

theorem length_layerQuals (t : CType) : t.layers.length = t.layerQuals.length := by
  induction t using layers.induct with
  | case1 => rfl
  | case2 t q ih | case3 t q ih | case4 t n q ih | case5 t params variadic q ih =>
    simp only [layers, layerQuals, List.length_append, List.length_singleton, ih]

theorem qualsToJson_eq (t : CType) :
    t.qualsToJson = (t.baseQuals :: t.layerQuals).map Json.ofStrings := by
  induction t using layers.induct with
  | case1 => rfl
  | case2 t q ih | case3 t q ih | case4 t n q ih | case5 t params variadic q ih =>
    simp only [qualsToJson, baseQuals, layerQuals, ih, List.map_cons, List.map_append,
      List.map_nil, List.cons_append]

theorem withLayers_append {t : CType} {ls : List Layer} {qs : List Qualifiers}
    (h : ls.length = qs.length) (l : Layer) (q : Qualifiers) :
    t.withLayers (ls ++ [l]) (qs ++ [q]) = (t.withLayers ls qs).withLayer l q := by
  rw [withLayers, List.zip_append h, List.foldl_append]
  rfl

/-- A type is its base with its layers around it. -/
theorem withLayers_layers (t : CType) :
    (CType.base t.baseName t.baseQuals).withLayers t.layers t.layerQuals = t := by
  induction t using layers.induct with
  | case1 => rfl
  | case2 t q ih | case3 t q ih | case4 t n q ih | case5 t params variadic q ih =>
    simp only [layers, layerQuals, baseName, baseQuals]
    rw [withLayers_append t.length_layerQuals, ih]
    rfl

/-- The layers of a type are read back, which is what its reading comes down to. -/
structure LayersRead (t : CType) : Prop where
  readable : ∀ j ∈ t.layersToJson, j.Readable
  reads : ∀ n, (∀ j ∈ t.layersToJson, j.depth ≤ n) →
    t.layersToJson.mapM (Layer.ofJson? n) = some t.layers

theorem LayersRead.roundTrips {t : CType} (h : LayersRead t) : RoundTrips toJson ofJson? t := by
  have hquals : RoundTrips (Json.ofList Json.ofStrings) (Json.list? Json.texts?)
      (t.baseQuals :: t.layerQuals) := Json.roundTrips_list fun q _ => Json.roundTrips_texts q
  have hjson : Json.ofList Json.ofStrings (t.baseQuals :: t.layerQuals) = .array t.qualsToJson := by
    rw [qualsToJson_eq]
    rfl
  refine .record ["base", "declarators", "qualifiers"]
    [Json.ofString t.baseName, .array t.layersToJson, .array t.qualsToJson] rfl rfl (by simp)
    ⟨Json.readable_ofString _, .array h.readable, by rw [← hjson]; exact hquals.readable⟩
    fun d hd hrecord => ?_
  obtain ⟨_, hlayers, hrest⟩ := hd
  have hread := hquals.reads d (by rw [hjson]; exact hrest)
  rw [hjson] at hread
  obtain ⟨d, rfl, hlayers'⟩ := Json.depth_array_le.1 hlayers
  rw [ofJson?, hrecord]
  simp only [List.map_cons, List.map_nil, Option.bind_eq_bind, Option.bind_some,
    Json.text?_ofString, h.reads d hlayers', hread]
  rw [if_pos t.length_layerQuals, withLayers_layers]

end CType

/-- The document of a parameter. -/
def Param.toJson (p : Param) : Json :=
  Json.ofMembers [("name", Json.ofOption Json.ofString p.name), ("ty", p.type.toJson),
    ("default", Json.ofOption Value.toJson p.default)]

theorem Param.toJsonAll_eq (ps : List Param) : Param.toJsonAll ps = ps.map Param.toJson := by
  induction ps with
  | nil => rfl
  | cons p ps ih =>
    obtain ⟨name, type, default⟩ := p
    rw [Param.toJsonAll, ih, List.map_cons]
    rfl

theorem Json.ofString_ne_null (s : String) : ofString s ≠ .null := nofun

theorem Json.roundTrips_name (name : Option String) :
    RoundTrips (ofOption ofString) (fun _ => option? text?) name :=
  @roundTrips_option _ ofString (fun _ => text?) name ofString_ne_null fun s _ => roundTrips_text s

/-- A parameter is read back, if its type and its default value are. -/
theorem Param.roundTrips {p : Param} (ht : RoundTrips CType.toJson CType.ofJson? p.type)
    (hdefault : ∀ x ∈ Value.optionFloats p.default, RoundTrips ofFloat (fun _ => float?) x) :
    RoundTrips Param.toJson Param.ofJson? p := by
  obtain ⟨name, type, default⟩ := p
  have hname := Json.roundTrips_name name
  have hvalue := Value.roundTrips_option hdefault
  refine .record ["name", "ty", "default"]
    [Json.ofOption Json.ofString name, type.toJson, Json.ofOption Value.toJson default] rfl rfl
    (by simp) ⟨hname.readable, ht.readable, hvalue.readable⟩ fun d hd hrecord => ?_
  obtain ⟨hname', htype, hdefault'⟩ := hd
  rw [ofJson?, hrecord]
  simp only [List.map_cons, List.map_nil, Option.bind_eq_bind, Option.bind_some, Json.optional?,
    hname.reads d hname', ht.reads d htype, hvalue.reads d hdefault']
  rfl

/-- A parameter list is read back, if its parameters are. -/
theorem Param.roundTrips_signature {params : List Param}
    (h : ∀ p ∈ params, RoundTrips Param.toJson Param.ofJson? p) (variadic : Bool) :
    RoundTrips (fun s : List Param × Bool => Param.signatureToJson s.1 s.2)
      Param.signatureOfJson? (params, variadic) := by
  have hparams := Json.roundTrips_list h
  have hjson : Json.ofList Param.toJson params = .array (Param.toJsonAll params) := by
    rw [Param.toJsonAll_eq]
    rfl
  refine .record ["params", "variadic"] [.array (Param.toJsonAll params), .bool variadic] rfl rfl
    (by simp) ⟨by rw [← hjson]; exact hparams.readable, .bool variadic⟩ fun d hd hrecord => ?_
  have hread := hparams.reads d (by rw [hjson]; exact hd.1)
  rw [hjson] at hread
  obtain ⟨d, rfl, _⟩ := Json.depth_array_le.1 hd.1
  have hmapM : (Param.toJsonAll params).mapM (Param.ofJson? d) = some params := hread
  rw [signatureOfJson?, hrecord]
  simp only [List.map_cons, List.map_nil, Option.bind_eq_bind, Option.bind_some, hmapM, Json.bool?]
  rfl

namespace CType

/-- One more layer is read back. -/
theorem LayersRead.snoc {t u : CType} (ht : LayersRead t) {j : Json} {l : Layer}
    (hjson : u.layersToJson = t.layersToJson ++ [j]) (hlayers : u.layers = t.layers ++ [l])
    (hl : RoundTrips (fun _ : Layer => j) Layer.ofJson? l) : LayersRead u := by
  constructor
  · rw [hjson]
    intro i hi
    cases List.mem_append.1 hi with
    | inl hi => exact ht.readable i hi
    | inr hi =>
      rw [List.mem_singleton.1 hi]
      exact hl.readable
  · intro n hn
    rw [hjson] at hn ⊢
    rw [List.mapM_append, ht.reads n fun i hi => hn i (List.mem_append_left _ hi), List.mapM_cons,
      hl.reads n (hn j (List.mem_append_right _ (List.mem_singleton_self j))), hlayers]
    rfl

/-- A layer without content is read by its name. -/
theorem roundTrips_pointer : RoundTrips (fun _ : Layer => Json.ofString "Pointer") Layer.ofJson?
    .pointer := by
  refine ⟨Json.readable_ofString _, fun n _ => ?_⟩
  have htext := Json.text?_ofString "Pointer"
  cases n <;> rw [Json.ofString, Layer.ofJson?, ← Json.ofString, htext] <;> rfl

theorem roundTrips_reference :
    RoundTrips (fun _ : Layer => Json.ofString "Reference") Layer.ofJson? .reference := by
  refine ⟨Json.readable_ofString _, fun n _ => ?_⟩
  have htext := Json.text?_ofString "Reference"
  cases n <;> rw [Json.ofString, Layer.ofJson?, ← Json.ofString, htext] <;> rfl

theorem roundTrips_size (size : Option UInt64) :
    RoundTrips (Json.ofOption fun n : UInt64 => Json.ofInt n.toNat)
      (fun _ => Json.option? Json.uint64?) size :=
  @Json.roundTrips_option _ _ (fun _ => Json.uint64?) size nofun
    fun n _ => Json.roundTrips_uint64 n

theorem roundTrips_array (size : Option UInt64) :
    RoundTrips (fun _ : Layer => Json.ofVariant "Array"
      (Json.ofOption (fun n : UInt64 => Json.ofInt n.toNat) size)) Layer.ofJson? (.array size) := by
  have hsize := roundTrips_size size
  refine ⟨readable_ofVariant hsize.readable, fun n hn => ?_⟩
  obtain ⟨d, rfl, hd⟩ := depth_ofVariant_le.1 hn
  rw [Layer.ofJson?, variant?_ofVariant]
  · show Layer.array <$> Json.option? Json.uint64?
      (Json.ofOption (fun n : UInt64 => Json.ofInt n.toNat) size) = some (.array size)
    rw [hsize.reads d hd]
    rfl
  · exact nofun

theorem roundTrips_function {params : List Param}
    (h : ∀ p ∈ params, RoundTrips Param.toJson Param.ofJson? p) (variadic : Bool) :
    RoundTrips (fun _ : Layer => Json.ofVariant "Function"
      (Param.signature (Param.toJsonAll params) variadic)) Layer.ofJson?
        (.function params variadic) := by
  have hsignature := Param.roundTrips_signature h variadic
  refine ⟨readable_ofVariant hsignature.readable, fun n hn => ?_⟩
  obtain ⟨d, rfl, hd⟩ := depth_ofVariant_le.1 hn
  have hread : Param.signatureOfJson? d (Param.signature (Param.toJsonAll params) variadic) =
      some (params, variadic) := hsignature.reads d hd
  rw [Layer.ofJson?, variant?_ofVariant]
  · show (Param.signatureOfJson? d (Param.signature (Param.toJsonAll params) variadic)).bind _ = _
    rw [hread]
    rfl
  · exact nofun

mutual

/-- The layers of a type are read back, if the floats in it are. -/
theorem layersRead : ∀ t : CType, (∀ x ∈ t.floats, RoundTrips ofFloat (fun _ => float?) x) →
    LayersRead t
  | .base _ _, _ => ⟨fun _ hj => absurd hj List.not_mem_nil, fun _ _ => rfl⟩
  | .pointer t _, h => (layersRead t h).snoc rfl rfl roundTrips_pointer
  | .reference t _, h => (layersRead t h).snoc rfl rfl roundTrips_reference
  | .array t size _, h => (layersRead t h).snoc rfl rfl (roundTrips_array size)
  | .function ret params variadic _, h =>
    have hret := layersRead ret fun x hx => h x (List.mem_append_left _ hx)
    have hparams := paramsRead params fun x hx => h x (List.mem_append_right _ hx)
    hret.snoc rfl rfl (roundTrips_function hparams variadic)

/-- Each of some parameters is read back. -/
theorem paramsRead : ∀ params : List Param,
    (∀ x ∈ paramFloats params, RoundTrips ofFloat (fun _ => float?) x) →
      ∀ p ∈ params, RoundTrips Param.toJson Param.ofJson? p
  | [], _ => fun _ hp => absurd hp List.not_mem_nil
  | ⟨name, type, default⟩ :: params, h => by
    intro p hp
    cases List.mem_cons.1 hp with
    | inl heq =>
      have htype := layersRead type fun x hx =>
        h x (List.mem_append_left _ (List.mem_append_left _ hx))
      rw [heq]
      exact Param.roundTrips htype.roundTrips fun x hx =>
        h x (List.mem_append_left _ (List.mem_append_right _ hx))
    | inr hmem => exact paramsRead params (fun x hx => h x (List.mem_append_right _ hx)) p hmem

end

/-- **A type is read back**, if the floats in it are. -/
theorem roundTrips {t : CType} (h : ∀ x ∈ t.floats, RoundTrips ofFloat (fun _ => float?) x) :
    RoundTrips toJson ofJson? t := (layersRead t h).roundTrips

end CType

/-! ### Structures, unions and enumerations -/

/-- The floats in a field. -/
def Field.floats (f : Field) : List Float := f.type.floats ++ Value.optionFloats f.default

theorem Json.roundTrips_uint32Option (n : Option UInt32) :
    RoundTrips (ofOption ofUInt32) (fun _ => option? uint32?) n :=
  @roundTrips_option _ ofUInt32 (fun _ => uint32?) n nofun fun n _ => roundTrips_uint32 n

theorem Field.roundTrips {f : Field} (h : ∀ x ∈ f.floats, RoundTrips ofFloat (fun _ => float?) x) :
    RoundTrips toJson ofJson? f := by
  have hname := Json.roundTrips_name f.name
  have htype := CType.roundTrips fun x hx => h x (List.mem_append_left _ hx)
  have hdefault := Value.roundTrips_option fun x hx => h x (List.mem_append_right _ hx)
  have hbits := Json.roundTrips_uint32Option f.bits
  refine .record ["name", "ty", "default", "bit_width"]
    [Json.ofOption Json.ofString f.name, f.type.toJson, Json.ofOption Value.toJson f.default,
      Json.ofOption Json.ofUInt32 f.bits] rfl rfl (by simp)
    ⟨hname.readable, htype.readable, hdefault.readable, hbits.readable⟩ fun d hd hrecord => ?_
  obtain ⟨hname', htype', hdefault', hbits'⟩ := hd
  rw [ofJson?, hrecord]
  simp only [List.map_cons, List.map_nil, Option.bind_eq_bind, Option.bind_some, Json.optional?,
    hname.reads d hname', htype.reads d htype', hdefault.reads d hdefault', hbits.reads d hbits']
  rfl

namespace Compound

/-- The floats in a structure or union. -/
def floats (c : Compound) : List Float := c.fields.flatMap Field.floats

/-- The packing of a compound is a power of two, so it is accepted again. -/
theorem make?_eq (c : Compound) : make? c.fields c.pack = .ok c := by
  obtain ⟨fields, pack, hpack⟩ := c
  cases pack with
  | none => rfl
  | some p =>
    have hp : isPowerOfTwo p = true := hpack
    simp only [make?, hp, dif_pos]

theorem roundTrips {c : Compound} (h : ∀ x ∈ c.floats, RoundTrips ofFloat (fun _ => float?) x) :
    RoundTrips toJson ofJson? c := by
  have hfields : RoundTrips (Json.ofList Field.toJson) (Json.list? Field.ofJson?) c.fields :=
    Json.roundTrips_list fun f hf =>
      Field.roundTrips fun x hx => h x (List.mem_flatMap.2 ⟨f, hf, hx⟩)
  have hpack := Json.roundTrips_uint32Option c.pack
  refine .record ["fields", "pack"]
    [Json.ofList Field.toJson c.fields, Json.ofOption Json.ofUInt32 c.pack] rfl rfl (by simp)
    ⟨hfields.readable, hpack.readable⟩ fun d hd hrecord => ?_
  rw [ofJson?, hrecord]
  simp only [List.map_cons, List.map_nil, Option.bind_eq_bind, Option.bind_some, Json.optional?,
    hfields.reads d hd.1, hpack.reads d hd.2, make?_eq]
  rfl

end Compound

theorem EnumDef.roundTrips (e : EnumDef) : RoundTrips toJson ofJson? e := by
  have hmembers := Json.roundTrips_map (m := e.members) fun m _ => Json.roundTrips_int64 m.2
  refine .record ["members"] [Json.ofMap (fun n : Int64 => Json.ofInt n.toInt) e.members] rfl rfl
    (by simp) hmembers.readable fun d hd hrecord => ?_
  rw [ofJson?, hrecord]
  simp only [List.map_cons, List.map_nil, Option.bind_eq_bind, Option.bind_some,
    hmembers.reads d hd]
  rfl

/-! ### Macros -/

theorem Macro.roundTrips (content : String) :
    RoundTrips Macro.toJson Macro.ofJson? content := by
  refine .record ["content"] [Json.ofString content] rfl rfl (by simp)
    (Json.readable_ofString content) fun d hd hrecord => ?_
  rw [ofJson?, hrecord]
  simp only [List.map_cons, List.map_nil, Option.bind_eq_bind, Option.bind_some,
    Json.text?_ofString]

/-- A template is read back, if its slots are words. -/
theorem Template.roundTrips {t : Template} (h : ∀ n ∈ t.slots, n < UInt64.size) :
    RoundTrips toJson ofJson? t := by
  have hpieces := Json.roundTrips_texts t.pieces
  have hslots := Json.roundTrips_list fun n hn => Json.roundTrips_nat (Nat.le_refl _) (h n hn)
  refine .record ["pieces", "slots"]
    [Json.ofStrings t.pieces, Json.ofList (fun n : Nat => Json.ofInt n) t.slots] rfl rfl (by simp)
    ⟨hpieces.readable, hslots.readable⟩ fun d hd hrecord => ?_
  rw [ofJson?, hrecord]
  simp only [List.map_cons, List.map_nil, Option.bind_eq_bind, Option.bind_some,
    hpieces.reads d hd.1, hslots.reads d hd.2]
  rfl

/-- **A function macro is read back with its template**, so it substitutes as before. -/
theorem FnMacro.roundTrips {m : FnMacro} (h : ∀ n ∈ m.template.slots, n < UInt64.size) :
    RoundTrips toJson ofJson? m := by
  have hparams := Json.roundTrips_texts m.params
  have htemplate := Template.roundTrips h
  refine .record ["params", "variadic", "content", "template"]
    [Json.ofStrings m.params, .bool m.variadic, Json.ofString m.content, m.template.toJson] rfl rfl
    (by simp) ⟨hparams.readable, .bool _, Json.readable_ofString _, htemplate.readable⟩
    fun d hd hrecord => ?_
  obtain ⟨hparams', _, _, htemplate'⟩ := hd
  rw [ofJson?, hrecord]
  simp only [List.map_cons, List.map_nil, Option.bind_eq_bind, Option.bind_some,
    hparams.reads d hparams', Json.bool?, Json.text?_ofString, htemplate.reads d htemplate']
  rfl

/-! ### Variables and functions -/

/-- The floats in a variable. -/
def Variable.floats (v : Variable) : List Float := Value.optionFloats v.value ++ v.type.floats

theorem Variable.roundTrips {v : Variable}
    (h : ∀ x ∈ v.floats, RoundTrips ofFloat (fun _ => float?) x) :
    RoundTrips toJson ofJson? v := by
  have hvalue := Value.roundTrips_option fun x hx => h x (List.mem_append_left _ hx)
  have htype := CType.roundTrips fun x hx => h x (List.mem_append_right _ hx)
  have hstorage := Json.roundTrips_texts v.storage
  refine .record ["value", "ty", "storage"]
    [Json.ofOption Value.toJson v.value, v.type.toJson, Json.ofStrings v.storage] rfl rfl (by simp)
    ⟨hvalue.readable, htype.readable, hstorage.readable⟩ fun d hd hrecord => ?_
  obtain ⟨hvalue', htype', hstorage'⟩ := hd
  rw [ofJson?, hrecord]
  simp only [List.map_cons, List.map_nil, Option.bind_eq_bind, Option.bind_some, Json.optional?,
    hvalue.reads d hvalue', htype.reads d htype', hstorage.reads d hstorage']
  rfl

/-- The floats in a function. -/
def FunctionDecl.floats (f : FunctionDecl) : List Float :=
  f.ret.floats ++ CType.paramFloats f.params

theorem FunctionDecl.roundTrips {f : FunctionDecl}
    (h : ∀ x ∈ f.floats, RoundTrips ofFloat (fun _ => float?) x) :
    RoundTrips toJson ofJson? f := by
  have hret := CType.roundTrips fun x hx => h x (List.mem_append_left _ hx)
  have hparams := CType.paramsRead f.params fun x hx => h x (List.mem_append_right _ hx)
  have hsignature := Param.roundTrips_signature hparams f.variadic
  have hquals := Json.roundTrips_texts f.quals
  have hstorage := Json.roundTrips_texts f.storage
  refine .record ["return_type", "sig", "qualifiers", "storage"]
    [f.ret.toJson, Param.signatureToJson f.params f.variadic, Json.ofStrings f.quals,
      Json.ofStrings f.storage] rfl rfl (by simp)
    ⟨hret.readable, hsignature.readable, hquals.readable, hstorage.readable⟩ fun d hd hrecord => ?_
  obtain ⟨hret', hsignature', hquals', hstorage'⟩ := hd
  have hread : Param.signatureOfJson? d (Param.signatureToJson f.params f.variadic) =
      some (f.params, f.variadic) := hsignature.reads d hsignature'
  rw [ofJson?, hrecord]
  simp only [List.map_cons, List.map_nil, Option.bind_eq_bind, Option.bind_some, hread,
    hret.reads d hret', hquals.reads d hquals', hstorage.reads d hstorage']
  rfl

/-! ### Definitions -/

namespace Definition

/-- The floats in a definition. -/
def floats : Definition → List Float
  | ⟨.types, t⟩ => t.floats
  | ⟨.vars, v⟩ => v.floats
  | ⟨.functions, f⟩ => f.floats
  | ⟨.structs, c⟩ | ⟨.unions, c⟩ => c.floats
  | ⟨.values, v⟩ => v.floats
  | ⟨.macros, _⟩ | ⟨.fnmacros, _⟩ | ⟨.enums, _⟩ => []

/-- The slots of the template in a definition, by the numbers of the parameters. -/
def slots : Definition → List Nat
  | ⟨.fnmacros, m⟩ => m.template.slots
  | _ => []

/-- The definition can be written so that nothing is lost: its floats are read back, and its slots
are words. -/
structure Storable (x : Definition) : Prop where
  floats : ∀ y ∈ x.floats, RoundTrips ofFloat (fun _ => float?) y
  slots : ∀ n ∈ x.slots, n < UInt64.size

end Definition

/-- What a definition holds is read back by its category. -/
theorem Category.roundTrips {c : Category} {x : c.Content}
    (h : Definition.Storable ⟨c, x⟩) : RoundTrips c.toJson c.ofJson? x := by
  cases c with
  | macros => exact Macro.roundTrips x
  | fnmacros => exact FnMacro.roundTrips h.slots
  | types => exact CType.roundTrips h.floats
  | vars => exact Variable.roundTrips h.floats
  | functions => exact FunctionDecl.roundTrips h.floats
  | structs | unions => exact Compound.roundTrips h.floats
  | enums => exact EnumDef.roundTrips x
  | values => exact Value.roundTrips x h.floats

/-- A category is found by its name in a definition of its own. -/
theorem Category.find?_variantName (c : Category) :
    all.find? (·.variantName = c.variantName) = some c := by cases c <;> decide

/-- **A definition is read back.** -/
theorem Definition.roundTrips {x : Definition} (h : x.Storable) :
    RoundTrips toJson ofJson? x := by
  obtain ⟨c, content⟩ := x
  have hcontent := Category.roundTrips h
  refine ⟨readable_ofVariant hcontent.readable, fun n hn => ?_⟩
  obtain ⟨d, rfl, hd⟩ := depth_ofVariant_le.1 hn
  rw [toJson, ofJson?, variant?_ofVariant]
  simp only [Option.bind_eq_bind, Option.bind_some, Category.find?_variantName,
    hcontent.reads d hd]
  rfl

end CInterface
