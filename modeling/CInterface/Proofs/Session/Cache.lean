import CInterface.Proofs.Definition.Equality
import CInterface.Proofs.Json.Registries
import CInterface.Proofs.Session.Determinism
/-!
# The cache of a session itself

A session writes its registry and its options as JSON. A later session of the same setup takes them
over, as long as the reader accepts what was written: floats have to be read back as they were, and
nothing may be nested too deep.

* `SessionOptions.roundTrips`, `CacheBlob.roundTrips` — options and blobs are read back.
* `SessionSetup.Recordable` — the seeds of a setup can be written, and are equal to themselves.
* `SessionSetup.processCached_cache` — the blob of a session is used by the next one.
* `SessionSetup.not_processCached_cache` — a list that is nested too deep has the blob refused.
-/

namespace CInterface

open Json (RoundTrips)

/-! ### Round trips -/

theorem Replacement.roundTrips (r : Replacement) : RoundTrips toJson ofJson? r := by
  have hfile := Json.roundTrips_name r.file
  refine .record ["file", "pattern", "replacement"]
    [Json.ofOption Json.ofString r.file, Json.ofString r.pattern, Json.ofString r.replacement]
    rfl rfl (by simp)
    ⟨hfile.readable, Json.readable_ofString _, Json.readable_ofString _⟩ fun d hd hrecord => ?_
  rw [ofJson?, hrecord]
  simp only [List.map_cons, List.map_nil, Option.bind_eq_bind, Option.bind_some, Json.optional?,
    hfile.reads d hd.1, Json.text?_ofString]
  rfl

/-- A pair is read back, if what belongs to the name is. -/
theorem Json.roundTrips_pair {α : Type} {toJson : α → Json} {read? : Nat → Json → Option α}
    {p : String × α} (h : RoundTrips toJson read? p.2) :
    RoundTrips (ofPair toJson) (pair? read?) p := by
  constructor
  · refine .array ?_
    rw [List.forall_mem_cons, List.forall_mem_singleton]
    exact ⟨readable_ofString p.1, h.readable⟩
  · intro n hn
    obtain ⟨d, rfl, hd⟩ := depth_array_le.1 hn
    rw [List.forall_mem_cons, List.forall_mem_singleton] at hd
    rw [ofPair, pair?]
    simp only [Option.bind_eq_bind, Option.bind_some, text?_ofString, h.reads d hd.2]
    rfl

/-- Options are read back, if the seeds are. -/
theorem SessionOptions.roundTrips {o : SessionOptions} (h : ∀ e ∈ o.seeds, e.2.Storable) :
    RoundTrips toJson ofJson? o := by
  have hfiles := Json.roundTrips_texts o.files
  have hreplacements := Json.roundTrips_list fun r (_ : r ∈ o.replacements) => r.roundTrips
  have hmacros := Json.roundTrips_list fun e (_ : e ∈ o.macros) =>
    Json.roundTrips_pair (Json.roundTrips_text e.2)
  have hseeds := Json.roundTrips_list fun e (he : e ∈ o.seeds) =>
    Json.roundTrips_pair (Definition.roundTrips (h e he))
  refine .record ["files", "replacements", "macros", "seeds"]
    [Json.ofStrings o.files, Json.ofList Replacement.toJson o.replacements,
      Json.ofList (Json.ofPair Json.ofString) o.macros,
      Json.ofList (Json.ofPair Definition.toJson) o.seeds] rfl rfl (by simp)
    ⟨hfiles.readable, hreplacements.readable, hmacros.readable, hseeds.readable⟩
    fun d hd hrecord => ?_
  obtain ⟨hfiles', hreplacements', hmacros', hseeds'⟩ := hd
  rw [ofJson?, hrecord]
  simp only [List.map_cons, List.map_nil, Option.bind_eq_bind, Option.bind_some,
    hfiles.reads d hfiles', hreplacements.reads d hreplacements', hmacros.reads d hmacros',
    hseeds.reads d hseeds']
  rfl

/-- **A blob is read back**, if its registry and the seeds in its options are. -/
theorem CacheBlob.roundTrips {b : CacheBlob} (hversion : b.version < UInt32.size)
    (hcreated : b.createdAt < UInt64.size) (hseeds : ∀ e ∈ b.options.seeds, e.2.Storable)
    (hregistry : b.registry.All Definition.Storable) : RoundTrips toJson ofJson? b := by
  have hversion := Json.roundTrips_nat (by decide) hversion
  have hcreated := Json.roundTrips_nat (Nat.le_refl _) hcreated
  have hoptions := SessionOptions.roundTrips hseeds
  have hregistry := Registry.roundTrips hregistry
  refine .record ["version", "options", "created_at", "registry"]
    [Json.ofInt b.version, b.options.toJson, Json.ofInt b.createdAt, b.registry.toJson] rfl rfl
    (by simp) ⟨hversion.readable, hoptions.readable, hcreated.readable, hregistry.readable⟩
    fun d hd hrecord => ?_
  obtain ⟨hversion', hoptions', hcreated', hregistry'⟩ := hd
  rw [ofJson?, hrecord]
  simp only [List.map_cons, List.map_nil, Option.bind_eq_bind, Option.bind_some,
    hversion.reads d hversion', hoptions.reads d hoptions', hcreated.reads d hcreated',
    hregistry.reads d hregistry']
  rfl

/-! ### Taking a blob over -/

/-- Options are equal to themselves, if the floats in the seeds are. -/
theorem SessionOptions.beq_self {o : SessionOptions}
    (h : ∀ e ∈ o.seeds, ∀ x ∈ e.2.floats, (x == x) = true) : (o == o) = true := by
  have hseeds : (o.seeds == o.seeds) = true := by
    apply beq_self_list
    intro e he
    show (e.1 == e.1 && e.2 == e.2) = true
    rw [BEq.rfl, Definition.same_self (h e he)]
    rfl
  show (o.files == o.files && o.replacements == o.replacements && o.macros == o.macros &&
    o.seeds == o.seeds) = true
  rw [hseeds, BEq.rfl, BEq.rfl, BEq.rfl]
  rfl

namespace Session

/-- A blob that is valid is taken over. -/
theorem processCached_of_valid {s : Session} {blob : String} {b : CacheBlob}
    (hp : s.processed = false) (hread : CacheBlob.ofText? blob = some b)
    (hsupported : b.isSupported = true) (hvalid : b.isValidFor s.options s.newest = true) :
    s.processCached (some blob) =
      ({ s with registry := b.registry, processed := true }, .ok true) := by
  have hload : (some blob).bind (s.load · true) =
      some { s with registry := b.registry, processed := true } := by
    show s.load blob true = _
    rw [load, hread]
    show (if b.isSupported && (!true || b.isValidFor s.options s.newest) then _ else _) = _
    rw [hsupported, hvalid]
    rfl
  rw [processCached, if_neg (by rw [hp]; exact Bool.false_ne_true), hload]

/-- Without a blob that is read the headers are processed. -/
theorem processCached_of_refused {s s' : Session} {blob : String} (hp : s.processed = false)
    (hread : CacheBlob.ofText? blob = none) (hprocess : s.process = (s', none)) :
    s.processCached (some blob) = (s', .ok false) := by
  have hload : (some blob).bind (s.load · true) = none := by
    show s.load blob true = none
    rw [load, hread]
    rfl
  rw [processCached, if_neg (by rw [hp]; exact Bool.false_ne_true), hload, hprocess]

end Session

namespace SessionSetup

/-- The seeds can be written so that nothing is lost, and are equal to themselves. -/
structure Recordable (s : SessionSetup) : Prop where
  storable : ∀ e ∈ s.seeds, e.2.Storable
  comparable : ∀ e ∈ s.seeds, ∀ x ∈ e.2.floats, (x == x) = true

theorem processed_of_build {engine : RegexEngine} {s : SessionSetup} {a : Session}
    (h : s.buildWith engine = .ok a) :
    a.processed = false := by
  obtain ⟨rules, rfl⟩ := exists_rules_of_build h
  rfl

/-- **The blob of a session is used by the next one.** Once a session has processed its headers, a
new session of the same setup takes over the blob of the first, which was written no earlier than
any header was changed, and has its registry, whatever the library of regular expressions is. The
floats in the registry and in the seeds have to be read back as they are written, and the blob has to
be nested less than 128 levels deep. -/
theorem processCached_cache {engine : RegexEngine} {s : SessionSetup} (hseeds : s.Recordable)
    {a b : Session} (ha : s.buildWith engine = .ok a) (hprocess : a.process = (b, none))
    (hregistry : b.registry.All Definition.Storable) {time : Nat} (hnewest : a.newest ≤ time)
    (htime : time < UInt64.size) (hdepth : (b.cache time).toJson.depth < 128) :
    ∃ c, a.processCached (some (b.cache time).text) = (c, .ok true) ∧ c.registry = b.registry := by
  have hkept : b.options = a.options := by
    have h := Session.options_process a
    rwa [hprocess] at h
  have hoptions : b.options = s.options := hkept.trans (headers_of_build ha).2
  have hstorable : ∀ e ∈ b.options.seeds, e.2.Storable := by
    rw [hoptions]
    exact hseeds.storable
  have hself : (b.options == b.options) = true := by
    apply SessionOptions.beq_self
    rw [hoptions]
    exact hseeds.comparable
  have htrip : RoundTrips CacheBlob.toJson CacheBlob.ofJson? (b.cache time) :=
    CacheBlob.roundTrips (show 1 < UInt32.size by decide) htime hstorable hregistry
  have hread : CacheBlob.ofText? (b.cache time).text = some (b.cache time) :=
    htrip.decode (Nat.le_of_lt_succ hdepth)
  have hvalid : (b.cache time).isValidFor a.options a.newest = true := by
    show (b.options == a.options && decide (a.newest ≤ time)) = true
    rw [← hkept, hself, decide_eq_true hnewest]
    rfl
  refine ⟨{ a with registry := b.registry, processed := true }, ?_, rfl⟩
  exact Session.processCached_of_valid (processed_of_build ha) hread rfl hvalid

/-- A header that defines a macro, and a list that is given. -/
def definingSetup : SessionSetup :=
  { headers := .ofList [("a.h", ⟨some "#define ID(x) (x)", 7⟩)]
    seeds := [("pair", ⟨.values, .list [.int 1, .str "b"]⟩)] }

def definingRegistry : Registry :=
  Registry.empty
    |>.insert none "pair" ⟨.values, .list [.int 1, .str "b"]⟩
    |>.insert (some "a.h") "ID" ⟨.fnmacros, .ofContent ["x"] "(x)" false⟩

theorem registry_definingSetup :
    definingSetup.plainSession.process.1.registry = definingRegistry := by
  have hfiles : definingSetup.plainSession.options.files = ["a.h"] := rfl
  have htext : definingSetup.plainSession.text? "a.h" = some "#define ID(x) (x)" := rfl
  have hread : MacroDefinition.ofText? " ID(x) (x)".toList =
      some (.function "ID" ["x"] false "(x)") := by decide
  have hpreprocess : preprocess definingSetup.start "a.h" "#define ID(x) (x)" =
      (definingSetup.start.defineFunction (some "a.h") "ID" (.ofContent ["x"] "(x)" false),
        ⟨"", .initial, []⟩) :=
    preprocess_defineFunction (by decide +kernel) (by decide) hread _ _
  have hundefine : definingSetup.start.undefine "ID" = definingSetup.start := rfl
  have hprocessed := Session.registry_processText
    (s := { definingSetup.plainSession with processed := true }) rfl hpreprocess
  rw [Session.process_single rfl hfiles htext, hprocessed, Grammar.parseFile_empty,
    Registry.defineFunction, hundefine]
  rfl

theorem definingRegistry_lossless : definingRegistry.All Definition.Lossless := by
  have hpair : Definition.Lossless ⟨.values, .list [.int 1, .str "b"]⟩ := ⟨rfl, nofun⟩
  have hmacro : Definition.Lossless ⟨.fnmacros, .ofContent ["x"] "(x)" false⟩ := by
    refine ⟨rfl, fun n hn => ?_⟩
    exact Nat.lt_trans (FnMacro.slots_ofContent_lt hn) (by decide)
  exact (Registry.all_empty.insert hpair none "pair").insert hmacro (some "a.h") "ID"

theorem recordable_definingSetup : definingSetup.Recordable := by
  constructor
  · intro e he
    obtain rfl := List.mem_singleton.1 he
    exact Definition.Lossless.storable ⟨rfl, nofun⟩
  · intro e he
    obtain rfl := List.mem_singleton.1 he
    exact nofun

theorem processCached_cache_definingSetup :
    let b := definingSetup.plainSession.process.1
    ∃ c, definingSetup.plainSession.processCached (some (b.cache 7).text) = (c, .ok true) ∧
      c.registry = definingRegistry := by
  intro b
  have hregistry : b.registry.All Definition.Storable := by
    rw [show b.registry = definingRegistry from registry_definingSetup]
    exact definingRegistry_lossless.imp fun _ h => h.storable
  have hprocess : definingSetup.plainSession.process = (b, none) := rfl
  have hdepth : (b.cache 7).toJson.depth < 128 := by
    show (CacheBlob.toJson ⟨1, b.options, 7, b.registry⟩).depth < 128
    rw [show b.registry = definingRegistry from registry_definingSetup,
      show b.options = definingSetup.options from rfl]
    decide +kernel
  have hbuild : definingSetup.buildWith .words = .ok definingSetup.plainSession := rfl
  obtain ⟨c, hcached, hc⟩ := processCached_cache recordable_definingSetup hbuild hprocess hregistry
    (show 7 ≤ 7 from Nat.le_refl 7) (by decide) hdepth
  exact ⟨c, hcached, hc.trans registry_definingSetup⟩

/-- Lists within each other, one in each. -/
def nestedList : Nat → Value
  | 0 => .list []
  | n + 1 => .list [nestedList n]

/-- No header, and 62 lists within each other that are given. -/
def nestedSetup : SessionSetup := { seeds := [("x", ⟨.values, nestedList 61⟩)] }

theorem nestedSetup_lossless : (⟨.values, nestedList 61⟩ : Definition).Lossless :=
  ⟨by decide, nofun⟩

/-- The blob of a session is not always used by the next one: the lists nest two levels each, which
are too many in a blob, so that the reader refuses it. -/
theorem not_processCached_cache :
    let a := nestedSetup.plainSession
    let b := a.process.1
    nestedSetup.buildWith .words = .ok a ∧ a.process = (b, none) ∧ a.newest ≤ 0 ∧
      a.processCached (some (b.cache 0).text) = (b, .ok false) := by
  intro a b
  have hregistry : b.registry.All Definition.Storable :=
    Registry.all_empty.insert nestedSetup_lossless.storable none "x"
  have hseeds : ∀ e ∈ b.options.seeds, e.2.Storable := by
    intro e he
    obtain rfl := List.mem_singleton.1 he
    exact nestedSetup_lossless.storable
  -- the text is a document as it should be, but it is nested too deep to be read as a blob
  have htrip : RoundTrips CacheBlob.toJson CacheBlob.ofJson? (b.cache 0) :=
    CacheBlob.roundTrips (show 1 < UInt32.size by decide) (show 0 < UInt64.size by decide) hseeds
      hregistry
  have hdeep : (CacheBlob.ofJson? Json.nestingLimit (b.cache 0).toJson).isNone = true := by
    decide +kernel
  have hrefused : CacheBlob.ofText? (b.cache 0).text = none := by
    show Json.decode? CacheBlob.ofJson? (b.cache 0).toJson.text = none
    rw [Json.decode?, Json.parse?_text htrip.readable]
    exact Option.isNone_iff_eq_none.1 hdeep
  have hprocess : a.process = (b, none) := rfl
  exact ⟨rfl, hprocess, by decide, Session.processCached_of_refused rfl hrefused hprocess⟩

end SessionSetup

end CInterface
