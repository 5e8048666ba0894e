import CInterface.Proofs.Grammar.DeclaratorTrees
import CInterface.Proofs.Grammar.Findings
import CInterface.Proofs.Grammar.Recording
import CInterface.Proofs.Packing.Log
/-!
# Declarations that check what they declare

A declaration can be read with two more tests: that every declarator has a name, and that the type
of each function is that of a function. Either test would record a fault, and go on. Here such a
reading is shown to record none, so that the errors of a header are those of enumerators, of bit
widths and of packing alone.

* `DeclaratorFault` — what the tests would record.
* `Source.checkedDeclaration` — the reading with the tests.
* `checkedDeclaration_eq` — it is the reading without them.
* `checkedParseFile_eq` — so it is for a whole header.
* `parseFile_errors` — the errors that are left.
-/

namespace CInterface

/-! ### Reading with tests -/

/-- A declarator that declares nothing. -/
inductive DeclaratorFault where
  /-- A declarator of a construct has no name. -/
  | unnamed (line : Nat) (construct : String)
  /-- The type of a function is none of a function. -/
  | function (line : Nat) (name : String) (cause : TypeError)

/-- The text of a fault of a declarator. -/
def DeclaratorFault.message : DeclaratorFault → String
  | unnamed line construct =>
    "line " ++ toString line ++ ": " ++ construct ++ " declarator has no name"
  | function line name cause =>
    "line " ++ toString line ++ ": function '" ++ name ++ "': " ++ cause.message

/-- A step of reading that may record faults of declarators, the latest first. -/
abbrev Checked (α : Type) := StateT (List DeclaratorFault) Production α

/-- Records a fault. -/
def recordFault (f : DeclaratorFault) : Checked Unit := modify fun faults => f :: faults

/-- Stages a function, whose type has to be that of one. -/
def checkedFunction (storage : List String) (line : Nat) (name : String) (t : CType) :
    Checked Unit :=
  match FunctionDecl.ofType? t storage with
  | .ok f => define name ⟨.functions, f⟩
  | .error cause => recordFault (.function line name cause)

/-- Stages what a declarator declares, which has to have a name. -/
def checkedObject (specs : Specifiers) (line : Nat) (d : Declarator) (value : Option Value) :
    Checked Unit :=
  match d.reduce specs.base with
  | (none, _) => recordFault (.unnamed line "variable")
  | (some name, t) =>
    if t.isFunction then checkedFunction specs.storage line name t
    else do
      match value.filter Value.isScalar with
      | some v => define name ⟨.values, v⟩
      | none => pure ()
      define name ⟨.vars, value, t, specs.storage⟩

namespace Source

/-- Reads the value of a declarator, and the declarators that follow it behind commas. -/
def checkedObjects (src : Source) (specs : Specifiers) (line : Nat) :
    Nat → Declarator → Checked Unit
  | 0, _ => src.fail .declarator
  | fuel + 1, d => do
    let value ← if ← accept .assign then src.initializer src.fuel else pure none
    checkedObject specs line d value
    if ← accept .comma then
      let next ← src.shape true src.fuel
      src.checkedObjects specs line fuel next

/-- Reads the declarators of a typedef. -/
def checkedTypedefNames (src : Source) (base : CType) : Nat → Checked Unit
  | 0 => src.fail .declarator
  | fuel + 1 => do
    let line ← src.line
    let d ← src.shape true src.fuel
    match d.reduce base with
    | (some name, t) => define name ⟨.types, t⟩
    | (none, _) => recordFault (.unnamed line "typedef")
    if ← accept .comma then src.checkedTypedefNames base fuel

/-- Reads a typedef behind its keyword. -/
def checkedTypedefBody (src : Source) : Checked Unit := do
  let specs ← src.specifiers src.fuel
  if !(← comes .semi) then src.checkedTypedefNames specs.base src.fuel
  src.expect .semi

/-- Reads a declaration: the tests are those of its declarators, and that of a function with a
body. -/
def checkedDeclaration (src : Source) : Checked Unit := do
  if ← acceptWord "typedef" then src.checkedTypedefBody
  else
    let line ← src.line
    let specs ← src.specifiers src.fuel
    if ← accept .semi then return
    let d ← src.shape true src.fuel
    if ← comes .lbrace then
      let (name, t) := d.reduce specs.base
      if !t.isFunction then src.fail (.punct .semi)
      src.skipBlock
      match name with
      | some name => checkedFunction specs.storage line name t
      | none => pure ()
    else
      src.checkedObjects specs line src.fuel d
      src.expect .semi

end Source

/-! ### No fault -/

variable {src : Source}

theorem liftM_ite {α : Type} {c : Prop} [Decidable c] (p q : Production α) :
    (liftM (if c then p else q) : Checked α) = if c then liftM p else liftM q :=
  apply_ite liftM c p q

theorem checkedFunction_eq {storage : List String} {line : Nat} {name : String} {t : CType}
    (h : t.isFunction) (value : Option Value) :
    checkedFunction storage line name t = liftM (declare storage name t value) := by
  cases t with
  | function ret params variadic quals => rfl
  | base name quals => cases h
  | pointer inner quals => cases h
  | reference inner quals => cases h
  | array inner size quals => cases h

theorem checkedObject_eq {specs : Specifiers} {line : Nat} {d : Declarator} (h : d.name?.isSome)
    (value : Option Value) : checkedObject specs line d value =
      liftM (declare specs.storage (d.name?.getD "") (buildType specs.base d.steps) value) := by
  obtain ⟨name, hname⟩ := Option.isSome_iff_exists.1 h
  simp only [checkedObject, d.reduce_eq, hname, Option.getD_some]
  split
  · rename_i hfunction
    exact checkedFunction_eq hfunction value
  · rename_i hvariable
    rw [declare]
    · cases value.filter Value.isScalar with
      | none => rfl
      | some v => rfl
    · intro ret params variadic quals ht
      rw [ht] at hvariable
      exact hvariable rfl

/-- What follows a declarator may rely on its name. -/
theorem shape_bind_congr {α : Type} {fuel : Nat} {q q' : Declarator → Checked α}
    (h : ∀ d : Declarator, d.name?.isSome → q d = q' d) :
    (liftM (src.shape true fuel) >>= q) = liftM (src.shape true fuel) >>= q' := by
  funext faults
  change (src.shape true fuel >>= fun d => pure (d, faults)) >>= (fun r => q r.1 r.2) =
    (src.shape true fuel >>= fun d => pure (d, faults)) >>= fun r => q' r.1 r.2
  simp only [bind_assoc, pure_bind]
  exact (Source.gives_shape_named fuel).1.bind_congr fun d hd => congrFun (h d hd) faults

/-- The grammar reads a declarator as a tree. -/
theorem liftM_declarator_bind {α : Type} (fuel : Nat) (q : String × List LayerStep → Checked α) :
    (liftM (src.declarator fuel) >>= q) =
      liftM (src.shape true fuel) >>= fun d => q (d.name?.getD "", d.steps) := by
  rw [(Source.declarator_eq_shape fuel).1, map_eq_pure_bind, liftM_bind, bind_assoc]
  simp only [liftM_pure, pure_bind]

theorem checkedObjects_eq (specs : Specifiers) (line fuel : Nat) {d : Declarator}
    (h : d.name?.isSome) : src.checkedObjects specs line fuel d =
      liftM (src.objects specs fuel (d.name?.getD "", d.steps)) := by
  induction fuel generalizing d with
  | zero => rfl
  | succ fuel ih =>
    have hnext : (liftM (src.shape true src.fuel) >>= src.checkedObjects specs line fuel) =
        liftM (src.shape true src.fuel) >>= fun d =>
          liftM (src.objects specs fuel (d.name?.getD "", d.steps)) :=
      shape_bind_congr fun d hd => ih hd
    simp only [Source.checkedObjects, Source.objects, liftM_bind, liftM_ite, liftM_pure, pure_bind,
      checkedObject_eq h, liftM_declarator_bind, hnext]

/-- The line is read for faults only. -/
theorem line_bind_eq {α : Type} {q : Nat → Checked α} {q' : Checked α} (h : ∀ line, q line = q') :
    (liftM src.line >>= q) = q' := by
  funext faults s
  exact congrFun (congrFun (h (src.lineAt s.rest)) faults) s

theorem checkedTypedefNames_eq (base : CType) (fuel : Nat) :
    src.checkedTypedefNames base fuel = liftM (src.typedefNames base fuel) := by
  induction fuel with
  | zero => rfl
  | succ fuel ih =>
    simp only [Source.checkedTypedefNames, Source.typedefNames, liftM_bind, liftM_ite, liftM_pure,
      liftM_declarator_bind, ih]
    refine line_bind_eq fun line => shape_bind_congr fun d hd => ?_
    obtain ⟨name, hname⟩ := Option.isSome_iff_exists.1 hd
    rw [d.reduce_eq, hname, Option.getD_some]

theorem checkedTypedefBody_eq : src.checkedTypedefBody = liftM src.typedefBody := by
  simp only [Source.checkedTypedefBody, Source.typedefBody, liftM_bind, liftM_ite,
    checkedTypedefNames_eq]

/-- What is declared before a body is a function with a name. -/
theorem checkedFunction_reduce {specs : Specifiers} {line : Nat} {d : Declarator}
    (h : d.name?.isSome) (hfunction : (buildType specs.base d.steps).isFunction) :
    (match d.name? with
      | some name => checkedFunction specs.storage line name (buildType specs.base d.steps)
      | none => pure ()) =
      liftM (declare specs.storage (d.name?.getD "") (buildType specs.base d.steps) none) := by
  obtain ⟨name, hname⟩ := Option.isSome_iff_exists.1 h
  rw [hname]
  exact checkedFunction_eq hfunction none

/-- **A declaration that checks what it declares records no fault.** -/
theorem checkedDeclaration_eq : src.checkedDeclaration = liftM src.declaration := by
  simp only [Source.checkedDeclaration, Source.declaration, liftM_bind, liftM_ite, liftM_pure,
    checkedTypedefBody_eq, liftM_declarator_bind]
  refine bind_congr fun typedef => if_congr Iff.rfl rfl ?_
  refine line_bind_eq fun line => bind_congr fun specs => bind_congr fun ended => ?_
  refine if_congr Iff.rfl rfl (shape_bind_congr fun d hd => bind_congr fun body => ?_)
  rw [checkedObjects_eq specs line src.fuel hd, d.reduce_eq]
  refine if_congr Iff.rfl ?_ rfl
  cases hfunction : (buildType specs.base d.steps).isFunction with
  | true => simp only [checkedFunction_reduce hd hfunction]
  | false =>
    -- the reading fails before the body
    rfl

/-- With the tests a declaration gives and stages the same, or fails alike. -/
theorem checkedDeclaration_run (faults : List DeclaratorFault) (s : Stage) :
    src.checkedDeclaration faults s = (src.declaration s).map fun r => ((r.1, faults), r.2) := by
  rw [checkedDeclaration_eq]
  change (src.declaration s >>= fun r => Except.ok ((r.1, faults), r.2)) = _
  cases src.declaration s <;> rfl

/-! ### Headers -/

namespace HeaderText

/-- Drops what a declaration has staged, and reports its errors. -/
def drop (s : HeaderState) (stage : Stage) : HeaderState :=
  let found := stage.errors.take (stage.errors.length - s.stage.errors.length)
  { s.moveTo stage.rest with
    report := { s.report with errors := s.report.errors ++ found.reverse } }

/-- Reads a declaration with the tests, or skips it. One with a fault is dropped. -/
def checkedDeclaration (h : HeaderText) (s : HeaderState) : HeaderState × List DeclaratorFault :=
  let src := h.source s.registry
  match src.checkedDeclaration [] s.stage with
  | .ok (((), faults), stage) =>
    if faults.isEmpty then (h.commit s stage, []) else (drop s stage, faults.reverse)
  | .error _ => (h.skip s src, [])

theorem checkedDeclaration_eq (h : HeaderText) (s : HeaderState) :
    h.checkedDeclaration s = (h.declaration s, []) := by
  rw [checkedDeclaration, declaration, checkedDeclaration_run]
  cases (h.source s.registry).declaration s.stage <;> rfl

end HeaderText

/-- The registry with the definitions of a header, the report of its reading, and the faults that
the tests record. -/
def Grammar.checkedParseFile (g : Grammar) (registry : Registry) (file : String)
    (packing : PackingLog) (text : String) : (Registry × ParseReport) × List DeclaratorFault :=
  g.parseFileWith registry file packing text HeaderText.checkedDeclaration

/-- No declaration of a header has a fault. -/
theorem checkedParseFile_eq (g : Grammar) (registry : Registry) (file : String)
    (packing : PackingLog) (text : String) :
    g.checkedParseFile registry file packing text =
      (g.parseFile registry file packing text, []) := by
  refine Prod.ext (Grammar.parseFileWith_fst fun h s => ?_) ?_
  · rw [h.checkedDeclaration_eq]
  · have hnone : ∀ i ∈ (g.checkedParseFile registry file packing text).2, False := by
      refine (Grammar.forall_mem_parseFileWith (R := fun _ => True) (fun s hs _ => ?_) trivial).2
      rw [HeaderText.checkedDeclaration_eq]
      exact .nothing (HeaderText.idle_declaration hs) trivial
    exact List.eq_nil_iff_forall_not_mem.2 hnone

/-- The error is one of an enumerator or of a bit width. -/
def DefinitionError.IsValueError : DefinitionError → Prop
  | enumValue _ _ _ | bitWidth _ _ => True
  | aggregate _ _ _ _ => False

/-- Where the values of a log are powers of two, no packing is in error. -/
theorem DefinitionError.Regular.isValueError {packing : PackingLog} {e : DefinitionError}
    (h : e.Regular packing)
    (hpacking : ∀ entry ∈ packing.entries, entry.2.all isPowerOfTwo = true) : e.IsValueError := by
  cases e with
  | enumValue line member fault => trivial
  | bitWidth line field => trivial
  | aggregate line kind name cause =>
    obtain ⟨p, _, hp, hpower⟩ := h
    obtain ⟨entry, hmem, hvalue⟩ := PackingLog.exists_of_packAt hp
    have hvalid := hpacking entry hmem
    rw [hvalue, Option.all_some, hpower] at hvalid
    cases hvalid

/-- **The only errors of a header are those of enumerators and of bit widths**, if the packings of
the log are powers of two or none.

* Each error in the report is one of these; no aggregate is refused.
* Reading the header with tests of its declarators, for names and for the types of functions, gives
  the same registry and the same report, and records no fault.
* This is so of every declaration by itself, wherever it stands and whatever is staged: with the
  tests it gives and stages the same, or fails alike. -/
theorem parseFile_errors (g : Grammar) (registry : Registry) (file : String)
    (packing : PackingLog) (text : String)
    (hpacking : ∀ entry ∈ packing.entries, entry.2.all isPowerOfTwo = true) :
    let result := g.parseFile registry file packing text
    (∀ e ∈ result.2.errors, e.IsValueError) ∧
      g.checkedParseFile registry file packing text = (result, []) ∧
      ∀ (src : Source) (s : Stage) (faults : List DeclaratorFault),
        src.checkedDeclaration faults s =
          (src.declaration s).map fun r => ((r.1, faults), r.2) := by
  refine ⟨fun e he => ?_, ?_, fun src s faults => ?_⟩
  · exact ((parseFile_regular g registry file packing text).2 e he).isValueError hpacking
  · exact checkedParseFile_eq g registry file packing text
  · exact checkedDeclaration_run faults s

/-- A bit width and an enumerator without values, and functions with their names in parentheses. -/
def faultyText : String :=
  "struct s \x7b int a : x; \x7d;\nenum \x7b E = x \x7d; int (*((f)))(void);\n" ++
    "int (g)(int) \x7b \x7d"

theorem parseFile_errors_faultyText :
    let packing : PackingLog := ⟨[(0, none), (1, some 4)]⟩
    let result := Grammar.standard.parseFile .empty "a.h" packing faultyText
    (∀ entry ∈ packing.entries, entry.2.all isPowerOfTwo = true) ∧
      result.2.errors.map (·.line) = [0, 1] ∧ (∀ e ∈ result.2.errors, e.IsValueError) ∧
      Grammar.standard.checkedParseFile .empty "a.h" packing faultyText = (result, []) := by
  have hpacking : ∀ entry ∈ [(0, none), (1, some (4 : UInt32))],
      entry.2.all isPowerOfTwo = true := by decide
  obtain ⟨herrors, hchecked, -⟩ :=
    parseFile_errors .standard .empty "a.h" ⟨[(0, none), (1, some 4)]⟩ faultyText hpacking
  exact ⟨hpacking, by decide +kernel, herrors, hchecked⟩

end CInterface
