import CInterface.Proofs.Grammar.Transaction
/-!
# Headers with a record

A header can be read with a reader of declarations that tells something besides, such as what it has
tried or found wanting. What it tells is recorded in order.

* `HeaderText.runWith`, `Grammar.parseFileWith` — the reading of a header with such a reader.
* `HeaderText.runWith_fst`, `Grammar.parseFileWith_fst` — the reading itself is the usual one, if
  the reader reads declarations as usual.
* `HeaderText.tells_runWith`, `Grammar.forall_mem_parseFileWith` — what is so of all that is told is
  so of the record.
-/

namespace CInterface

variable {ω : Type}

namespace HeaderText

/-- Reads a declaration behind the words that set its linkage. -/
def linkedWith (read : HeaderState → HeaderState × List ω) (s : HeaderState) :
    HeaderState × List ω :=
  match s.stage.rest with
  | t :: rest =>
    if 0 < s.blocks && t.kind = .punct .rbrace then
      ({ s.moveTo rest with blocks := s.blocks - 1 }, [])
    else read s
  | [] => read s

/-- Reads one piece of a header. -/
def stepWith (read : HeaderState → HeaderState × List ω) (s : HeaderState) :
    HeaderState × List ω :=
  match s.stage.rest with
  | t :: rest =>
    if t.kind = .punct .semi then (s.moveTo rest, [])
    else match linkage? s.stage.rest with
      | some (true, rest) => ({ s.moveTo rest with blocks := s.blocks + 1 }, [])
      | some (false, rest) => linkedWith read (s.moveTo rest)
      | none => linkedWith read s
  | [] => (s, [])

/-- Reads pieces of a header until its end. -/
def runWith (read : HeaderState → HeaderState × List ω) : Nat → HeaderState → HeaderState × List ω
  | 0, s => (s, [])
  | fuel + 1, s =>
    if s.stage.rest.isEmpty then (s, [])
    else
      let (next, told) := stepWith read s
      let (last, more) := runWith read fuel next
      (last, told ++ more)

variable {h : HeaderText} {read : HeaderState → HeaderState × List ω}

/-! ### The reading -/

theorem linkedWith_fst (hread : ∀ s, (read s).1 = h.declaration s) (s : HeaderState) :
    (linkedWith read s).1 = h.linked s := by
  rw [linkedWith, linked]
  cases s.stage.rest with
  | nil => exact hread s
  | cons t rest =>
    dsimp only
    split
    · rfl
    · exact hread s

theorem stepWith_fst (hread : ∀ s, (read s).1 = h.declaration s) (s : HeaderState) :
    (stepWith read s).1 = h.step s := by
  rw [stepWith, step]
  cases s.stage.rest with
  | nil => rfl
  | cons t rest =>
    dsimp only
    split
    · rfl
    · cases linkage? (t :: rest) with
      | none => exact linkedWith_fst hread s
      | some linkage =>
        obtain ⟨opens, rest⟩ := linkage
        cases opens with
        | true => rfl
        | false => exact linkedWith_fst hread _

/-- A header is read as usual, if its declarations are. -/
theorem runWith_fst (hread : ∀ s, (read s).1 = h.declaration s) (fuel : Nat) (s : HeaderState) :
    (runWith read fuel s).1 = h.run fuel s := by
  induction fuel generalizing s with
  | zero => rfl
  | succ fuel ih =>
    rw [runWith, run]
    split
    · rfl
    · rw [← stepWith_fst hread s]
      exact ih _

/-! ### The record -/

/-- All that is told has the property, and nothing is left staged, and a registry of the class. -/
def Tells (R : Registry → Prop) (P : ω → Prop) (result : HeaderState × List ω) : Prop :=
  (result.1.Idle ∧ R result.1.registry) ∧ ∀ i ∈ result.2, P i

variable {R : Registry → Prop} {P : ω → Prop}

theorem Tells.nothing {s : HeaderState} (hs : s.Idle) (hR : R s.registry) :
    Tells R P (s, ([] : List ω)) := ⟨⟨hs, hR⟩, fun _ hi => absurd hi List.not_mem_nil⟩

theorem tells_linkedWith (hread : ∀ s, s.Idle → R s.registry → Tells R P (read s))
    {s : HeaderState} (hs : s.Idle) (hR : R s.registry) : Tells R P (linkedWith read s) := by
  rw [linkedWith]
  split
  · split
    · exact .nothing hs hR
    · exact hread s hs hR
  · exact hread s hs hR

theorem tells_stepWith (hread : ∀ s, s.Idle → R s.registry → Tells R P (read s))
    {s : HeaderState} (hs : s.Idle) (hR : R s.registry) : Tells R P (stepWith read s) := by
  rw [stepWith]
  split
  · split
    · exact .nothing hs hR
    · split
      · exact .nothing hs hR
      · exact tells_linkedWith hread hs hR
      · exact tells_linkedWith hread hs hR
  · exact .nothing hs hR

/-- **What every declaration tells is all that the record holds.** The reader may rely on the class
of the registry, and on nothing being staged. -/
theorem tells_runWith (hread : ∀ s, s.Idle → R s.registry → Tells R P (read s)) (fuel : Nat)
    {s : HeaderState} (hs : s.Idle) (hR : R s.registry) : Tells R P (runWith read fuel s) := by
  induction fuel generalizing s with
  | zero => exact .nothing hs hR
  | succ fuel ih =>
    rw [runWith]
    split
    · exact .nothing hs hR
    · obtain ⟨⟨hnext, hRnext⟩, htold⟩ := tells_stepWith hread hs hR
      obtain ⟨hlast, hmore⟩ := ih hnext hRnext
      exact ⟨hlast, List.forall_mem_append.2 ⟨htold, hmore⟩⟩

end HeaderText

/-- The registry with the definitions of a header, the report of its reading, and the record. -/
def Grammar.parseFileWith (g : Grammar) (registry : Registry) (file : String)
    (packing : PackingLog) (text : String)
    (read : HeaderText → HeaderState → HeaderState × List ω) :
    (Registry × ParseReport) × List ω :=
  let (s, told) := HeaderText.runWith (read (g.header registry file packing text))
    (tokenize text).length (.start registry text)
  ((s.registry, s.report), told)

variable {g : Grammar} {registry : Registry} {file : String} {packing : PackingLog} {text : String}
  {read : HeaderText → HeaderState → HeaderState × List ω}

theorem Grammar.parseFileWith_fst (hread : ∀ h s, (read h s).1 = h.declaration s) :
    (g.parseFileWith registry file packing text read).1 =
      g.parseFile registry file packing text := by
  have hrun := HeaderText.runWith_fst (hread (g.header registry file packing text))
    (tokenize text).length (.start registry text)
  rw [Grammar.parseFileWith]
  dsimp only
  rw [hrun]
  rfl

/-- What is so of all that the reader tells is so of the record. -/
theorem Grammar.forall_mem_parseFileWith {R : Registry → Prop} {P : ω → Prop}
    (hread : ∀ s, s.Idle → R s.registry →
      HeaderText.Tells R P (read (g.header registry file packing text) s)) (hR : R registry) :
    R (g.parseFileWith registry file packing text read).1.1 ∧
      ∀ i ∈ (g.parseFileWith registry file packing text read).2, P i := by
  obtain ⟨⟨-, hlast⟩, htold⟩ := HeaderText.tells_runWith hread (tokenize text).length
    (s := .start registry text) ⟨rfl, rfl⟩ hR
  exact ⟨hlast, htold⟩

end CInterface
