import CInterface.Grammar.TypeName
/-!
# What productions read

What a production reads depends on the kinds of the tokens to come, and not on where they stand or
on what has been staged before, as long as it only asks for tokens.

* `Reads p ks a ls` — before the tokens `ks` the production gives `a`, and the tokens `ls` are left;
  it reports no error.
* `Fails p ks` — before the tokens `ks` the production does not match.
* `Leads p ks q ls` — before the tokens `ks` the production does what `q` does before `ls`.

There is one lemma for each way to combine productions and one for each production that the grammar
is made of: punctuators, names, qualifiers, and expressions between brackets.
-/

namespace CInterface

/-- The kinds of the tokens to come. -/
def Stage.kinds (s : Stage) : List TokenKind := s.rest.map (·.kind)

/-- Before the tokens `ks` the production gives `a` and leaves the tokens `ls`, without an error. -/
def Reads {α : Type} (p : Production α) (ks : List TokenKind) (a : α) (ls : List TokenKind) :
    Prop :=
  ∀ s : Stage, s.kinds = ks →
    ∃ s' : Stage, p s = .ok (a, s') ∧ s'.kinds = ls ∧ s'.errors = s.errors

/-- Before the tokens `ks` the production does not match. -/
def Fails {α : Type} (p : Production α) (ks : List TokenKind) : Prop :=
  ∀ s : Stage, s.kinds = ks → ∃ e : ParseError, p s = .error e

/-- Before the tokens `ks` the production comes down to `q` before the tokens `ls`, without an error so
far. -/
def Leads {α : Type} (p : Production α) (ks : List TokenKind) (q : Production α)
    (ls : List TokenKind) : Prop :=
  ∀ s : Stage, s.kinds = ks → ∃ s' : Stage, p s = q s' ∧ s'.kinds = ls ∧ s'.errors = s.errors

variable {α β : Type} {ks ms ls : List TokenKind}

/-! ### Combinations -/

theorem Leads.refl {p : Production α} : Leads p ks p ks := fun s hs => ⟨s, rfl, hs, rfl⟩

theorem Leads.trans {p q r : Production α} (hp : Leads p ks q ms) (hq : Leads q ms r ls) :
    Leads p ks r ls := by
  intro s hs
  obtain ⟨t, ht, hms, herrors⟩ := hp s hs
  obtain ⟨u, hu, hls, herrors'⟩ := hq t hms
  exact ⟨u, ht.trans hu, hls, herrors'.trans herrors⟩

theorem Leads.reads {p q : Production α} {a : α} (hp : Leads p ks q ms) (hq : Reads q ms a ls) :
    Reads p ks a ls := by
  intro s hs
  obtain ⟨t, ht, hms, herrors⟩ := hp s hs
  rw [ht, ← herrors]
  exact hq t hms

theorem Leads.fails {p q : Production α} (hp : Leads p ks q ms) (hq : Fails q ms) :
    Fails p ks := by
  intro s hs
  obtain ⟨t, ht, hms, -⟩ := hp s hs
  rw [ht]
  exact hq t hms

/-- A sequence comes down to what follows the piece that is read. -/
theorem Reads.leads {p : Production α} {a : α} (hp : Reads p ks a ms) (f : α → Production β) :
    Leads (p >>= f) ks (f a) ms := by
  intro s hs
  obtain ⟨t, ht, hms, herrors⟩ := hp s hs
  refine ⟨t, ?_, hms, herrors⟩
  show (p s >>= fun (a, s) => f a s) = _
  rw [ht]
  rfl

theorem Reads.pure (a : α) : Reads (pure a) ks a ks := fun s hs => ⟨s, rfl, hs, rfl⟩

/-- What a sequence reads is read piece by piece. -/
theorem Reads.bind {p : Production α} {f : α → Production β} {a : α} {b : β}
    (hp : Reads p ks a ms) (hf : Reads (f a) ms b ls) : Reads (p >>= f) ks b ls :=
  (hp.leads f).reads hf

theorem Reads.bind_fails {p : Production α} {f : α → Production β} {a : α}
    (hp : Reads p ks a ms) (hf : Fails (f a) ms) : Fails (p >>= f) ks :=
  (hp.leads f).fails hf

theorem Fails.bind {p : Production α} {f : α → Production β} (hp : Fails p ks) :
    Fails (p >>= f) ks := by
  intro s hs
  obtain ⟨e, he⟩ := hp s hs
  refine ⟨e, ?_⟩
  show (p s >>= fun (a, s) => f a s) = _
  rw [he]
  rfl

theorem Reads.map {p : Production α} {a : α} (f : α → β) (hp : Reads p ks a ls) :
    Reads (f <$> p) ks (f a) ls := by
  rw [map_eq_pure_bind]
  exact hp.bind (.pure _)

theorem Fails.map {p : Production α} (f : α → β) (hp : Fails p ks) : Fails (f <$> p) ks := by
  rw [map_eq_pure_bind]
  exact hp.bind

/-- A production that looks at the stage first. -/
theorem Reads.get_bind {f : Stage → Production β} {b : β}
    (hf : ∀ s : Stage, s.kinds = ks → Reads (f s) ks b ls) : Reads (get >>= f) ks b ls :=
  fun s hs => hf s hs s hs

theorem Fails.get_bind {f : Stage → Production β} (hf : ∀ s : Stage, s.kinds = ks → Fails (f s) ks) :
    Fails (get >>= f) ks :=
  fun s hs => hf s hs s hs

theorem Reads.attempt {p : Production α} {a : α} (hp : Reads p ks a ls) :
    Reads (attempt p) ks (some a) ls := by
  intro s hs
  obtain ⟨t, ht, hls, herrors⟩ := hp s hs
  refine ⟨t, ?_, hls, herrors⟩
  simp only [CInterface.attempt, ht]

theorem Fails.attempt {p : Production α} (hp : Fails p ks) : Reads (attempt p) ks none ks := by
  intro s hs
  obtain ⟨e, he⟩ := hp s hs
  refine ⟨s, ?_, hs, rfl⟩
  simp only [CInterface.attempt, he]

theorem Reads.either_left {p q : Production α} {a : α} (hp : Reads p ks a ls) :
    Reads (either p q) ks a ls := by
  intro s hs
  obtain ⟨t, ht, hls, herrors⟩ := hp s hs
  refine ⟨t, ?_, hls, herrors⟩
  simp only [either, ht]

theorem Reads.either_right {p q : Production α} {a : α} (hp : Fails p ks) (hq : Reads q ks a ls) :
    Reads (either p q) ks a ls := by
  intro s hs
  obtain ⟨e, he⟩ := hp s hs
  obtain ⟨t, ht, hls, herrors⟩ := hq s hs
  refine ⟨t, ?_, hls, herrors⟩
  simp only [either, he, ht]

/-- What is read is not in vain. -/
theorem Reads.not_fails {p : Production α} {a : α} (h : Reads p ks a ls) : ¬ Fails p ks := by
  intro hfails
  let s : Stage := ⟨ks.map (⟨·, 0, 0⟩), [], []⟩
  have hs : s.kinds = ks := by
    rw [Stage.kinds, List.map_map]
    exact List.map_id ks
  obtain ⟨e, he⟩ := hfails s hs
  obtain ⟨t, ht, -⟩ := h s hs
  cases he.symm.trans ht

/-! ### Tokens -/

theorem reads_moveTo {rest : List Token} (h : rest.map (·.kind) = ls) :
    Reads (moveTo rest) ks () ls :=
  fun s _ => ⟨{ s with rest }, rfl, h, rfl⟩

/-- Passing the first of some tokens. -/
theorem reads_drop {s : Stage} {k : TokenKind} (hs : s.kinds = k :: ks) :
    Reads (moveTo (s.rest.drop 1)) ls () ks := by
  refine reads_moveTo ?_
  rw [List.map_drop, show s.rest.map (·.kind) = k :: ks from hs]
  rfl

theorem word?_eq (s : Stage) : word? s.rest = s.kinds.head?.bind TokenKind.ident? := by
  obtain ⟨rest, staged, errors⟩ := s
  cases rest <;> rfl

/-- A word that comes next is the first token. -/
theorem head?_of_word? {s : Stage} {w : String} (h : word? s.rest = some w) :
    s.kinds.head? = some (.ident w) := by
  rw [word?_eq] at h
  obtain ⟨k, hk, hident⟩ := Option.bind_eq_some_iff.1 h
  cases k with
  | ident v =>
    cases hident
    exact hk
  | _ => cases hident

theorem word?_of_kinds {s : Stage} {w : String} (hs : s.kinds = .ident w :: ks) :
    word? s.rest = some w := by
  rw [word?_eq, hs]
  rfl

theorem reads_comes (p : Punct) : Reads (comes p) ks (ks.head? = some (.punct p)) ks := by
  intro s hs
  refine ⟨s, ?_, hs, rfl⟩
  have hhead : s.rest.head?.map (·.kind) = ks.head? := by rw [← hs, Stage.kinds, List.head?_map]
  show Except.ok (decide (s.rest.head?.map (·.kind) = some (.punct p)), s) = _
  rw [hhead]

theorem reads_accept (p : Punct) : Reads (accept p) (.punct p :: ks) true ks := by
  refine .bind (reads_comes p) ?_
  rw [if_pos (by simp)]
  exact .get_bind fun s hs => .bind (reads_drop hs) (.pure true)

theorem reads_not_accept {p : Punct} (h : ks.head? ≠ some (.punct p)) :
    Reads (accept p) ks false ks := by
  refine .bind (reads_comes p) ?_
  rw [if_neg (by simpa using h)]
  exact .pure false

namespace Source

variable {src : Source}

theorem fails (expected : Expected) : Fails (src.fail expected : Production α) ks :=
  fun s _ => ⟨src.mismatch expected s.rest, rfl⟩

theorem reads_expect (p : Punct) : Reads (src.expect p) (.punct p :: ks) () ks := by
  refine .bind (reads_accept p) ?_
  rw [if_neg (by simp)]
  exact .pure ()

theorem expect_fails {p : Punct} (h : ks.head? ≠ some (.punct p)) : Fails (src.expect p) ks := by
  refine Reads.bind_fails (reads_not_accept h) ?_
  rw [if_pos (by simp)]
  exact fails _

/-- Tokens of the same kinds may stand on any line. -/
theorem reads_line_bind {f : Nat → Production β} {b : β} (hf : ∀ n, Reads (f n) ks b ls) :
    Reads (src.line >>= f) ks b ls :=
  fun s hs => hf (src.lineAt s.rest) s hs

theorem reads_name? {name : String} (h : src.grammar.isKeyword name = false) :
    Reads src.name? (.ident name :: ks) (some name) ks := by
  refine .get_bind fun s hs => ?_
  rw [word?_of_kinds hs]
  simp only [h]
  rw [if_neg Bool.false_ne_true]
  exact .get_bind fun s hs => .bind (reads_drop hs) (.pure _)

theorem reads_no_name (h : ∀ name, ks.head? = some (.ident name) →
    src.grammar.isKeyword name = true) : Reads src.name? ks none ks := by
  refine .get_bind fun s hs => ?_
  cases hw : word? s.rest with
  | none => exact .pure none
  | some name =>
    have hkey : src.grammar.isKeyword name = true := h name (by rw [← hs, head?_of_word? hw])
    simp only [hkey]
    rw [if_pos trivial]
    exact .pure none

/-! ### Between brackets -/

/-- The tokens up to a stop, or to a closing bracket, where neither brackets nor stops stand among
them. -/
theorem reads_tokensUntil {stops : List Punct} {p : Punct} {inside : List TokenKind}
    (hinside : inside.all fun k => !(k.isOneOf stops || k.isOpen || k.isClose))
    (hp : p ∈ stops ∨ (TokenKind.punct p).isClose = true) :
    Reads (src.tokensUntil stops) (inside ++ .punct p :: ks) inside (.punct p :: ks) := by
  have hfind : ∀ (ins : List TokenKind) (ts : List Token),
      (ins.all fun k => !(k.isOneOf stops || k.isOpen || k.isClose)) = true →
      ts.map (·.kind) = ins ++ .punct p :: ks → ∃ us vs, balancedUntil stops 0 ts = some (us, vs) ∧
        us.map (·.kind) = ins ∧ vs.map (·.kind) = .punct p :: ks := by
    intro ins
    induction ins with
    | nil =>
      intro ts _ hts
      cases ts with
      | nil => cases hts
      | cons t ts =>
        have ht : t.kind = .punct p := (List.cons.inj hts).1
        refine ⟨[], t :: ts, ?_, rfl, hts⟩
        rw [balancedUntil, if_pos]
        rcases hp with hp | hp
        · simp [ht, TokenKind.isOneOf, hp]
        · simp [ht, hp]
    | cons k ins ih =>
      intro ts hall hts
      cases ts with
      | nil => cases hts
      | cons t ts =>
        obtain ⟨ht, hts⟩ := List.cons.inj hts
        obtain ⟨hk, hall⟩ := Bool.and_eq_true_iff.1 hall
        simp only [Bool.not_eq_true', Bool.or_eq_false_iff] at hk
        obtain ⟨⟨hstop, hopen⟩, hclose⟩ := hk
        obtain ⟨us, vs, hbal, hus, hvs⟩ := ih ts hall hts
        refine ⟨t :: us, vs, ?_, ?_, hvs⟩
        · have ht' : t.kind = k := ht
          simp [balancedUntil, ht', hstop, hopen, hclose, hbal]
        · rw [List.map_cons, hus, show t.kind = k from ht]
  refine .get_bind fun s hs => ?_
  obtain ⟨us, vs, hbal, hus, hvs⟩ := hfind inside s.rest hinside hs
  simp only [hbal, ← hus]
  exact .bind (reads_moveTo hvs) (.pure _)

/-- An expression that has the same value whatever names have values. -/
theorem reads_evaluate {members : EnumDef} {ts : List TokenKind} {v : Except EvalError Value}
    (h : ∀ env : Env, evalTokens env ts = v) : Reads (src.evaluate members ts) ks v ks := by
  refine .get_bind fun s _ => ?_
  rw [h]
  exact .pure v

/-! ### Qualifiers -/

/-- No qualifier stands at the head of the tokens. -/
def EndsQualifiers (src : Source) (ks : List TokenKind) : Prop :=
  ∀ w, ks.head? = some (.ident w) → src.grammar.isQualifier w = false ∧
    src.grammar.isModifier w = false ∧ src.grammar.isUnderscoreWord w = false

theorem EndsQualifiers.qualifier?_eq_none (h : src.EndsQualifiers ks) {ts : List Token}
    (hts : ts.map (·.kind) = ks) (beforeType : Bool) :
    src.grammar.qualifier? beforeType ts = none := by
  cases ts with
  | nil => rfl
  | cons t ts =>
    rw [Grammar.qualifier?]
    split
    · rename_i w hw
      subst hts
      obtain ⟨h1, h2, h3⟩ := h w (congrArg some hw)
      simp [h1, h2, h3]
    · rfl

/-- A qualifier word at the head of the tokens is one qualifier. -/
theorem qualifier?_of_isQualifier {w : String} {ts : List Token}
    (hw : src.grammar.isQualifier w = true) (hts : ts.map (·.kind) = .ident w :: ks)
    (beforeType : Bool) : src.grammar.qualifier? beforeType ts = some (w, ts.drop 1) := by
  cases ts with
  | nil => cases hts
  | cons t ts =>
    have ht : t.kind = .ident w := (List.cons.inj hts).1
    simp [Grammar.qualifier?, ht, hw]

/-- Qualifier words are read up to the first token that is none. -/
theorem reads_qualifiers {qs : List String} (hqs : ∀ q ∈ qs, src.grammar.isQualifier q = true)
    (hks : src.EndsQualifiers ks) (beforeType : Bool) (quals : Qualifiers) :
    Reads (src.qualifiers beforeType quals) (qs.map .ident ++ ks) (quals.union qs) ks := by
  have hat : ∀ (qs : List String) (quals : Qualifiers) (ts : List Token),
      (∀ q ∈ qs, src.grammar.isQualifier q = true) → ts.map (·.kind) = qs.map .ident ++ ks →
      src.grammar.qualifiersAt beforeType quals ts = (quals.union qs, ts.drop qs.length) := by
    intro qs
    induction qs with
    | nil =>
      intro quals ts _ hts
      have hnone := hks.qualifier?_eq_none hts beforeType
      rw [Grammar.qualifiersAt]
      split
      · rfl
      · rename_i heq
        cases hnone.symm.trans heq
    | cons q qs ih =>
      intro quals ts hqs hts
      have hsome := qualifier?_of_isQualifier (hqs q List.mem_cons_self) hts beforeType
      have hrest : (ts.drop 1).map (·.kind) = qs.map .ident ++ ks := by rw [List.map_drop, hts]; rfl
      rw [Grammar.qualifiersAt]
      split
      · rename_i heq
        cases hsome.symm.trans heq
      · rename_i heq
        cases hsome.symm.trans heq
        rw [ih _ _ (fun p hp => hqs p (List.mem_cons_of_mem _ hp)) hrest, List.drop_drop,
          Nat.add_comm, List.length_cons]
        rfl
  refine .get_bind fun s hs => ?_
  rw [hat qs quals s.rest hqs hs]
  refine .bind (reads_moveTo ?_) (.pure _)
  rw [List.map_drop, show s.rest.map (·.kind) = _ from hs]
  exact List.drop_left' (List.length_map _)

end Source

end CInterface
