import CInterface.Proofs.Grammar.Progress
import CInterface.Proofs.Token.Nested
/-!
# Reading side by side

A declaration is read in two texts. Its tokens are the same in both up to their places, but the first
text ends where the second may go on. If the tokens of the first are nested and end with a statement,
nothing that is read in the first depends on where it ends: a bracket that is open is closed before,
and outside brackets only a match has to be the same, not a mismatch.

* `Pairing` — the two texts; `Pairing.stage` is the stage of the second that goes with one of the
  first.
* `Pairing.Ready` — what is known of the tokens to come while some closing brackets are due.
* `Pairing.Outcome` — how the results of the two readings go together.
* `Pairing.Agrees` — a production reads both texts alike.

The rules for the productions that all others are made of follow, one for each of them.
-/

namespace CInterface

open Text

/-- The token may end a statement. -/
def TokenKind.endsStatement (k : TokenKind) : Bool := k.isOneOf [.semi, .lbrace, .rbrace]

/-! ### Errors on other lines -/

/-- The error, so many lines later. -/
def DefinitionError.shift (n : Nat) : DefinitionError → DefinitionError
  | enumValue line member fault => enumValue (line + n) member fault
  | bitWidth line field => bitWidth (line + n) field
  | aggregate line kind name cause => aggregate (line + n) kind name cause

/-- A punctuator that is expected is accepted, or the reading fails. -/
theorem Source.expect_bind {α : Type} (src : Source) (p : Punct) (f : Unit → Production α) :
    src.expect p >>= f =
      accept p >>= fun found => if found = true then f () else src.fail (.punct p) := by
  funext s
  show (accept p s >>= _) >>= _ = accept p s >>= _
  cases accept p s with
  | error e => rfl
  | ok r =>
    obtain ⟨found, t⟩ := r
    cases found <;> rfl

/-! ### Two texts -/

/-- Two texts with the same tokens, of which the second may go on where the first ends. -/
structure Pairing where
  /-- What the reading of the first text depends on. -/
  source : Source
  /-- The lines, the packing, the last line and the fuel of the second. -/
  lines : LineTable
  packing : PackingLog
  lastLine : Nat
  fuel : Nat
  /-- Where a token of the first text stands in the second. -/
  move : Token → Token
  /-- The number of lines between the places of a token. -/
  shift : Nat
  /-- What follows in the second text, if it goes on. -/
  tail : Option (List Token)
  /-- A bound on the number of tokens of the first text. -/
  size : Nat
  kind_move : ∀ t, (move t).kind = t.kind
  packAt_shift : ∀ line, packing.packAt (line + shift) = source.packing.packAt line
  lastLine_shift : tail = none → lastLine = source.lastLine + shift
  size_le_source : 8 * (size + 1) ≤ source.fuel
  size_le_fuel : 8 * (size + 1) ≤ fuel

namespace Pairing

/-- What the reading of the second text depends on. -/
def other (K : Pairing) : Source :=
  { K.source with packing := K.packing, lines := K.lines, lastLine := K.lastLine, fuel := K.fuel }

/-- The whole fuel is more than one for each token. -/
theorem le_fuel (K : Pairing) {n : Nat} (h : n ≤ K.size + 1) :
    n ≤ K.source.fuel ∧ n ≤ K.other.fuel := by
  have hsource := K.size_le_source
  have hfuel := K.size_le_fuel
  exact ⟨by omega, Nat.le_trans (by omega) hfuel⟩

/-- The tokens of the second text from the place on where some are left of the first. -/
def tokens (K : Pairing) (ts : List Token) : List Token := ts.map K.move ++ K.tail.getD []

/-- The stage of the second text that goes with a stage of the first. -/
def stage (K : Pairing) (s : Stage) : Stage :=
  ⟨K.tokens s.rest, s.staged, s.errors.map (·.shift K.shift)⟩

@[simp] theorem stage_rest (K : Pairing) (s : Stage) : (K.stage s).rest = K.tokens s.rest := rfl

/-- The first text ends within no bracket, while the second goes on. -/
def Lax (K : Pairing) (due : List Punct) : Prop := K.tail ≠ none ∧ due = []

/-- Where a bracket is due, the first text does not end. -/
theorem lax_of_cons {c : Punct} {due goal : List Punct} (h : c :: due = []) : goal = [] := by
  cases h

/-- The tokens are those of the first text from some place on where the brackets `due` are to be
closed. If the second text goes on, they are nested and end with a statement. -/
structure Ready (K : Pairing) (due : List Punct) (ts : List Token) : Prop where
  line : ∀ t ∈ ts, K.lines.lineOf (K.move t).start = K.source.lines.lineOf t.start + K.shift
  length_le : ts.length ≤ K.size
  nested : K.tail ≠ none → closesDue due ts = true
  ends : K.tail ≠ none → ∀ t, ts.getLast? = some t → t.kind.endsStatement = true

/-- The results of reading the two texts: both match alike, or both fail. Where the second text goes on
outside brackets, anything may follow from the end of the first, and from a mismatch in it. -/
inductive Outcome (K : Pairing) (due : List Punct) {α : Type} :
    Except ParseError (α × Stage) → Except ParseError (α × Stage) → Prop where
  | matched (a : α) (s : Stage) (h : K.Ready due s.rest) :
      Outcome K due (.ok (a, s)) (.ok (a, K.stage s))
  | failed (e e' : ParseError) : Outcome K due (.error e) (.error e')
  | ended (a : α) (s : Stage) (r : Except ParseError (α × Stage)) (h : K.Lax due)
      (hrest : s.rest = []) : Outcome K due (.ok (a, s)) r
  | open (e : ParseError) (r : Except ParseError (α × Stage)) (h : K.Lax due) :
      Outcome K due (.error e) r

variable {K : Pairing} {α β : Type} {due next goal : List Punct} {s : Stage} {n : Nat}

/-! ### The tokens to come -/

namespace Ready

variable {ts us : List Token}

theorem of_suffix (h : K.Ready due ts) (hsuffix : us <:+ ts)
    (hnested : K.tail ≠ none → closesDue next us = true) : K.Ready next us where
  line t ht := h.line t (hsuffix.subset ht)
  length_le := Nat.le_trans hsuffix.length_le h.length_le
  nested := hnested
  ends htail t ht := by
    obtain ⟨before, rfl⟩ := hsuffix
    refine h.ends htail t ?_
    rw [List.getLast?_append, ht]
    rfl

/-- Behind a token, the brackets are due that it leaves due. -/
theorem behind {t : Token} (h : K.Ready due (t :: ts)) (ht : t.kind.due due = some next) :
    K.Ready next ts := by
  refine h.of_suffix (List.suffix_cons t ts) fun htail => ?_
  obtain ⟨next', hnext, hts⟩ := closesDue_cons.1 (h.nested htail)
  rw [ht] at hnext
  cases hnext
  exact hts

/-- The end of the first text is within no bracket. -/
theorem lax_of_nil (h : K.Ready due []) (htail : K.tail ≠ none) : K.Lax due :=
  ⟨htail, closesDue_nil.1 (h.nested htail)⟩

/-- A statement does not end with a token that is no semicolon and no brace. -/
theorem ne_nil {t : Token} (h : K.Ready due (t :: ts)) (htail : K.tail ≠ none)
    (ht : t.kind.endsStatement = false) : ts ≠ [] := by
  rintro rfl
  have hlast := h.ends htail t rfl
  rw [ht] at hlast
  cases hlast

end Ready

/-- The tokens are not at the end of the first text, or both texts end there. -/
def Seen (K : Pairing) (ts : List Token) : Prop := K.tail = none ∨ ts ≠ []

theorem Ready.seen {ts : List Token} (h : K.Ready due ts) :
    K.Seen ts ∨ K.Lax due ∧ ts = [] := by
  by_cases htail : K.tail = none
  · exact Or.inl (Or.inl htail)
  · by_cases hts : ts = []
    · subst hts
      exact Or.inr ⟨h.lax_of_nil htail, rfl⟩
    · exact Or.inl (Or.inr hts)

/-- Behind a token that ends no statement, there are tokens that are seen in both texts. -/
theorem Ready.seen_behind {t : Token} {ts : List Token} (h : K.Ready due (t :: ts))
    (ht : t.kind.endsStatement = false) : K.Seen ts := by
  by_cases htail : K.tail = none
  · exact Or.inl htail
  · exact Or.inr (h.ne_nil htail ht)

theorem tokens_cons (t : Token) (ts : List Token) : K.tokens (t :: ts) = K.move t :: K.tokens ts := rfl

theorem tokens_nil (h : K.tail = none) : K.tokens [] = [] := by
  rw [tokens, h]
  rfl

/-- The kinds of the first tokens are the same. -/
theorem head?_tokens {ts : List Token} (h : K.Seen ts) :
    (K.tokens ts).head?.map (·.kind) = ts.head?.map (·.kind) := by
  cases ts with
  | nil =>
    rcases h with h | h
    · rw [tokens_nil h]
    · exact absurd rfl h
  | cons t ts => exact congrArg some (K.kind_move t)

theorem word?_tokens {ts : List Token} (h : K.Seen ts) : word? (K.tokens ts) = word? ts := by
  cases ts with
  | nil =>
    rcases h with h | h
    · rw [tokens_nil h]
    · exact absurd rfl h
  | cons t ts => exact congrArg TokenKind.ident? (K.kind_move t)

/-- The line of the first token is that in its text. -/
theorem Ready.lineAt_tokens {ts : List Token} (h : K.Ready due ts) (hts : K.Seen ts) :
    K.other.lineAt (K.tokens ts) = K.source.lineAt ts + K.shift := by
  cases ts with
  | nil =>
    have htail : K.tail = none := hts.resolve_right fun hne => hne rfl
    rw [tokens_nil htail]
    exact K.lastLine_shift htail
  | cons t ts => exact h.line t List.mem_cons_self

theorem tokens_drop {ts : List Token} {n : Nat} (h : n ≤ ts.length) :
    (K.tokens ts).drop n = K.tokens (ts.drop n) := by
  rw [tokens, List.drop_append_of_le_length (by rw [List.length_map]; exact h), ← List.map_drop]
  rfl

theorem map_kind_move (ts : List Token) : (ts.map K.move).map (·.kind) = ts.map (·.kind) := by
  rw [List.map_map]
  exact List.map_congr_left fun t _ => K.kind_move t

/-! ### Scans over both texts -/

theorem balancedUntil_tokens {stops : List Punct} {depth : Nat} {ts inside rest : List Token}
    (h : balancedUntil stops depth ts = some (inside, rest)) :
    balancedUntil stops depth (K.tokens ts) = some (inside.map K.move, K.tokens rest) := by
  have hmap : balancedUntil stops depth (ts.map K.move) = some (inside.map K.move, rest.map K.move) := by
    rw [balancedUntil_map K.kind_move, h]
    rfl
  exact balancedUntil_append hmap _

theorem balancedUntil_tokens_none {stops : List Punct} {depth : Nat} {ts : List Token}
    (htail : K.tail = none) (h : balancedUntil stops depth ts = none) :
    balancedUntil stops depth (K.tokens ts) = none := by
  rw [tokens, htail, Option.getD_none, List.append_nil, balancedUntil_map K.kind_move, h]
  rfl

theorem afterClosing_tokens {p : Punct} {depth : Nat} {ts rest : List Token}
    (h : afterClosing p depth ts = some rest) :
    afterClosing p depth (K.tokens ts) = some (K.tokens rest) := by
  have hmap : afterClosing p depth (ts.map K.move) = some (rest.map K.move) := by
    rw [afterClosing_map K.kind_move, h]
    rfl
  exact afterClosing_append hmap _

theorem afterClosing_tokens_none {p : Punct} {depth : Nat} {ts : List Token}
    (htail : K.tail = none) (h : afterClosing p depth ts = none) :
    afterClosing p depth (K.tokens ts) = none := by
  rw [tokens, htail, Option.getD_none, List.append_nil, afterClosing_map K.kind_move, h]
  rfl

/-! ### Results -/

namespace Outcome

/-- At the end of the first text anything may follow. -/
theorem of_ended {p : Production α} (hp : Forward p) (hlax : K.Lax due) (hrest : s.rest = [])
    (r : Except ParseError (α × Stage)) : K.Outcome due (p s) r := by
  cases hrun : p s with
  | error e => exact .open e r hlax
  | ok found =>
    have hsuffix : found.2.rest <:+ s.rest := hp.suffix hrun
    rw [hrest] at hsuffix
    exact .ended found.1 found.2 r hlax (List.eq_nil_of_suffix_nil hsuffix)

theorem bind {p p' : Production α} {q q' : α → Production β} (hp : K.Outcome next (p s) (p' (K.stage s)))
    (hq : ∀ a t, p s = .ok (a, t) → K.Ready next t.rest → K.Outcome due (q a t) (q' a (K.stage t)))
    (hforward : ∀ a, Forward (q a)) (hlax : next = [] → due = []) :
    K.Outcome due ((p >>= q) s) ((p' >>= q') (K.stage s)) := by
  show K.Outcome due (p s >>= fun r => q r.1 r.2) (p' (K.stage s) >>= fun r => q' r.1 r.2)
  generalize hrun : p s = r at hp
  generalize p' (K.stage s) = r' at hp
  cases hp with
  | matched a t h => exact hq a t hrun h
  | failed e e' => exact .failed e e'
  | ended a t r h hrest => exact of_ended (hforward a) ⟨h.1, hlax h.2⟩ hrest _
  | «open» e r h => exact .open e _ ⟨h.1, hlax h.2⟩

/-- What asks for the stage sees the stage of its text. -/
theorem get {f f' : Stage → Production α} (h : K.Outcome goal (f s s) (f' (K.stage s) (K.stage s))) :
    K.Outcome goal ((get >>= f) s) ((get >>= f') (K.stage s)) := h

/-- The line of the token to come is that in its text. -/
theorem line {f f' : Nat → Production α} (hready : K.Ready due s.rest) (hseen : K.Seen s.rest)
    (h : K.Outcome goal (f (K.source.lineAt s.rest) s)
      (f' (K.source.lineAt s.rest + K.shift) (K.stage s))) :
    K.Outcome goal ((K.source.line >>= f) s) ((K.other.line >>= f') (K.stage s)) := by
  show K.Outcome goal (f (K.source.lineAt s.rest) s)
    (f' (K.other.lineAt (K.tokens s.rest)) (K.stage s))
  rw [hready.lineAt_tokens hseen]
  exact h

end Outcome

/-! ### Productions that read both texts alike -/

/-- The production `p` on the first text and `q` on the second have results that go together, from less
than `n` tokens where the brackets `due` are to be closed to where `goal` are. -/
structure Agrees (K : Pairing) (n : Nat) (due goal : List Punct) (p q : Production α) : Prop where
  forward : Forward p
  outcome : ∀ s : Stage, K.Ready due s.rest → s.rest.length < n → K.Outcome goal (p s) (q (K.stage s))

namespace Agrees

variable {p q x x' y y' : Production α}

/-- Only tokens that are seen in both texts have to be looked at. -/
theorem of_seen (hforward : Forward p) (hlax : due = [] → goal = [])
    (h : ∀ s : Stage, K.Ready due s.rest → s.rest.length < n → K.Seen s.rest →
      K.Outcome goal (p s) (q (K.stage s))) : K.Agrees n due goal p q := by
  refine ⟨hforward, fun s hready hn => ?_⟩
  rcases hready.seen with hseen | ⟨hend, hrest⟩
  · exact h s hready hn hseen
  · exact .of_ended hforward ⟨hend.1, hlax hend.2⟩ hrest _

theorem pure (a : α) : K.Agrees n due due (pure a : Production α) (pure a) :=
  ⟨.pure a, fun s h _ => .matched a s h⟩

theorem fail (e : Expected) :
    K.Agrees n due goal (K.source.fail e : Production α) (K.other.fail e) :=
  ⟨.fail _ e, fun _ _ _ => .failed _ _⟩

theorem define (name : String) (d : Definition) :
    K.Agrees n due due (define name d) (define name d) :=
  ⟨.define name d, fun s h _ => .matched () { s with staged := (name, d) :: s.staged } h⟩

/-- Errors are those of the line of the token in its text. -/
theorem report (e : DefinitionError) :
    K.Agrees n due due (report e) (report (e.shift K.shift)) :=
  ⟨.report e, fun s h _ => .matched () { s with errors := e :: s.errors } h⟩

/-- There are not less than no tokens. -/
theorem zero (h : Forward p) : K.Agrees 0 due goal p q :=
  ⟨h, fun _ _ hn => absurd hn (Nat.not_lt_zero _)⟩

theorem mono {m : Nat} (h : K.Agrees n due goal p q) (hle : m ≤ n) : K.Agrees m due goal p q :=
  ⟨h.forward, fun _ hready hm => h.outcome _ hready (Nat.lt_of_lt_of_le hm hle)⟩

/-- There are never more tokens than the first text has. -/
theorem of_size (h : ∀ m ≤ K.size + 1, K.Agrees m due goal p q) : K.Agrees n due goal p q :=
  ⟨(h 0 (Nat.zero_le _)).forward, fun _ hready _ =>
    (h (K.size + 1) (Nat.le_refl _)).outcome _ hready (Nat.lt_succ_of_le hready.length_le)⟩

/-- A sequence reads both texts alike if its parts do. -/
theorem bind {f f' : α → Production β} (hp : K.Agrees n due next p q)
    (hf : ∀ a, K.Agrees n next goal (f a) (f' a)) (hlax : next = [] → goal = []) :
    K.Agrees n due goal (p >>= f) (q >>= f') := by
  refine ⟨hp.forward.bind fun a => (hf a).forward, fun s hready hn => ?_⟩
  refine (hp.outcome s hready hn).bind (fun a t hrun ht => ?_) (fun a => (hf a).forward) hlax
  exact (hf a).outcome t ht (Nat.lt_of_le_of_lt (hp.forward.suffix hrun).length_le hn)

/-- What follows a part that passes a token has fewer tokens before it. -/
theorem bind_passing {f f' : α → Production β} (hp : K.Agrees n due next p q) (hpass : Passes p)
    (hf : ∀ a, K.Agrees (n - 1) next goal (f a) (f' a)) (hlax : next = [] → goal = []) :
    K.Agrees n due goal (p >>= f) (q >>= f') := by
  refine ⟨hp.forward.bind fun a => (hf a).forward, fun s hready hn => ?_⟩
  refine (hp.outcome s hready hn).bind (fun a t hrun ht => ?_) (fun a => (hf a).forward) hlax
  have hlt := hpass s a t hrun
  exact (hf a).outcome t ht (by omega)

theorem ite {c : Prop} [Decidable c] (hx : K.Agrees n due goal x x') (hy : K.Agrees n due goal y y') :
    K.Agrees n due goal (if c then x else y) (if c then x' else y') := by
  split
  · exact hx
  · exact hy

/-- Within brackets, an attempt fails in both texts or in none. -/
theorem attempt {c : Punct} (hp : K.Agrees n (c :: due) (c :: due) p q) :
    K.Agrees n (c :: due) (c :: due) (attempt p) (attempt q) := by
  refine ⟨hp.forward.attempt, fun s hready hn => ?_⟩
  have h := hp.outcome s hready hn
  simp only [CInterface.attempt]
  generalize p s = r at h
  generalize q (K.stage s) = r' at h
  cases h with
  | matched a t h => exact .matched (some a) t h
  | failed e e' => exact .matched none s hready
  | ended a t r h => cases h.2
  | «open» e r h => cases h.2

theorem either {c : Punct} (hx : K.Agrees n (c :: due) (c :: due) x x')
    (hy : K.Agrees n (c :: due) (c :: due) y y') :
    K.Agrees n (c :: due) (c :: due) (either x y) (either x' y') := by
  refine ⟨hx.forward.either hy.forward, fun s hready hn => ?_⟩
  have h := hx.outcome s hready hn
  simp only [CInterface.either]
  generalize x s = r at h
  generalize x' (K.stage s) = r' at h
  cases h with
  | matched a t h => exact .matched a t h
  | failed e e' => exact hy.outcome s hready hn
  | ended a t r h => cases h.2
  | «open» e r h => cases h.2

/-! ### Tokens that come next -/

theorem comes (p : Punct) : K.Agrees n due due (CInterface.comes p) (CInterface.comes p) := by
  refine .of_seen (forward_comes p) id fun s hready _ hseen => ?_
  have hsame : CInterface.comes p (K.stage s) =
      .ok (decide (s.rest.head?.map (·.kind) = some (.punct p)), K.stage s) := by
    rw [← head?_tokens hseen]
    rfl
  rw [hsame]
  exact .matched _ s hready

/-- A punctuator that is accepted is passed in both texts or in none. -/
theorem accept {p : Punct} (hp : (TokenKind.punct p).due due = some next)
    (hlax : due = [] → goal = []) (hx : K.Agrees (n - 1) next goal x x')
    (hy : K.Agrees n due goal y y') :
    K.Agrees n due goal (CInterface.accept p >>= fun found => if found = true then x else y)
      (CInterface.accept p >>= fun found => if found = true then x' else y') := by
  refine .of_seen ((forward_accept p).bind fun _ => .ite hx.forward hy.forward) hlax fun s hready hn hseen => ?_
  have hhead := head?_tokens hseen
  show K.Outcome goal (CInterface.accept p s >>= _) (CInterface.accept p (K.stage s) >>= _)
  by_cases hs : s.rest.head?.map (·.kind) = some (.punct p)
  · obtain ⟨t, hfirst, hkind⟩ := Option.map_eq_some_iff.1 hs
    obtain ⟨ts, hts⟩ := List.head?_eq_some_iff.1 hfirst
    have hother : (K.stage s).rest = K.move t :: K.tokens ts := congrArg K.tokens hts
    rw [accept_of_head hts hkind, accept_of_head hother ((K.kind_move t).trans hkind)]
    rw [hts] at hready hn
    exact hx.outcome { s with rest := ts } (hready.behind (hkind ▸ hp)) (Nat.lt_sub_of_add_lt hn)
  · have hother : (K.stage s).rest.head?.map (·.kind) ≠ some (.punct p) := by
      rw [← hhead] at hs
      exact hs
    rw [accept_of_not_head hs, accept_of_not_head hother]
    exact hy.outcome s hready hn

/-- What is behind a punctuator may be missing together with it. -/
theorem optional {p : Punct} (hp : (TokenKind.punct p).due due = some due)
    (hx : K.Agrees (n - 1) due due x x') (hy : K.Agrees n due due y y') {f f' : α → Production β}
    (hf : ∀ a, K.Agrees n due due (f a) (f' a)) :
    K.Agrees n due due
      (CInterface.accept p >>= fun found => if found = true then x >>= f else y >>= f)
      (CInterface.accept p >>= fun found => if found = true then x' >>= f' else y' >>= f') :=
  .accept hp id (hx.bind (fun a => (hf a).mono (Nat.sub_le n 1)) id) (hy.bind hf id)

/-- A punctuator that is expected is passed in both texts or in none. -/
theorem expect {p : Punct} (hp : (TokenKind.punct p).due due = some next)
    (hlax : due = [] → goal = []) {f f' : Unit → Production α}
    (hf : K.Agrees (n - 1) next goal (f ()) (f' ())) :
    K.Agrees n due goal (K.source.expect p >>= f) (K.other.expect p >>= f') := by
  rw [Source.expect_bind, Source.expect_bind]
  exact .accept hp hlax hf (.fail _)

/-- What asks for the stage is shown from a stage where tokens are seen in both texts. -/
theorem get {f f' : Stage → Production α} (hforward : Forward (get >>= f))
    (hlax : due = [] → goal = [])
    (h : ∀ s : Stage, K.Ready due s.rest → s.rest.length < n → K.Seen s.rest →
      K.Outcome goal (f s s) (f' (K.stage s) (K.stage s))) :
    K.Agrees n due goal (get >>= f) (get >>= f') := .of_seen hforward hlax h

/-- Going on to a place in the first text is going on to that place in the second. -/
theorem moved {rest : List Token} {f f' : Unit → Production α} (hready : K.Ready next rest)
    (hn : rest.length < n) (hf : K.Agrees n next goal (f ()) (f' ())) :
    K.Outcome goal ((moveTo rest >>= f) s) ((moveTo (K.tokens rest) >>= f') (K.stage s)) :=
  hf.outcome { s with rest } hready hn

/-- A token that has been looked at is passed. -/
theorem dropped {t : Token} {ts : List Token} (hs : s.rest = t :: ts) (hready : K.Ready due s.rest)
    (hn : s.rest.length < n) (ht : t.kind.due due = some next) {f f' : Unit → Production α}
    (hf : K.Agrees (n - 1) next goal (f ()) (f' ())) :
    K.Outcome goal ((MonadState.get >>= fun s : Stage => moveTo (s.rest.drop 1) >>= f) s)
      ((MonadState.get >>= fun s : Stage => moveTo (s.rest.drop 1) >>= f') (K.stage s)) := by
  show K.Outcome goal ((moveTo (s.rest.drop 1) >>= f) s)
    ((moveTo ((K.tokens s.rest).drop 1) >>= f') (K.stage s))
  have hother : (K.tokens s.rest).drop 1 = K.tokens ts := by
    rw [hs]
    rfl
  rw [hother, hs]
  rw [hs] at hready hn
  exact moved (hready.behind ht) (Nat.lt_sub_of_add_lt hn) hf

/-- The line of the token to come is that in its text. -/
theorem line {f f' : Nat → Production α} (hlax : due = [] → goal = [])
    (hf : ∀ l, K.Agrees n due goal (f l) (f' (l + K.shift))) :
    K.Agrees n due goal (K.source.line >>= f) (K.other.line >>= f') :=
  .of_seen (forward_line.bind fun l => (hf l).forward) hlax fun s hready hn hseen =>
    .line hready hseen ((hf _).outcome s hready hn)

end Agrees

end Pairing

end CInterface
