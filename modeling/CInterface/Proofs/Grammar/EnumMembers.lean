import Mathlib.Data.List.Induction
import CInterface.Proofs.Definition.Equality
import CInterface.Proofs.Expr.Derivation
import CInterface.Proofs.Grammar.Accounting
import CInterface.Proofs.Grammar.Aggregates
/-!
# The values of enumerators

The members of an enumeration get their values in order: a member with an expression has its value,
in which the members before it are constants already, and one without counts on from the member
before it.

* `WrittenMember` — a member as it is written; `enumKinds` are the tokens of an enumeration.
* `Counted` — the rule for the values, one constructor for each way to write a member.
* `exists_counted_iff` — there are values as soon as every expression has an integer as its value.
* `balancedUntil_balanced` — the tokens of an expression hold nothing at which it could be cut short.
* `Source.enumMembers_run` — the members are read with the values of the rule.
* `parseFile_enumMembers` — a declaration of an enumeration, wherever it stands in a header.
-/

namespace CInterface

open Source

/-! ### Members as they are written -/

/-- A member of an enumeration: its name, and the tokens of its value if it is written with one. -/
structure WrittenMember where
  name : String
  expression : Option (List TokenKind)

namespace WrittenMember

/-- The tokens of a member. -/
def kinds (m : WrittenMember) : List TokenKind :=
  match m.expression with
  | some e => .ident m.name :: .punct .assign :: e
  | none => [.ident m.name]

theorem exists_kinds (m : WrittenMember) : ∃ ks, m.kinds = .ident m.name :: ks := by
  obtain ⟨name, _ | e⟩ := m
  · exact ⟨_, rfl⟩
  · exact ⟨_, rfl⟩

/-- The tokens of some members with commas between them, and behind the last one if `comma` says so. -/
def listKinds (comma : Bool) : List WrittenMember → List TokenKind
  | [] => []
  | m :: ms =>
    m.kinds ++ (if comma || !ms.isEmpty then [.punct .comma] else []) ++ listKinds comma ms

end WrittenMember

/-- The tokens of an enumeration with members: its keyword, its tag if it has one, and the members in
braces. -/
def enumKinds (tag : Option String) (ms : List WrittenMember) (comma : Bool) : List TokenKind :=
  .ident "enum" :: (tag.toList.map .ident ++
    .punct .lbrace :: (WrittenMember.listKinds comma ms ++ [.punct .rbrace]))

/-! ### The rule -/

/-- The constants behind some members: they shadow others of the same names. -/
def shadowing (earlier : List (String × Int64)) (env : Env) : Env := fun name =>
  ((OrderedMap.find? name earlier).map Value.int).or (env name)

/-- The value that counts on from some members: one more than that of the last as a signed number of
64 bits, or zero behind none. -/
def successor (earlier : List (String × Int64)) : Int64 :=
  match earlier.getLast? with
  | some (_, v) => .ofInt (v.toInt + 1)
  | none => 0

/-- The members have these values behind `earlier` ones. -/
inductive Counted (env : Env) :
    List (String × Int64) → List WrittenMember → List (String × Int64) → Prop where
  | nil {earlier : List (String × Int64)} : Counted env earlier [] []
  /-- An expression has its value where the earlier members are constants. -/
  | written {earlier es : List (String × Int64)} {name : String} {e : List TokenKind} {v : Int64}
      {ms : List WrittenMember} (hv : evalTokens (shadowing earlier env) e = .ok (.int v))
      (h : Counted env (earlier ++ [(name, v)]) ms es) :
      Counted env earlier (⟨name, some e⟩ :: ms) ((name, v) :: es)
  /-- Without an expression the value counts on. -/
  | next {earlier es : List (String × Int64)} {name : String} {ms : List WrittenMember}
      (h : Counted env (earlier ++ [(name, successor earlier)]) ms es) :
      Counted env earlier (⟨name, none⟩ :: ms) ((name, successor earlier) :: es)

/-- Every expression has an integer as its value where the members before it are constants. -/
def Evaluable (env : Env) (ms : List WrittenMember) : Prop :=
  ∀ before m after e es, ms = before ++ m :: after → m.expression = some e →
    Counted env [] before es → ∃ v, evalTokens (shadowing es env) e = .ok (.int v)

namespace Counted

variable {env : Env} {earlier es fs : List (String × Int64)} {ms ns : List WrittenMember}

/-- The members keep their order. -/
theorem names_eq (h : Counted env earlier ms es) : es.map Prod.fst = ms.map (·.name) := by
  induction h with
  | nil => rfl
  | written hv h ih => exact congrArg (_ :: ·) ih
  | next h ih => exact congrArg (_ :: ·) ih

/-- The rule gives no two values. -/
theorem unique (h : Counted env earlier ms es) (h' : Counted env earlier ms fs) : es = fs := by
  induction h generalizing fs with
  | nil =>
    cases h'
    rfl
  | written hv h ih =>
    cases h' with
    | written hv' h' =>
      cases hv.symm.trans hv'
      exact congrArg (_ :: ·) (ih h')
  | next h ih =>
    cases h' with
    | next h' => exact congrArg (_ :: ·) (ih h')

theorem append (h : Counted env earlier ms es) (h' : Counted env (earlier ++ es) ns fs) :
    Counted env earlier (ms ++ ns) (es ++ fs) := by
  induction h with
  | nil => simpa using h'
  | written hv h ih => exact .written hv (ih (by simpa using h'))
  | next h ih => exact .next (ih (by simpa using h'))

/-- The first member has its value, and the others have theirs behind it. -/
theorem cons {m : WrittenMember} (h : Counted env earlier (m :: ms) es) :
    ∃ e fs, es = e :: fs ∧ Counted env earlier [m] [e] ∧ Counted env (earlier ++ [e]) ms fs := by
  cases h with
  | written hv h => exact ⟨_, _, rfl, .written hv .nil, h⟩
  | next h => exact ⟨_, _, rfl, .next .nil, h⟩

/-- The values of the first members do not depend on the others. -/
theorem split (h : Counted env earlier (ms ++ ns) es) :
    ∃ es₁ es₂, es = es₁ ++ es₂ ∧ Counted env earlier ms es₁ ∧ Counted env (earlier ++ es₁) ns es₂ := by
  induction ms generalizing earlier es with
  | nil => exact ⟨[], es, rfl, .nil, by simpa using h⟩
  | cons m ms ih =>
    cases h with
    | written hv h =>
      obtain ⟨es₁, es₂, rfl, hfirst, hrest⟩ := ih h
      exact ⟨_ :: es₁, es₂, rfl, .written hv hfirst, by simpa using hrest⟩
    | next h =>
      obtain ⟨es₁, es₂, rfl, hfirst, hrest⟩ := ih h
      exact ⟨_ :: es₁, es₂, rfl, .next hfirst, by simpa using hrest⟩

end Counted

/-- **There are values by the rule if and only if every expression has an integer as its value.** -/
theorem exists_counted_iff {env : Env} {ms : List WrittenMember} :
    (∃ es, Counted env [] ms es) ↔ Evaluable env ms := by
  refine ⟨?_, fun h => ?_⟩
  · rintro ⟨es, h⟩ before ⟨name, expression⟩ after e es' rfl he hbefore
    obtain rfl : expression = some e := he
    obtain ⟨es₁, es₂, rfl, hfirst, hrest⟩ := h.split
    obtain rfl := hfirst.unique hbefore
    cases hrest with
    | @written _ es₂ _ _ v _ hv h => exact ⟨v, hv⟩
  · -- the members are taken from the end, so that those before one have their values already
    suffices ∀ before after, ms = before ++ after → ∃ es, Counted env [] before es from
      this ms [] (List.append_nil ms).symm
    intro before
    induction before using List.reverseRecOn with
    | nil => exact fun _ _ => ⟨[], .nil⟩
    | append_singleton before m ih =>
      intro after hms
      rw [List.append_assoc, List.singleton_append] at hms
      obtain ⟨es, hes⟩ := ih (m :: after) hms
      obtain ⟨name, _ | e⟩ := m
      · exact ⟨_, hes.append (.next .nil)⟩
      · obtain ⟨v, hv⟩ := h before _ after e es hms rfl hes
        exact ⟨_, hes.append (.written hv .nil)⟩

/-- Counting on is what an enumeration does. -/
theorem EnumDef.nextValue_eq (d : EnumDef) : d.nextValue = successor d.members.entries := by
  unfold EnumDef.nextValue successor OrderedMap.last?
  cases d.members.entries.getLast? with
  | none => rfl
  | some e =>
    show e.2 + 1 = Int64.ofInt (e.2.toInt + 1)
    rw [Int64.ofInt_add, Int64.ofInt_toInt]
    rfl

/-! ### Where an expression ends -/

section

variable {ks : List TokenKind} {env : Env}

/-- What has a value is an expression, so its parentheses are balanced. -/
theorem balanced_of_evalTokens {ts : List TokenKind} {v : Value} (h : evalTokens env ts = .ok v) :
    Expr.Balanced ts := by
  obtain ⟨e, he, -⟩ := Expr.bind_eq_ok h
  obtain ⟨used, hused, hbalanced⟩ := (Expr.ofTokens?_eq_ok_iff.1 he).exists_balanced
  rw [hused, List.append_nil]
  exact hbalanced

theorem isPlainToken_eq_true {k : TokenKind} (h : Expr.isPlainToken k = true) :
    k.isOneOf [.comma] = false ∧ k.isOpen = false ∧ k.isClose = false := by
  cases k with
  | punct p => cases p <;> first | exact ⟨rfl, rfl, rfl⟩ | cases h
  | _ => exact ⟨rfl, rfl, rfl⟩

/-- The scan for the end of an expression passes what is balanced, at any depth. -/
theorem balancedUntil_balanced (h : Expr.Balanced ks) {inside : List Token}
    (hinside : inside.map (·.kind) = ks) (depth : Nat) (rest : List Token) :
    balancedUntil [.comma] depth (inside ++ rest) =
      (balancedUntil [.comma] depth rest).map fun p => (inside ++ p.1, p.2) := by
  induction h generalizing inside depth rest with
  | nil =>
    obtain rfl := List.map_eq_nil_iff.1 hinside
    simp
  | cons ht h ih =>
    obtain ⟨t, ts, rfl, rfl, hts⟩ := List.map_eq_cons_iff.1 hinside
    obtain ⟨hstop, hopen, hclose⟩ := isPlainToken_eq_true ht
    rw [List.cons_append, balancedUntil]
    simp only [hstop, hopen, hclose, Bool.or_self, Bool.and_false, Bool.false_eq_true, if_false]
    rw [ih hts, Option.map_map]
    rfl
  | group hinner h ihinner ih =>
    obtain ⟨t, ts, rfl, ht, hts⟩ := List.map_eq_cons_iff.1 hinside
    obtain ⟨us, vs, rfl, hus, hvs⟩ := List.map_eq_append_iff.1 hts
    obtain ⟨u, ws, rfl, hu, hws⟩ := List.map_eq_cons_iff.1 hvs
    have hopening : balancedUntil [.comma] depth (t :: (us ++ u :: ws) ++ rest) =
        (balancedUntil [.comma] (depth + 1) (us ++ (u :: (ws ++ rest)))).map
          fun p => (t :: p.1, p.2) := by
      simp [balancedUntil, ht, TokenKind.isOneOf, TokenKind.isOpen, TokenKind.isClose, Punct.isOpen,
        Punct.isClose]
    have hclosing : balancedUntil [.comma] (depth + 1) (u :: (ws ++ rest)) =
        (balancedUntil [.comma] depth (ws ++ rest)).map fun p => (u :: p.1, p.2) := by
      simp [balancedUntil, hu, TokenKind.isOpen, TokenKind.isClose, Punct.isOpen, Punct.isClose]
    rw [hopening, ihinner hus, hclosing, ih hws]
    simp [Option.map_map, Function.comp_def]

/-- A comma or a closing brace ends an expression. -/
theorem balancedUntil_expression (h : Expr.Balanced ks) {inside rest : List Token} {t : Token}
    (hinside : inside.map (·.kind) = ks)
    (ht : t.kind = .punct .comma ∨ t.kind = .punct .rbrace) :
    balancedUntil [.comma] 0 (inside ++ t :: rest) = some (inside, t :: rest) := by
  have hstop : balancedUntil [.comma] 0 (t :: rest) = some ([], t :: rest) := by
    rcases ht with ht | ht <;>
      simp [balancedUntil, ht, TokenKind.isOneOf, TokenKind.isClose, Punct.isClose]
  rw [balancedUntil_balanced h hinside, hstop]
  simp

end

/-! ### Reading members -/

namespace Source

variable {src : Source} {s : Stage} {ks : List TokenKind}

/-- A word that is no keyword is passed as a name. -/
theorem name?_of_head {t : Token} {rest : List Token} {name : String}
    (hname : src.grammar.isKeyword name = false) (hs : s.rest = t :: rest)
    (ht : t.kind = .ident name) : src.name? s = .ok (some name, { s with rest }) := by
  have hword : word? s.rest = some name := by
    rw [hs]
    exact congrArg TokenKind.ident? ht
  rw [Source.name?, Production.bind_run (get_run s), hword]
  simp only [hname]
  rw [if_neg Bool.false_ne_true, Production.bind_run (get_run s), Production.bind_run (moveTo_run _ s),
    hs]
  rfl

/-- The value of a member is that of its expression. -/
theorem memberValue_run {d : EnumDef} {e : List TokenKind} {v : Int64}
    (hv : evalTokens (shadowing d.members.entries (src.visible? s .values)) e = .ok (.int v))
    {k : TokenKind} (hk : k = .punct .comma ∨ k = .punct .rbrace) (hs : s.kinds = e ++ k :: ks)
    (member : String) :
    ∃ rest, src.memberValue d member s = .ok (v, { s with rest }) ∧ rest.map (·.kind) = k :: ks := by
  obtain ⟨inside, more, hrest, hinside, hmore⟩ := List.map_eq_append_iff.1 hs
  obtain ⟨t, rest, rfl, rfl, hks⟩ := List.map_eq_cons_iff.1 hmore
  have htokens : src.tokensUntil [.comma] s = .ok (e, { s with rest := t :: rest }) := by
    rw [tokensUntil, Production.bind_run (get_run s), hrest,
      balancedUntil_expression (balanced_of_evalTokens hv) hinside hk]
    show Except.ok (inside.map (·.kind), _) = _
    rw [hinside]
  have heval : src.evaluate d e { s with rest := t :: rest } =
      .ok (.ok (.int v), { s with rest := t :: rest }) := by
    show Except.ok (evalTokens (shadowing d.members.entries (src.visible? s .values)) e, _) = _
    rw [hv]
  refine ⟨t :: rest, ?_, hmore⟩
  rw [memberValue, Production.bind_run (line_run s), Production.bind_run htokens,
    Production.bind_run heval]
  rfl

/-- The value of a member is read behind its name: that of its expression, or else the next one. -/
theorem member_run {env : Env} {earlier : List (String × Int64)} {m : WrittenMember}
    {e : String × Int64} (h : Counted env earlier [m] [e]) (henv : env = src.visible? s .values)
    {d : EnumDef} (hd : d.members.entries = earlier) {k : TokenKind}
    (hk : k = .punct .comma ∨ k = .punct .rbrace) {t : Token} {more : List Token}
    (hs : s.rest = t :: more) (hkinds : s.kinds = m.kinds ++ k :: ks) :
    ∃ rest, (do
        if ← accept .assign then src.memberValue d m.name else pure d.nextValue :
      Production Int64) { s with rest := more } = .ok (e.2, { s with rest }) ∧
      rest.map (·.kind) = k :: ks := by
  subst henv hd
  have hmore : t.kind :: more.map (·.kind) = m.kinds ++ k :: ks := by
    rw [← hkinds, Stage.kinds, hs, List.map_cons]
  cases h with
  | @written _ _ name e v _ hv h =>
    obtain ⟨u, us, rfl, hu, hus⟩ := List.map_eq_cons_iff.1 (List.cons.inj hmore).2
    obtain ⟨rest, hrest, hks⟩ := memberValue_run (s := { s with rest := us }) hv hk hus name
    refine ⟨rest, ?_, hks⟩
    rw [Production.bind_run (accept_of_head rfl hu), if_pos rfl]
    exact hrest
  | next h =>
    have hkinds : more.map (·.kind) = k :: ks := (List.cons.inj hmore).2
    have hassign : more.head?.map (·.kind) ≠ some (.punct .assign) := by
      rw [← List.head?_map, hkinds]
      rcases hk with rfl | rfl <;> simp
    refine ⟨more, ?_, hkinds⟩
    rw [Production.bind_run (accept_of_not_head hassign), if_neg Bool.false_ne_true, d.nextValue_eq]
    rfl

/-- Where a member stands, it is read with its value, and others if a comma follows. -/
theorem enumMembers_of_name {t : Token} {more : List Token} {name : String}
    (hname : src.grammar.isKeyword name = false) (hs : s.rest = t :: more) (ht : t.kind = .ident name)
    (fuel : Nat) (d : EnumDef) :
    src.enumMembers (fuel + 1) d s =
      ((do if ← accept .assign then src.memberValue d name else pure d.nextValue :
        Production Int64) >>= fun value => do
          if ← accept .comma then src.enumMembers fuel (d.insert name value)
          else return d.insert name value) { s with rest := more } := by
  have hcomes : comes .rbrace s = .ok (false, s) := by
    show Except.ok (decide (s.rest.head?.map (·.kind) = some (.punct .rbrace)), s) = _
    rw [hs, List.head?_cons, Option.map_some, ht, decide_eq_false (by simp)]
  rw [enumMembers, Production.bind_run hcomes, if_neg Bool.false_ne_true,
    Production.bind_run (name?_of_head hname hs ht), bind_assoc]
  show (accept .assign >>= _) _ = _
  refine congrFun (congrArg (accept .assign >>= ·) (funext fun found => ?_)) _
  cases found <;> rfl

/-- **Members are read up to the closing brace, with their values.** No constant is staged on the way,
so all members are judged by the same ones. -/
theorem enumMembers_run {env : Env} {earlier es : List (String × Int64)} {ms : List WrittenMember}
    (h : Counted env earlier ms es) (henv : env = src.visible? s .values)
    (hkeys : ∀ m ∈ ms, src.grammar.isKeyword m.name = false)
    (hnodup : ((earlier ++ es).map Prod.fst).Nodup) {fuel : Nat} (hfuel : ms.length < fuel)
    {d : EnumDef} (hd : d.members.entries = earlier) {comma : Bool}
    (hs : s.kinds = WrittenMember.listKinds comma ms ++ .punct .rbrace :: ks) :
    ∃ rest d', src.enumMembers fuel d s = .ok (d', { s with rest }) ∧
      d'.members.entries = earlier ++ es ∧ rest.map (·.kind) = .punct .rbrace :: ks := by
  induction ms generalizing s earlier es fuel d with
  | nil =>
    obtain ⟨fuel, rfl⟩ : ∃ j, fuel = j + 1 := ⟨fuel - 1, by omega⟩
    cases h
    have hcomes : comes .rbrace s = .ok (true, s) := by
      have hhead : s.rest.head?.map (·.kind) = some (.punct .rbrace) := by
        rw [← List.head?_map, show s.rest.map (·.kind) = _ from hs]
        rfl
      show Except.ok (decide (s.rest.head?.map (·.kind) = some (.punct .rbrace)), s) = _
      rw [decide_eq_true hhead]
    refine ⟨s.rest, d, ?_, by simpa using hd, hs⟩
    rw [enumMembers, Production.bind_run hcomes]
    rfl
  | cons m ms ih =>
    obtain ⟨fuel, rfl⟩ : ∃ j, fuel = j + 1 := ⟨fuel - 1, by omega⟩
    obtain ⟨e, es, rfl, hm, hms⟩ := h.cons
    have hnew : e.1 ∉ earlier.map Prod.fst := by
      intro hmem
      rw [List.map_append, List.nodup_append] at hnodup
      exact hnodup.2.2 _ hmem _ List.mem_cons_self rfl
    have hentries : (d.insert m.name e.2).members.entries = earlier ++ [e] := by
      have hname : m.name = e.1 := (List.cons.inj hm.names_eq).1.symm
      rw [← hd] at hnew ⊢
      rw [hname]
      exact OrderedMap.put_of_not_mem hnew e.2
    -- behind the value stands a comma, or the closing brace
    rw [WrittenMember.listKinds, List.append_assoc, List.append_assoc] at hs
    obtain ⟨t, more, hrest, ht⟩ : ∃ t more, s.rest = t :: more ∧ t.kind = .ident m.name := by
      obtain ⟨_, hhead⟩ := m.exists_kinds
      rw [hhead] at hs
      obtain ⟨t, more, hrest, ht, -⟩ := List.map_eq_cons_iff.1 hs
      exact ⟨t, more, hrest, ht⟩
    have hkey := hkeys m List.mem_cons_self
    by_cases hcomma : (comma || !ms.isEmpty) = true
    · rw [if_pos hcomma] at hs
      obtain ⟨rest, hvalue, hbehind⟩ := member_run hm henv hd (Or.inl rfl) hrest hs
      obtain ⟨u, us, rfl, hu, hus⟩ := List.map_eq_cons_iff.1 hbehind
      obtain ⟨rest, d', hrun, hd', hks⟩ := ih (s := { s with rest := us }) hms henv
        (fun n hn => hkeys n (List.mem_cons_of_mem _ hn)) (by simpa using hnodup)
        (Nat.lt_of_succ_lt_succ hfuel) hentries hus
      refine ⟨rest, d', ?_, by simpa using hd', hks⟩
      rw [enumMembers_of_name hkey hrest ht, Production.bind_run hvalue,
        Production.bind_run (accept_of_head rfl hu), if_pos rfl, hrun]
    · obtain ⟨rfl, rfl⟩ : comma = false ∧ ms = [] := by simpa using hcomma
      cases hms
      obtain ⟨rest, hvalue, hbehind⟩ := member_run hm henv hd (Or.inr rfl) hrest hs
      have hlast : rest.head?.map (·.kind) ≠ some (.punct .comma) := by
        rw [← List.head?_map, hbehind]
        simp
      refine ⟨rest, d.insert m.name e.2, ?_, hentries, hbehind⟩
      rw [enumMembers_of_name hkey hrest ht, Production.bind_run hvalue,
        Production.bind_run (accept_of_not_head hlast), if_neg Bool.false_ne_true]
      rfl

end Source

/-! ### Definitions with values -/

section

variable {src : Source} {s : Stage} {ks : List TokenKind}

/-- **An enumeration with members is defined with their values**, under its tag, or under a number
where it has none. -/
theorem ends_enumeration_counted {es : List (String × Int64)} {ms : List WrittenMember}
    (h : Counted (src.visible? s .values) [] ms es) (hnil : ms ≠ [])
    (hkeys : ∀ m ∈ ms, src.grammar.isKeyword m.name = false) (hnodup : (ms.map (·.name)).Nodup)
    (hfuel : ms.length < src.fuel) {tag : Option String}
    (htag : ∀ name ∈ tag, src.grammar.isKeyword name = false) {comma : Bool}
    (hs : s.kinds = tag.toList.map .ident ++
      .punct .lbrace :: (WrittenMember.listKinds comma ms ++ .punct .rbrace :: ks)) :
    ∃ (n : Nat) (d : EnumDef), d.members.entries = es ∧ src.Ends src.enumeration s
      ("enum " ++ tag.getD (anonymousText "enum" n)) ks
      (d.InSight (tag.getD (anonymousText "enum" n))) := by
  -- the tag, if there is one, and the opening brace
  obtain ⟨rest, hname, hrest⟩ : ∃ rest, src.name? s = .ok (tag, { s with rest }) ∧
      rest.map (·.kind) =
        .punct .lbrace :: (WrittenMember.listKinds comma ms ++ .punct .rbrace :: ks) := by
    cases tag with
    | none =>
      have hword : word? s.rest = none := by
        rw [word?_eq, hs]
        rfl
      refine ⟨s.rest, ?_, hs⟩
      rw [Source.name?, Production.bind_run (get_run s), hword]
      rfl
    | some name =>
      obtain ⟨t, rest, hrest, ht, hkinds⟩ := List.map_eq_cons_iff.1 hs
      exact ⟨rest, name?_of_head (htag name rfl) hrest ht, hkinds⟩
  obtain ⟨t, inside, rfl, ht, hinside⟩ := List.map_eq_cons_iff.1 hrest
  -- the members and the closing brace
  have hnodup' : (([] ++ es).map Prod.fst).Nodup := by
    rw [List.nil_append, h.names_eq]
    exact hnodup
  obtain ⟨more, d, hmembers, hentries, hmore⟩ :=
    enumMembers_run (s := { s with rest := inside }) (d := .empty) h rfl hkeys hnodup' hfuel rfl
      hinside
  obtain ⟨u, behind, rfl, hu, hbehind⟩ := List.map_eq_cons_iff.1 hmore
  have hexpect : src.expect .rbrace { s with rest := u :: behind } =
      .ok ((), { s with rest := behind }) := by
    rw [expect, Production.bind_run (accept_of_head rfl hu)]
    rfl
  have hd : d.members.entries ≠ [] := by
    rw [hentries, List.nil_append]
    intro hes
    have hnames := h.names_eq
    rw [hes] at hnames
    exact hnil (List.map_eq_nil_iff.1 hnames.symm)
  obtain ⟨n, hanonymous⟩ : ∃ n, src.anonymousName "enum" { s with rest := behind } =
      .ok (anonymousText "enum" n, { s with rest := behind }) := ⟨_, rfl⟩
  have hdefine : src.Ends (src.defineMembers (tag.getD (anonymousText "enum" n)) d)
      { s with rest := behind } () ks (d.InSight (tag.getD (anonymousText "enum" n))) :=
    ends_defineMembers _ hd hbehind
  refine ⟨n, d, hentries, ?_⟩
  rw [enumeration]
  refine .bind_run hname rfl (.bind_run (accept_of_head rfl ht) rfl ?_)
  rw [if_pos rfl]
  refine .bind_run hmembers rfl (.bind_run hexpect rfl ?_)
  cases tag with
  | none => exact .bind_run hanonymous rfl (.bind hdefine fun t ht hsight => .pure ht hsight)
  | some name =>
    show src.Ends (src.defineMembers name d >>= fun _ => pure ("enum " ++ name)) _ _ _ _
    exact .bind hdefine fun t ht hsight => .pure ht hsight

/-- The same enumeration is all that a declaration holds. -/
theorem ends_declaration_counted (hstorage : src.grammar.isStorage "enum" = false)
    (hqualifier : src.grammar.isQualifier "enum" = false)
    (hmodifier : src.grammar.isModifier "enum" = false) {es : List (String × Int64)}
    {ms : List WrittenMember} (h : Counted (src.visible? s .values) [] ms es) (hnil : ms ≠ [])
    (hkeys : ∀ m ∈ ms, src.grammar.isKeyword m.name = false) (hnodup : (ms.map (·.name)).Nodup)
    (hfuel : ms.length + 1 < src.fuel) {tag : Option String}
    (htag : ∀ name ∈ tag, src.grammar.isKeyword name = false) {comma : Bool}
    (hs : s.kinds = enumKinds tag ms comma ++ .punct .semi :: ks) :
    ∃ (n : Nat) (d : EnumDef), d.members.entries = es ∧ src.Ends src.declaration s () ks
      (d.InSight (tag.getD (anonymousText "enum" n))) := by
  obtain ⟨fuel, hsrc⟩ : ∃ fuel, src.fuel = fuel + 1 + 1 := ⟨src.fuel - 2, by omega⟩
  have hword : word? s.rest = some "enum" := word?_of_kinds hs
  have hkey : src.grammar.isKeyword "enum" = true := by
    have hreserved : Grammar.reservedWords.contains "enum" = true := by decide
    simp only [Grammar.isKeyword, hreserved, Bool.or_true]
  have hleading := leadingWords_of_word hstorage hqualifier hmodifier hkey hword (fuel + 1)
  have hkinds : ({ s with rest := s.rest.drop 1 } : Stage).kinds = tag.toList.map .ident ++
      .punct .lbrace :: (WrittenMember.listKinds comma ms ++ .punct .rbrace :: .punct .semi :: ks) := by
    rw [Stage.kinds, List.map_drop, show s.rest.map (·.kind) = _ from hs]
    simp [enumKinds]
  obtain ⟨n, d, hentries, hends⟩ := ends_enumeration_counted
    (s := { s with rest := s.rest.drop 1 }) h hnil hkeys hnodup (Nat.lt_of_succ_lt hfuel) htag hkinds
  exact ⟨n, d, hentries, ends_declaration (by decide) hword hsrc hleading
    (.of_eq (typeName_enumeration hword fuel) rfl hends)⟩

end

/-! ### Enumerations in headers -/

/-- The words that may set the linkage of a single declaration. -/
def linkageWords : List (List TokenKind) :=
  [[], [.ident "extern", .str "\"C\""], [.ident "extern", .str "\"C++\""]]

/-- Behind the words that set its linkage, if there are any, a declaration is read from its first word
on. -/
theorem HeaderText.step_of_linkageWords {h : HeaderText} {s : HeaderState} {linkage ks : List TokenKind}
    (hlinkage : linkage ∈ linkageWords) {w : String} (hw : w ≠ "extern")
    (hs : s.stage.kinds = linkage ++ .ident w :: ks) :
    ∃ rest, rest.map (·.kind) = .ident w :: ks ∧ h.step s = h.declaration (s.moveTo rest) := by
  have hwords : ∀ name : String, (name = "\"C\"" ∨ name = "\"C++\"") →
      s.stage.kinds = [.ident "extern", .str name] ++ .ident w :: ks →
      ∃ rest, rest.map (·.kind) = .ident w :: ks ∧ h.step s = h.declaration (s.moveTo rest) := by
    intro name hname hs
    obtain ⟨t, more, hrest, ht, hmore⟩ := List.map_eq_cons_iff.1 hs
    obtain ⟨u, rest, rfl, hu, hks⟩ := List.map_eq_cons_iff.1 hmore
    obtain ⟨v, behind, rfl, hv, -⟩ := List.map_eq_cons_iff.1 hks
    have hfound : linkage? (t :: u :: v :: behind) = some (false, v :: behind) := by
      rcases hname with rfl | rfl <;> simp [linkage?, ht, hu, hv]
    have hlinked : h.linked (s.moveTo (v :: behind)) = h.declaration (s.moveTo (v :: behind)) := by
      show (if (0 < s.blocks && v.kind = .punct .rbrace) = true then _ else _ : HeaderState) = _
      rw [hv]
      simp
    refine ⟨v :: behind, hks, ?_⟩
    rw [step, hrest]
    simp only [ht, hfound, hlinked]
    rw [if_neg (by simp)]
  simp only [linkageWords, List.mem_cons, List.not_mem_nil, or_false] at hlinkage
  rcases hlinkage with rfl | rfl | rfl
  · exact ⟨s.stage.rest, hs, step_of_word (word?_of_kinds hs) hw⟩
  · exact hwords _ (Or.inl rfl) hs
  · exact hwords _ (Or.inr rfl) hs

theorem WrittenMember.length_le_listKinds (comma : Bool) (ms : List WrittenMember) :
    ms.length ≤ (listKinds comma ms).length := by
  induction ms with
  | nil => exact Nat.le_refl 0
  | cons m ms ih =>
    obtain ⟨_, hm⟩ := m.exists_kinds
    simp only [listKinds, hm, List.length_append, List.length_cons]
    omega

/-- What stands behind the words that set the linkage is declared, if it matches without an error. -/
theorem HeaderText.step_of_ends {h : HeaderText} {s : HeaderState} (hs : s.Idle)
    {linkage ks ls : List TokenKind} (hlinkage : linkage ∈ linkageWords) {w : String}
    (hw : w ≠ "extern") (hkinds : s.stage.kinds = linkage ++ .ident w :: ks)
    {P : Definitions → Prop} (hends : ∀ rest : List Token, rest.map (·.kind) = .ident w :: ks →
      (h.source s.registry).Ends (h.source s.registry).declaration ⟨rest, [], []⟩ () ls P) :
    P (h.step s).registry.flat ∧ (h.step s).report = s.report ∧ (h.step s).stage.kinds = ls := by
  obtain ⟨rest, hrest, hstep⟩ := step_of_linkageWords (h := h) hlinkage hw hkinds
  obtain ⟨t, hrun, ht, herrors, hsight⟩ := hends rest hrest
  have hstage : (s.moveTo rest).stage = ⟨rest, [], []⟩ := (hs.moveTo rest).stage_eq
  have hdeclared := declaration_eq (h := h) (s := s.moveTo rest) (by rw [hstage]; exact hrun) herrors
  rw [hstep, hdeclared]
  refine ⟨?_, rfl, ht⟩
  show P (s.registry.insertAll h.file t.staged.reverse).flat
  rw [Registry.flat_insertAll, List.foldl_reverse]
  exact hsight

/-- **The members of an enumeration get the values of the rule.** Wherever a turn of the reading of a
header comes to an enumeration with members, by itself or behind words that set the linkage, and every
expression in it has an integer as its value, there are values by the rule; the members are stored with
them, in order, and they are constants then. The turn ends behind the semicolon, and nothing is
reported. -/
theorem parseFile_enumMembers (g : Grammar) (hstorage : g.isStorage "enum" = false)
    (hqualifier : g.isQualifier "enum" = false) (hmodifier : g.isModifier "enum" = false)
    (registry : Registry) (file : String) (packing : PackingLog) (text : String) (n : Nat)
    {linkage ks : List TokenKind} {tag : Option String} {ms : List WrittenMember} {comma : Bool}
    (hlinkage : linkage ∈ linkageWords) (htag : ∀ name ∈ tag, g.isKeyword name = false)
    (hnil : ms ≠ []) (hkeys : ∀ m ∈ ms, g.isKeyword m.name = false)
    (hnodup : (ms.map (·.name)).Nodup) :
    let state (n : Nat) := (g.header registry file packing text).run n (.start registry text)
    (state n).stage.kinds = linkage ++ (enumKinds tag ms comma ++ .punct .semi :: ks) →
      Evaluable (state n).registry.env ms →
      ∃ (es : List (String × Int64)) (name : String) (d : EnumDef),
        Counted (state n).registry.env [] ms es ∧ (∀ t ∈ tag, name = t) ∧ d.members.entries = es ∧
        (state (n + 1)).registry.flat.get? .enums name = some ⟨.enums, d⟩ ∧
        (∀ e ∈ es, (state (n + 1)).registry.flat.get? .values e.1 = some ⟨.values, .int e.2⟩) ∧
        (state (n + 1)).report = (state n).report ∧ (state (n + 1)).stage.kinds = ks := by
  intro state htokens hvalues
  let h := g.header registry file packing text
  obtain ⟨es, hes⟩ := exists_counted_iff.2 hvalues
  have hidle : (state n).Idle := HeaderText.idle_run ⟨rfl, rfl⟩ n
  have hkinds := congrArg List.length htokens
  simp only [Stage.kinds, enumKinds, List.length_map, List.length_append, List.length_cons] at hkinds
  have hnext : state (n + 1) = h.step (state n) := by
    have hmore : (state n).stage.rest.isEmpty = false := by
      rw [← Bool.not_eq_true, List.isEmpty_iff_length_eq_zero]
      omega
    rw [show state (n + 1) = _ from h.run_succ n _]
    exact if_neg (by rw [hmore]; exact Bool.false_ne_true)
  -- there is fuel for the members, of which each has a token
  have hfuel : ms.length + 1 < (h.source (state n).registry).fuel := by
    have hall : (h.source (state n).registry).fuel = 8 * ((tokenize text).length + 1) := rfl
    have hsuffix : (state n).stage.rest.length ≤ (tokenize text).length :=
      (HeaderText.run_suffix (h := h) (s := .start registry text) ⟨rfl, rfl⟩ n.zero_le).length_le
    have hmembers := WrittenMember.length_le_listKinds comma ms
    omega
  have hends : ∀ rest : List Token,
      rest.map (·.kind) = enumKinds tag ms comma ++ .punct .semi :: ks →
      (h.source (state n).registry).Ends (h.source (state n).registry).declaration ⟨rest, [], []⟩ ()
        ks fun ds => ∃ (name : String) (d : EnumDef), (∀ t ∈ tag, name = t) ∧
          d.members.entries = es ∧ d.InSight name ds := by
    intro rest hrest
    have hrest : Stage.kinds ⟨rest, [], []⟩ = enumKinds tag ms comma ++ .punct .semi :: ks := hrest
    have hseen : Counted ((h.source (state n).registry).visible? ⟨rest, [], []⟩ .values) [] ms es :=
      hes
    obtain ⟨m, d, hentries, t, hrun, ht, herrors, hsight⟩ := ends_declaration_counted hstorage
      hqualifier hmodifier hseen hnil hkeys hnodup hfuel htag hrest
    refine ⟨t, hrun, ht, herrors, _, d, fun name hname => ?_, hentries, hsight⟩
    rw [Option.mem_def.1 hname]
    rfl
  have hdeclared :=
    HeaderText.step_of_ends (h := h) hidle hlinkage (by decide : "enum" ≠ "extern") htokens hends
  obtain ⟨⟨name, d, hname, hentries, henum, hmembers⟩, hreport, hks⟩ := hdeclared
  rw [hnext]
  refine ⟨es, name, d, hes, hname, hentries, henum, fun e he => hmembers e.1 e.2 ?_, hreport, hks⟩
  exact OrderedMap.find?_of_mem d.members.nodup (by rw [hentries]; exact he)

/-- Members one of which shadows a constant, one refers to it, and one counts on from the greatest
value. -/
def sampleMembers : List WrittenMember :=
  [⟨"A", some [.integer "7"]⟩,
   ⟨"B", some [.ident "A", .punct .plus, .punct .lparen, .integer "1", .punct .rparen]⟩,
   ⟨"C", some [.integer "0x7fffffffffffffff"]⟩, ⟨"D", none⟩]

theorem counted_sampleMembers (env : Env) : Counted env [] sampleMembers
    [("A", 7), ("B", 8), ("C", Int64.maxValue), ("D", Int64.minValue)] :=
  .written rfl (.written rfl (.written rfl (.next .nil)))

theorem parseFile_enumMembers_sample :
    let registry := Registry.empty.insert none "A" ⟨.values, .int 3⟩
    let text := "extern \"C\" enum \x7b A = 7, B = A+(1), C = 0x7fffffffffffffff, D, \x7d;"
    let state (n : Nat) :=
      (Grammar.standard.header registry "sample.h" .initial text).run n (.start registry text)
    registry.env "A" = some (.int 3) ∧ Evaluable registry.env sampleMembers ∧
      (state 0).stage.kinds = [.ident "extern", .str "\"C\""] ++
        (enumKinds none sampleMembers true ++ .punct .semi :: []) ∧
      ∃ (name : String) (d : EnumDef),
        d.members.entries = [("A", 7), ("B", 8), ("C", Int64.maxValue), ("D", Int64.minValue)] ∧
        (state 1).registry.flat.get? .enums name = some ⟨.enums, d⟩ ∧
        (state 1).registry.flat.get? .values "A" = some ⟨.values, .int 7⟩ ∧
        (state 1).registry.flat.get? .values "D" = some ⟨.values, .int Int64.minValue⟩ ∧
        (state 1).report = .clean ∧ (state 1).stage.kinds = [] := by
  intro registry text state
  have hvalues : Evaluable registry.env sampleMembers :=
    exists_counted_iff.1 ⟨_, counted_sampleMembers _⟩
  have hkinds : (state 0).stage.kinds = [.ident "extern", .str "\"C\""] ++
      (enumKinds none sampleMembers true ++ .punct .semi :: []) := by decide +kernel
  have hlinkage : [.ident "extern", .str "\"C\""] ∈ linkageWords := by decide
  have htag : ∀ name ∈ (none : Option String), Grammar.standard.isKeyword name = false := nofun
  obtain ⟨es, name, d, hes, -, hentries, henum, hmembers, hreport, hks⟩ :=
    parseFile_enumMembers .standard (by decide) (by decide) (by decide) registry "sample.h" .initial
      text 0 hlinkage htag (by decide) (by decide +kernel) (by decide) hkinds hvalues
  obtain rfl := hes.unique (counted_sampleMembers _)
  exact ⟨rfl, hvalues, hkinds, name, d, hentries, henum, hmembers ("A", 7) (by decide),
    hmembers ("D", Int64.minValue) (by decide), hreport, hks⟩

end CInterface
