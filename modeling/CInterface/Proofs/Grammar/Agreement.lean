import CInterface.Proofs.Grammar.Keeping
import CInterface.Proofs.Grammar.Lookahead
/-!
# Productions read both texts alike

A declaration does not depend on what stands behind it, nor on where its text begins: each production
has the same result on tokens that stand in another text, where further tokens may follow. Here are the
productions that do not go through declarators and types.

* `Pairing.agrees_enumeration`, … — the productions by themselves.
* `Pairing.Suffice` — how much fuel is enough in both texts.
* `Pairing.initializersAgree` — values and lists of values, by induction on their fuel.

The two texts may have different numbers of tokens and so different fuel. Both suffice for what is
read, which is a part of the proof: see `Suffice`.
-/

namespace CInterface

/-! ### Blocks -/

/-- Passes a block behind its opening brace. -/
def Source.block (src : Source) : Production Unit := do
  match afterBlock 0 (← get).rest with
  | some rest => moveTo rest
  | none =>
    moveTo []
    src.fail (.punct .rbrace)

section Block

variable {src : Source} {s : Stage}

theorem forward_block : Forward src.block := by
  refine .get_bind fun s => ?_
  cases h : afterBlock 0 s.rest with
  | some rest => exact .moveTo (afterBlock_suffix h)
  | none => exact .moveTo_bind List.nil_suffix (.fail _ _)

theorem Production.get_bind {α : Type} (f : Stage → Production α) (s : Stage) :
    (get >>= f) s = f s s := rfl

theorem block_of_some {rest : List Token} (h : afterBlock 0 s.rest = some rest) :
    src.block s = .ok ((), { s with rest }) := by
  rw [Source.block, Production.get_bind, h]
  rfl

theorem block_eq_ok {t : Stage} {a : Unit} (h : src.block s = .ok (a, t)) :
    ∃ rest, afterBlock 0 s.rest = some rest ∧ t = { s with rest } := by
  rw [Source.block, Production.get_bind] at h
  cases hscan : afterBlock 0 s.rest with
  | some rest =>
    rw [hscan] at h
    cases h
    exact ⟨rest, rfl, rfl⟩
  | none =>
    rw [hscan] at h
    cases h

end Block

namespace Pairing

variable {K : Pairing} {α β : Type} {due next goal : List Punct} {s : Stage} {n : Nat}

/-! ### Passing tokens -/

theorem agrees_acceptSemi : K.Agrees n due due (accept .semi) (accept .semi) := by
  have h : K.Agrees n due due
      (accept .semi >>= fun found => if found = true then pure true else pure false) _ :=
    .accept rfl id (.pure true) (.pure false)
  have heq : (accept .semi >>= fun found => if found = true then pure true else pure false) =
      accept .semi := by
    funext s
    show (accept .semi s >>= _) = _
    cases accept .semi s with
    | error e => rfl
    | ok r => obtain ⟨found, t⟩ := r; cases found <;> rfl
  rw [heq] at h
  exact h

theorem agrees_tokensUntil (stops : List Punct) :
    K.Agrees n due due (K.source.tokensUntil stops) (K.other.tokensUntil stops) := by
  refine .get (forward_tokensUntil stops) id fun s hready hn _ => ?_
  rw [stage_rest]
  cases hscan : balancedUntil stops 0 s.rest with
  | some found =>
    obtain ⟨inside, rest⟩ := found
    have hrest : K.Ready due rest :=
      hready.of_suffix (balancedUntil_suffix hscan) fun htail =>
        balancedUntil_closesDue (hready.nested htail) hscan
    rw [balancedUntil_tokens hscan]
    have hle := (balancedUntil_suffix hscan).length_le
    refine Agrees.moved hrest (Nat.lt_of_le_of_lt hle hn) ?_
    rw [map_kind_move]
    exact .pure _
  | none =>
    by_cases htail : K.tail = none
    · rw [balancedUntil_tokens_none htail hscan]
      exact .failed _ _
    · cases due with
      | nil => exact .open _ _ ⟨htail, rfl⟩
      | cons c due =>
        obtain ⟨i, r, hsome⟩ := balancedUntil_isSome stops (hready.nested htail)
        cases hscan.symm.trans hsome

theorem agrees_block : K.Agrees n (.rbrace :: due) due K.source.block K.other.block := by
  refine .get forward_block lax_of_cons fun s hready _ _ => ?_
  obtain ⟨htokens, hrest⟩ := hready.afterBlock_tokens
  rw [stage_rest, htokens]
  cases hscan : afterBlock 0 s.rest with
  | some rest => exact .matched () { s with rest } (hrest rest hscan)
  | none => exact .failed _ _

theorem agrees_skipBlock : K.Agrees n due due K.source.skipBlock K.other.skipBlock :=
  .expect (TokenKind.due_open due rfl) id agrees_block

theorem agrees_name? : K.Agrees n due due K.source.name? K.other.name? := by
  refine .get forward_name? id fun s hready hn hseen => ?_
  have hother : word? (K.stage s).rest = word? s.rest := word?_tokens hseen
  rw [hother]
  cases hword : word? s.rest with
  | none => exact .matched none s hready
  | some word =>
    obtain ⟨t, ts, hs, ht⟩ := word?_eq_some hword
    show K.Outcome due ((if K.source.grammar.isKeyword word = true then _ else _ : Production _) s)
      ((if K.source.grammar.isKeyword word = true then _ else _ : Production _) (K.stage s))
    split
    · exact .matched none s hready
    · refine Agrees.dropped hs hready hn (by rw [ht]; rfl) ?_
      exact .pure (some word)

theorem agrees_qualifiers (beforeType : Bool) (quals : Qualifiers) :
    K.Agrees n due due (K.source.qualifiers beforeType quals) (K.other.qualifiers beforeType quals) := by
  refine .get (forward_qualifiers beforeType quals) id fun s hready hn hseen => ?_
  obtain ⟨htokens, hrest⟩ := hready.qualifiersAt_tokens K.source.grammar beforeType quals hseen
  have hle := (qualifiersAt_suffix K.source.grammar beforeType quals s.rest).length_le
  show K.Outcome due _ ((moveTo (K.source.grammar.qualifiersAt beforeType quals (K.tokens s.rest)).2 >>=
    fun _ => pure (K.source.grammar.qualifiersAt beforeType quals (K.tokens s.rest)).1 :
      Production _) (K.stage s))
  rw [htokens]
  exact Agrees.moved hrest (Nat.lt_of_le_of_lt hle hn) (.pure _)

theorem agrees_evaluate (members : EnumDef) (ts : List TokenKind) :
    K.Agrees n due due (K.source.evaluate members ts) (K.other.evaluate members ts) :=
  ⟨forward_evaluate members ts, fun s hready _ => .matched _ s hready⟩

/-! ### Enumerations -/

theorem agrees_defineEnum (name : String) (d : EnumDef) :
    K.Agrees n due due (defineEnum name d) (defineEnum name d) :=
  (Agrees.define _ _).bind (fun _ => .define _ _) id

theorem agrees_defineCompound (kind : CompoundKind) (name : String) (c : Compound) :
    K.Agrees n due due (defineCompound kind name c) (defineCompound kind name c) :=
  (Agrees.define _ _).bind (fun _ => .define _ _) id

theorem agrees_memberValue (d : EnumDef) (member : String) :
    K.Agrees n due due (K.source.memberValue d member) (K.other.memberValue d member) := by
  refine .line id fun line => (agrees_tokensUntil _).bind (fun tokens => ?_) id
  refine (agrees_evaluate d tokens).bind (fun value => ?_) id
  split
  · exact .pure _
  · exact (Agrees.report _).bind (fun _ => .pure _) id
  · exact (Agrees.report _).bind (fun _ => .pure _) id

theorem agrees_enumMembers {f f' : Nat} (hf : n ≤ f) (hf' : n ≤ f') (d : EnumDef) :
    K.Agrees n due due (K.source.enumMembers f d) (K.other.enumMembers f' d) := by
  induction f generalizing f' n d with
  | zero =>
    obtain rfl : n = 0 := Nat.le_zero.1 hf
    exact .zero (forward_enumMembers 0 d)
  | succ f ih =>
    cases f' with
    | zero =>
      obtain rfl : n = 0 := Nat.le_zero.1 hf'
      exact .zero (forward_enumMembers (f + 1) d)
    | succ f' =>
      rw [Source.enumMembers, Source.enumMembers]
      refine (Agrees.comes .rbrace).bind (fun _ => .ite (.pure d) ?_) id
      refine agrees_name?.bind (fun name => ?_) id
      cases name with
      | none => exact .fail _
      | some member =>
        refine .optional rfl (agrees_memberValue d member) (.pure d.nextValue) fun value => ?_
        exact .accept rfl id (ih (by omega) (by omega) _) (.pure _)

/-- The definition of all members, one after the other. -/
theorem agrees_forIn {l : List α} {f f' : α → PUnit → Production (ForInStep PUnit)}
    (hf : ∀ x b, K.Agrees n due due (f x b) (f' x b)) (b : PUnit) :
    K.Agrees n due due (forIn l b f) (forIn l b f') := by
  induction l generalizing b with
  | nil => exact .pure b
  | cons x l ih =>
    rw [List.forIn_cons, List.forIn_cons]
    refine (hf x b).bind (fun step => ?_) id
    cases step with
    | done c => exact .pure c
    | yield c => exact ih c

theorem agrees_defineMembers (name : String) (d : EnumDef) :
    K.Agrees n due due (K.source.defineMembers name d) (K.other.defineMembers name d) := by
  have hdefine : K.Agrees n due due
      (do
        for e in d.members.entries do
          define e.1 ⟨.values, .int e.2⟩
        defineEnum name d)
      (do
        for e in d.members.entries do
          define e.1 ⟨.values, .int e.2⟩
        defineEnum name d) :=
    (agrees_forIn (fun (x : String × Int64) _ =>
      (Agrees.define x.1 _).bind (fun _ => .pure _) id) _).bind
      (fun _ => agrees_defineEnum name d) id
  exact ⟨forward_defineMembers name d, fun s hready hn =>
    (Agrees.ite hdefine (.pure ())).outcome s hready hn⟩

theorem agrees_anonymousName (keyword : String) :
    K.Agrees n due due (K.source.anonymousName keyword) (K.other.anonymousName keyword) :=
  ⟨forward_anonymousName keyword, fun s hready _ => .matched _ s hready⟩

theorem agrees_enumeration : K.Agrees n due due K.source.enumeration K.other.enumeration := by
  refine .of_size fun n hn => ?_
  obtain ⟨hle, hle'⟩ := K.le_fuel hn
  refine agrees_name?.bind (fun name => .accept (TokenKind.due_open due rfl) id ?_ ?_) id
  · refine (agrees_enumMembers (by omega) (by omega) .empty).bind (fun d => ?_) lax_of_cons
    have hnext : ∀ name : String, K.Agrees (n - 1 - 1) due due
        (do
          K.source.defineMembers name d
          return "enum " ++ name)
        (do
          K.other.defineMembers name d
          return "enum " ++ name) :=
      fun name => (agrees_defineMembers name d).bind (fun _ => .pure _) id
    refine .expect rfl lax_of_cons ?_
    cases name with
    | some name => exact (Agrees.pure name).bind hnext id
    | none => exact (agrees_anonymousName "enum").bind hnext id
  · cases name with
    | none => exact .fail _
    | some name =>
      have hdefine : K.Agrees n due due
          (do
            let _ ← defineEnum name .empty
            return "enum " ++ name)
          (do
            let _ ← defineEnum name .empty
            return "enum " ++ name) := (agrees_defineEnum name .empty).bind (fun _ => .pure _) id
      exact ⟨.get_bind fun s => Forward.ite hdefine.forward (.pure _) s,
        fun s hready hn => (Agrees.ite hdefine (.pure _)).outcome s hready hn⟩

/-! ### Productions without recursion through declarations -/

/-- Stages an aggregate, or reports why it has no layout. -/
def defineLaidOut (kind : CompoundKind) (name : String) (line : Nat) :
    Except TypeError Compound → Production Unit
  | .ok c => defineCompound kind name c
  | .error cause => report (.aggregate line kind name cause)

/-- An aggregate is packed as its line says, which is the same line of both texts. -/
theorem agrees_defineFields (kind : CompoundKind) (name : String) (line : Nat)
    (fields : List Field) :
    K.Agrees n due due (K.source.defineFields kind name line fields)
      (K.other.defineFields kind name (line + K.shift) fields) := by
  have hdefine : K.Agrees n due due
      (defineLaidOut kind name line (Compound.make? fields (K.source.packing.packAt line)))
      (defineLaidOut kind name (line + K.shift)
        (Compound.make? fields (K.packing.packAt (line + K.shift)))) := by
    rw [K.packAt_shift line]
    cases Compound.make? fields (K.source.packing.packAt line) with
    | ok c => exact agrees_defineCompound kind name c
    | error cause => exact .report _
  refine ⟨forward_defineFields kind name line fields, fun s hready hn => ?_⟩
  have hknown : K.other.visibleCompound? (K.stage s) kind name =
      K.source.visibleCompound? s kind name := by
    cases kind <;> rfl
  show K.Outcome due _ ((if (!fields.isEmpty || !((K.other.visibleCompound? (K.stage s) kind name).any
    fun c => !c.isEmpty)) = true then _ else _ : Production Unit) (K.stage s))
  rw [hknown]
  exact (Agrees.ite hdefine (.pure ())).outcome s hready hn

theorem agrees_leadingWords {f f' : Nat} (hf : n ≤ f) (hf' : n ≤ f') (storage : List String)
    (quals : Qualifiers) :
    K.Agrees n due due (K.source.leadingWords f storage quals)
      (K.other.leadingWords f' storage quals) := by
  induction f generalizing f' n storage quals with
  | zero =>
    obtain rfl : n = 0 := Nat.le_zero.1 hf
    exact .zero (forward_leadingWords 0 storage quals)
  | succ f ih =>
    cases f' with
    | zero =>
      obtain rfl : n = 0 := Nat.le_zero.1 hf'
      exact .zero (forward_leadingWords (f + 1) storage quals)
    | succ f' =>
      refine .of_seen (forward_leadingWords (f + 1) storage quals) id fun s hready hn hseen => ?_
      have hother : (word? (K.stage s).rest).filter K.other.grammar.isStorage =
          (word? s.rest).filter K.source.grammar.isStorage :=
        congrArg (Option.filter K.source.grammar.isStorage) (word?_tokens hseen)
      rw [Source.leadingWords, Source.leadingWords]
      refine Outcome.get ?_
      rw [hother]
      cases hstorage : (word? s.rest).filter K.source.grammar.isStorage with
      | some word =>
        obtain ⟨t, ts, hs, ht⟩ := word?_eq_some (Option.filter_eq_some_iff.1 hstorage).1
        refine Agrees.dropped hs hready hn (by rw [ht]; rfl) ?_
        exact ih (by omega) (by omega) _ _
      | none =>
        obtain ⟨htokens, hrest⟩ := hready.qualifier?_tokens K.source.grammar true hseen
        have hother : K.other.grammar.qualifier? true (K.stage s).rest = _ := htokens
        refine Outcome.get ?_
        rw [hother]
        cases hq : K.source.grammar.qualifier? true s.rest with
        | none => exact .matched _ s hready
        | some found =>
          obtain ⟨q, rest⟩ := found
          have hlt := Grammar.qualifier?_length hq
          have hready' : K.Ready due rest := (hrest q rest hq).1
          refine Agrees.moved (n := n - 1) hready' (by omega) ?_
          exact ih (by omega) (by omega) _ _

/-- Words of a built-in type, which end no statement, are the same in both texts. -/
theorem Ready.takeWhile_tokens {p : Token → Bool} (hp : ∀ t, p t = true → t.kind.isIdent = true)
    (hmove : ∀ t, p (K.move t) = p t) {ts : List Token} (h : K.Ready due ts) (hts : K.Seen ts) :
    (K.tokens ts).takeWhile p = (ts.takeWhile p).map K.move ∧
      K.Ready due (ts.drop (ts.takeWhile p).length) := by
  induction ts with
  | nil =>
    rw [tokens_nil (hts.resolve_right fun hne => hne rfl)]
    exact ⟨rfl, h⟩
  | cons t ts ih =>
    rw [tokens_cons, List.takeWhile_cons, List.takeWhile_cons, hmove]
    by_cases ht : p t = true
    · have hident := hp t ht
      cases hkind : t.kind with
      | ident word =>
        obtain ⟨htokens, hready⟩ :=
          ih (h.behind (by rw [hkind]; rfl)) (h.seen_behind (by rw [hkind]; rfl))
        rw [if_pos ht, if_pos ht, htokens]
        exact ⟨rfl, hready⟩
      | punct | integer | float | str | char | error =>
        rw [hkind] at hident
        cases hident
    · rw [if_neg ht, if_neg ht]
      exact ⟨rfl, h⟩

theorem agrees_fundamentalWords :
    K.Agrees n due due K.source.fundamentalWords K.other.fundamentalWords := by
  refine .of_seen forward_fundamentalWords id fun s hready hn hseen => ?_
  have hident : ∀ t : Token, t.kind.ident?.any K.source.grammar.isFundamental = true →
      t.kind.isIdent = true := by
    intro t ht
    cases hkind : t.kind <;> rw [hkind] at ht <;> first | rfl | cases ht
  obtain ⟨htokens, hrest⟩ := hready.takeWhile_tokens hident (fun t => by rw [K.kind_move]) hseen
  have hle : (s.rest.takeWhile fun t => t.kind.ident?.any K.source.grammar.isFundamental).length ≤
      s.rest.length := (List.takeWhile_prefix _).length_le
  have hwords : ∀ ts : List Token, ts.filterMap (·.kind.ident?) =
      (ts.map (·.kind)).filterMap TokenKind.ident? := by
    intro ts
    rw [List.filterMap_map]
    rfl
  have hother : (K.stage s).rest.takeWhile (fun t => t.kind.ident?.any K.other.grammar.isFundamental) =
      _ := htokens
  rw [Source.fundamentalWords, Source.fundamentalWords]
  refine .get (.get ?_)
  rw [hother, List.length_map, stage_rest, tokens_drop hle]
  refine Agrees.moved hrest (Nat.lt_of_le_of_lt (List.drop_suffix _ _).length_le hn) ?_
  rw [hwords, hwords, map_kind_move]
  exact .pure _

theorem agrees_indirections {f f' : Nat} (hf : n ≤ f) (hf' : n ≤ f') :
    K.Agrees n due due (K.source.indirections f) (K.other.indirections f') := by
  induction f generalizing f' n with
  | zero =>
    obtain rfl : n = 0 := Nat.le_zero.1 hf
    exact .zero (forward_indirections 0)
  | succ f ih =>
    cases f' with
    | zero =>
      obtain rfl : n = 0 := Nat.le_zero.1 hf'
      exact .zero (forward_indirections (f + 1))
    | succ f' =>
      have hnext : K.Agrees (n - 1) due due (K.source.indirections f) (K.other.indirections f') :=
        ih (by omega) (by omega)
      rw [Source.indirections, Source.indirections]
      refine (agrees_qualifiers false []).bind (fun quals => ?_) id
      refine .accept rfl id (hnext.bind (fun _ => .pure _) id) ?_
      exact .accept rfl id (hnext.bind (fun _ => .pure _) id) (.pure _)

theorem agrees_allIndirections :
    K.Agrees n due due (K.source.indirections K.source.fuel) (K.other.indirections K.other.fuel) :=
  .of_size fun _ hm => agrees_indirections (K.le_fuel hm).1 (K.le_fuel hm).2

theorem agrees_arrayBounds {f f' : Nat} (hf : n ≤ f) (hf' : n ≤ f') :
    K.Agrees n due due (K.source.arrayBounds f) (K.other.arrayBounds f') := by
  induction f generalizing f' n with
  | zero =>
    obtain rfl : n = 0 := Nat.le_zero.1 hf
    exact .zero (forward_arrayBounds 0)
  | succ f ih =>
    cases f' with
    | zero =>
      obtain rfl : n = 0 := Nat.le_zero.1 hf'
      exact .zero (forward_arrayBounds (f + 1))
    | succ f' =>
      rw [Source.arrayBounds, Source.arrayBounds]
      refine .accept (TokenKind.due_open due rfl) id ?_ (.pure [])
      refine (agrees_tokensUntil _).bind (fun tokens => .expect rfl lax_of_cons ?_) lax_of_cons
      refine (agrees_evaluate .empty tokens).bind (fun _ => ?_) id
      exact (ih (by omega) (by omega)).bind (fun _ => .pure _) id

theorem agrees_bitWidth (field : String) (line : Nat) :
    K.Agrees n due due (K.source.bitWidth field line) (K.other.bitWidth field (line + K.shift)) := by
  refine (agrees_tokensUntil _).bind (fun tokens => ?_) id
  refine (agrees_evaluate .empty tokens).bind (fun v => ?_) id
  exact .ite ((Agrees.report _).bind (fun _ => .pure _) id) (.pure _)

/-! ### Fuel -/

/-- Two amounts of fuel of which at least `f` suffices for a production that has less than `n` tokens
before it, where eight are enough for each token, and `rank` for the productions that are needed
before the next token is passed. -/
structure Suffice (rank n f left right : Nat) : Prop where
  enough : 0 < n → 8 * (n - 1) + rank ≤ f
  left : f ≤ left
  right : f ≤ right

/-- The whole fuel is enough for any production. -/
theorem Suffice.whole (h : n ≤ K.size + 1) {rank : Nat} (hrank : rank ≤ 8) :
    Suffice rank n (8 * (K.size + 1)) K.source.fuel K.other.fuel where
  enough hpos := by omega
  left := K.size_le_source
  right := K.size_le_fuel

/-- With one more fuel than `f` there is one to go on with. -/
theorem Suffice.succ {rank f g g' : Nat} (h : Suffice rank n (f + 1) g g') :
    ∃ k k', g = k + 1 ∧ g' = k' + 1 ∧ f ≤ k ∧ f ≤ k' := by
  obtain ⟨-, hleft, hright⟩ := h
  exact ⟨g - 1, g' - 1, by omega, by omega, by omega, by omega⟩

/-- No fuel suffices for no tokens only. -/
theorem Suffice.zero {rank g g' : Nat} (hrank : 0 < rank) (h : Suffice rank n 0 g g') : n = 0 := by
  have henough := h.enough
  omega

/-- What suffices for no tokens only is a matter of the trace alone. -/
theorem Suffice.agrees_zero {rank g g' : Nat} {p q : Production α} (h : Suffice rank n 0 g g')
    (hrank : 0 < rank) (hforward : Forward p) : K.Agrees n due goal p q := by
  obtain rfl := h.zero hrank
  exact .zero hforward

/-- Values, and the items of their lists, with fuel for them. -/
structure InitializersAgree (K : Pairing) (f : Nat) : Prop where
  initializer : ∀ {n g g' : Nat} {due : List Punct}, Suffice 1 n f g g' →
    K.Agrees n due due (K.source.initializer g) (K.other.initializer g')
  initializerItems : ∀ {n g g' : Nat} {due : List Punct}, Suffice 2 n f g g' →
    K.Agrees n due due (K.source.initializerItems g) (K.other.initializerItems g')

theorem initializersAgree (f : Nat) : K.InitializersAgree f := by
  induction f with
  | zero =>
    exact ⟨fun h => h.agrees_zero Nat.one_pos (forward_initializer _),
      fun h => h.agrees_zero Nat.two_pos (forward_initializers _).2⟩
  | succ f ih =>
    refine ⟨fun {n g g' due} h => ?_, fun {n g g' due} h => ?_⟩
    · obtain ⟨g, g', rfl, rfl, hg, hg'⟩ := h.succ
      have henough := h.enough
      rw [Source.initializer, Source.initializer]
      refine .accept (TokenKind.due_open due rfl) id ?_ ?_
      · refine (ih.initializerItems ⟨by omega, hg, hg'⟩).bind (fun _ => ?_) lax_of_cons
        exact .expect rfl lax_of_cons (.pure _)
      · refine (agrees_tokensUntil _).bind (fun tokens => .ite (.fail _) ?_) id
        exact (agrees_evaluate .empty tokens).bind (fun _ => .pure _) id
    · obtain ⟨g, g', rfl, rfl, hg, hg'⟩ := h.succ
      have henough := h.enough
      rw [Source.initializerItems, Source.initializerItems]
      refine (Agrees.comes .rbrace).bind (fun _ => .ite (.pure []) ?_) id
      refine (ih.initializer ⟨by omega, hg, hg'⟩).bind (fun item => ?_) id
      refine .accept rfl id ?_ (.pure _)
      exact (ih.initializerItems ⟨by omega, hg, hg'⟩).bind (fun _ => .pure _) id

theorem agrees_initializer :
    K.Agrees n due due (K.source.initializer K.source.fuel) (K.other.initializer K.other.fuel) :=
  .of_size fun _ hn => (initializersAgree _).initializer (.whole hn (by decide))

end Pairing

end CInterface
