import CInterface.Proofs.Grammar.Pairing
/-!
# Looking ahead in two texts

Most productions look at the next token only. An unknown word with two underscores in front is a
modifier by what follows it, behind arguments of any length. Where a statement is not at its end, the
look ahead stays in it, and so it sees the same in a text that goes on behind the statement.

* `Pairing.Ready.modifierFollows_tokens` — the look ahead.
* `Pairing.Ready.qualifiersAt_tokens` — the qualifiers before and behind a type.
-/

namespace CInterface

/-! ### Qualifiers one by one -/

section QualifiersAt

variable {g : Grammar} {beforeType : Bool} {ts rest : List Token} {q : String}

theorem qualifiersAt_of_none (quals : Qualifiers) (h : g.qualifier? beforeType ts = none) :
    g.qualifiersAt beforeType quals ts = (quals, ts) := by
  rw [Grammar.qualifiersAt]
  split
  · rfl
  · rename_i heq
    cases h.symm.trans heq

theorem qualifiersAt_of_some (quals : Qualifiers)
    (h : g.qualifier? beforeType ts = some (q, rest)) :
    g.qualifiersAt beforeType quals ts = g.qualifiersAt beforeType (quals.insert q) rest := by
  rw [Grammar.qualifiersAt]
  split
  · rename_i heq
    cases h.symm.trans heq
  · rename_i heq
    cases h.symm.trans heq
    rfl

end QualifiersAt

namespace Pairing

variable {K : Pairing} {due : List Punct} {ts : List Token} {t : Token}

/-- The tokens behind the bracket that is due are the same in both texts. -/
theorem Ready.afterClosing_tokens {p : Punct} (hp : p.isOpen = true)
    (h : K.Ready (p.closing :: due) ts) :
    afterClosing p 0 (K.tokens ts) = (afterClosing p 0 ts).map K.tokens ∧
      ∀ rest, afterClosing p 0 ts = some rest → ∃ u : Token, u.kind = .punct p.closing ∧
        K.Ready (p.closing :: due) (u :: rest) := by
  by_cases htail : K.tail = none
  · refine ⟨?_, fun rest hscan => ?_⟩
    · cases hscan : afterClosing p 0 ts with
      | none => exact afterClosing_tokens_none htail hscan
      | some rest => exact Pairing.afterClosing_tokens hscan
    · obtain ⟨u, hu, hsuffix⟩ := afterClosing_suffix hscan
      exact ⟨u, hu, h.of_suffix hsuffix fun hne => absurd htail hne⟩
  · obtain ⟨rest, hscan, hrest⟩ := afterClosing_closesDue hp (h.nested htail)
    obtain ⟨u, hu, hsuffix⟩ := afterClosing_suffix hscan
    refine ⟨?_, fun rest' hscan' => ?_⟩
    · rw [hscan]
      exact Pairing.afterClosing_tokens hscan
    · cases hscan.symm.trans hscan'
      refine ⟨u, hu, h.of_suffix hsuffix fun _ => closesDue_cons.2 ⟨due, ?_, hrest⟩⟩
      rw [hu]
      exact TokenKind.due_closing due hp

/-- The tokens behind arguments, where the tokens `ts` follow their opening parenthesis. -/
theorem Ready.afterArguments_tokens (h : K.Ready (.rparen :: due) ts) :
    afterArguments 0 (K.tokens ts) = (afterArguments 0 ts).map K.tokens ∧
      ∀ rest, afterArguments 0 ts = some rest → K.Ready due rest ∧ K.Seen rest := by
  rw [afterArguments_eq, afterArguments_eq]
  obtain ⟨htokens, hrest⟩ := h.afterClosing_tokens (p := .lparen) rfl
  refine ⟨htokens, fun rest hscan => ?_⟩
  obtain ⟨u, hu, hready⟩ := hrest rest hscan
  exact ⟨hready.behind (by rw [hu]; rfl), hready.seen_behind (by rw [hu]; rfl)⟩

/-- The tokens behind a block, where the tokens `ts` follow its opening brace. -/
theorem Ready.afterBlock_tokens (h : K.Ready (.rbrace :: due) ts) :
    afterBlock 0 (K.tokens ts) = (afterBlock 0 ts).map K.tokens ∧
      ∀ rest, afterBlock 0 ts = some rest → K.Ready due rest := by
  rw [afterBlock_eq, afterBlock_eq]
  obtain ⟨htokens, hrest⟩ := h.afterClosing_tokens (p := .lbrace) rfl
  refine ⟨htokens, fun rest hscan => ?_⟩
  obtain ⟨u, hu, hready⟩ := hrest rest hscan
  exact hready.behind (by rw [hu]; rfl)

/-- What follows a modifier, if the tokens behind it are known, shows that it is one. -/
def startsBehind (g : Grammar) (beforeType : Bool) : Option (List Token) → Bool
  | none | some [] => false
  | some (t :: more) =>
    match t.kind with
    | .ident word =>
      g.isKeyword word || !beforeType || more.head?.any fun (u : Token) => u.kind.startsDeclarator
    | k => !beforeType && k.startsDeclarator

theorem modifierFollows_cons (g : Grammar) (beforeType : Bool) (t : Token) (inside : List Token) :
    g.modifierFollows beforeType (t :: inside) = startsBehind g beforeType
      (if t.kind = .punct .lparen then afterArguments 0 inside else some (t :: inside)) := rfl

theorem Ready.startsBehind_tokens (g : Grammar) (beforeType : Bool) {us : List Token}
    (h : K.Ready due us) (hus : K.Seen us) :
    startsBehind g beforeType (some (K.tokens us)) = startsBehind g beforeType (some us) := by
  cases us with
  | nil => rw [tokens_nil (hus.resolve_right fun hne => hne rfl)]
  | cons u more =>
    rw [tokens_cons]
    simp only [startsBehind, K.kind_move]
    cases hu : u.kind with
    | ident word =>
      have hmore : K.Seen more := h.seen_behind (by rw [hu]; rfl)
      have hany : ∀ vs : List Token, (vs.head?.any fun (u : Token) => u.kind.startsDeclarator) =
          (vs.head?.map (·.kind)).any TokenKind.startsDeclarator := by
        intro vs
        cases vs <;> rfl
      simp only [hany, head?_tokens hmore]
    | punct | integer | float | str | char | error => rfl

/-- What follows an unknown word tells the same of it in both texts: a look ahead passes arguments that
are closed, and at most two tokens behind them, and none of these ends a statement. -/
theorem Ready.modifierFollows_tokens (g : Grammar) (beforeType : Bool) (h : K.Ready due (t :: ts))
    {word : String} (ht : t.kind = .ident word) :
    g.modifierFollows beforeType (K.tokens ts) = g.modifierFollows beforeType ts := by
  have hts : K.Seen ts := h.seen_behind (by rw [ht]; rfl)
  have hbehind : K.Ready due ts := h.behind (by rw [ht]; rfl)
  cases ts with
  | nil => rw [tokens_nil (hts.resolve_right fun hne => hne rfl)]
  | cons u inside =>
    rw [tokens_cons, modifierFollows_cons, modifierFollows_cons, K.kind_move]
    by_cases hu : u.kind = .punct .lparen
    · have hinside : K.Ready (.rparen :: due) inside := hbehind.behind (by rw [hu]; rfl)
      obtain ⟨hscan, hrest⟩ := hinside.afterArguments_tokens
      rw [if_pos hu, if_pos hu, hscan]
      cases hafter : afterArguments 0 inside with
      | none => rfl
      | some rest =>
        exact (hrest rest hafter).1.startsBehind_tokens g beforeType (hrest rest hafter).2
    · rw [if_neg hu, if_neg hu, ← tokens_cons]
      exact hbehind.startsBehind_tokens g beforeType hts

/-- A modifier has the same arguments in both texts. -/
theorem Ready.withArguments_tokens (word : String) (h : K.Ready due ts) (hts : K.Seen ts) :
    Grammar.withArguments word (K.tokens ts) =
        ((Grammar.withArguments word ts).1, K.tokens (Grammar.withArguments word ts).2) ∧
      K.Ready due (Grammar.withArguments word ts).2 ∧ K.Seen (Grammar.withArguments word ts).2 := by
  cases ts with
  | nil =>
    rw [tokens_nil (hts.resolve_right fun hne => hne rfl)]
    refine ⟨?_, h, hts⟩
    show _ = (word, K.tokens [])
    rw [tokens_nil (hts.resolve_right fun hne => hne rfl)]
    rfl
  | cons u inside =>
    by_cases hu : u.kind = .punct .lparen
    · have hinside : K.Ready (.rparen :: due) inside := h.behind (by rw [hu]; rfl)
      simp only [Grammar.withArguments, tokens_cons, K.kind_move, hu, if_true]
      cases hscan : balancedUntil [] 0 inside with
      | none =>
        have htail : K.tail = none := Classical.byContradiction fun htail => by
          obtain ⟨i, r, hsome⟩ := balancedUntil_isSome [] (hinside.nested htail)
          cases hscan.symm.trans hsome
        rw [balancedUntil_tokens_none htail hscan]
        exact ⟨rfl, h, hts⟩
      | some found =>
        obtain ⟨arguments, rest⟩ := found
        have hrest : K.Ready (.rparen :: due) rest :=
          hinside.of_suffix (balancedUntil_suffix hscan) fun htail =>
            balancedUntil_closesDue (hinside.nested htail) hscan
        rw [balancedUntil_tokens hscan]
        cases rest with
        | nil =>
          rcases hrest.seen with hseen | ⟨hlax, -⟩
          · rw [tokens_nil (hseen.resolve_right fun hne => hne rfl)]
            exact ⟨rfl, h, hts⟩
          · cases hlax.2
        | cons close after =>
          simp only [tokens_cons, K.kind_move]
          by_cases hclose : close.kind = .punct .rparen
          · rw [if_pos hclose, if_pos hclose]
            refine ⟨?_, hrest.behind (by rw [hclose]; rfl), ?_⟩
            · have hkinds := map_kind_move (K := K) arguments
              have htexts : (arguments.map K.move).map (fun t => t.kind.text) =
                  arguments.map (fun t => t.kind.text) := by
                have hmap := congrArg (List.map TokenKind.text) hkinds
                simpa only [List.map_map, Function.comp_def] using hmap
              rw [htexts]
            · exact hrest.seen_behind (by rw [hclose]; rfl)
          · rw [if_neg hclose, if_neg hclose]
            exact ⟨rfl, h, hts⟩
    · simp only [Grammar.withArguments, tokens_cons, K.kind_move, if_neg hu]
      exact ⟨trivial, h, hts⟩

theorem Ready.qualifier?_tokens (g : Grammar) (beforeType : Bool) (h : K.Ready due ts)
    (hts : K.Seen ts) :
    g.qualifier? beforeType (K.tokens ts) =
        (g.qualifier? beforeType ts).map (fun p => (p.1, K.tokens p.2)) ∧
      ∀ q rest, g.qualifier? beforeType ts = some (q, rest) → K.Ready due rest ∧ K.Seen rest := by
  cases ts with
  | nil =>
    rw [tokens_nil (hts.resolve_right fun hne => hne rfl)]
    exact ⟨rfl, fun q rest hq => by cases hq⟩
  | cons t ts =>
    simp only [Grammar.qualifier?, tokens_cons, K.kind_move]
    cases ht : t.kind with
    | ident word =>
      have hbehind : K.Ready due ts := h.behind (by rw [ht]; rfl)
      have hseen : K.Seen ts := h.seen_behind (by rw [ht]; rfl)
      obtain ⟨harguments, hready, hrest⟩ := hbehind.withArguments_tokens word hseen
      simp only [h.modifierFollows_tokens g beforeType ht]
      split
      · exact ⟨rfl, fun q rest hq => by cases hq; exact ⟨hbehind, hseen⟩⟩
      · split
        · rw [harguments]
          refine ⟨rfl, fun q rest hq => ?_⟩
          have heq := Option.some.inj hq
          rw [heq] at hready hrest
          exact ⟨hready, hrest⟩
        · exact ⟨rfl, fun q rest hq => by cases hq⟩
    | punct | integer | float | str | char | error => exact ⟨rfl, fun q rest hq => by cases hq⟩

/-- All qualifiers that follow one another are the same in both texts. -/
theorem Ready.qualifiersAt_tokens (g : Grammar) (beforeType : Bool) (quals : Qualifiers)
    (h : K.Ready due ts) (hts : K.Seen ts) :
    g.qualifiersAt beforeType quals (K.tokens ts) =
        ((g.qualifiersAt beforeType quals ts).1, K.tokens (g.qualifiersAt beforeType quals ts).2) ∧
      K.Ready due (g.qualifiersAt beforeType quals ts).2 := by
  induction hn : ts.length using Nat.strongRecOn generalizing quals ts with
  | _ n ih =>
    obtain ⟨htokens, hrest⟩ := h.qualifier?_tokens g beforeType hts
    cases hq : g.qualifier? beforeType ts with
    | none =>
      rw [hq] at htokens
      rw [qualifiersAt_of_none _ hq, qualifiersAt_of_none _ htokens]
      exact ⟨rfl, h⟩
    | some found =>
      obtain ⟨q, rest⟩ := found
      rw [hq] at htokens
      rw [qualifiersAt_of_some _ hq, qualifiersAt_of_some _ htokens]
      obtain ⟨hready, hseen⟩ := hrest q rest hq
      exact ih rest.length (hn ▸ Grammar.qualifier?_length hq) _ hready hseen rfl

end Pairing

end CInterface
