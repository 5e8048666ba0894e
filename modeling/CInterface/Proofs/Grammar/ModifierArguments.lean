import CInterface.Grammar.Qualifier
import CInterface.Proofs.Token.Fusing
/-!
# Modifiers with arguments

A modifier that takes arguments along is one string, which consists of the spellings of its tokens
without anything between them. So the string has these tokens again only where none of them fuse.

* `Grammar.qualifier?_eq_spelled` — the string of a modifier with arguments.
* `Grammar.kinds_qualifier?_iff` — the string has the tokens that were consumed just where these are
  kept apart.
-/

namespace CInterface

namespace Grammar

/-- Arguments are taken along in parentheses, or the modifier is the word alone. -/
theorem withArguments_cases (word : String) (ts : List Token) :
    withArguments word ts = (word, ts) ∨
      ∃ opening arguments closing after, ts = opening :: (arguments ++ closing :: after) ∧
        opening.kind = .punct .lparen ∧ closing.kind = .punct .rparen ∧
        withArguments word ts =
          (word ++ "(" ++ String.join (arguments.map (·.kind.text)) ++ ")", after) := by
  unfold withArguments
  split
  · rename_i opening inside
    split
    · rename_i hopening
      split
      · rename_i arguments closing after hbalanced
        split
        · rename_i hclosing
          refine Or.inr ⟨opening, arguments, closing, after, ?_, hopening, hclosing, rfl⟩
          rw [balancedUntil_eq_append hbalanced]
        · exact Or.inl rfl
      · exact Or.inl rfl
    · exact Or.inl rfl
  · exact Or.inl rfl

theorem toList_join_text (ts : List Token) :
    (String.join (ts.map (·.kind.text))).toList = spelled (ts.map (·.kind)) := by
  induction ts with
  | nil => rfl
  | cons t ts ih =>
    rw [List.map_cons, String.join_cons, String.toList_append, ih, List.map_cons, spelled, spelled,
      List.flatMap_cons]

/-- **A modifier that takes arguments along is spelled as its tokens, one behind the other.** -/
theorem qualifier?_eq_spelled {g : Grammar} {beforeType : Bool} {consumed rest : List Token}
    {q : String} (h : g.qualifier? beforeType (consumed ++ rest) = some (q, rest))
    (harguments : 1 < consumed.length) : q.toList = spelled (consumed.map (·.kind)) := by
  match consumed with
  | t :: cs =>
    have hcs : cs ++ rest ≠ rest := fun heq => by
      rw [List.append_cancel_right (heq.trans (List.nil_append rest).symm)] at harguments
      exact absurd harguments (Nat.lt_irrefl 1)
    rw [List.cons_append, qualifier?] at h
    split at h
    · rename_i word hword
      split at h
      · exact absurd (Prod.mk.inj (Option.some.inj h)).2 hcs
      · split at h
        · have hread := Option.some.inj h
          rcases withArguments_cases word (cs ++ rest) with
            halone | ⟨opening, arguments, closing, after, hts, hopening, hclosing, hwith⟩
          · rw [halone] at hread
            exact absurd (Prod.mk.inj hread).2 hcs
          · rw [hwith] at hread
            obtain ⟨rfl, rfl⟩ := Prod.mk.inj hread
            have htokens : cs = opening :: (arguments ++ [closing]) := by
              refine List.append_cancel_right (hts.trans ?_)
              rw [List.cons_append, List.append_assoc, List.singleton_append]
            rw [htokens, String.toList_append, String.toList_append, String.toList_append,
              toList_join_text]
            simp only [List.map_cons, List.map_append, List.map_nil, spelled, List.flatMap_cons,
              List.flatMap_append, List.flatMap_nil, hword, hopening, hclosing, TokenKind.text,
              List.append_assoc, List.append_nil]
            rfl
        · cases h
    · cases h

/-- The tokens of a text without errors are lexemes. -/
theorem isLexeme_of_lexErrors {text : String} (h : lexErrors (tokenize text) = []) {ts : List Token}
    (hts : ts ⊆ tokenize text) : ∀ k ∈ ts.map (·.kind), k.IsLexeme := by
  intro k hk
  obtain ⟨t, ht, rfl⟩ := List.mem_map.1 hk
  have hmem : t.kind ∈ kindsOf text.toList := List.mem_map_of_mem (hts ht)
  have hreadable := (lexErrors_eq_nil_iff text.toList).1 h
  exact isLexeme_of_mem_kindsOf hmem fun d hd => hreadable ⟨d, hd ▸ hmem⟩

/-- **A modifier with its arguments is kept as the tokens that were consumed just where these are kept
apart**: where no word, number or punctuator among them goes on with the spelling of the next ones, and
no `L` stands before a literal. -/
theorem kinds_qualifier?_iff (g : Grammar) (beforeType : Bool) {text q : String}
    {before consumed rest : List Token} (herrors : lexErrors (tokenize text) = [])
    (htokens : tokenize text = before ++ (consumed ++ rest))
    (hread : g.qualifier? beforeType (consumed ++ rest) = some (q, rest))
    (harguments : 1 < consumed.length) :
    (tokenize q).map (·.kind) = consumed.map (·.kind) ↔
      keptApart (consumed.map (·.kind)) = true := by
  have hlexemes : ∀ k ∈ consumed.map (·.kind), k.IsLexeme :=
    isLexeme_of_lexErrors herrors fun t ht => by
      rw [htokens]
      exact List.mem_append_right _ (List.mem_append_left _ ht)
  have hq : (tokenize q).map (·.kind) = kindsOf (spelled (consumed.map (·.kind))) := by
    rw [tokenize, qualifier?_eq_spelled hread harguments]
    rfl
  rw [hq]
  exact kindsOf_spelled_iff hlexemes

/-- The tokens of `__declspec(a("b c", 2)) int x`, up to the type. -/
def nestedArguments : List Token :=
  [⟨.ident "__declspec", 0, 10⟩, ⟨.punct .lparen, 10, 11⟩, ⟨.ident "a", 11, 12⟩,
    ⟨.punct .lparen, 12, 13⟩, ⟨.str "\"b c\"", 13, 18⟩, ⟨.punct .comma, 18, 19⟩,
    ⟨.integer "2", 20, 21⟩, ⟨.punct .rparen, 21, 22⟩, ⟨.punct .rparen, 22, 23⟩]

/-- Brackets, commas and literals keep the arguments apart, also where blanks are lost. -/
theorem kinds_qualifier?_nestedArguments :
    standard.qualifier? true (nestedArguments ++ [⟨.ident "int", 24, 27⟩, ⟨.ident "x", 28, 29⟩]) =
      some ("__declspec(a(\"b c\",2))", [⟨.ident "int", 24, 27⟩, ⟨.ident "x", 28, 29⟩]) ∧
    (tokenize "__declspec(a(\"b c\",2))").map (·.kind) = nestedArguments.map (·.kind) := by
  have hread : standard.qualifier? true
      (nestedArguments ++ [⟨.ident "int", 24, 27⟩, ⟨.ident "x", 28, 29⟩]) =
        some ("__declspec(a(\"b c\",2))", [⟨.ident "int", 24, 27⟩, ⟨.ident "x", 28, 29⟩]) := by
    decide
  have herrors : lexErrors (tokenize "__declspec(a(\"b c\", 2)) int x") = [] := by decide +kernel
  have htokens : tokenize "__declspec(a(\"b c\", 2)) int x" =
      [] ++ (nestedArguments ++ [⟨.ident "int", 24, 27⟩, ⟨.ident "x", 28, 29⟩]) := by
    decide +kernel
  have hkinds := kinds_qualifier?_iff standard true herrors htokens hread (by decide)
  exact ⟨hread, hkinds.2 (by decide)⟩

/-- Two words as arguments become one: the modifier is kept as `__declspec(ab)`. -/
theorem not_kinds_qualifier? :
    ¬ ∀ (g : Grammar) (beforeType : Bool) (text q : String) (before consumed rest : List Token),
      lexErrors (tokenize text) = [] → tokenize text = before ++ (consumed ++ rest) →
      g.qualifier? beforeType (consumed ++ rest) = some (q, rest) → 1 < consumed.length →
      (tokenize q).map (·.kind) = consumed.map (·.kind) := by
  intro h
  have hkinds := h standard true "__declspec(a b) int x" "__declspec(ab)" []
    [⟨.ident "__declspec", 0, 10⟩, ⟨.punct .lparen, 10, 11⟩, ⟨.ident "a", 11, 12⟩,
      ⟨.ident "b", 13, 14⟩, ⟨.punct .rparen, 14, 15⟩]
    [⟨.ident "int", 16, 19⟩, ⟨.ident "x", 20, 21⟩]
    (by decide +kernel) (by decide +kernel) (by decide) (by decide)
  exact absurd hkinds (by decide +kernel)

end Grammar

end CInterface
