import CInterface.CType
import CInterface.Grammar
import CInterface.Grammar.Bracket
/-!
# Reading qualifiers

A qualifier is a word of the grammar, a modifier word with its arguments, or an unknown word with two
underscores in front that stands where a modifier makes sense.

* `Grammar.modifierFollows` — whether an unknown word is a modifier, by what follows it.
* `Grammar.qualifier?` — the qualifier at the head of some tokens.
* `Grammar.qualifiersAt` — all qualifiers at the head of some tokens.
-/

namespace CInterface

/-- The token is a word. -/
def TokenKind.isIdent : TokenKind → Bool
  | .ident _ => true
  | _ => false

/-- The name of a word. -/
def TokenKind.ident? : TokenKind → Option String
  | .ident name => some name
  | _ => none

/-- The token can start a declarator: a word, a star, an ampersand or a parenthesis. -/
def TokenKind.startsDeclarator (k : TokenKind) : Bool :=
  k.isIdent || k.isOneOf [.star, .amp, .lparen]

/-- The word at the head of some tokens. -/
def word? : List Token → Option String
  | t :: _ => t.kind.ident?
  | [] => none

namespace Grammar

/-- Whether an unknown word acts as a modifier, where `rest` are the tokens behind it: behind its
arguments, if it has any, a keyword follows. Before the type a name with a declarator behind it may
follow too, and behind the type anything that can start a declarator. -/
def modifierFollows (g : Grammar) (beforeType : Bool) (rest : List Token) : Bool :=
  let next : Option (List Token) := match rest with
    | t :: inside => if t.kind = .punct .lparen then afterArguments 0 inside else some rest
    | [] => some []
  match next with
  | none | some [] => false
  | some (t :: more) =>
    match t.kind with
    | .ident word =>
      g.isKeyword word || !beforeType || more.head?.any fun (u : Token) => u.kind.startsDeclarator
    | k => !beforeType && k.startsDeclarator

/-- A modifier with its arguments, if some follow, spelled without spaces. -/
def withArguments (word : String) (rest : List Token) : String × List Token :=
  match rest with
  | t :: inside =>
    if t.kind = .punct .lparen then
      match balancedUntil [] 0 inside with
      | some (arguments, close :: after) =>
        if close.kind = .punct .rparen then
          (word ++ "(" ++ String.join (arguments.map (·.kind.text)) ++ ")", after)
        else (word, rest)
      | _ => (word, rest)
    else (word, rest)
  | [] => (word, [])

/-- The qualifier at the head of some tokens, with the tokens behind it. -/
def qualifier? (g : Grammar) (beforeType : Bool) : List Token → Option (String × List Token)
  | [] => none
  | t :: rest =>
    match t.kind with
    | .ident word =>
      if g.isQualifier word then some (word, rest)
      else if g.isModifier word || (g.isUnderscoreWord word && g.modifierFollows beforeType rest)
      then some (withArguments word rest)
      else none
    | _ => none

theorem withArguments_length (word : String) (rest : List Token) :
    (withArguments word rest).2.length ≤ rest.length := by
  unfold withArguments
  split
  · split
    · split
      · rename_i h
        have := congrArg List.length (balancedUntil_eq_append h)
        simp only [List.length_append, List.length_cons] at this
        split <;> simp only [List.length_cons] <;> omega
      · exact Nat.le_refl _
    · exact Nat.le_refl _
  · exact Nat.le_refl _

/-- A qualifier is at least one token. -/
theorem qualifier?_length {g : Grammar} {beforeType : Bool} {ts rest : List Token} {q : String}
    (h : g.qualifier? beforeType ts = some (q, rest)) : rest.length < ts.length := by
  unfold qualifier? at h
  split at h
  · simp at h
  · rename_i t ts
    split at h
    · rename_i word _
      have hw := withArguments_length word ts
      split at h
      · simp_all
      · split at h
        · rw [Option.some.inj h] at hw
          simp only [List.length_cons]
          exact Nat.lt_succ_of_le hw
        · simp at h
    · simp at h

/-- All qualifiers at the head of some tokens, added to `quals`, with the tokens behind them. -/
def qualifiersAt (g : Grammar) (beforeType : Bool) (quals : Qualifiers) (ts : List Token) :
    Qualifiers × List Token :=
  match h : g.qualifier? beforeType ts with
  | none => (quals, ts)
  | some (q, rest) =>
    have := qualifier?_length h
    g.qualifiersAt beforeType (quals.insert q) rest
  termination_by ts.length

end Grammar

end CInterface
