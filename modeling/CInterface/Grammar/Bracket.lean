import CInterface.Token
/-!
# Brackets

Skipping over parts of a token list that the grammar does not look into.

* `balancedUntil` — the tokens up to the first of some stops outside brackets.
* `afterBlock` — the tokens behind the brace that closes a block.
* `afterStatement` — the tokens behind a statement that could not be read.
* `afterArguments` — the tokens behind a list of arguments in parentheses.
-/

namespace CInterface

/-- The token is one of some punctuators. -/
def TokenKind.isOneOf (ps : List Punct) : TokenKind → Bool
  | .punct p => ps.contains p
  | _ => false

/-- The tokens up to the first stop, or the first closing bracket without its opening one, outside
nested brackets, and the tokens from there on. `depth` brackets are open. Nothing if the tokens end
before. -/
def balancedUntil (stops : List Punct) (depth : Nat) : List Token → Option (List Token × List Token)
  | [] => none
  | t :: rest =>
    if depth = 0 && (t.kind.isOneOf stops || t.kind.isClose) then some ([], t :: rest)
    else
      let next := if t.kind.isOpen then depth + 1 else if t.kind.isClose then depth - 1 else depth
      (balancedUntil stops next rest).map fun p => (t :: p.1, p.2)

/-- No token is lost. -/
theorem balancedUntil_eq_append {stops : List Punct} {depth : Nat} {ts inside rest : List Token}
    (h : balancedUntil stops depth ts = some (inside, rest)) : inside ++ rest = ts := by
  induction ts generalizing depth inside with
  | nil => simp [balancedUntil] at h
  | cons t ts ih =>
    simp only [balancedUntil] at h
    split at h
    · obtain ⟨rfl, rfl⟩ := Prod.mk.inj (Option.some.inj h)
      rfl
    · obtain ⟨⟨i, r⟩, hp, he⟩ := Option.map_eq_some_iff.1 h
      obtain ⟨rfl, rfl⟩ := Prod.mk.inj he
      simp [ih hp]

/-- The tokens behind the brace that closes the outermost of `depth + 1` open blocks. -/
def afterBlock (depth : Nat) : List Token → Option (List Token)
  | [] => none
  | t :: rest =>
    if t.kind = .punct .lbrace then afterBlock (depth + 1) rest
    else if t.kind = .punct .rbrace then
      match depth with
      | 0 => some rest
      | depth + 1 => afterBlock depth rest
    else afterBlock depth rest

/-- Without a semicolon at the head. -/
def dropSemi : List Token → List Token
  | t :: rest => if t.kind = .punct .semi then rest else t :: rest
  | [] => []

/-- The tokens behind a statement: behind its semicolon, or behind the block that it ends with and a
semicolon there. `depth` blocks are open. -/
def afterStatement (depth : Nat) : List Token → List Token
  | [] => []
  | t :: rest =>
    if t.kind = .punct .semi && depth = 0 then rest
    else if t.kind = .punct .lbrace then afterStatement (depth + 1) rest
    else if t.kind = .punct .rbrace then
      if depth ≤ 1 then dropSemi rest else afterStatement (depth - 1) rest
    else afterStatement depth rest

/-- The tokens behind the parenthesis that closes the outermost of `depth + 1` open ones. Other
brackets do not count. -/
def afterArguments (depth : Nat) : List Token → Option (List Token)
  | [] => none
  | t :: rest =>
    if t.kind = .punct .lparen then afterArguments (depth + 1) rest
    else if t.kind = .punct .rparen then
      match depth with
      | 0 => some rest
      | depth + 1 => afterArguments depth rest
    else afterArguments depth rest

end CInterface
