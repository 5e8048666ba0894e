import CInterface.Text.Split
/-!
# Normal text

Before a header is read, comments are taken out and continued lines are joined. Neither moves a
line: what is taken out leaves its newlines behind.

* `stripComments` — the text without comments outside string and character literals.
* `joinContinuations` — the text with continued lines joined.
* `normalize` — both.
-/

namespace CInterface.Text

/-! ### Comments -/

/-- The number of characters of a literal behind its opening quote, up to its closing quote or the
end of its line and with it. A backslash takes the next character along. -/
def literalTail (quote : Char) : List Char → Nat
  | [] => 0
  | [_] => 1
  | c :: d :: r =>
    if c = quote || c = '\n' then 1
    else if c = '\\' then 2 + literalTail quote r
    else 1 + literalTail quote (d :: r)

/-- The text without comments outside literals. A line comment ends before its newline. A block
comment leaves a space and its newlines; one that is never closed stays. -/
def stripComments (cs : List Char) : List Char :=
  match cs with
  | [] => []
  | c :: r =>
    if c = '"' || c = '\x27' then
      let n := literalTail c r
      c :: r.take n ++ stripComments (r.drop n)
    else if c = '/' && r.head? = some '/' then
      let n := (r.takeWhile (· ≠ '\n')).length
      stripComments (r.drop n)
    else if c = '/' && r.head? = some '*' then
      match _ : cut? ['*', '/'] (r.drop 1) with
      | some (comment, rest) => ' ' :: comment.filter (· = '\n') ++ stripComments rest
      | none => c :: r
    else c :: stripComments r
  termination_by cs.length
  decreasing_by
    · simp only [List.length_cons, List.length_drop]; omega
    · simp only [List.length_cons, List.length_drop]; omega
    · rename_i h
      have := length_of_cut? h
      simp only [List.length_cons, List.length_drop] at this ⊢
      omega
    · exact Nat.lt_succ_self r.length

/-! ### Continued lines -/

/-- Joins lines. `held` is the text of the lines before that go on, and `count` is their number, for
each of which an empty line follows the joined one. -/
def joinLines (held : List Char) (count : Nat) : List (List Char) → List (List Char)
  | [] => if count = 0 then [] else held :: List.replicate (count - 1) []
  | line :: rest =>
    let body := dropReturn line
    if body.getLast? = some '\\' then joinLines (held ++ body.dropLast) (count + 1) rest
    else (held ++ body) :: List.replicate count [] ++ joinLines [] 0 rest

/-- The text with each line that ends in a backslash joined with the next. Carriage returns at line
ends are dropped. -/
def joinContinuations (cs : List Char) : List Char :=
  joinWith ['\n'] (joinLines [] 0 (splitAt '\n' cs))

/-- The text without comments and with continued lines joined. -/
def normalize (cs : List Char) : List Char := joinContinuations (stripComments cs)

end CInterface.Text
