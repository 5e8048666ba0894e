import CInterface.Regex
import CInterface.Text.Split
/-!
# Tokens of regular expressions

The text of a pattern is first cut into tokens: operators, brackets, and whole sets of characters.

* `Regex.Token` — what a pattern is made of.
* `Regex.escape?`, `Regex.bracketed?` — an escape and a bracketed set.
* `Regex.tokens?` — the tokens of a pattern, none if one of them is malformed.
-/

namespace CInterface.Regex

open Text

/-- What the flags of a pattern say. -/
structure Flags where
  /-- The case of letters does not matter. -/
  ignoreCase : Bool := false
  /-- A caret and a dollar sign stand for the ends of lines. -/
  multiLine : Bool := false
  /-- A dot stands for newlines too. -/
  dotAll : Bool := false
  /-- Repetitions are lazy unless they are marked so. -/
  swapLazy : Bool := false
  deriving DecidableEq, Repr

/-- What a pattern is made of. -/
inductive Token where
  | char (set : CharSet)
  | dot
  | caret
  | dollar
  | anchor (a : Anchor)
  | bar
  /-- The start of a numbered group, perhaps with a name. -/
  | openGroup (name : Option String)
  /-- The start of a group without a number, with other flags inside. -/
  | openPlain (change : Flags → Flags)
  | close
  /-- Other flags for the rest of a group. -/
  | flags (change : Flags → Flags)
  | repeats (min : Nat) (max : Option Nat) (isLazy : Bool)

/-! ### Escapes -/

/-- What an escape stands for. -/
inductive Escape where
  | literal (c : Char)
  | set (s : CharSet)
  | anchor (a : Anchor)

/-- The character whose code point some hexadecimal digits are. -/
def hexChar? (digits : List Char) : Option Char := do
  let n := (← digits.mapM hexValue?).foldl (fun n d => n * 16 + d) 0
  if digits.isEmpty then none else if n.isValidChar then some (Char.ofNat n) else none

/-- A character by its code point: some number of hexadecimal digits, or any number in braces. -/
def codePoint? (width : Nat) : List Char → Option (Char × List Char)
  | '\x7b' :: r => do
    let digits := r.takeWhile (· ≠ '\x7d')
    let rest ← afterHead? ['\x7d'] (r.drop digits.length)
    return (← hexChar? digits, rest)
  | cs => if cs.length < width then none else (hexChar? (cs.take width)).map (·, cs.drop width)

/-- The escape with one character behind the backslash. Signs stand for themselves; not every letter
has a meaning. -/
def simpleEscape? (c : Char) : Option Escape :=
  match c with
  | 'd' => some (.set .digit)
  | 's' => some (.set .space)
  | 'w' => some (.set .word)
  | 'D' => some (.set (.complement .digit))
  | 'S' => some (.set (.complement .space))
  | 'W' => some (.set (.complement .word))
  | 'b' => some (.anchor .wordBoundary)
  | 'B' => some (.anchor .noWordBoundary)
  | 'A' => some (.anchor .textStart)
  | 'z' => some (.anchor .textEnd)
  | 'a' => some (.literal '\x07')
  | 'f' => some (.literal '\x0c')
  | 't' => some (.literal '\t')
  | 'n' => some (.literal '\n')
  | 'r' => some (.literal '\r')
  | 'v' => some (.literal '\x0b')
  | _ =>
    if c.isAlphanum || c = '<' || c = '>' || 0x80 ≤ c.toNat then none else some (.literal c)

/-- The escape behind a backslash, with the text behind it. -/
def escape? : List Char → Option (Escape × List Char)
  | [] => none
  | 'x' :: r => (codePoint? 2 r).map fun p => (.literal p.1, p.2)
  | 'u' :: r => (codePoint? 4 r).map fun p => (.literal p.1, p.2)
  | 'U' :: r => (codePoint? 8 r).map fun p => (.literal p.1, p.2)
  | c :: r => (simpleEscape? c).map (·, r)

/-! ### Bracketed sets -/

/-- A member of a bracketed set, which is a character or a set, with the text behind it. -/
def member? : List Char → Option ((Char ⊕ CharSet) × List Char)
  | [] => none
  | '\\' :: r => do
    match ← escape? r with
    | (.literal c, rest) => some (.inl c, rest)
    | (.set s, rest) => some (.inr s, rest)
    | (.anchor _, _) => none
  | c :: r => some (.inl c, r)

/-- A member as a set. -/
def memberSet : Char ⊕ CharSet → CharSet
  | .inl c => .single c
  | .inr s => s

/-- A member of a bracketed set or a range from one character to another, with the text behind it. A
dash in front of another or of the closing bracket makes no range. -/
def memberRange? (cs : List Char) : Option (CharSet × List Char) := do
  let (first, r) ← member? cs
  match r with
  | '-' :: ']' :: _ | '-' :: '-' :: _ => return (memberSet first, r)
  | '-' :: r =>
    match first, ← member? r with
    | .inl a, (.inl b, rest) => if a ≤ b then some (.range a b false, rest) else none
    | _, _ => none
  | _ => return (memberSet first, r)

/-- The members of a bracketed set up to the closing bracket, with the text behind it. A set inside a
set or an operator on sets is refused. -/
def members? : Nat → List Char → Option (CharSet × List Char)
  | 0, _ => none
  | fuel + 1, cs =>
    match cs with
    | ']' :: r => some (.none, r)
    | '[' :: _ | '&' :: '&' :: _ | '-' :: '-' :: _ | '~' :: '~' :: _ => none
    | _ => do
      let (s, r) ← memberRange? cs
      let (t, rest) ← members? fuel r
      return (.union s t, rest)

/-- The bracketed set behind its opening bracket, with the text behind it. Dashes at the head are
members, and so is a closing bracket there. -/
def bracketed? (cs : List Char) : Option (CharSet × List Char) := do
  let negated := cs.head? = some '^'
  let body := if negated then cs.drop 1 else cs
  let dashes := body.takeWhile (· = '-')
  let head := if dashes.isEmpty then body.takeWhile (· = ']') |>.take 1 else dashes
  let (s, rest) ← members? (body.length + 1) (body.drop head.length)
  let set := head.foldr (fun c s => .union (.single c) s) s
  return (if negated then .complement set else set, rest)

/-! ### Groups and flags -/

/-- The text is the name of a group. -/
def isGroupName : List Char → Bool
  | [] => false
  | c :: r => isWordHead c && r.all fun c => isWordTail c || c = '.' || c = '[' || c = ']'

/-- The named group behind the bracket in front of its name, with the text behind it. -/
def namedGroup? (cs : List Char) : Option (Token × List Char) := do
  let name := cs.takeWhile (· ≠ '>')
  let rest ← afterHead? ['>'] (cs.drop name.length)
  if isGroupName name then some (.openGroup (some (String.ofList name)), rest) else none

/-- What a letter does to the flags when it is set or cleared. -/
def flagChange? (value : Bool) : Char → Option (Flags → Flags)
  | 'i' => some fun f => { f with ignoreCase := value }
  | 'm' => some fun f => { f with multiLine := value }
  | 's' => some fun f => { f with dotAll := value }
  | 'U' => some fun f => { f with swapLazy := value }
  | 'u' => if value then some id else none
  | _ => none

/-- What the letters of a group do to the flags: those behind a dash are cleared. No letter may
occur twice, and a letter has to follow the dash. -/
def flagChanges? (letters : List Char) : Option (Flags → Flags) := do
  let on := letters.takeWhile (· ≠ '-')
  let off := letters.drop (on.length + 1)
  if on.length < letters.length && off.isEmpty then none
  else if (on ++ off).eraseDups.length < (on ++ off).length then none
  else
    let changes := (← on.mapM (flagChange? true)) ++ (← off.mapM (flagChange? false))
    return fun f => changes.foldl (fun f change => change f) f

/-- What opens behind a bracket, with the text behind it. -/
def opening? : List Char → Option (Token × List Char)
  | '?' :: 'P' :: '<' :: r => namedGroup? r
  | '?' :: '<' :: r => namedGroup? r
  | '?' :: r => do
    let letters := r.takeWhile fun c => c ≠ ':' && c ≠ ')'
    let change ← flagChanges? letters
    match r.drop letters.length with
    | ':' :: rest => some (.openPlain change, rest)
    | ')' :: rest => if letters.isEmpty then none else some (.flags change, rest)
    | _ => none
  | r => some (.openGroup none, r)

/-! ### Repetitions -/

/-- A repetition behind its operator, which a question mark makes lazy. -/
def repetition (min : Nat) (max : Option Nat) : List Char → Token × List Char
  | '?' :: r => (.repeats min max true, r)
  | r => (.repeats min max false, r)

/-- A number of repetitions, with blanks around it. -/
def count? (cs : List Char) : Option Nat :=
  let digits := trim cs
  let n := digits.foldl (fun n d => n * 10 + (d.toNat - '0'.toNat)) 0
  if digits.isEmpty || !digits.all Char.isDigit || UInt32.size ≤ n then none else some n

/-- The numbers of repetitions in braces: one number, a least number, or a least and a greatest. -/
def counts? (cs : List Char) : Option (Nat × Option Nat) :=
  match splitAt ',' cs with
  | [n] => (count? n).map fun n => (n, some n)
  | [n, []] => (count? n).map (·, none)
  | [n, m] => do
    let n ← count? n
    let m ← count? m
    if n ≤ m then some (n, some m) else none
  | _ => none

/-- The repetition behind an opening brace, with the text behind it. -/
def counted? (cs : List Char) : Option (Token × List Char) := do
  let inside := cs.takeWhile (· ≠ '\x7d')
  let rest ← afterHead? ['\x7d'] (cs.drop inside.length)
  let (min, max) ← counts? inside
  return repetition min max rest

/-! ### Patterns -/

/-- The token that starts with a character, with the text behind it. -/
def token? (c : Char) (r : List Char) : Option (Token × List Char) :=
  match c with
  | '.' => some (.dot, r)
  | '^' => some (.caret, r)
  | '$' => some (.dollar, r)
  | '|' => some (.bar, r)
  | '(' => opening? r
  | ')' => some (.close, r)
  | '*' => some (repetition 0 none r)
  | '+' => some (repetition 1 none r)
  | '?' => some (repetition 0 (some 1) r)
  | '\x7b' => counted? r
  | '[' => (bracketed? r).map fun p => (.char p.1, p.2)
  | '\\' => do
    match ← escape? r with
    | (.literal c, rest) => some (.char (.single c), rest)
    | (.set s, rest) => some (.char s, rest)
    | (.anchor a, rest) => some (.anchor a, rest)
  | _ => some (.char (.single c), r)

/-- The tokens of a text; every token takes at least one character, which the fuel allows for. -/
def tokensWith? : Nat → List Char → Option (List Token)
  | 0, _ => none
  | _, [] => some []
  | fuel + 1, c :: r => do
    let (t, rest) ← token? c r
    return t :: (← tokensWith? fuel rest)

/-- The tokens of a pattern. -/
def tokens? (cs : List Char) : Option (List Token) := tokensWith? (cs.length + 1) cs

end CInterface.Regex
