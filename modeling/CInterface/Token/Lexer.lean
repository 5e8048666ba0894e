import CInterface.Text.Split
import CInterface.Token
/-!
# Reading tokens

A text is cut into tokens by longest match: of all lexical classes that match at the present
place the one with the longest lexeme wins, and of two equally long ones the earlier.

* `LexClass.length` — how far a class reaches, zero where it does not match.
* `nextToken` — the kind and length of the token at the head of a text.
* `tokenize` — all tokens of a text, white space skipped.
* `lexErrors` — the places where no token could be read.

A literal that is never closed is a class of its own, so that its opening part becomes one error
token and reading goes on behind it.
-/

namespace CInterface

open Text

/-! ### The lexical classes -/

/-- The number of characters at the head of a text that belong to a class. -/
def spanLength (p : Char → Bool) (cs : List Char) : Nat := (cs.takeWhile p).length

/-- The length of an integer suffix: any run of `u` and `l` in either case. -/
def integerSuffixLength (cs : List Char) : Nat :=
  spanLength (fun c => c = 'u' || c = 'U' || c = 'l' || c = 'L') cs

/-- The length of an identifier. -/
def identLength : List Char → Nat
  | [] => 0
  | c :: r => if isIdentHead c then spanLength isIdentTail r + 1 else 0

/-- The length of an integer: hexadecimal after `0x`, decimal digits otherwise. A `0x` without
digits is the integer `0`. -/
def integerLength (cs : List Char) : Nat :=
  let decimal := spanLength Char.isDigit cs
  let plain := if decimal = 0 then 0 else decimal + integerSuffixLength (cs.drop decimal)
  match cs with
  | '0' :: x :: r =>
    let digits := spanLength isHexDigit r
    if (x = 'x' || x = 'X') && digits ≠ 0 then
      2 + digits + integerSuffixLength (r.drop digits)
    else plain
  | _ => plain

/-- The length of a complete exponent, zero if there is none. -/
def exponentLength : List Char → Nat
  | [] => 0
  | e :: r =>
    if e = 'e' || e = 'E' then
      let sign := match r with
        | '+' :: _ | '-' :: _ => 1
        | _ => 0
      let digits := spanLength Char.isDigit (r.drop sign)
      if digits = 0 then 0 else 1 + sign + digits
    else 0

/-- The length of a floating suffix: at most one of `f` and `l` in either case. -/
def floatSuffixLength : List Char → Nat
  | c :: _ => if c = 'f' || c = 'F' || c = 'l' || c = 'L' then 1 else 0
  | [] => 0

/-- The length of a floating literal: digits with a point, with an exponent or with both. -/
def floatLength (cs : List Char) : Nat :=
  let whole := spanLength Char.isDigit cs
  let finish (mantissa exponent : Nat) : Nat :=
    mantissa + exponent + floatSuffixLength (cs.drop (mantissa + exponent))
  match cs.drop whole with
  | '.' :: r =>
    let digits := spanLength Char.isDigit r
    if whole = 0 && digits = 0 then 0
    else
      let mantissa := whole + 1 + digits
      finish mantissa (exponentLength (cs.drop mantissa))
  | r =>
    let exponent := exponentLength r
    if whole = 0 || exponent = 0 then 0 else finish whole exponent

/-- The number of characters at the head of a text that can stand inside a literal with the given
quote: anything but the quote, a backslash or a newline, or a backslash and what it escapes. -/
def literalItems (quote : Char) : List Char → Nat
  | [] => 0
  | [c] => if c = quote || c = '\\' || c = '\n' then 0 else 1
  | c :: d :: r =>
    if c = '\\' then if d = '\n' then 0 else 2 + literalItems quote r
    else if c = quote || c = '\n' then 0
    else 1 + literalItems quote (d :: r)

/-- The length of the opening of a literal: its quote, with an `L` before it or without. -/
def literalOpening (quote : Char) : List Char → Nat
  | c :: r =>
    if c = quote then 1
    else if c = 'L' && r.head? = some quote then 2
    else 0
  | [] => 0

/-- The length of a literal without its closing quote, if it has at least `least` characters
between the quotes. -/
def openLiteralLength (quote : Char) (least : Nat) (cs : List Char) : Nat :=
  let opening := literalOpening quote cs
  let items := literalItems quote (cs.drop opening)
  if opening = 0 || items < least then 0 else opening + items

/-- The length of a literal with its closing quote. -/
def literalLength (quote : Char) (least : Nat) (cs : List Char) : Nat :=
  let n := openLiteralLength quote least cs
  if n ≠ 0 && (cs.drop n).head? = some quote then n + 1 else 0

/-- The longest punctuator at the head of a text. -/
def punctAt? (cs : List Char) : Option Punct :=
  Punct.all.foldl (fun best p =>
    if p.text.toList.isPrefixOf cs then
      match best with
      | some q => if q.text.length < p.text.length then some p else best
      | none => some p
    else best) none

/-- The lexical classes. The last two are literals that are never closed. -/
inductive LexClass where
  | ident | integer | float | str | char | punct | openStr | openChar
  deriving DecidableEq, Repr

namespace LexClass

/-- The lexical classes, those that win a tie first. -/
def all : List LexClass := [ident, integer, float, str, char, punct, openStr, openChar]

/-- The length of the longest lexeme of the class at the head of a text, zero if there is none. -/
def length : LexClass → List Char → Nat
  | ident, cs => identLength cs
  | integer, cs => integerLength cs
  | float, cs => floatLength cs
  | str, cs => literalLength '"' 0 cs
  | char, cs => literalLength '\x27' 1 cs
  | punct, cs => match punctAt? cs with
    | some p => p.text.length
    | none => 0
  | openStr, cs => openLiteralLength '"' 0 cs
  | openChar, cs => openLiteralLength '\x27' 1 cs

/-- The token that a lexeme of the class is; `first` is its first character. -/
def kind (k : LexClass) (first : Char) (lexeme : List Char) : TokenKind :=
  match k with
  | ident => .ident (String.ofList lexeme)
  | integer => .integer (String.ofList lexeme)
  | float => .float (String.ofList lexeme)
  | str => .str (String.ofList lexeme)
  | char => .char (String.ofList lexeme)
  | punct => match punctAt? lexeme with
    | some p => .punct p
    | none => .error first
  | openStr | openChar => .error first

/-- The class with the longest lexeme at the head of a text, and the length of that lexeme. -/
def longest (cs : List Char) : LexClass × Nat :=
  all.foldl (fun best k => if best.2 < k.length cs then (k, k.length cs) else best) (ident, 0)

end LexClass

/-! ### Tokens of a text -/

/-- The token at the head of the text `c :: r` and the number of its characters beyond the first.
A character that starts no token is an error token by itself. -/
def nextToken (c : Char) (r : List Char) : TokenKind × Nat :=
  match LexClass.longest (c :: r) with
  | (_, 0) => (.error c, 0)
  | (k, n + 1) => (k.kind c (c :: r.take n), n)

/-- The tokens of a text whose first byte has the given offset. -/
def tokensFrom (offset : Nat) (cs : List Char) : List Token :=
  match cs with
  | [] => []
  | c :: r =>
    if isLexSpace c then tokensFrom (offset + c.utf8Size) r
    else
      let (kind, n) := nextToken c r
      let stop := offset + byteLength (c :: r.take n)
      ⟨kind, offset, stop⟩ :: tokensFrom stop (r.drop n)
  termination_by cs.length
  decreasing_by all_goals simp only [List.length_cons, List.length_drop]; omega

/-- The tokens of a text, in order. -/
def tokenize (text : String) : List Token := tokensFrom 0 text.toList

/-- A place where no token could be read. -/
structure LexError where
  /-- The offset of the text that is no token. -/
  offset : Nat
  /-- Its first character. -/
  first : Char
  deriving DecidableEq, Repr

/-- The text of a lexical error. -/
def LexError.message (e : LexError) : String :=
  "unexpected character '" ++ e.first.toString ++ "' at position " ++ toString e.offset

/-- The error that an error token stands for. -/
def Token.error? (t : Token) : Option LexError :=
  match t.kind with
  | .error first => some ⟨t.start, first⟩
  | _ => none

/-- The lexical errors among some tokens: one for each error token. -/
def lexErrors (tokens : List Token) : List LexError := tokens.filterMap Token.error?

end CInterface
