/-!
# Tokens

The tokens of C text.

* `Punct` — the punctuators, each with its one spelling `Punct.text`.
* `TokenKind` — a word, a literal, a punctuator or a character that starts none of them.
* `Token` — a kind and the bytes it was read from.

Keywords are words here: which words a grammar reserves is the grammar's business.
-/

namespace CInterface

/-- The punctuators of C. -/
inductive Punct where
  | lparen | rparen | lbracket | rbracket | lbrace | rbrace
  | semi | comma | colon | question | dot | ellipsis | arrow | hash | hashHash
  | assign | plus | minus | star | slash | percent | plusPlus | minusMinus
  | shl | shr | lt | ltEq | gt | gtEq | eqEq | notEq
  | amp | ampAmp | pipe | pipePipe | caret | tilde | bang
  | plusAssign | minusAssign | starAssign | slashAssign | percentAssign
  | ampAssign | pipeAssign | caretAssign | shlAssign | shrAssign
  deriving DecidableEq, Repr

namespace Punct

/-- The spelling of a punctuator. -/
def text : Punct → String
  | lparen => "(" | rparen => ")" | lbracket => "[" | rbracket => "]"
  | lbrace => "\x7b" | rbrace => "\x7d"
  | semi => ";" | comma => "," | colon => ":" | question => "?"
  | dot => "." | ellipsis => "..." | arrow => "->" | hash => "#" | hashHash => "##"
  | assign => "=" | plus => "+" | minus => "-" | star => "*" | slash => "/" | percent => "%"
  | plusPlus => "++" | minusMinus => "--"
  | shl => "<<" | shr => ">>" | lt => "<" | ltEq => "<=" | gt => ">" | gtEq => ">="
  | eqEq => "==" | notEq => "!="
  | amp => "&" | ampAmp => "&&" | pipe => "|" | pipePipe => "||" | caret => "^"
  | tilde => "~" | bang => "!"
  | plusAssign => "+=" | minusAssign => "-=" | starAssign => "*=" | slashAssign => "/="
  | percentAssign => "%=" | ampAssign => "&=" | pipeAssign => "|=" | caretAssign => "^="
  | shlAssign => "<<=" | shrAssign => ">>="

/-- Every punctuator. -/
def all : List Punct :=
  [lparen, rparen, lbracket, rbracket, lbrace, rbrace,
   semi, comma, colon, question, dot, ellipsis, arrow, hash, hashHash,
   assign, plus, minus, star, slash, percent, plusPlus, minusMinus,
   shl, shr, lt, ltEq, gt, gtEq, eqEq, notEq,
   amp, ampAmp, pipe, pipePipe, caret, tilde, bang,
   plusAssign, minusAssign, starAssign, slashAssign, percentAssign,
   ampAssign, pipeAssign, caretAssign, shlAssign, shrAssign]

/-- No punctuator is missing from `all`. -/
theorem mem_all (p : Punct) : p ∈ all := by cases p <;> decide

/-- A punctuator that opens a bracketed group. -/
def isOpen : Punct → Bool
  | lparen | lbracket | lbrace => true
  | _ => false

/-- A punctuator that closes a bracketed group. -/
def isClose : Punct → Bool
  | rparen | rbracket | rbrace => true
  | _ => false

end Punct

/-- What a token is. Words and literals keep their spelling. -/
inductive TokenKind where
  | ident (name : String)
  | integer (text : String)
  | float (text : String)
  | str (text : String)
  | char (text : String)
  | punct (p : Punct)
  /-- A text that is no token; `first` is its first character. -/
  | error (first : Char)
  deriving DecidableEq, Repr

namespace TokenKind

/-- The spelling of a token. -/
def text : TokenKind → String
  | ident t | integer t | float t | str t | char t => t
  | punct p => p.text
  | error _ => "<error>"

/-- The token opens a bracketed group. -/
def isOpen : TokenKind → Bool
  | punct p => p.isOpen
  | _ => false

/-- The token closes a bracketed group. -/
def isClose : TokenKind → Bool
  | punct p => p.isClose
  | _ => false

end TokenKind

/-- A token and where it stands: its first byte and the byte after its last. -/
structure Token where
  kind : TokenKind
  start : Nat
  stop : Nat
  deriving DecidableEq, Repr

end CInterface
