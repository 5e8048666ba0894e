import CInterface.Text.Split
/-!
# JSON

* `Json` — JSON documents. Numbers and strings are kept as they are written, since what they stand
  for depends on what is wanted of them.
* `Json.render` — the text of a document, without white space.
* `Json.quote`, `Json.unquote?` — a text as the inside of a string literal, and back.
* `Json.depth` — how deep arrays and objects are nested.
-/

namespace CInterface

/-- A JSON document. The literals of numbers and the insides of string literals are kept as they are
written. -/
inductive Json where
  | null
  | bool (b : Bool)
  | number (literal : List Char)
  | string (inside : List Char)
  | array (items : List Json)
  | object (members : List (List Char × Json))

namespace Json

/-! ### Strings -/

/-- A hexadecimal digit in lower case. -/
def hexDigit (n : Nat) : Char := (Nat.digitChar (n % 16))

/-- The four hexadecimal digits of a number below `2 ^ 16`. -/
def hex4 (n : Nat) : List Char :=
  [hexDigit (n / 4096), hexDigit (n / 256), hexDigit (n / 16), hexDigit n]

/-- A character inside a string literal: quotes, backslashes and control characters are escaped. -/
def quoteChar (c : Char) : List Char :=
  if c = '"' then ['\\', '"']
  else if c = '\\' then ['\\', '\\']
  else if c = '\x08' then ['\\', 'b']
  else if c = '\t' then ['\\', 't']
  else if c = '\n' then ['\\', 'n']
  else if c = '\x0c' then ['\\', 'f']
  else if c = '\r' then ['\\', 'r']
  else if c.toNat < 0x20 then '\\' :: 'u' :: hex4 c.toNat
  else [c]

/-- A text as the inside of a string literal. -/
def quote (cs : List Char) : List Char := cs.flatMap quoteChar

/-- The number that four hexadecimal digits denote. -/
def hex4? (a b c d : Char) : Option Nat := do
  return (← Text.hexValue? a) * 4096 + (← Text.hexValue? b) * 256 + (← Text.hexValue? c) * 16 +
    (← Text.hexValue? d)

/-- The character of an escape with one letter. -/
def escaped? : Char → Option Char
  | '"' => some '"'
  | '\\' => some '\\'
  | '/' => some '/'
  | 'b' => some '\x08'
  | 'f' => some '\x0c'
  | 'n' => some '\n'
  | 'r' => some '\r'
  | 't' => some '\t'
  | _ => none

/-- The first half of a surrogate pair. -/
def isHighSurrogate (n : Nat) : Bool := 0xD800 ≤ n && n ≤ 0xDBFF

/-- The second half of a surrogate pair. -/
def isLowSurrogate (n : Nat) : Bool := 0xDC00 ≤ n && n ≤ 0xDFFF

/-- The text that the inside of a string literal stands for. Half of a surrogate pair stands for
none. -/
def unquote? : List Char → Option (List Char)
  | [] => some []
  | '\\' :: 'u' :: a :: b :: c :: d :: '\\' :: 'u' :: e :: f :: g :: h :: rest => do
    let n ← hex4? a b c d
    if isHighSurrogate n then
      let m ← hex4? e f g h
      if isLowSurrogate m then
        let code := 0x10000 + (n - 0xD800) * 0x400 + (m - 0xDC00)
        return Char.ofNat code :: (← unquote? rest)
      else none
    else if isLowSurrogate n then none
    else return Char.ofNat n :: (← unquote? ('\\' :: 'u' :: e :: f :: g :: h :: rest))
  | '\\' :: 'u' :: a :: b :: c :: d :: rest => do
    let n ← hex4? a b c d
    if isHighSurrogate n || isLowSurrogate n then none
    else return Char.ofNat n :: (← unquote? rest)
  | '\\' :: c :: rest => do return (← escaped? c) :: (← unquote? rest)
  | c :: rest => do return c :: (← unquote? rest)

/-! ### Documents -/

/-- The document that is a text. -/
def ofString (s : String) : Json := string (quote s.toList)

/-- The document that is an object with some members. -/
def ofMembers (members : List (String × Json)) : Json :=
  object (members.map fun m => (quote m.1.toList, m.2))

/-- The document that is an integer. -/
def ofInt (n : Int) : Json := number (toString n).toList

/-- The document of a value that may be missing. -/
def ofOption {α : Type} (f : α → Json) : Option α → Json
  | none => null
  | some x => f x

/-- The document that is a list of texts. -/
def ofStrings (xs : List String) : Json := array (xs.map ofString)

mutual

/-- How deep arrays and objects are nested in a document. -/
def depth : Json → Nat
  | array items => depthItems items + 1
  | object members => depthMembers members + 1
  | _ => 0

/-- How deep arrays and objects are nested in the deepest of some items. -/
def depthItems : List Json → Nat
  | [] => 0
  | j :: rest => max (depth j) (depthItems rest)

/-- How deep arrays and objects are nested in the deepest of some members. -/
def depthMembers : List (List Char × Json) → Nat
  | [] => 0
  | (_, j) :: rest => max (depth j) (depthMembers rest)

end

mutual

/-- The text of a document. -/
def render : Json → List Char
  | null => "null".toList
  | bool true => "true".toList
  | bool false => "false".toList
  | number literal => literal
  | string inside => '"' :: inside ++ ['"']
  | array items => '[' :: renderItems items ++ [']']
  | object members => '{' :: renderMembers members ++ ['}']

/-- The texts of items with commas between them. -/
def renderItems : List Json → List Char
  | [] => []
  | [j] => render j
  | j :: k :: rest => render j ++ ',' :: renderItems (k :: rest)

/-- The texts of members with commas between them. -/
def renderMembers : List (List Char × Json) → List Char
  | [] => []
  | [(key, j)] => '"' :: key ++ '"' :: ':' :: render j
  | (key, j) :: m :: rest => '"' :: key ++ '"' :: ':' :: render j ++ ',' :: renderMembers (m :: rest)

end

end Json

end CInterface
