import CInterface.Text.Class
/-!
# Trimming, splitting and searching texts

Texts are lists of characters; `String` stands at the surface of the library and is unpacked
where a text is read.

* `trimStart`, `trimEnd`, `trim` — without the blanks at an end.
* `words` — the maximal runs without blanks.
* `splitAt` — the pieces between the occurrences of one character.
* `afterHead?` — what follows a given beginning.
* `lines` — the lines of a text as an editor shows them.
* `byteLength` — the length of a text in UTF-8, the unit of every offset.
-/

namespace CInterface.Text

/-- The number of bytes of a text in UTF-8. -/
def byteLength : List Char → Nat
  | [] => 0
  | c :: r => c.utf8Size + byteLength r

@[simp] theorem byteLength_nil : byteLength [] = 0 := rfl

@[simp] theorem byteLength_cons (c : Char) (cs : List Char) :
    byteLength (c :: cs) = c.utf8Size + byteLength cs := rfl

@[simp] theorem byteLength_append (a b : List Char) :
    byteLength (a ++ b) = byteLength a + byteLength b := by
  induction a with
  | nil => simp
  | cons c r ih => simp [ih, Nat.add_assoc]

/-- The characters of a text from the byte offset `start` to the byte offset `stop`. -/
def slice (start stop : Nat) : List Char → List Char
  | [] => []
  | c :: r =>
    if stop = 0 then []
    else if start = 0 then c :: slice 0 (stop - c.utf8Size) r
    else slice (start - c.utf8Size) (stop - c.utf8Size) r

/-! ### Trimming -/

/-- Without the blanks at the start. -/
def trimStart (cs : List Char) : List Char := cs.dropWhile isBlank

/-- Without the characters of a class at the end. -/
def dropEndWhile (p : Char → Bool) (cs : List Char) : List Char :=
  (cs.reverse.dropWhile p).reverse

/-- Without the blanks at the end. -/
def trimEnd (cs : List Char) : List Char := dropEndWhile isBlank cs

/-- Without the blanks at either end. -/
def trim (cs : List Char) : List Char := trimEnd (trimStart cs)

/-! ### Splitting -/

/-- What follows `head` in a text that begins with it. -/
def afterHead? (head : List Char) (cs : List Char) : Option (List Char) :=
  if head.isPrefixOf cs then some (cs.drop head.length) else none

/-- The pieces of a text between the occurrences of `sep`: one more than there are occurrences. -/
def splitAt (sep : Char) : List Char → List (List Char)
  | [] => [[]]
  | c :: r =>
    if c = sep then [] :: splitAt sep r
    else match splitAt sep r with
      | [] => [[c]]
      | p :: ps => (c :: p) :: ps

/-- The pieces joined by `sep`. -/
def joinWith (sep : List Char) (pieces : List (List Char)) : List Char := sep.intercalate pieces

/-- Collects the maximal runs without blanks; `run` is the present one, reversed. -/
def wordsFrom (run : List Char) : List Char → List (List Char)
  | [] => if run.isEmpty then [] else [run.reverse]
  | c :: r =>
    if isBlank c then
      if run.isEmpty then wordsFrom [] r else run.reverse :: wordsFrom [] r
    else wordsFrom (c :: run) r

/-- The maximal runs of a text without blanks. -/
def words (cs : List Char) : List (List Char) := wordsFrom [] cs

/-- Without one carriage return at the end. -/
def dropReturn (cs : List Char) : List Char :=
  if cs.getLast? = some '\r' then cs.dropLast else cs

/-- The lines of a text: a newline ends a line, one carriage return before it belongs to the
ending, and nothing after the last newline is no line. -/
def lines (cs : List Char) : List (List Char) :=
  let pieces := splitAt '\n' cs
  let closed := pieces.dropLast.map dropReturn
  match pieces.getLast? with
  | none | some [] => closed
  | some last => closed ++ [last]

/-! ### Searching -/

/-- The part of a text before the first occurrence of `needle` and the part after it. -/
def cut? (needle : List Char) : List Char → Option (List Char × List Char)
  | [] => if needle.isEmpty then some ([], []) else none
  | c :: r =>
    match afterHead? needle (c :: r) with
    | some rest => some ([], rest)
    | none => (cut? needle r).map fun p => (c :: p.1, p.2)

/-- A cut loses nothing but the needle. -/
theorem cut?_eq_append {needle cs before after : List Char}
    (h : cut? needle cs = some (before, after)) : before ++ needle ++ after = cs := by
  induction cs generalizing before with
  | nil =>
    simp only [cut?] at h
    split at h <;> simp_all
  | cons c r ih =>
    simp only [cut?, afterHead?] at h
    split at h
    · rename_i rest hr
      split at hr
      · rename_i hp
        obtain ⟨rfl, rfl⟩ := Prod.mk.inj (Option.some.inj h)
        rw [← Option.some.inj hr, List.nil_append]
        exact List.prefix_iff_eq_append.1 (List.isPrefixOf_iff_prefix.1 hp)
      · simp at hr
    · obtain ⟨⟨b, a⟩, hp, he⟩ := Option.map_eq_some_iff.1 h
      obtain ⟨rfl, rfl⟩ := Prod.mk.inj he
      rw [List.cons_append, List.cons_append, ih hp]

/-- What stands behind the first occurrence of a text is shorter than the whole by at least that
text. -/
theorem length_of_cut? {needle cs before after : List Char}
    (h : cut? needle cs = some (before, after)) : needle.length + after.length ≤ cs.length := by
  rw [← cut?_eq_append h, List.length_append, List.length_append]
  omega

/-- The byte offsets of the occurrences of a non-empty `needle`, none overlapping an earlier one;
`skip` characters still belong to the last of them. -/
def occurrencesFrom (needle : List Char) (offset skip : Nat) : List Char → List Nat
  | [] => []
  | c :: r =>
    match skip with
    | skip + 1 => occurrencesFrom needle (offset + c.utf8Size) skip r
    | 0 =>
      if needle.isPrefixOf (c :: r) then
        offset :: occurrencesFrom needle (offset + c.utf8Size) (needle.length - 1) r
      else occurrencesFrom needle (offset + c.utf8Size) 0 r

/-- The byte offset before each character of a text, and after the last. -/
def boundaries (offset : Nat) : List Char → List Nat
  | [] => [offset]
  | c :: r => offset :: boundaries (offset + c.utf8Size) r

/-- The byte offsets at which `needle` occurs, from left to right and without overlaps. The empty
needle occurs between any two characters and at both ends. -/
def occurrences (needle cs : List Char) : List Nat :=
  if needle.isEmpty then boundaries 0 cs else occurrencesFrom needle 0 0 cs

end CInterface.Text
