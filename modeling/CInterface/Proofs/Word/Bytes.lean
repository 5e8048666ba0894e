import CInterface.Proofs.Macro.Boundaries
/-!
# Words of a text byte by byte

The word scanner may as well run on the bytes of a text in UTF-8: what it looks for is ASCII, and
no byte of any other character is an ASCII character. A backslash in a literal then takes one byte
along, which may be the first of several; the later ones are passed like any other character.

* `byteSpansFrom` — the scanner on bytes.
* `Encodes` — the bytes of a character.
* `quotedTailBytes_utf8Bytes`, `numberTailBytes_utf8Bytes` — literals and numbers end where they do
  in the text.
* `byteSpansFrom_utf8Bytes` — the bytes of a text have the segments of the text.
-/

namespace CInterface

open Text

/-! ### Bytes of a text -/

/-- The bytes of a text in UTF-8. -/
def utf8Bytes (cs : List Char) : List UInt8 := cs.flatMap String.utf8EncodeChar

/-- The byte is an ASCII character of the class `p`. -/
def isByteOf (p : Char → Bool) (b : UInt8) : Bool := b < 0x80 && p (Char.ofUInt8 b)

/-- The number of bytes of a character, by its first. -/
def utf8Width (b : UInt8) : Nat :=
  if b < 0x80 then 1 else if b < 0xE0 then 2 else if b < 0xF0 then 3 else 4

theorem length_utf8Bytes (cs : List Char) : (utf8Bytes cs).length = byteLength cs := by
  induction cs with
  | nil => rfl
  | cons c r ih =>
    rw [utf8Bytes, List.flatMap_cons, List.length_append, String.length_utf8EncodeChar,
      byteLength_cons]
    exact congrArg _ ih

/-- A class of ASCII characters. -/
def AsciiClass (p : Char → Bool) : Prop := ∀ c, p c = true → c.toNat < 0x80

/-- A character is written as the byte `b` and the bytes `bs`. Its length and its classes are those
of the first byte, and the others are of no class. -/
structure Encodes (c : Char) (b : UInt8) (bs : List UInt8) : Prop where
  bytes : String.utf8EncodeChar c = b :: bs
  width : utf8Width b = bs.length + 1
  head : ∀ {p}, AsciiClass p → isByteOf p b = p c
  tail : ∀ p, ∀ x ∈ bs, isByteOf p x = false
  ascii : c.toNat < 0x80 → bs = [] ∧ Char.ofUInt8 b = c

theorem isByteOf_of_le {b : UInt8} (h : 128 ≤ b.toNat) (p : Char → Bool) :
    isByteOf p b = false := by
  have hb : ¬ b < 0x80 := by
    rw [UInt8.lt_iff_toNat_lt]
    exact Nat.not_lt.2 h
  rw [isByteOf, decide_eq_false hb, Bool.false_and]

/-- No byte of a character beyond ASCII is an ASCII character. -/
theorem utf8EncodeChar_of_le {c : Char} (h : 0x80 ≤ c.toNat) :
    ∃ b bs, String.utf8EncodeChar c = b :: bs ∧ utf8Width b = bs.length + 1 ∧ 128 ≤ b.toNat ∧
      ∀ x ∈ bs, 128 ≤ x.toNat := by
  have hv : c.toNat < 1114112 := by
    rcases c.valid with h | h
    · exact Nat.lt_trans h (by decide)
    · exact h.2
  unfold String.utf8EncodeChar utf8Width
  change 128 ≤ c.val.toNat at h
  change c.val.toNat < 1114112 at hv
  dsimp only
  generalize c.val.toNat = v at *
  split_ifs with h1 h2 h3
  · omega
  all_goals
    refine ⟨_, _, rfl, ?_, ?_⟩
    · simp only [UInt8.lt_iff_toNat_lt, UInt8.toNat_ofNat', UInt8.reduceToNat, List.length_cons,
        List.length_nil]
      split_ifs <;> omega
    · simp
      omega

theorem exists_encodes (c : Char) : ∃ b bs, Encodes c b bs := by
  by_cases hascii : c.toNat < 0x80
  · have hone : String.utf8EncodeChar c = [UInt8.ofNat c.toNat] := by
      rw [String.utf8EncodeChar]
      exact if_pos (Nat.le_of_lt_succ hascii)
    have hb : UInt8.ofNat c.toNat < 0x80 := by
      rw [UInt8.lt_iff_toNat_lt, UInt8.toNat_ofNat']
      exact Nat.lt_of_le_of_lt (Nat.mod_le _ _) hascii
    have hchar : Char.ofUInt8 (UInt8.ofNat c.toNat) = c := by
      rw [← Char.toNat_inj]
      show (UInt8.ofNat c.toNat).toUInt32.toNat = c.toNat
      rw [UInt8.toNat_toUInt32, UInt8.toNat_ofNat']
      exact Nat.mod_eq_of_lt (Nat.lt_trans hascii (by decide))
    refine ⟨_, _, hone, ?_, fun _ => ?_, fun _ x hx => (by cases hx), fun _ => ⟨rfl, hchar⟩⟩
    · rw [utf8Width, if_pos hb]
      rfl
    · rw [isByteOf, decide_eq_true hb, Bool.true_and, hchar]
  · obtain ⟨b, bs, hbytes, hwidth, hb, hbs⟩ := utf8EncodeChar_of_le (Nat.le_of_not_lt hascii)
    refine ⟨b, bs, hbytes, hwidth, fun {p} hp => ?_, fun p x hx => isByteOf_of_le (hbs x hx) p,
      fun h => absurd h hascii⟩
    rw [isByteOf_of_le hb, Bool.eq_false_iff.2 fun hc => hascii (hp c hc)]

/-! ### The scanner on bytes -/

/-- The number of bytes of a literal behind its opening quote. A backslash takes the next byte
along, whatever character that belongs to. -/
def quotedTailBytes (quote : Char) : List UInt8 → Nat
  | [] => 0
  | [b] => if isByteOf (· = '\n') b then 0 else 1
  | b :: d :: r =>
    if isByteOf (· = '\\') b then 2 + quotedTailBytes quote r
    else if isByteOf (· = '\n') b then 0
    else if isByteOf (· = quote) b then 1
    else 1 + quotedTailBytes quote (d :: r)

/-- The number of bytes of a number behind the byte `before`. -/
def numberTailBytes (hex : Bool) (before : UInt8) : List UInt8 → Nat
  | [] => 0
  | b :: r =>
    let signed := isByteOf (fun c => c = '+' || c = '-') b && !hex &&
      isByteOf (fun c => c = 'e' || c = 'E') before
    if isByteOf (fun c => isWordTail c || c = '.') b || signed then 1 + numberTailBytes hex b r
    else 0

/-- A number starts with a digit, or with a point before one. -/
def startsNumberBytes (b : UInt8) (r : List UInt8) : Bool :=
  isByteOf Char.isDigit b || (isByteOf (· = '.') b && r.head?.any (isByteOf Char.isDigit))

/-- A hexadecimal number starts with `0x`. -/
def startsHexBytes (b : UInt8) (r : List UInt8) : Bool :=
  isByteOf (· = '0') b && r.head?.any (isByteOf fun x => x = 'x' || x = 'X')

/-- The kind of the segment at the head of the bytes `b :: r` and the number of its bytes beyond the
first. -/
def nextSegmentBytes (b : UInt8) (r : List UInt8) : SegmentKind × Nat :=
  if isByteOf (fun c => c = '"' || c = '\x27') b then
    (.quoted, quotedTailBytes (Char.ofUInt8 b) r)
  else if isByteOf isWordHead b then (.ident, (r.takeWhile (isByteOf isWordTail)).length)
  else if startsNumberBytes b r then (.number, numberTailBytes (startsHexBytes b r) b r)
  else if isByteOf isWordSpace b then (.other, (r.takeWhile (isByteOf isWordSpace)).length)
  else (.other, utf8Width b - 1)

/-- The segments of some bytes as kinds and byte ranges, where the first byte stands at `offset`. -/
def byteSpansFrom (offset : Nat) (bytes : List UInt8) : List (SegmentKind × Nat × Nat) :=
  match bytes with
  | [] => []
  | b :: r =>
    let (kind, n) := nextSegmentBytes b r
    (kind, offset, offset + 1 + n) :: byteSpansFrom (offset + 1 + n) (r.drop n)
  termination_by bytes.length
  decreasing_by simp only [List.length_cons, List.length_drop]; omega

/-! ### Runs of a class -/

variable {c d : Char} {b : UInt8} {bs : List UInt8} {p : Char → Bool}

theorem utf8Bytes_cons (h : Encodes c b bs) (r : List Char) :
    utf8Bytes (c :: r) = b :: (bs ++ utf8Bytes r) := by
  rw [utf8Bytes, List.flatMap_cons, h.bytes]
  rfl

theorem Encodes.size (h : Encodes c b bs) : c.utf8Size = bs.length + 1 := by
  rw [← String.length_utf8EncodeChar, h.bytes, List.length_cons]

/-- A character of an ASCII class is one byte. -/
theorem Encodes.eq_nil (h : Encodes c b bs) (hp : AsciiClass p) (hc : p c = true) : bs = [] :=
  (h.ascii (hp c hc)).1

theorem length_takeWhile_utf8Bytes (hp : AsciiClass p) (r : List Char) :
    ((utf8Bytes r).takeWhile (isByteOf p)).length = byteLength (r.takeWhile p) := by
  induction r with
  | nil => rfl
  | cons c r ih =>
    obtain ⟨b, bs, hb⟩ := exists_encodes c
    rw [utf8Bytes_cons hb, List.takeWhile_cons, List.takeWhile_cons, hb.head hp]
    cases hc : p c with
    | false => rfl
    | true =>
      rw [if_pos rfl, if_pos rfl, hb.eq_nil hp hc, List.nil_append, List.length_cons, ih,
        byteLength_cons, hb.size, hb.eq_nil hp hc, List.length_nil]
      omega

theorem head?_utf8Bytes (hp : AsciiClass p) (r : List Char) :
    (utf8Bytes r).head?.any (isByteOf p) = r.head?.any p := by
  cases r with
  | nil => rfl
  | cons c r =>
    obtain ⟨b, bs, hb⟩ := exists_encodes c
    rw [utf8Bytes_cons hb, List.head?_cons, List.head?_cons, Option.any_some, Option.any_some,
      hb.head hp]

/-! ### Classes -/

theorem asciiClass_eq {d : Char} (hd : d.toNat < 0x80) : AsciiClass (· = d) := fun c hc => by
  rwa [of_decide_eq_true hc]

theorem AsciiClass.or {q : Char → Bool} (hp : AsciiClass p) (hq : AsciiClass q) :
    AsciiClass fun c => p c || q c := fun c hc => (Bool.or_eq_true _ _ ▸ hc).elim (hp c) (hq c)

theorem asciiClass_isWordTail : AsciiClass isWordTail := by
  intro c hc
  unfold isWordTail Char.isAlphanum Char.isAlpha Char.isUpper Char.isLower Char.isDigit at hc
  simp only [Bool.or_eq_true, Bool.and_eq_true, decide_eq_true_eq, UInt32.le_iff_toNat_le,
    ge_iff_le] at hc
  change c.val.toNat < 128
  rcases hc with ((h | h) | h) | rfl
  · exact Nat.lt_of_le_of_lt h.2 (by decide)
  · exact Nat.lt_of_le_of_lt h.2 (by decide)
  · exact Nat.lt_of_le_of_lt h.2 (by decide)
  · decide

theorem asciiClass_isWordHead : AsciiClass isWordHead := fun c hc =>
  asciiClass_isWordTail c (isWordTail_of_isWordHead hc)

theorem asciiClass_isDigit : AsciiClass Char.isDigit := fun c hc =>
  asciiClass_isWordTail c (isWordTail_of_isDigit hc)

theorem asciiClass_isWordSpace : AsciiClass isWordSpace :=
  ((((asciiClass_eq (by decide)).or (asciiClass_eq (by decide))).or (asciiClass_eq (by decide))).or
    (asciiClass_eq (by decide))).or (asciiClass_eq (by decide))

/-! ### Literals -/

section Literals

variable {quote : Char} {l : List UInt8}

theorem quotedTailBytes_plain (hslash : isByteOf (· = '\\') b = false)
    (hnewline : isByteOf (· = '\n') b = false) (hquote : isByteOf (· = quote) b = false) :
    quotedTailBytes quote (b :: l) = 1 + quotedTailBytes quote l := by
  cases l <;> simp [quotedTailBytes, hslash, hnewline, hquote]

/-- The later bytes of a character are passed. -/
theorem quotedTailBytes_tail (h : ∀ p, ∀ x ∈ bs, isByteOf p x = false) :
    quotedTailBytes quote (bs ++ l) = bs.length + quotedTailBytes quote l := by
  induction bs with
  | nil => rw [List.nil_append, List.length_nil, Nat.zero_add]
  | cons b bs ih =>
    rw [List.cons_append, quotedTailBytes_plain (h _ b List.mem_cons_self)
      (h _ b List.mem_cons_self) (h _ b List.mem_cons_self),
      ih fun p x hx => h p x (List.mem_cons_of_mem b hx), List.length_cons]
    omega

theorem Encodes.head_eq (h : Encodes c b bs) (hd : d.toNat < 0x80) :
    isByteOf (· = d) b = decide (c = d) := h.head (asciiClass_eq hd)

/-- The bytes of a literal are those of its characters: a backslash that takes the first byte of a
character along is followed by the later ones, which are none of the characters looked for. -/
theorem quotedTailBytes_utf8Bytes (hquote : quote.toNat < 0x80) (r : List Char) :
    quotedTailBytes quote (utf8Bytes r) = byteLength (r.take (quotedTail quote r)) := by
  have hslash : ('\\').toNat < 0x80 := by decide
  have hnewline : ('\n').toNat < 0x80 := by decide
  fun_induction quotedTail quote r with
  | case1 => rfl
  | case2 => rfl
  | case3 c hc =>
    obtain ⟨b, bs, hb⟩ := exists_encodes c
    have hb' : isByteOf (· = '\n') b = false := by rw [hb.head_eq hnewline, decide_eq_false hc]
    rw [utf8Bytes_cons hb, List.take_succ_cons, byteLength_cons, hb.size]
    by_cases hascii : c.toNat < 0x80
    · rw [(hb.ascii hascii).1]
      simp [quotedTailBytes, hb', utf8Bytes]
    · have hother : ∀ d : Char, d.toNat < 0x80 → isByteOf (· = d) b = false := by
        intro d hd
        rw [hb.head_eq hd, decide_eq_false fun h : c = d => hascii (h ▸ hd)]
      rw [quotedTailBytes_plain (hother _ hslash) hb' (hother _ hquote),
        quotedTailBytes_tail hb.tail]
      simp [quotedTailBytes, utf8Bytes]
      omega
  | case4 d r ih =>
    obtain ⟨b, bs, hb⟩ := exists_encodes '\\'
    obtain ⟨e, es, he⟩ := exists_encodes d
    rw [utf8Bytes_cons hb, (hb.ascii hslash).1, List.nil_append, utf8Bytes_cons he, quotedTailBytes,
      if_pos (by rw [hb.head_eq hslash]; rfl), quotedTailBytes_tail he.tail, ih,
      Nat.add_comm 2 (quotedTail quote r),
      List.take_succ_cons, List.take_succ_cons, byteLength_cons, byteLength_cons, hb.size, he.size,
      (hb.ascii hslash).1, List.length_nil]
    omega
  | case5 d r hc =>
    obtain ⟨b, bs, hb⟩ := exists_encodes '\n'
    obtain ⟨e, es, he⟩ := exists_encodes d
    rw [utf8Bytes_cons hb, (hb.ascii hnewline).1, List.nil_append, utf8Bytes_cons he,
      quotedTailBytes, if_neg (by rw [hb.head_eq hslash]; decide),
      if_pos (by rw [hb.head_eq hnewline]; rfl)]
    rfl
  | case6 d r hc hn =>
    obtain ⟨b, bs, hb⟩ := exists_encodes quote
    obtain ⟨e, es, he⟩ := exists_encodes d
    rw [utf8Bytes_cons hb, (hb.ascii hquote).1, List.nil_append, utf8Bytes_cons he, quotedTailBytes,
      if_neg (by rw [hb.head_eq hslash, decide_eq_false hc]; decide),
      if_neg (by rw [hb.head_eq hnewline, decide_eq_false hn]; decide),
      if_pos (by rw [hb.head_eq hquote]; exact decide_eq_true rfl), List.take_succ_cons,
      byteLength_cons, hb.size, (hb.ascii hquote).1]
    rfl
  | case7 c d r hc hn hq ih =>
    obtain ⟨b, bs, hb⟩ := exists_encodes c
    rw [utf8Bytes_cons hb, quotedTailBytes_plain (by rw [hb.head_eq hslash, decide_eq_false hc])
      (by rw [hb.head_eq hnewline, decide_eq_false hn])
      (by rw [hb.head_eq hquote, decide_eq_false hq]), quotedTailBytes_tail hb.tail, ih,
      Nat.add_comm 1 (quotedTail _ _), List.take_succ_cons, byteLength_cons, hb.size]
    omega

end Literals

/-! ### Numbers -/

theorem asciiClass_number : AsciiClass fun c => isWordTail c || c = '.' :=
  asciiClass_isWordTail.or (asciiClass_eq (by decide))

theorem numberTailBytes_utf8Bytes {hex : Bool} (hb : Encodes c b bs) (r : List Char) :
    numberTailBytes hex b (utf8Bytes r) = byteLength (r.take (numberTail hex c r)) := by
  have hsign : AsciiClass fun c => c = '+' || c = '-' :=
    (asciiClass_eq (by decide)).or (asciiClass_eq (by decide))
  have hexp : AsciiClass fun c => c = 'e' || c = 'E' :=
    (asciiClass_eq (by decide)).or (asciiClass_eq (by decide))
  induction r generalizing c b bs with
  | nil => rfl
  | cons d r ih =>
    obtain ⟨e, es, he⟩ := exists_encodes d
    rw [utf8Bytes_cons he, numberTailBytes, numberTail, he.head asciiClass_number, he.head hsign,
      hb.head hexp]
    split
    · rename_i hd
      have hascii : d.toNat < 0x80 := by
        rw [Bool.or_eq_true, Bool.and_eq_true, Bool.and_eq_true] at hd
        exact hd.elim (asciiClass_number d) fun h => hsign d h.1.1
      rw [(he.ascii hascii).1, List.nil_append, ih he, Nat.add_comm 1 (numberTail _ _ _),
        List.take_succ_cons, byteLength_cons, he.size, (he.ascii hascii).1]
      rfl
    · rfl

/-! ### Segments -/

theorem startsNumberBytes_utf8Bytes (hb : Encodes c b bs) (r : List Char) :
    startsNumberBytes b (bs ++ utf8Bytes r) = startsNumber c r := by
  have hpoint : ('.').toNat < 0x80 := by decide
  rw [startsNumberBytes, startsNumber, hb.head asciiClass_isDigit, hb.head_eq hpoint]
  by_cases hc : c = '.'
  · subst hc
    rw [(hb.ascii hpoint).1, List.nil_append, head?_utf8Bytes asciiClass_isDigit]
  · rw [decide_eq_false hc, Bool.false_and, Bool.false_and]

theorem startsHexBytes_utf8Bytes (hb : Encodes c b bs) (r : List Char) :
    startsHexBytes b (bs ++ utf8Bytes r) = startsHex c r := by
  have hzero : ('0').toNat < 0x80 := by decide
  rw [startsHexBytes, startsHex, hb.head_eq hzero]
  by_cases hc : c = '0'
  · subst hc
    rw [(hb.ascii hzero).1, List.nil_append,
      head?_utf8Bytes ((asciiClass_eq (by decide)).or (asciiClass_eq (by decide)))]
  · rw [decide_eq_false hc, Bool.false_and, Bool.false_and]

/-- The segment at the head of the bytes of a text is the segment at the head of the text. -/
theorem nextSegmentBytes_utf8Bytes (hb : Encodes c b bs) (r : List Char) :
    nextSegmentBytes b (bs ++ utf8Bytes r) = ((nextSegment c r).1,
      bs.length + byteLength (r.take (nextSegment c r).2)) := by
  have hdouble : ('"').toNat < 0x80 := by decide
  have hsingle : ('\x27').toNat < 0x80 := by decide
  have hrun : ∀ {q : Char → Bool}, AsciiClass q → q c = true →
      ((bs ++ utf8Bytes r).takeWhile (isByteOf q)).length =
        bs.length + byteLength (r.take (r.takeWhile q).length) := by
    intro q hq hc
    rw [hb.eq_nil hq hc, List.nil_append, length_takeWhile_utf8Bytes hq, List.length_nil,
      Nat.zero_add, ← List.prefix_iff_eq_take.1 (List.takeWhile_prefix q)]
  rw [nextSegmentBytes, nextSegment, hb.head ((asciiClass_eq hdouble).or (asciiClass_eq hsingle)),
    hb.head asciiClass_isWordHead, startsNumberBytes_utf8Bytes hb, startsHexBytes_utf8Bytes hb,
    hb.head asciiClass_isWordSpace]
  split_ifs with hquote hhead hnumber hspace
  · have hascii : c.toNat < 0x80 := (asciiClass_eq hdouble).or (asciiClass_eq hsingle) c hquote
    rw [(hb.ascii hascii).1, (hb.ascii hascii).2, List.nil_append, quotedTailBytes_utf8Bytes hascii,
      List.length_nil, Nat.zero_add]
  · rw [hrun asciiClass_isWordTail (isWordTail_of_isWordHead hhead)]
  · have hascii : c.toNat < 0x80 := by
      rw [startsNumber, Bool.or_eq_true, Bool.and_eq_true] at hnumber
      exact hnumber.elim (asciiClass_isDigit c) fun h => asciiClass_eq (by decide) c h.1
    rw [(hb.ascii hascii).1, List.nil_append, numberTailBytes_utf8Bytes hb, List.length_nil,
      Nat.zero_add]
  · rw [hrun asciiClass_isWordSpace hspace]
  · rw [hb.width]
    simp

/-- **The scanner may run on bytes.** -/
theorem byteSpansFrom_utf8Bytes (offset : Nat) (cs : List Char) :
    byteSpansFrom offset (utf8Bytes cs) = segmentSpansFrom offset (segments cs) := by
  fun_induction segments cs generalizing offset with
  | case1 => rw [utf8Bytes, List.flatMap_nil, byteSpansFrom, segmentSpansFrom]
  | case2 c r kind n hn ih =>
    obtain ⟨b, bs, hb⟩ := exists_encodes c
    have hsplit : bs ++ utf8Bytes r = (bs ++ utf8Bytes (r.take n)) ++ utf8Bytes (r.drop n) := by
      rw [List.append_assoc, utf8Bytes, utf8Bytes, utf8Bytes, ← List.flatMap_append,
        List.take_append_drop]
    have hlength : (bs ++ utf8Bytes (r.take n)).length = bs.length + byteLength (r.take n) := by
      rw [List.length_append, length_utf8Bytes]
    have hstop : offset + byteLength (c :: r.take n) =
        offset + 1 + (bs.length + byteLength (r.take n)) := by
      rw [byteLength_cons, hb.size]
      omega
    rw [utf8Bytes_cons hb, byteSpansFrom, nextSegmentBytes_utf8Bytes hb, hn, segmentSpansFrom]
    dsimp only
    rw [hstop, hsplit, List.drop_left' hlength, ih]

end CInterface
