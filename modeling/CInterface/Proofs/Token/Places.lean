import CInterface.Token.Lexer
/-!
# Where tokens stand

Each token of a text begins at one of its characters and ends behind it, and the tokens stand one
behind the other, so from the first byte of a token to the last byte of a later one there is always
some text.

* `Text.slice_append` — a part of a text that lies behind another text.
* `mem_tokensFrom`, `pairwise_tokensFrom` — the places of the tokens of a text.
* `slice_ne_nil` — the text between two tokens is not empty.
-/

namespace CInterface

open Text

/-! ### Parts of texts -/

namespace Text

/-- Bytes are counted from the beginning, so a text in front moves them all. -/
theorem slice_append (pre cs : List Char) (start stop : Nat) :
    slice (byteLength pre + start) (byteLength pre + stop) (pre ++ cs) = slice start stop cs := by
  induction pre with
  | nil => simp
  | cons c pre ih =>
    have hc := c.utf8Size_pos
    have hstart : c.utf8Size + byteLength pre + start - c.utf8Size = byteLength pre + start := by
      omega
    have hstop : c.utf8Size + byteLength pre + stop - c.utf8Size = byteLength pre + stop := by
      omega
    rw [byteLength_cons, List.cons_append, slice, if_neg (by omega), if_neg (by omega), hstart,
      hstop, ih]

/-- A part that begins at a character holds it. -/
theorem slice_cons_of_pos (c : Char) (cs : List Char) {stop : Nat} (h : 0 < stop) :
    slice 0 stop (c :: cs) = c :: slice 0 (stop - c.utf8Size) cs := by
  rw [slice, if_neg (by omega), if_pos rfl]

end Text

/-! ### Places of tokens -/

/-- A token begins at a character of the text and ends behind it. -/
theorem mem_tokensFrom {offset : Nat} {cs : List Char} {t : Token} (h : t ∈ tokensFrom offset cs) :
    ∃ pre c post, cs = pre ++ c :: post ∧ t.start = offset + byteLength pre ∧ t.start < t.stop := by
  fun_induction tokensFrom offset cs with
  | case1 => cases h
  | case2 offset c r _ ih =>
    obtain ⟨pre, d, post, rfl, hstart, hlt⟩ := ih h
    refine ⟨c :: pre, d, post, rfl, ?_, hlt⟩
    rw [hstart, byteLength_cons, Nat.add_assoc]
  | case3 offset c r _ kind n hnext stop ih =>
    have hc := c.utf8Size_pos
    rcases List.mem_cons.1 h with rfl | h
    · refine ⟨[], c, r, rfl, rfl, ?_⟩
      show offset < offset + byteLength (c :: r.take n)
      rw [byteLength_cons]
      omega
    · obtain ⟨pre, d, post, hdrop, hstart, hlt⟩ := ih h
      refine ⟨c :: r.take n ++ pre, d, post, ?_, ?_, hlt⟩
      · rw [List.append_assoc, ← hdrop, List.cons_append, List.take_append_drop]
      · rw [hstart, byteLength_append, ← Nat.add_assoc]

theorem offset_le_start {offset : Nat} {cs : List Char} {t : Token}
    (h : t ∈ tokensFrom offset cs) : offset ≤ t.start := by
  obtain ⟨pre, c, post, -, hstart, -⟩ := mem_tokensFrom h
  omega

/-- Tokens stand one behind the other. -/
theorem pairwise_tokensFrom (offset : Nat) (cs : List Char) :
    (tokensFrom offset cs).Pairwise fun a b => a.stop ≤ b.start := by
  fun_induction tokensFrom offset cs with
  | case1 => exact .nil
  | case2 offset c r _ ih => exact ih
  | case3 offset c r _ kind n hnext stop ih =>
    exact .cons (fun t ht => offset_le_start ht) ih

/-- From the first byte of a token to the last byte of the same or a later one there is some text. -/
theorem slice_ne_nil {text : String} {ts : List Token} (h : ts <:+: tokenize text) {a b : Token}
    (ha : ts.head? = some a) (hb : ts.getLast? = some b) :
    slice a.start b.stop text.toList ≠ [] := by
  obtain ⟨ts, rfl⟩ := List.head?_eq_some_iff.1 ha
  have hmem : ∀ t ∈ a :: ts, t ∈ tokenize text := fun t ht => h.subset ht
  obtain ⟨pre, c, post, htext, hstart, hlt⟩ := mem_tokensFrom (hmem a List.mem_cons_self)
  have hstop : a.start < b.stop := by
    cases hts : ts.getLast? with
    | none =>
      obtain rfl : ts = [] := List.getLast?_eq_none_iff.1 hts
      cases hb
      exact hlt
    | some b' =>
      obtain rfl : b' = b := by
        rw [List.getLast?_cons, hts] at hb
        exact Option.some.inj hb
      have hb' : b' ∈ ts := List.mem_of_getLast? hts
      have horder := (List.pairwise_cons.1 ((pairwise_tokensFrom 0 _).sublist h.sublist)).1 b' hb'
      obtain ⟨-, -, -, -, -, hlt'⟩ := mem_tokensFrom (hmem b' (List.mem_cons_of_mem _ hb'))
      omega
  rw [Nat.zero_add] at hstart
  obtain ⟨n, hn⟩ : ∃ n, b.stop = byteLength pre + (n + 1) :=
    ⟨b.stop - byteLength pre - 1, by omega⟩
  have hslice := slice_append pre (c :: post) 0 (n + 1)
  rw [htext, hstart, hn]
  rw [Nat.add_zero] at hslice
  rw [hslice, slice_cons_of_pos c post (Nat.succ_pos n)]
  exact List.cons_ne_nil _ _

end CInterface
