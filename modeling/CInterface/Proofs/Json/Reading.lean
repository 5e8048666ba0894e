import CInterface.Json.Shape
import CInterface.Proofs.Json.Literals
/-!
# JSON text is read as the document that was written

* `Json.Readable` — documents whose strings and numbers are written as literals.
* `Json.value_render` — such a document at the head of a text is found, and the text behind it.
* `Json.parse?_text` — the text of such a document is read as the document.

The reader gets two steps for each character, and takes at most two for the start of each document
inside another.
-/

namespace CInterface.Json

open Text

/-- The literal is a number: it starts like one, and reaches up to what ends it. -/
structure IsNumber (literal : List Char) : Prop where
  head : ∃ c w, literal = c :: w ∧ (c.isDigit = true ∨ c = '-')
  length : ∀ r, Ends r → numberLength? (literal ++ r) = some literal.length

/-- The strings of the document are quoted texts, and its numbers are literals. -/
inductive Readable : Json → Prop where
  | null : Readable null
  | bool (b : Bool) : Readable (bool b)
  | number {literal : List Char} (h : IsNumber literal) : Readable (number literal)
  | string (cs : List Char) : Readable (string (quote cs))
  | array {items : List Json} (h : ∀ j ∈ items, Readable j) : Readable (array items)
  | object {members : List (List Char × Json)} (hkeys : ∀ m ∈ members, ∃ cs, m.1 = quote cs)
      (h : ∀ m ∈ members, Readable m.2) : Readable (object members)

variable {j : Json}

/-! ### The head of a document -/

/-- A document starts neither with white space nor with a closing bracket. -/
theorem Readable.exists_head (hj : Readable j) :
    ∃ c w, render j = c :: w ∧ isSpace c = false ∧ c ≠ ']' := by
  cases hj with
  | null => exact ⟨'n', _, rfl, by decide, by decide⟩
  | bool b => cases b <;> exact ⟨_, _, rfl, by decide, by decide⟩
  | number h =>
    obtain ⟨c, w, rfl, hc⟩ := h.head
    refine ⟨c, w, rfl, ?_⟩
    cases hc with
    | inl hdigit =>
      have hspace : ∀ d : Char, d.isDigit = false → c ≠ d := fun d hd => ne_of_class hdigit hd
      refine ⟨?_, hspace ']' (by decide)⟩
      simp [isSpace, hspace ' ' (by decide), hspace '\n' (by decide), hspace '\t' (by decide),
        hspace '\r' (by decide)]
    | inr hminus =>
      subst hminus
      exact ⟨by decide, by decide⟩
  | string cs => exact ⟨'"', _, rfl, by decide, by decide⟩
  | array h => exact ⟨'[', _, rfl, by decide, by decide⟩
  | object hkeys h => exact ⟨'{', _, rfl, by decide, by decide⟩

theorem Readable.length_pos (hj : Readable j) : 0 < (render j).length := by
  obtain ⟨c, w, hw, _⟩ := hj.exists_head
  rw [hw]
  exact Nat.succ_pos _

theorem skipSpace_cons {c : Char} (h : isSpace c = false) (w : List Char) :
    skipSpace (c :: w) = c :: w :=
  List.dropWhile_cons_of_neg (by rw [h]; exact Bool.false_ne_true)

theorem ends_comma (r : List Char) : Ends (',' :: r) := rfl

theorem ends_bracket (r : List Char) : Ends (']' :: r) := rfl

theorem ends_brace (r : List Char) : Ends ('}' :: r) := rfl

/-! ### Documents by their kind -/

theorem value_number {literal r : List Char} (h : IsNumber literal) (hr : Ends r) (fuel : Nat) :
    value (fuel + 1) (literal ++ r) = some (number literal, r) := by
  obtain ⟨c, w, hliteral, hc⟩ := h.head
  have hne : ∀ d : Char, d.isDigit = false → d ≠ '-' → c ≠ d := by
    intro d hd hminus
    cases hc with
    | inl hdigit => exact ne_of_class hdigit hd
    | inr hc' => rw [hc']; exact hminus.symm
  have hskip : skipSpace (literal ++ r) = literal ++ r := by
    obtain ⟨d, v, hd, hspace, _⟩ := (Readable.number h).exists_head
    have hd' : literal = d :: v := hd
    rw [hd']
    exact skipSpace_cons hspace _
  have hhead : ∀ (d : Char) (v : List Char), d.isDigit = false → d ≠ '-' →
      literal ++ r ≠ d :: v := by
    intro d v hd hminus heq
    rw [hliteral] at heq
    injection heq with hcd
    exact hne d hd hminus hcd
  rw [value, hskip]
  split
  · rename_i heq
    exact absurd heq (hhead 'n' _ (by decide) (by decide))
  · rename_i heq
    exact absurd heq (hhead 't' _ (by decide) (by decide))
  · rename_i heq
    exact absurd heq (hhead 'f' _ (by decide) (by decide))
  · rename_i heq
    exact absurd heq (hhead '"' _ (by decide) (by decide))
  · rename_i heq
    exact absurd heq (hhead '[' _ (by decide) (by decide))
  · rename_i heq
    exact absurd heq (hhead '{' _ (by decide) (by decide))
  · rw [h.length r hr]
    show some (number ((literal ++ r).take literal.length), (literal ++ r).drop literal.length) = _
    rw [List.take_left, List.drop_left]

/-- What is known of the reading of a document, whatever follows it. -/
def Found (j : Json) : Prop :=
  ∀ (fuel : Nat) (r : List Char), 2 * (render j).length ≤ fuel → Ends r →
    value fuel (render j ++ r) = some (j, r)

theorem items_render {js : List Json} (hne : js ≠ []) (hfound : ∀ j ∈ js, Found j)
    {fuel : Nat} (hfuel : 2 * (renderItems js).length + 1 ≤ fuel) (r : List Char) :
    items fuel (renderItems js ++ ']' :: r) = some (js, r) := by
  induction js generalizing fuel with
  | nil => exact absurd rfl hne
  | cons j js ih =>
    obtain ⟨n, rfl⟩ : ∃ n, fuel = n + 1 := ⟨fuel - 1, by omega⟩
    have hj := hfound j List.mem_cons_self
    cases js with
    | nil =>
      show items (n + 1) (render j ++ ']' :: r) = some ([j], r)
      have hvalue := hj n (']' :: r) (by rw [renderItems] at hfuel; omega) (ends_bracket r)
      rw [items, hvalue]
      rfl
    | cons k js =>
      have hlength : (renderItems (j :: k :: js)).length =
          (render j).length + 1 + (renderItems (k :: js)).length := by
        rw [renderItems, List.length_append, List.length_cons]
        omega
      have hvalue := hj n (',' :: (renderItems (k :: js) ++ ']' :: r)) (by omega) (ends_comma _)
      have hrest : 2 * (renderItems (k :: js)).length + 1 ≤ n := by omega
      have hmore := ih (List.cons_ne_nil k js) (fun i hi => hfound i (List.mem_cons_of_mem _ hi))
        hrest
      rw [renderItems, List.append_assoc]
      show items (n + 1) (render j ++ ',' :: (renderItems (k :: js) ++ ']' :: r)) = _
      rw [items, hvalue]
      show (items n (renderItems (k :: js) ++ ']' :: r)).bind _ = _
      rw [hmore]
      rfl

theorem members_render {ms : List (List Char × Json)} (hne : ms ≠ [])
    (hkeys : ∀ m ∈ ms, ∃ cs, m.1 = quote cs) (hfound : ∀ m ∈ ms, Found m.2) {fuel : Nat}
    (hfuel : 2 * (renderMembers ms).length + 1 ≤ fuel) (r : List Char) :
    members fuel (renderMembers ms ++ '}' :: r) = some (ms, r) := by
  induction ms generalizing fuel with
  | nil => exact absurd rfl hne
  | cons m ms ih =>
    obtain ⟨key, j⟩ := m
    obtain ⟨n, rfl⟩ : ∃ n, fuel = n + 1 := ⟨fuel - 1, by omega⟩
    obtain ⟨cs, hcs⟩ := hkeys (key, j) List.mem_cons_self
    obtain rfl : key = quote cs := hcs
    have hj : Found j := hfound (quote cs, j) List.mem_cons_self
    -- the key and its colon are read alike, whether the value is the last one or not
    have hlast : ∀ v : List Char, value n v = some (j, '}' :: r) →
        members (n + 1) ('"' :: (quote cs ++ '"' :: ':' :: v)) = some ([(quote cs, j)], r) := by
      intro v hv
      rw [members, skipSpace_cons (by decide)]
      show (stringLiteral? (quote cs ++ '"' :: ':' :: v)).bind _ = _
      rw [stringLiteral?_quote]
      simp only [Option.bind_some, skipSpace_cons (c := ':') (by decide)]
      show (value n v).bind _ = _
      rw [hv]
      rfl
    have hnext : ∀ (v r' : List Char), value n v = some (j, ',' :: r') →
        members (n + 1) ('"' :: (quote cs ++ '"' :: ':' :: v)) =
          (members n r').map fun found => ((quote cs, j) :: found.1, found.2) := by
      intro v r' hv
      rw [members, skipSpace_cons (by decide)]
      show (stringLiteral? (quote cs ++ '"' :: ':' :: v)).bind _ = _
      rw [stringLiteral?_quote]
      simp only [Option.bind_some, skipSpace_cons (c := ':') (by decide)]
      show (value n v).bind _ = _
      rw [hv]
      show (members n r').bind _ = _
      cases members n r' <;> rfl
    cases ms with
    | nil =>
      have hlength : (renderMembers [(quote cs, j)]).length =
          (quote cs).length + (render j).length + 3 := by
        simp only [renderMembers, List.cons_append, List.length_cons, List.length_append]
        omega
      have hvalue := hj n ('}' :: r) (by omega) (ends_brace r)
      have htext : renderMembers [(quote cs, j)] ++ '}' :: r =
          '"' :: (quote cs ++ '"' :: ':' :: (render j ++ '}' :: r)) := by
        simp only [renderMembers, List.cons_append, List.append_assoc]
      rw [htext]
      exact hlast _ hvalue
    | cons m ms =>
      have hlength : (renderMembers ((quote cs, j) :: m :: ms)).length =
          (quote cs).length + (render j).length + 4 + (renderMembers (m :: ms)).length := by
        simp only [renderMembers, List.cons_append, List.length_cons, List.length_append]
        omega
      have hvalue := hj n (',' :: (renderMembers (m :: ms) ++ '}' :: r)) (by omega) (ends_comma _)
      have hrest : 2 * (renderMembers (m :: ms)).length + 1 ≤ n := by omega
      have hmore := ih (List.cons_ne_nil m ms) (fun e he => hkeys e (List.mem_cons_of_mem _ he))
        (fun e he => hfound e (List.mem_cons_of_mem _ he)) hrest
      have htext : renderMembers ((quote cs, j) :: m :: ms) ++ '}' :: r =
          '"' :: (quote cs ++ '"' :: ':' ::
            (render j ++ ',' :: (renderMembers (m :: ms) ++ '}' :: r))) := by
        simp only [renderMembers, List.cons_append, List.append_assoc]
      rw [htext, hnext _ _ hvalue, hmore]
      rfl

/-! ### Documents -/

/-- **A document is found at the head of a text as it was written.** -/
theorem value_render (hj : Readable j) : Found j := by
  induction hj with
  | null =>
    intro fuel r hfuel _
    have hpos := Readable.null.length_pos
    obtain ⟨n, rfl⟩ : ∃ n, fuel = n + 1 := ⟨fuel - 1, by omega⟩
    rfl
  | bool b =>
    intro fuel r hfuel _
    have hpos := (Readable.bool b).length_pos
    obtain ⟨n, rfl⟩ : ∃ n, fuel = n + 1 := ⟨fuel - 1, by omega⟩
    cases b <;> rfl
  | @number literal h =>
    intro fuel r hfuel hr
    have hpos := (Readable.number h).length_pos
    obtain ⟨n, rfl⟩ : ∃ n, fuel = n + 1 := ⟨fuel - 1, by omega⟩
    exact value_number h hr n
  | string cs =>
    intro fuel r hfuel _
    have hpos := (Readable.string cs).length_pos
    obtain ⟨n, rfl⟩ : ∃ n, fuel = n + 1 := ⟨fuel - 1, by omega⟩
    have htext : render (Json.string (quote cs)) ++ r = '"' :: (quote cs ++ '"' :: r) := by
      simp only [render, List.cons_append, List.append_assoc, List.nil_append]
    rw [htext, value, skipSpace_cons (by decide)]
    show (stringLiteral? (quote cs ++ '"' :: r)).map _ = _
    rw [stringLiteral?_quote]
    rfl
  | @array js h ih =>
    intro fuel r hfuel _
    have htext : render (Json.array js) ++ r = '[' :: (renderItems js ++ ']' :: r) := by
      simp only [render, List.cons_append, List.append_assoc, List.nil_append]
    have hlength : (render (Json.array js)).length = (renderItems js).length + 2 := by
      simp only [render, List.cons_append, List.length_cons, List.length_append, List.length_nil]
    obtain ⟨n, rfl⟩ : ∃ n, fuel = n + 1 := ⟨fuel - 1, by omega⟩
    rw [htext, value, skipSpace_cons (by decide)]
    cases js with
    | nil => rfl
    | cons j js =>
      have hfuel' : 2 * (renderItems (j :: js)).length + 1 ≤ n := by omega
      have hitems := items_render (List.cons_ne_nil j js) ih hfuel' r
      obtain ⟨c, w, hhead, hspace, hclose⟩ : ∃ c w, renderItems (j :: js) = c :: w ∧
          isSpace c = false ∧ c ≠ ']' := by
        obtain ⟨c, w, hw, hc⟩ := (h j List.mem_cons_self).exists_head
        cases js with
        | nil => exact ⟨c, w, by rw [renderItems, hw], hc⟩
        | cons k js => exact ⟨c, _, by rw [renderItems, hw]; rfl, hc⟩
      rw [hhead, List.cons_append] at hitems
      rw [hhead, List.cons_append]
      simp only [skipSpace_cons hspace]
      split
      · rename_i heq
        injection heq with hc
        exact absurd hc hclose
      · rw [hitems]
        rfl
  | @object ms hkeys h ih =>
    intro fuel r hfuel _
    have htext : render (Json.object ms) ++ r = '{' :: (renderMembers ms ++ '}' :: r) := by
      simp only [render, List.cons_append, List.append_assoc, List.nil_append]
    have hlength : (render (Json.object ms)).length = (renderMembers ms).length + 2 := by
      simp only [render, List.cons_append, List.length_cons, List.length_append, List.length_nil]
    obtain ⟨n, rfl⟩ : ∃ n, fuel = n + 1 := ⟨fuel - 1, by omega⟩
    rw [htext, value, skipSpace_cons (by decide)]
    cases ms with
    | nil => rfl
    | cons m ms =>
      have hfuel' : 2 * (renderMembers (m :: ms)).length + 1 ≤ n := by omega
      have hmembers := members_render (List.cons_ne_nil m ms) hkeys ih hfuel' r
      obtain ⟨w, hhead⟩ : ∃ w, renderMembers (m :: ms) = '"' :: w := by
        cases ms with
        | nil => exact ⟨_, rfl⟩
        | cons e ms => exact ⟨_, rfl⟩
      rw [hhead, List.cons_append] at hmembers
      rw [hhead, List.cons_append]
      simp only [skipSpace_cons (c := '"') (by decide)]
      show (members n ('"' :: (w ++ '}' :: r))).map _ = _
      rw [hmembers]
      rfl

/-- **The text of a document is read as the document.** -/
theorem parse?_text (hj : Readable j) : parse? j.text = some j := by
  have htext : j.text.toList = render j := String.toList_ofList
  have hvalue := value_render hj (2 * ((render j).length + 1)) [] (by omega) rfl
  rw [List.append_nil] at hvalue
  rw [parse?]
  simp only [htext, hvalue]
  rfl

end CInterface.Json
