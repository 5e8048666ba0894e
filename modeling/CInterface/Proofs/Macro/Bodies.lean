import CInterface.Proofs.Macro.Brackets
import CInterface.Macro
/-!
# Fully parenthesised bodies

The replacement of a macro is its body, for a function macro with arguments in the places of the
parameters. Where the body is one pair of parentheses, so is the replacement.

* `fullyParenthesised` — the body begins with a parenthesis, and its last character closes it.
* `literalsClosed` — no literal of the body is cut off by a newline.
* `Template.fill_compile` — a filled template is the text with its parameters replaced.
* `Wrapped` — a matched text that ends with a parenthesis.
* `wrapped_body`, `wrapped_substitute` — replacements are wrapped.
-/

namespace CInterface

open Text

/-! ### Bodies -/

/-- The parenthesis that closes the text before the segments, in which `depth` more are open, is the
last segment. -/
def closesLast (depth : Nat) : List Segment → Bool
  | [] => false
  | s :: rest =>
    if s = ⟨.other, ['(']⟩ then closesLast (depth + 1) rest
    else if s = ⟨.other, [')']⟩ then
      if depth = 0 then rest.isEmpty else closesLast (depth - 1) rest
    else closesLast depth rest

/-- The body begins with a parenthesis, and the one that closes it, outside literals, is the last
character. -/
def fullyParenthesised (body : List Char) : Bool :=
  match segments body with
  | [] => false
  | s :: rest => s = ⟨.other, ['(']⟩ && closesLast 0 rest

/-- The segment is no literal, or one that ends with its quote: a space behind it does not belong to
it. -/
def Segment.closed (s : Segment) : Bool :=
  match s.kind, s.text with
  | .quoted, q :: r => quotedTail q (r ++ [' ']) = r.length
  | _, _ => true

/-- No literal of the body is cut off by a newline. -/
def literalsClosed (body : List Char) : Bool := (segments body).all Segment.closed

/-! ### Segments of a body -/

/-- A segment that is no parenthesis. -/
def Segment.isParen (s : Segment) : Bool := s = ⟨.other, ['(']⟩ || s = ⟨.other, [')']⟩

theorem walk_of_quotedTail_eq {q : Quote} {r : List Char}
    (h : quotedTail q.char (r ++ [' ']) = r.length) (d : Nat) :
    walk (.literal q, d) r = some (.outside, d) := by
  rcases quotedTail_cases q (r ++ [' ']) with ⟨hw, -⟩ | ⟨he, -⟩ | ⟨hn, -⟩
  · rw [h, List.take_left] at hw
    exact hw d
  · rw [h, List.drop_left] at he
    exact absurd he (by simp)
  · rw [h, List.drop_left] at hn
    exact absurd hn (by decide)

/-- The closed segments of a text are matched, but for parentheses. -/
theorem matched_of_mem_segments {cs : List Char} {s : Segment} (hs : s ∈ segments cs)
    (hc : s.closed = true) (hp : s.isParen = false) : Matched s.text := by
  fun_induction segments cs with
  | case1 => simp at hs
  | case2 c r kind n hn ih =>
    rcases List.mem_cons.1 hs with rfl | hs
    · by_cases hq : kind = .quoted
      · subst hq
        obtain ⟨q, rfl, -, hw⟩ := exists_quote (c := c) (r := r) (by rw [hn])
        have hr : quotedTail q.char (r.take n ++ [' ']) = (r.take n).length := by
          simpa [Segment.closed] using hc
        intro d
        rw [hw]
        exact walk_of_quotedTail_eq hr d
      · obtain rfl : (nextSegment c r).2 = n := by rw [hn]
        have ho : c ≠ '(' := by
          rintro rfl
          rw [nextSegment_opening] at hn hp
          obtain ⟨rfl, -⟩ := Prod.mk.inj hn
          exact absurd hp (by simp [Segment.isParen])
        have hcl : c ≠ ')' := by
          rintro rfl
          rw [nextSegment_closing] at hn hp
          obtain ⟨rfl, -⟩ := Prod.mk.inj hn
          exact absurd hp (by simp [Segment.isParen])
        exact matched_of_plain (plain_of_nextSegment (by rwa [hn]) ho hcl)
    · exact ih hs

theorem flatten_segments (cs : List Char) : (segments cs).flatMap Segment.text = cs := by
  fun_induction segments cs with
  | case1 => rfl
  | case2 c r kind n hn ih =>
    rw [List.flatMap_cons, ih, List.cons_append, List.take_append_drop]

/-! ### Replacing the words of a body -/

/-- A matched text that ends with a parenthesis. -/
structure Wrapped (u : List Char) : Prop where
  matched : Matched u
  last : u.getLast? = some ')'

/-- Where words are replaced by matched texts, the parenthesis at the end still closes the one at the
beginning. -/
theorem walk_flatMap {segs : List Segment} {f : Segment → List Char} {depth : Nat}
    (hl : closesLast depth segs = true)
    (hp : ∀ s ∈ segs, s.isParen = true → f s = s.text)
    (hm : ∀ s ∈ segs, s.isParen = false → Matched (f s)) :
    (∀ d, walk (.outside, d + depth + 1) (segs.flatMap f) = some (.outside, d)) ∧
      (segs.flatMap f).getLast? = some ')' := by
  induction segs generalizing depth with
  | nil => simp [closesLast] at hl
  | cons s segs ih =>
    have ih' := fun {depth} (h : closesLast depth segs = true) =>
      ih h (fun x hx => hp x (List.mem_cons_of_mem _ hx)) fun x hx =>
        hm x (List.mem_cons_of_mem _ hx)
    have hlast : ∀ u : List Char, (segs.flatMap f).getLast? = some ')' →
        (u ++ segs.flatMap f).getLast? = some ')' := by
      intro u hu
      rw [List.getLast?_append, hu]
      rfl
    rw [closesLast] at hl
    rw [List.flatMap_cons]
    split_ifs at hl with ho hc hd
    · obtain ⟨hw, hu⟩ := ih' hl
      rw [hp s List.mem_cons_self (by rw [ho]; rfl), ho]
      exact ⟨fun d => hw d, hlast _ hu⟩
    · rw [hp s List.mem_cons_self (by rw [hc]; rfl), hc, hd, List.isEmpty_iff.1 hl]
      exact ⟨fun d => rfl, rfl⟩
    · obtain ⟨hw, hu⟩ := ih' hl
      obtain ⟨k, rfl⟩ : ∃ k, depth = k + 1 := ⟨depth - 1, by omega⟩
      rw [hp s List.mem_cons_self (by rw [hc]; rfl), hc]
      exact ⟨fun d => hw d, hlast _ hu⟩
    · obtain ⟨hw, hu⟩ := ih' hl
      have hs : Matched (f s) := hm s List.mem_cons_self (by simp [Segment.isParen, ho, hc])
      exact ⟨fun d => (hs.walk_append _ _).trans (hw d), hlast _ hu⟩

theorem wrapped_flatMap {body : List Char} {f : Segment → List Char}
    (hb : fullyParenthesised body = true)
    (hp : ∀ s ∈ segments body, s.isParen = true → f s = s.text)
    (hm : ∀ s ∈ segments body, s.isParen = false → Matched (f s)) :
    Wrapped ((segments body).flatMap f) := by
  unfold fullyParenthesised at hb
  split at hb
  · simp at hb
  · rename_i s rest hs
    simp only [Bool.and_eq_true, decide_eq_true_eq] at hb
    obtain ⟨rfl, hl⟩ := hb
    rw [hs] at hp hm ⊢
    obtain ⟨hw, hu⟩ := walk_flatMap hl (fun s h => hp s (List.mem_cons_of_mem _ h))
      fun s h => hm s (List.mem_cons_of_mem _ h)
    rw [List.flatMap_cons, hp _ List.mem_cons_self rfl]
    refine ⟨fun d => hw d, ?_⟩
    rw [List.getLast?_append, hu]
    rfl

theorem wrapped_body {body : List Char} (hb : fullyParenthesised body = true)
    (hc : literalsClosed body = true) : Wrapped body := by
  have hw := wrapped_flatMap (f := Segment.text) hb (fun _ _ _ => rfl)
    fun s hs hp => matched_of_mem_segments hs (List.all_eq_true.1 hc s hs) hp
  rwa [flatten_segments] at hw

/-! ### Templates -/

namespace Template

/-- What a segment becomes: a word that is a parameter its argument, anything else itself. -/
def instantiate (params args : List String) (s : Segment) : List Char :=
  match if s.kind = .ident then slot? params (String.ofList s.text) else none with
  | some i => (args[i]?.getD "").toList
  | none => s.text

theorem instantiate_paren {params args : List String} {s : Segment} (h : s.isParen = true) :
    instantiate params args s = s.text := by
  simp only [Segment.isParen, Bool.or_eq_true, decide_eq_true_eq] at h
  rcases h with rfl | rfl <;> rfl

theorem pieces_ne_nil (params : List String) (piece : List Char) (segs : List Segment) :
    (cut params piece segs).pieces ≠ [] := by
  induction segs generalizing piece with
  | nil => simp [cut]
  | cons s segs ih =>
    rw [cut]
    split
    · simp
    · exact ih _

/-- The first piece and its argument stand before what the rest of the template becomes. -/
theorem fill_cons_of_some {t : Template} {arg : String} {slot : Nat} {args : List String}
    (ht : t.pieces ≠ []) (ha : args[slot]? = some arg) (piece : String) :
    fill ⟨piece :: t.pieces, slot :: t.slots⟩ args = (t.fill args).map (piece ++ arg ++ ·) := by
  obtain ⟨p, ps, hps⟩ := List.exists_cons_of_ne_nil ht
  have hlast : (piece :: t.pieces).getLast? = t.pieces.getLast? := by
    rw [hps, List.getLast?_cons_cons]
  unfold fill
  rw [fillSlots, hlast, ha]
  cases fillSlots args t.pieces t.slots with
  | error e => rfl
  | ok filled => simp [bind, Except.bind, Except.map, pure, Except.pure, String.append_assoc]

theorem fill_cons {t : Template} {piece : String} {slot : Nat} {args : List String} {text : String}
    (ht : t.pieces ≠ []) (h : fill ⟨piece :: t.pieces, slot :: t.slots⟩ args = .ok text) :
    ∃ arg rest, args[slot]? = some arg ∧ fill t args = .ok rest ∧ text = piece ++ arg ++ rest := by
  cases ha : args[slot]? with
  | none =>
    unfold fill at h
    rw [fillSlots, ha] at h
    exact absurd h (by simp [bind, Except.bind])
  | some arg =>
    rw [fill_cons_of_some ht ha] at h
    cases hf : fill t args with
    | error e =>
      rw [hf] at h
      cases h
    | ok rest =>
      rw [hf] at h
      exact ⟨arg, rest, rfl, rfl, (Except.ok.inj h).symm⟩

/-- Filling the template of a text replaces its parameters. -/
theorem fill_cut {params args : List String} {piece : List Char} {segs : List Segment}
    {text : String} (h : (cut params piece segs).fill args = .ok text) :
    text.toList = piece ++ segs.flatMap (instantiate params args) := by
  induction segs generalizing piece text with
  | nil =>
    rw [← Except.ok.inj h]
    simp [cut]
  | cons s segs ih =>
    rw [cut] at h
    rw [List.flatMap_cons, instantiate]
    dsimp only at h
    cases hs : (if s.kind = .ident then slot? params (String.ofList s.text) else none) with
    | some i =>
      rw [hs] at h
      obtain ⟨arg, rest, ha, hf, rfl⟩ := fill_cons (pieces_ne_nil _ _ _) h
      simp [ih hf, ha]
    | none =>
      rw [hs] at h
      rw [ih h, List.append_assoc]

theorem fill_compile {params args : List String} {content text : String}
    (h : (compile params content).fill args = .ok text) :
    text.toList = (segments content.toList).flatMap (instantiate params args) := fill_cut h

end Template

/-! ### Arguments -/

namespace FnMacro

theorem matched_dropBlank {n : Nat} {args : List String} (h : ∀ a ∈ args, Matched a.toList) :
    ∀ a ∈ dropBlank n args, Matched a.toList := by
  unfold dropBlank
  split
  · split
    · simp
    · exact h
  · exact h

theorem matched_intercalate {args : List (List Char)} (h : ∀ a ∈ args, Matched a) :
    Matched ([',', ' '].intercalate args) := by
  have hs : Matched [',', ' '] := fun _ => rfl
  induction args with
  | nil => exact Matched.nil
  | cons a args ih =>
    have ha := h a List.mem_cons_self
    have hr := ih fun x hx => h x (List.mem_cons_of_mem _ hx)
    cases args with
    | nil => simpa using ha
    | cons b args =>
      rw [List.intercalate_cons_cons]
      exact (ha.append hs).append hr

/-- The arguments that a macro takes from a call are matched with those of the call. -/
theorem matched_bind {m : FnMacro} {args bound : List String} (h : m.bind args = .ok bound)
    (ha : ∀ a ∈ args, Matched a.toList) : ∀ a ∈ bound, Matched a.toList := by
  have hd := matched_dropBlank (n := m.params.length) ha
  unfold bind at h
  dsimp only at h
  split_ifs at h with hv hlt hne
  · obtain rfl := Except.ok.inj h
    intro a hmem
    rcases List.mem_append.1 hmem with hmem | hmem
    · exact hd a (List.mem_of_mem_take hmem)
    · rw [List.mem_singleton.1 hmem, String.toList_intercalate]
      refine matched_intercalate fun u hu => ?_
      simp only [List.mem_map] at hu
      obtain ⟨_, ⟨a, hin, rfl⟩, rfl⟩ := hu
      rw [String.toList_ofList]
      exact (hd a (List.mem_of_mem_drop hin)).trim
  · obtain rfl := Except.ok.inj h
    exact hd

/-- The replacement of a call with matched arguments is wrapped. -/
theorem wrapped_substitute {m : FnMacro} {args : List String} {text : String}
    (hm : m.template = .compile m.params m.content)
    (hb : fullyParenthesised m.content.toList = true)
    (hc : literalsClosed m.content.toList = true)
    (ha : ∀ a ∈ args, Matched a.toList) (h : m.substitute args = .ok text) :
    Wrapped text.toList := by
  unfold substitute at h
  cases hbound : m.bind args with
  | error e =>
    rw [hbound] at h
    exact absurd h (by simp [Bind.bind, Except.bind])
  | ok bound =>
    rw [hbound] at h
    have hmem := matched_bind hbound ha
    rw [Template.fill_compile (by rw [← hm]; exact h)]
    refine wrapped_flatMap hb (fun s hs hp => Template.instantiate_paren hp) fun s hs hp => ?_
    unfold Template.instantiate
    split
    · rename_i i hi
      cases hg : bound[i]? with
      | none => exact Matched.nil
      | some a => exact hmem a (List.mem_of_getElem? hg)
    · exact matched_of_mem_segments hs (List.all_eq_true.1 hc s hs) hp

end FnMacro

end CInterface
