import CInterface.Proofs.CType.Legal
/-!
# The tokens of a written type

`CType.render` builds a text, and reading begins with tokens. Here the same recursion builds the
tokens, and the text is shown to spell them.

* `CType.wrapKinds` — the tokens of a type around what it declares, as `CType.wrap` is the text.
* `spells_wrap` — the text of a legal type spells its tokens.

The text of a declarator may stand directly behind a star or an ampersand. That makes no other token
as long as no ampersand comes first behind an ampersand, and none does where there is no reference
to a reference.
-/

namespace CInterface

open Text

/-! ### Tokens -/

/-- The tokens of an array bound. -/
def boundKinds : Option UInt64 → List TokenKind
  | some n => [.punct .lbracket, .integer (toString n.toNat), .punct .rbracket]
  | none => [.punct .lbracket, .punct .rbracket]

/-- The tokens of what is declared, with parentheses if a pointer stands at its head. -/
def encloseKinds (indirect : Bool) (inner : List TokenKind) : List TokenKind :=
  if indirect then .punct .lparen :: (inner ++ [.punct .rparen]) else inner

mutual

/-- The tokens of a type around those of what it declares. -/
def CType.wrapKinds (inner : List TokenKind) (indirect : Bool) : CType → List TokenKind
  | .base name quals => quals.map .ident ++ kindsOf name.toList ++ inner
  | .pointer t quals => t.wrapKinds (.punct .star :: (quals.map .ident ++ inner)) true
  | .reference t quals => t.wrapKinds (.punct .amp :: (quals.map .ident ++ inner)) true
  | .array t size _ => t.wrapKinds (encloseKinds indirect inner ++ boundKinds size) false
  | .function t params variadic quals =>
    let declared := encloseKinds indirect (quals.map .ident ++ inner)
    t.wrapKinds (declared ++ .punct .lparen :: (paramKinds variadic params ++ [.punct .rparen])) false

/-- The tokens between the parentheses of a parameter list. -/
def paramKinds (variadic : Bool) : List Param → List TokenKind
  | [] => if variadic then [.punct .ellipsis] else []
  | ⟨name, type, _⟩ :: rest =>
    type.wrapKinds (name.toList.map .ident) false ++
      if rest.isEmpty && !variadic then [] else .punct .comma :: paramKinds variadic rest

end

/-! ### Spelling of the parts -/

namespace Punct

theorem endsBefore_of_forall {p : Punct} {c : Char} (hdot : p ≠ .dot)
    (h : ∀ q : Punct, q ≠ p → p.text.toList.isPrefixOf q.text.toList = true →
      c ∉ q.text.toList.tail) : p.endsBefore c = true := by
  have hdot' : decide (p = .dot) = false := decide_eq_false hdot
  simp only [endsBefore, hdot', Bool.false_and, Bool.not_false, Bool.and_true]
  refine List.all_eq_true.2 fun q _ => ?_
  rw [Bool.not_eq_true', Bool.eq_false_iff]
  intro hprefix
  obtain ⟨u, hu⟩ := List.isPrefixOf_iff_prefix.1 hprefix
  rw [List.append_assoc] at hu
  refine h q ?_ (List.isPrefixOf_iff_prefix.2 ⟨[c] ++ u, hu⟩) ?_
  · rintro rfl
    simpa using congrArg List.length hu
  · obtain ⟨a, w, hp, -⟩ := p.toList_text
    rw [← hu, hp]
    simp

/-- The brackets, the comma and the semicolon: no other punctuator begins with one of them. -/
def separators : List Punct := [lparen, rparen, lbracket, rbracket, lbrace, rbrace, comma, semi]

/-- A bracket, a comma or a semicolon is a token by itself, whatever follows. -/
theorem bracket_endsBefore {p : Punct} (hp : p ∈ separators) (c : Char) :
    p.endsBefore c = true := by
  have hdot : p ≠ .dot := by
    rintro rfl
    exact absurd hp (by decide)
  have halone : ∀ q : Punct, p.text.toList.isPrefixOf q.text.toList = true → q = p := by
    simp only [separators, List.mem_cons, List.not_mem_nil, or_false] at hp
    rcases hp with rfl | rfl | rfl | rfl | rfl | rfl | rfl | rfl <;> intro q <;> cases q <;> decide
  exact endsBefore_of_forall hdot fun q hne hprefix => absurd (halone q hprefix) hne

theorem eq_of_isPrefixOf_star {q : Punct} (h : star.text.toList.isPrefixOf q.text.toList = true) :
    q = star ∨ q = starAssign := by
  revert h
  cases q <;> decide

theorem eq_of_isPrefixOf_amp {q : Punct} (h : amp.text.toList.isPrefixOf q.text.toList = true) :
    q = amp ∨ q = ampAmp ∨ q = ampAssign := by
  revert h
  cases q <;> decide

/-- Behind a star or an ampersand a word, a star or a bracket begins a token of its own, and behind
a star an ampersand does too. -/
theorem mark_endsBefore {mark : Punct} (hmark : mark = .star ∨ mark = .amp) {c : Char}
    (hc : isIdentTail c = true ∨ c ∈ [' ', '*', '(', '['] ∨ (mark = .star ∧ c = '&')) :
    mark.endsBefore c = true := by
  have hdot : mark ≠ .dot := by
    rintro rfl
    rcases hmark with h | h <;> cases h
  have hassign : c ≠ '=' := by
    rintro rfl
    rcases hc with hc | hc | ⟨-, hc⟩
    · exact absurd hc (by decide)
    · exact absurd hc (by decide)
    · exact absurd hc (by decide)
  refine endsBefore_of_forall hdot fun q hq hprefix hmem => ?_
  rcases hmark with rfl | rfl
  · rcases eq_of_isPrefixOf_star hprefix with rfl | rfl
    · exact hq rfl
    · exact hassign (List.mem_singleton.1 hmem)
  · have hamp : c ≠ '&' := by
      rintro rfl
      rcases hc with hc | hc | ⟨hstar, -⟩
      · exact absurd hc (by decide)
      · exact absurd hc (by decide)
      · cases hstar
    rcases eq_of_isPrefixOf_amp hprefix with rfl | rfl | rfl
    · exact hq rfl
    · exact hamp (List.mem_singleton.1 hmem)
    · exact hassign (List.mem_singleton.1 hmem)

end Punct

/-- The token can be the first of a declarator. -/
def TokenKind.opensDeclarator : TokenKind → Bool
  | .ident _ => true
  | .punct p => [Punct.star, .amp, .lparen, .lbracket].contains p
  | _ => false

namespace Spells

variable {cs : List Char} {ks : List TokenKind}

theorem isPlain_head {k : TokenKind} (h : Spells cs (k :: ks)) : k.IsPlain := by
  generalize hls : k :: ks = ls at h
  induction h with
  | nil => cases hls
  | space _ ih => exact ih hls
  | token hk =>
    obtain ⟨rfl, -⟩ := List.cons.inj hls
    exact hk

/-- A declarator may stand directly behind a star or an ampersand. -/
theorem mark_endsBefore (h : Spells cs ks) (hks : ks.head?.all TokenKind.opensDeclarator = true)
    {mark : Punct} (hmark : mark = .star ∨ mark = .amp)
    (hamp : mark = .amp → ks.head? ≠ some (.punct .amp)) :
    cs.head?.all mark.endsBefore = true := by
  refine h.head?_all (Punct.mark_endsBefore hmark (by simp)) ?_
  cases ks with
  | nil => rfl
  | cons k ks =>
    have hopens : k.opensDeclarator = true := hks
    show (k.text.toList.head?.all mark.endsBefore) = true
    cases k with
    | ident w =>
      have hw : isIdentifier w.toList = true := h.isPlain_head
      show (w.toList.head?.all mark.endsBefore) = true
      cases hcs : w.toList with
      | nil => rfl
      | cons c r =>
        rw [hcs] at hw
        have hc := isIdentTail_of_isIdentHead (Bool.and_eq_true_iff.1 hw).1
        exact Punct.mark_endsBefore hmark (Or.inl hc)
    | punct p =>
      have hp : p ∈ [Punct.star, .amp, .lparen, .lbracket] := List.contains_iff_mem.1 hopens
      simp only [List.mem_cons, List.not_mem_nil, or_false] at hp
      rcases hp with rfl | rfl | rfl | rfl
      · exact Punct.mark_endsBefore (c := '*') hmark (by simp)
      · refine Punct.mark_endsBefore (c := '&') hmark (Or.inr (Or.inr ⟨?_, rfl⟩))
        exact hmark.resolve_right fun hm => hamp hm rfl
      · exact Punct.mark_endsBefore (c := '(') hmark (by simp)
      · exact Punct.mark_endsBefore (c := '[') hmark (by simp)
    | integer | float | str | char | error => cases hopens

/-- A bracket or a comma may stand before any text. -/
theorem bracket (p : Punct) (h : Spells cs ks) (hp : p ∈ Punct.separators) :
    Spells (p.text.toList ++ cs) (.punct p :: ks) := by
  refine .punct p h ?_
  cases cs with
  | nil => rfl
  | cons c cs => exact Punct.bracket_endsBefore hp c

end Spells

section

variable {inner : String} {ks : List TokenKind} {quals : Qualifiers}

theorem eq_nil_of_isEmpty (h : Spells inner.toList ks) (hempty : inner.isEmpty = true) :
    ks = [] := by
  rw [String.isEmpty_iff] at hempty
  subst hempty
  exact h.eq_nil

theorem spells_wrapPointer {mark : Punct} (hmark : mark = .star ∨ mark = .amp)
    (hquals : ∀ q ∈ quals, isIdentifier q.toList = true) (h : Spells inner.toList ks)
    (hks : ks.head?.all TokenKind.opensDeclarator = true)
    (hamp : mark = .amp → ks.head? ≠ some (.punct .amp)) :
    Spells (wrapPointer mark.text quals inner).toList
      (.punct mark :: (quals.map .ident ++ ks)) := by
  have hspace : mark.endsBefore ' ' = true := Punct.mark_endsBefore hmark (by simp)
  rw [wrapPointer]
  split
  · rename_i hnil
    obtain rfl : quals = [] := List.isEmpty_iff.1 hnil
    rw [String.toList_append]
    exact .punct mark h (h.mark_endsBefore hks hmark hamp)
  · split
    · rename_i hempty
      rw [eq_nil_of_isEmpty h hempty, String.toList_append, String.toList_append, List.append_assoc]
      have hwords := Spells.words hquals .nil rfl
      rw [List.append_nil] at hwords
      exact .punct mark (.space hwords) hspace
    · simp only [String.toList_append, List.append_assoc]
      exact .punct mark (.space (.words hquals (.space h) rfl)) hspace

theorem spells_withConvention (hquals : ∀ q ∈ quals, isIdentifier q.toList = true)
    (h : Spells inner.toList ks) :
    Spells (withConvention quals inner).toList (quals.map .ident ++ ks) := by
  rw [withConvention]
  split
  · rename_i hnil
    obtain rfl : quals = [] := List.isEmpty_iff.1 hnil
    exact h
  · split
    · rename_i hempty
      rw [eq_nil_of_isEmpty h hempty]
      have hwords := Spells.words hquals .nil rfl
      rwa [List.append_nil] at hwords
    · simp only [String.toList_append, List.append_assoc]
      exact .words hquals (.space h) rfl

theorem spells_enclose (h : Spells inner.toList ks) (indirect : Bool) :
    Spells (enclose indirect inner).toList (encloseKinds indirect ks) := by
  cases indirect with
  | false => exact h
  | true =>
    simp only [enclose, encloseKinds, if_true, String.toList_append, List.append_assoc]
    exact .bracket .lparen (h.append (.bracket .rparen .nil (by decide)) rfl) (by decide)

theorem spells_declaration {ws : List String} (hws : ∀ w ∈ ws, isIdentifier w.toList = true)
    (hquals : ∀ q ∈ quals, isIdentifier q.toList = true) (h : Spells inner.toList ks) :
    Spells (declaration quals (" ".intercalate ws) inner).toList
      (quals.map .ident ++ ws.map .ident ++ ks) := by
  have hname : Spells ((" ".intercalate ws).toList ++
      (if inner.isEmpty then "" else " " ++ inner).toList) (ws.map .ident ++ ks) := by
    split
    · rename_i hempty
      rw [eq_nil_of_isEmpty h hempty]
      exact .words hws .nil rfl
    · rw [String.toList_append]
      exact .words hws (.space h) rfl
  rw [declaration, String.toList_append, String.toList_append, List.append_assoc,
    List.append_assoc]
  split
  · rename_i hnil
    obtain rfl : quals = [] := List.isEmpty_iff.1 hnil
    exact hname
  · rw [String.toList_append, List.append_assoc]
    exact .words hquals (.space hname) rfl

theorem spells_arrayBounds (size : Option UInt64) :
    Spells (arrayBounds size).toList (boundKinds size) := by
  cases size with
  | none => exact .bracket .lbracket (.bracket .rbracket .nil (by decide)) (by decide)
  | some n =>
    rw [arrayBounds, String.toList_append, String.toList_append, List.append_assoc]
    exact .bracket .lbracket (.number _ (.bracket .rbracket .nil (by decide)) rfl) (by decide)

end

/-! ### Spelling of types -/

theorem head?_encloseKinds_append {p : TokenKind → Bool} {indirect : Bool}
    {ks ls : List TokenKind} (hparen : p (.punct .lparen) = true)
    (hks : indirect = false → ks.head?.all p = true) (hls : ls.head?.all p = true) :
    (encloseKinds indirect ks ++ ls).head?.all p = true := by
  cases indirect with
  | true => exact hparen
  | false =>
    cases ks with
    | nil => exact hls
    | cons k ks => exact hks rfl

theorem head?_words_append {p : TokenKind → Bool} {ws : List String} {ks : List TokenKind}
    (hword : ∀ w, p (.ident w) = true) (hks : ks.head?.all p = true) :
    (ws.map TokenKind.ident ++ ks).head?.all p = true := by
  cases ws with
  | nil => exact hks
  | cons w ws => exact hword w

mutual

/-- **The text of a legal type spells its tokens.** -/
theorem spells_wrap {g : Grammar} (hg : g.Proper) (t : CType) (ht : t.Legal g) {inner : String}
    {ks : List TokenKind} {indirect : Bool} (h : Spells inner.toList ks)
    (hks : ks.head?.all TokenKind.opensDeclarator = true)
    (hamp : indirect = false ∨ t.isReference = true →
      ks.head?.all (fun k => k ≠ .punct .amp) = true) :
    Spells (t.wrap inner indirect).toList (t.wrapKinds ks indirect) := by
  match t with
  | .base name quals =>
    obtain ⟨ws, -, hws, rfl, hkinds⟩ := ht.1.exists_words hg
    rw [CType.wrap, CType.wrapKinds, hkinds]
    exact spells_declaration hws (ht.2.isIdentifier hg) h
  | .pointer t quals =>
    have hdecl := spells_wrapPointer (Or.inl rfl) (ht.1.isIdentifier hg) h hks (by simp)
    rw [CType.wrap, CType.wrapKinds]
    exact spells_wrap hg t ht.2 hdecl rfl fun _ => rfl
  | .reference t quals =>
    obtain ⟨hquals, hinner, ht⟩ := ht
    have hdecl := spells_wrapPointer (Or.inr rfl) (hquals.isIdentifier hg) h hks (by
      intro _ hhead
      have hne := hamp (Or.inr rfl)
      rw [hhead] at hne
      exact absurd hne (by decide))
    rw [CType.wrap, CType.wrapKinds]
    refine spells_wrap hg t ht hdecl rfl fun hor => ?_
    rcases hor with hfalse | href
    · cases hfalse
    · rw [hinner] at href
      cases href
  | .array t size quals =>
    obtain ⟨-, -, -, ht⟩ := ht
    have hbounds : ∀ p : TokenKind → Bool, p (.punct .lbracket) = true →
        (boundKinds size).head?.all p = true := by
      intro p hp
      cases size <;> exact hp
    have hdecl := (spells_enclose h indirect).append (spells_arrayBounds size) (by
      cases size <;> simp [arrayBounds, isDelimiter])
    rw [CType.wrap, CType.wrapKinds]
    rw [← String.toList_append] at hdecl
    refine spells_wrap hg t ht hdecl ?_ fun _ => ?_
    · exact head?_encloseKinds_append rfl (fun _ => hks) (hbounds _ rfl)
    · exact head?_encloseKinds_append rfl (fun hfalse => hamp (Or.inl hfalse)) (hbounds _ rfl)
  | .function t params variadic quals =>
    obtain ⟨hquals, -, -, -, ht, -, hparams⟩ := ht
    have hdecl := (spells_enclose (spells_withConvention (hquals.isIdentifier hg) h)
      indirect).append (spells_paramList hg params hparams variadic)
      (by simp [paramList, isDelimiter])
    rw [CType.wrap, CType.wrapKinds]
    rw [← String.toList_append] at hdecl
    refine spells_wrap hg t ht hdecl ?_ fun _ => ?_
    · exact head?_encloseKinds_append rfl (fun _ => head?_words_append (fun _ => rfl) hks) rfl
    · refine head?_encloseKinds_append rfl (fun hfalse => ?_) rfl
      exact head?_words_append (by simp) (hamp (Or.inl hfalse))

/-- The text of a parameter list spells its tokens. -/
theorem spells_paramList {g : Grammar} (hg : g.Proper) (params : List Param)
    (h : LegalParams g params) (variadic : Bool) :
    Spells (paramList (CType.paramTexts params) variadic).toList
      (.punct .lparen :: (paramKinds variadic params ++ [.punct .rparen])) := by
  have hinside := spells_params hg params h variadic
  rw [paramList, String.toList_append, String.toList_append, List.append_assoc]
  exact .bracket .lparen (hinside.append (.bracket .rparen .nil (by decide)) rfl) (by decide)

/-- The texts of parameters spell their tokens. -/
theorem spells_params {g : Grammar} (hg : g.Proper) (params : List Param)
    (h : LegalParams g params) (variadic : Bool) :
    Spells (", ".intercalate (if variadic then CType.paramTexts params ++ ["..."]
      else CType.paramTexts params)).toList (paramKinds variadic params) := by
  match params with
  | [] =>
    cases variadic with
    | false => exact .nil
    | true => exact .punct .ellipsis .nil rfl
  | ⟨name, type, default⟩ :: rest =>
    obtain ⟨⟨hname, -, -, htype⟩, hrest⟩ := h
    have hparam : Spells (type.wrap (name.getD "") false).toList
        (type.wrapKinds (name.toList.map .ident) false) := by
      cases name with
      | none => exact spells_wrap hg type htype .nil rfl fun _ => rfl
      | some n =>
        have hword := Spells.word (hname n rfl).1 .nil rfl
        rw [List.append_nil] at hword
        exact spells_wrap hg type htype hword rfl fun _ => rfl
    have htail := spells_params hg rest hrest variadic
    have htexts : (if variadic then CType.paramTexts (⟨name, type, default⟩ :: rest) ++ ["..."]
        else CType.paramTexts (⟨name, type, default⟩ :: rest)) =
        type.wrap (name.getD "") false ::
          (if variadic then CType.paramTexts rest ++ ["..."] else CType.paramTexts rest) := by
      cases variadic <;> rfl
    rw [htexts, paramKinds]
    by_cases hlast : (rest.isEmpty && !variadic) = true
    · rw [if_pos hlast]
      obtain ⟨hnil, hvariadic⟩ := Bool.and_eq_true_iff.1 hlast
      obtain rfl : rest = [] := List.isEmpty_iff.1 hnil
      obtain rfl : variadic = false := by simpa using hvariadic
      simpa [CType.paramTexts] using hparam
    · rw [if_neg hlast, String.intercalate_cons_of_ne_nil ?_, String.toList_append,
        String.toList_append, List.append_assoc]
      · exact hparam.append (.bracket .comma (.space htail) (by decide)) rfl
      · -- another parameter or the ellipsis follows
        cases rest with
        | nil =>
          cases variadic with
          | false => exact absurd rfl hlast
          | true => simp
        | cons p rest =>
          obtain ⟨n, t, d⟩ := p
          cases variadic <;> simp [CType.paramTexts]

end

end CInterface
