import CInterface.Proofs.Grammar.Agreement
/-!
# Declarators, types and members read both texts alike

The productions for specifiers, types, members, declarators and parameters need one another. That they
read both texts alike is one statement about all of them, by induction on the fuel.

* `Pairing.AgreesAt` — the statement, one clause for each production.
* `Pairing.AgreesAt.specifiers_succ`, … — a production with one more fuel, from the statement.
* `Pairing.agreesAt` — the induction.
-/

namespace CInterface

namespace Pairing

variable {K : Pairing} {due : List Punct} {n : Nat}

/-- The productions that need one another read both texts alike, with fuel for them. What stands in
brackets is read where their closing one is due. -/
structure AgreesAt (K : Pairing) (f : Nat) : Prop where
  specifiers : ∀ {n g g' : Nat} {due : List Punct}, Suffice 3 n f g g' →
    K.Agrees n due due (K.source.specifiers g) (K.other.specifiers g')
  typeName : ∀ {n g g' : Nat} {due : List Punct}, Suffice 2 n f g g' →
    K.Agrees n due due (K.source.typeName g) (K.other.typeName g')
  /-- The keyword comes first. -/
  compound : ∀ {n g g' : Nat} {due : List Punct} {s : Stage} {word : String} (kind : CompoundKind),
    Suffice 1 n f g g' → K.Ready due s.rest → s.rest.length < n → word? s.rest = some word →
    K.Outcome due (K.source.compound g kind s) (K.other.compound g' kind (K.stage s))
  members : ∀ {n g g' : Nat} {due : List Punct}, Suffice 5 n f g g' →
    K.Agrees n (.rbrace :: due) due (K.source.members g) (K.other.members g')
  member : ∀ {n g g' : Nat} {due : List Punct}, Suffice 4 n f g g' →
    K.Agrees n (.rbrace :: due) (.rbrace :: due) (K.source.member g) (K.other.member g')
  fields : ∀ {n g g' : Nat} {due : List Punct} (base : CType) (line : Nat)
    (declared : String × List LayerStep), Suffice 1 n f g g' →
    K.Agrees n (.rbrace :: due) (.rbrace :: due) (K.source.fields g base line declared)
      (K.other.fields g' base (line + K.shift) declared)
  declarator : ∀ {n g g' : Nat} {due : List Punct}, Suffice 3 n f g g' →
    K.Agrees n due due (K.source.declarator g) (K.other.declarator g')
  center : ∀ {n g g' : Nat} {due : List Punct}, Suffice 1 n f g g' →
    K.Agrees n due due (K.source.center g) (K.other.center g')
  abstractDeclarator : ∀ {n g g' : Nat} {due : List Punct}, Suffice 3 n f g g' →
    K.Agrees n (.rparen :: due) (.rparen :: due) (K.source.abstractDeclarator g)
      (K.other.abstractDeclarator g')
  abstractCenter : ∀ {n g g' : Nat} {due : List Punct}, Suffice 1 n f g g' →
    K.Agrees n (.rparen :: due) (.rparen :: due) (K.source.abstractCenter g)
      (K.other.abstractCenter g')
  suffix : ∀ {n g g' : Nat} {due : List Punct} (quals : Qualifiers), Suffice 2 n f g g' →
    K.Agrees n due due (K.source.suffix g quals) (K.other.suffix g' quals)
  parameterList : ∀ {n g g' : Nat} {due : List Punct}, Suffice 1 n f g g' →
    K.Agrees n due due (K.source.parameterList g) (K.other.parameterList g')
  parameters : ∀ {n g g' : Nat} {due : List Punct}, Suffice 4 n f g g' →
    K.Agrees n (.rparen :: due) (.rparen :: due) (K.source.parameters g) (K.other.parameters g')

namespace AgreesAt

theorem zero : K.AgreesAt 0 where
  specifiers h := h.agrees_zero (by decide) (forward_atFuel _).specifiers
  typeName h := h.agrees_zero (by decide) (forward_atFuel _).typeName
  compound _ h _ hn _ := by
    obtain rfl := h.zero (by decide)
    exact absurd hn (Nat.not_lt_zero _)
  members h := h.agrees_zero (by decide) (forward_atFuel _).members
  member h := h.agrees_zero (by decide) (forward_atFuel _).member
  fields base line declared h := h.agrees_zero (by decide) ((forward_atFuel _).fields base line declared)
  declarator h := h.agrees_zero (by decide) (forward_atFuel _).declarator
  center h := h.agrees_zero (by decide) (forward_atFuel _).center
  abstractDeclarator h := h.agrees_zero (by decide) (forward_atFuel _).abstractDeclarator
  abstractCenter h := h.agrees_zero (by decide) (forward_atFuel _).abstractCenter
  suffix quals h := h.agrees_zero (by decide) ((forward_atFuel _).suffix quals)
  parameterList h := h.agrees_zero (by decide) (forward_atFuel _).parameterList
  parameters h := h.agrees_zero (by decide) (forward_atFuel _).parameters

variable {f g g' : Nat}

theorem specifiers_succ (h : K.AgreesAt f) (hf : Suffice 3 n (f + 1) g g') :
    K.Agrees n due due (K.source.specifiers g) (K.other.specifiers g') := by
  obtain ⟨g, g', rfl, rfl, hg, hg'⟩ := hf.succ
  have henough := hf.enough
  have hwords : K.Agrees n due due (K.source.leadingWords K.source.fuel [] [])
      (K.other.leadingWords K.other.fuel [] []) :=
    .of_size fun m hm => agrees_leadingWords (K.le_fuel hm).1 (K.le_fuel hm).2 [] []
  rw [Source.specifiers, Source.specifiers]
  refine hwords.bind (fun _ => ?_) id
  exact (h.typeName ⟨by omega, hg, hg'⟩).bind (fun _ => .pure _) id

theorem typeName_succ (h : K.AgreesAt f) (hf : Suffice 2 n (f + 1) g g') :
    K.Agrees n due due (K.source.typeName g) (K.other.typeName g') := by
  obtain ⟨g, g', rfl, rfl, hg, hg'⟩ := hf.succ
  have henough := hf.enough
  have hcompound : Suffice 1 n f g g' := ⟨by omega, hg, hg'⟩
  refine .of_seen (forward_atFuel _).typeName id fun s hready hn hseen => ?_
  rw [Source.typeName, Source.typeName]
  refine .get ?_
  rw [stage_rest, word?_tokens hseen]
  cases hword : word? s.rest with
  | none => exact .failed _ _
  | some word =>
    obtain ⟨t, ts, hs, ht⟩ := word?_eq_some hword
    have hplain : t.kind.due due = some due := by
      rw [ht]
      rfl
    dsimp only
    split
    · exact h.compound .struct hcompound hready hn hword
    · split
      · exact h.compound .union hcompound hready hn hword
      · split
        · exact Agrees.dropped hs hready hn hplain agrees_enumeration
        · have hwords : K.Agrees n due due
              (K.source.fundamentalWords >>= fun words => pure (" ".intercalate words))
              (K.other.fundamentalWords >>= fun words => pure (" ".intercalate words)) :=
            agrees_fundamentalWords.bind (fun _ => .pure _) id
          show K.Outcome due ((if K.source.grammar.isFundamental word = true then _ else
            if (!K.source.grammar.isKeyword word) = true then _ else _ : Production String) s)
            ((if K.source.grammar.isFundamental word = true then _ else
              if (!K.source.grammar.isKeyword word) = true then _ else _ : Production String) (K.stage s))
          split
          · exact hwords.outcome s hready hn
          · split
            · exact Agrees.dropped hs hready hn hplain (.pure word)
            · exact .failed _ _

theorem compound_succ (h : K.AgreesAt f) (kind : CompoundKind) {word : String}
    (hf : Suffice 1 n (f + 1) g g') (hready : K.Ready due s.rest) (hn : s.rest.length < n)
    (hword : word? s.rest = some word) :
    K.Outcome due (K.source.compound g kind s) (K.other.compound g' kind (K.stage s)) := by
  obtain ⟨g, g', rfl, rfl, hg, hg'⟩ := hf.succ
  have henough := hf.enough
  obtain ⟨t, ts, hs, ht⟩ := word?_eq_some hword
  have hseen : K.Seen s.rest := Or.inr (by rw [hs]; exact List.cons_ne_nil t ts)
  rw [Source.compound, Source.compound]
  refine .line hready hseen (Agrees.dropped hs hready hn (by rw [ht]; rfl) ?_)
  refine agrees_name?.bind (fun name => .accept (TokenKind.due_open due rfl) id ?_ ?_) id
  · refine (h.members ⟨by omega, hg, hg'⟩).bind (fun fields => ?_) id
    have hnext : ∀ name : String, K.Agrees (n - 1 - 1) due due
        (do
          K.source.defineFields kind name (K.source.lineAt s.rest) fields
          return kind.keyword ++ " " ++ name)
        (do
          K.other.defineFields kind name (K.source.lineAt s.rest + K.shift) fields
          return kind.keyword ++ " " ++ name) :=
      fun name => (agrees_defineFields kind name _ fields).bind (fun _ => .pure _) id
    cases name with
    | some name => exact (Agrees.pure name).bind hnext id
    | none => exact (agrees_anonymousName _).bind hnext id
  · cases name with
    | none => exact .fail _
    | some name =>
      have hdefine : K.Agrees (n - 1) due due
          (do
            let _ ← defineCompound kind name .empty
            return kind.keyword ++ " " ++ name)
          (do
            let _ ← defineCompound kind name .empty
            return kind.keyword ++ " " ++ name) :=
        (agrees_defineCompound kind name .empty).bind (fun _ => .pure _) id
      refine ⟨.get_bind fun s => Forward.ite hdefine.forward (.pure _) s,
        fun s hready hn => ?_⟩
      have hknown : K.other.visibleCompound? (K.stage s) kind name =
          K.source.visibleCompound? s kind name := by
        cases kind <;> rfl
      refine .get ?_
      rw [hknown]
      exact (Agrees.ite hdefine (.pure _)).outcome s hready hn

theorem members_succ (h : K.AgreesAt f) (hf : Suffice 5 n (f + 1) g g') :
    K.Agrees n (.rbrace :: due) due (K.source.members g) (K.other.members g') := by
  obtain ⟨g, g', rfl, rfl, hg, hg'⟩ := hf.succ
  have henough := hf.enough
  have hnext : K.Agrees (n - 1) (.rbrace :: due) due (K.source.members g) (K.other.members g') :=
    h.members ⟨by omega, hg, hg'⟩
  rw [Source.members, Source.members]
  refine .accept rfl lax_of_cons (.pure []) (.accept rfl lax_of_cons hnext ?_)
  have hmember : K.Agrees n (.rbrace :: due) due
      (do
        let fields ← K.source.member g
        return fields ++ (← K.source.members g))
      (do
        let fields ← K.other.member g'
        return fields ++ (← K.other.members g')) :=
    (h.member ⟨by omega, hg, hg'⟩).bind_passing (passes_member g)
      (fun fields => hnext.bind (fun _ => .pure _) id) lax_of_cons
  refine .get (.get_bind fun s => Forward.ite (.fail _ _) hmember.forward s)
    lax_of_cons fun s hready hn hseen => ?_
  have hempty : (K.stage s).rest.isEmpty = s.rest.isEmpty := by
    rw [stage_rest]
    cases hs : s.rest with
    | nil =>
      rw [hs] at hseen
      rw [tokens_nil (hseen.resolve_right fun hne => hne rfl)]
    | cons t ts => rfl
  rw [hempty]
  exact (Agrees.ite (.fail _) hmember).outcome s hready hn

theorem member_succ (h : K.AgreesAt f) (hf : Suffice 4 n (f + 1) g g') :
    K.Agrees n (.rbrace :: due) (.rbrace :: due) (K.source.member g) (K.other.member g') := by
  obtain ⟨g, g', rfl, rfl, hg, hg'⟩ := hf.succ
  have henough := hf.enough
  have hdeclarator : K.Agrees n (.rbrace :: due) (.rbrace :: due) (K.source.declarator g)
      (K.other.declarator g') := h.declarator ⟨by omega, hg, hg'⟩
  have hbody : K.Agrees n (.rbrace :: due) (.rbrace :: due)
      (do
        K.source.skipBlock
        let _ ← accept .semi
        return ([] : List Field))
      (do
        K.other.skipBlock
        let _ ← accept .semi
        return ([] : List Field)) :=
    agrees_skipBlock.bind (fun _ => agrees_acceptSemi.bind (fun _ => .pure []) id) id
  rw [Source.member, Source.member]
  refine (Agrees.attempt (hdeclarator.bind (fun _ => (Agrees.comes .lbrace).bind (fun _ =>
    .ite (.fail _) (.pure ())) id) id)).bind (fun _ => .ite hbody ?_) id
  refine .line id fun line => (h.specifiers ⟨by omega, hg, hg'⟩).bind (fun specs => ?_) id
  refine .accept rfl id (.pure _) (.accept rfl id ?_ ?_)
  · exact (agrees_bitWidth _ line).bind (fun _ => .expect rfl id (.pure _)) id
  · refine hdeclarator.bind (fun declared => (Agrees.comes .lbrace).bind (fun _ => .ite hbody ?_) id) id
    exact (h.fields specs.base line declared ⟨by omega, hg, hg'⟩).bind
      (fun _ => .expect rfl id (.pure _)) id

theorem fields_succ (h : K.AgreesAt f) (base : CType) (line : Nat)
    (declared : String × List LayerStep) (hf : Suffice 1 n (f + 1) g g') :
    K.Agrees n (.rbrace :: due) (.rbrace :: due) (K.source.fields g base line declared)
      (K.other.fields g' base (line + K.shift) declared) := by
  obtain ⟨g, g', rfl, rfl, hg, hg'⟩ := hf.succ
  have henough := hf.enough
  rw [Source.fields, Source.fields]
  refine .optional rfl (agrees_bitWidth declared.1 line) (.pure none) fun bits => ?_
  refine .optional rfl agrees_initializer (.pure none) fun default => ?_
  refine .accept rfl id ?_ (.pure _)
  refine (h.declarator ⟨by omega, hg, hg'⟩).bind (fun next => ?_) id
  exact (h.fields base line next ⟨by omega, hg, hg'⟩).bind (fun _ => .pure _) id

theorem declarator_succ (h : K.AgreesAt f) (hf : Suffice 3 n (f + 1) g g') :
    K.Agrees n due due (K.source.declarator g) (K.other.declarator g') := by
  obtain ⟨g, g', rfl, rfl, hg, hg'⟩ := hf.succ
  have henough := hf.enough
  rw [Source.declarator, Source.declarator]
  refine agrees_allIndirections.bind (fun before => ?_) id
  refine (h.center ⟨by omega, hg, hg'⟩).bind (fun center => ?_) id
  exact (h.suffix before.2 ⟨by omega, hg, hg'⟩).bind (fun _ => .pure _) id

theorem center_succ (h : K.AgreesAt f) (hf : Suffice 1 n (f + 1) g g') :
    K.Agrees n due due (K.source.center g) (K.other.center g') := by
  obtain ⟨g, g', rfl, rfl, hg, hg'⟩ := hf.succ
  have henough := hf.enough
  rw [Source.center, Source.center]
  refine agrees_name?.bind (fun name => ?_) id
  cases name with
  | some name => exact .pure _
  | none =>
    refine .accept (TokenKind.due_open due rfl) id ?_ (.fail _)
    exact (h.declarator ⟨by omega, hg, hg'⟩).bind (fun _ => .expect rfl lax_of_cons (.pure _))
      lax_of_cons

theorem abstractDeclarator_succ (h : K.AgreesAt f) (hf : Suffice 3 n (f + 1) g g') :
    K.Agrees n (.rparen :: due) (.rparen :: due) (K.source.abstractDeclarator g)
      (K.other.abstractDeclarator g') := by
  obtain ⟨g, g', rfl, rfl, hg, hg'⟩ := hf.succ
  have henough := hf.enough
  rw [Source.abstractDeclarator, Source.abstractDeclarator]
  refine agrees_allIndirections.bind (fun before => ?_) id
  refine (Agrees.attempt (h.abstractCenter ⟨by omega, hg, hg'⟩)).bind (fun center => ?_) id
  exact (h.suffix before.2 ⟨by omega, hg, hg'⟩).bind (fun _ => .pure _) id

theorem abstractCenter_succ (h : K.AgreesAt f) (hf : Suffice 1 n (f + 1) g g') :
    K.Agrees n (.rparen :: due) (.rparen :: due) (K.source.abstractCenter g)
      (K.other.abstractCenter g') := by
  obtain ⟨g, g', rfl, rfl, hg, hg'⟩ := hf.succ
  have henough := hf.enough
  rw [Source.abstractCenter, Source.abstractCenter]
  refine .expect (TokenKind.due_open _ rfl) id ?_
  refine (h.abstractDeclarator ⟨by omega, hg, hg'⟩).bind (fun inner => ?_) lax_of_cons
  have hnext : K.Agrees (n - 1) (.rparen :: .rparen :: due) (.rparen :: due)
      (do
        K.source.expect .rparen
        return inner)
      (do
        K.other.expect .rparen
        return inner) := .expect rfl lax_of_cons (.pure inner)
  exact .ite ((Agrees.fail _).bind (fun _ => hnext) lax_of_cons) hnext

theorem suffix_succ (h : K.AgreesAt f) (quals : Qualifiers) (hf : Suffice 2 n (f + 1) g g') :
    K.Agrees n due due (K.source.suffix g quals) (K.other.suffix g' quals) := by
  obtain ⟨g, g', rfl, rfl, hg, hg'⟩ := hf.succ
  have henough := hf.enough
  have hbounds : K.Agrees n due due (K.source.arrayBounds K.source.fuel)
      (K.other.arrayBounds K.other.fuel) :=
    .of_size fun m hm => agrees_arrayBounds (K.le_fuel hm).1 (K.le_fuel hm).2
  have hnext : ∀ params : List LayerStep, K.Agrees n due due
      (do
        let bounds ← K.source.arrayBounds K.source.fuel
        return params ++ qualifySteps quals ++ boundSteps bounds)
      (do
        let bounds ← K.other.arrayBounds K.other.fuel
        return params ++ qualifySteps quals ++ boundSteps bounds) :=
    fun params => hbounds.bind (fun _ => .pure _) id
  rw [Source.suffix, Source.suffix]
  refine (Agrees.comes .lparen).bind (fun _ => .ite ?_ ((Agrees.pure []).bind hnext id)) id
  exact (h.parameterList ⟨by omega, hg, hg'⟩).bind (fun _ => (Agrees.pure _).bind hnext id) id

theorem parameterList_succ (h : K.AgreesAt f) (hf : Suffice 1 n (f + 1) g g') :
    K.Agrees n due due (K.source.parameterList g) (K.other.parameterList g') := by
  obtain ⟨g, g', rfl, rfl, hg, hg'⟩ := hf.succ
  have henough := hf.enough
  rw [Source.parameterList, Source.parameterList]
  refine .expect (TokenKind.due_open due rfl) id (.accept rfl lax_of_cons (.pure _) ?_)
  have hnext : K.Agrees (n - 1) (.rparen :: due) due
      (do
        let found ← K.source.parameters g
        K.source.expect .rparen
        return found)
      (do
        let found ← K.other.parameters g'
        K.other.expect .rparen
        return found) :=
    (h.parameters ⟨by omega, hg, hg'⟩).bind (fun _ => .expect rfl lax_of_cons (.pure _)) lax_of_cons
  refine .get ?_ lax_of_cons fun s hready hn hseen => ?_
  · refine .get_bind fun s => ?_
    split
    · rename_i t u rest hrest
      split
      · exact .moveTo_bind ⟨[t, u], hrest.symm⟩ (.pure _)
      · exact hnext.forward s
    · exact hnext.forward s
  · rw [stage_rest]
    have hother := hnext.outcome s hready hn
    cases hs : s.rest with
    | nil =>
      rw [hs] at hseen
      rw [tokens_nil (hseen.resolve_right fun hne => hne rfl)]
      exact hother
    | cons t ts =>
      rw [hs] at hready
      rw [tokens_cons]
      by_cases ht : t.kind = .ident "void"
      · have hbehind : K.Ready (.rparen :: due) ts := hready.behind (by rw [ht]; rfl)
        have hseen' : K.Seen ts := hready.seen_behind (by rw [ht]; rfl)
        cases ts with
        | nil =>
          rw [tokens_nil (hseen'.resolve_right fun hne => hne rfl)]
          exact hother
        | cons u rest =>
          rw [tokens_cons]
          simp only [K.kind_move, ht, decide_true, Bool.true_and]
          by_cases hu : u.kind = .punct .rparen
          · simp only [hu, decide_true, if_true]
            have hrest : K.Ready due rest := hbehind.behind (by rw [hu]; rfl)
            exact .matched ([], false) { s with rest } hrest
          · simp only [hu, decide_false, Bool.false_eq_true, if_false]
            exact hother
      · -- no `void`, so nothing is asked of what stands behind the first token
        have ht' : (K.move t).kind ≠ .ident "void" := by
          rw [K.kind_move]
          exact ht
        generalize K.tokens ts = us
        cases ts with
        | nil =>
          cases us with
          | nil => exact hother
          | cons u us =>
            simp only [ht', decide_false, Bool.false_and, Bool.false_eq_true, if_false]
            exact hother
        | cons v ts =>
          simp only [ht, decide_false, Bool.false_and, Bool.false_eq_true, if_false]
          cases us with
          | nil => exact hother
          | cons u us =>
            simp only [ht', decide_false, Bool.false_and, Bool.false_eq_true, if_false]
            exact hother

/-- A parameter is first read with a name, and where that fails, which it does in both texts or in
none, anew without one. -/
theorem parameters_succ (h : K.AgreesAt f) (hf : Suffice 4 n (f + 1) g g') :
    K.Agrees n (.rparen :: due) (.rparen :: due) (K.source.parameters g) (K.other.parameters g') := by
  obtain ⟨g, g', rfl, rfl, hg, hg'⟩ := hf.succ
  have henough := hf.enough
  rw [Source.parameters, Source.parameters]
  refine .accept rfl id (.pure _) ?_
  refine (h.specifiers ⟨by omega, hg, hg'⟩).bind (fun specs => ?_) id
  refine (Agrees.either ((h.declarator ⟨by omega, hg, hg'⟩).bind (fun _ => .pure _) id)
    ((h.abstractDeclarator ⟨by omega, hg, hg'⟩).bind (fun _ => .pure _) id)).bind (fun declared => ?_) id
  have hnext : ∀ default : Option Value, K.Agrees n (.rparen :: due) (.rparen :: due)
      (do
        let param : Param := ⟨declared.1, buildType specs.base declared.2, default⟩
        if ← accept .comma then
          let found ← K.source.parameters g
          return (param :: found.1, found.2)
        else return ([param], false))
      (do
        let param : Param := ⟨declared.1, buildType specs.base declared.2, default⟩
        if ← accept .comma then
          let found ← K.other.parameters g'
          return (param :: found.1, found.2)
        else return ([param], false)) := fun default =>
    .accept rfl id ((h.parameters ⟨by omega, hg, hg'⟩).bind (fun _ => .pure _) id) (.pure _)
  refine .accept rfl id ?_ ((Agrees.pure none).bind hnext id)
  refine (agrees_tokensUntil _).bind (fun tokens => (agrees_evaluate _ tokens).bind (fun _ => ?_) id) id
  exact (Agrees.pure _).bind (fun default => (hnext default).mono (Nat.sub_le n 1)) id

end AgreesAt

/-- With any fuel, each of the productions reads both texts alike. -/
theorem agreesAt (f : Nat) : K.AgreesAt f := by
  induction f with
  | zero => exact .zero
  | succ f ih =>
    exact
      { specifiers := ih.specifiers_succ
        typeName := ih.typeName_succ
        compound := fun kind => ih.compound_succ kind
        members := ih.members_succ
        member := ih.member_succ
        fields := ih.fields_succ
        declarator := ih.declarator_succ
        center := ih.center_succ
        abstractDeclarator := ih.abstractDeclarator_succ
        abstractCenter := ih.abstractCenter_succ
        suffix := ih.suffix_succ
        parameterList := ih.parameterList_succ
        parameters := ih.parameters_succ }

theorem agrees_specifiers :
    K.Agrees n due due (K.source.specifiers K.source.fuel) (K.other.specifiers K.other.fuel) :=
  .of_size fun _ hm => (agreesAt _).specifiers (.whole hm (by decide))

theorem agrees_declarator :
    K.Agrees n due due (K.source.declarator K.source.fuel) (K.other.declarator K.other.fuel) :=
  .of_size fun _ hm => (agreesAt _).declarator (.whole hm (by decide))

end Pairing

end CInterface
