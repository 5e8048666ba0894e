import CInterface.Proofs.Grammar.Composition
import CInterface.Proofs.Grammar.Members
/-!
# Writing and reading aggregates

The definition of a structure, a union or an enumeration that is written in C is read back as itself:
a header that holds nothing else defines it.

* `Source.Ends` — where a production ends from a stage, and what is in sight then.
* `ends_compound`, `ends_enumeration` — the tokens of a definition bring it in sight.
* `parseFile_of_tag` — what is in sight behind the only declaration of a header is defined by it.
* `parseFile_render` — the round trip.

What the members of a structure stage is left open, for their types may declare other tags, and its
own. The definition that is written comes last, and so it is the one that counts.
-/

namespace CInterface

open Source

variable {src : Source}

/-! ### Members of enumerations -/

namespace Source

variable {ks : List TokenKind}

/-- The tokens of an integer are read as the value of a member. -/
theorem reads_memberValue (d : EnumDef) (member : String) (n : Int64) :
    Reads (src.memberValue d member) (Value.intKinds n.toInt ++ .punct .comma :: ks) n
      (.punct .comma :: ks) := by
  have htokens : Reads (src.tokensUntil [.comma]) (Value.intKinds n.toInt ++ .punct .comma :: ks)
      (Value.intKinds n.toInt) (.punct .comma :: ks) :=
    reads_scalarTokens (by simp) (all_isScalar_intKinds n.toInt) (Or.inl (List.mem_singleton_self _))
  rw [memberValue]
  refine reads_line_bind fun line => ?_
  exact .bind htokens (.bind (reads_evaluate fun env => evalTokens_int env n) (.pure _))

/-- The tokens of members are read as these members, up to the closing brace. -/
theorem reads_enumMembers {es : List (String × Int64)}
    (hes : ∀ e ∈ es, src.grammar.isKeyword e.1 = false) {fuel : Nat} (hfuel : es.length < fuel)
    (d : EnumDef) :
    Reads (src.enumMembers fuel d)
      ((es.map EnumDef.memberKinds).flatten ++ .punct .rbrace :: ks)
      (es.foldl (fun d e => d.insert e.1 e.2) d) (.punct .rbrace :: ks) := by
  induction es generalizing fuel d with
  | nil =>
    obtain ⟨fuel, rfl⟩ : ∃ j, fuel = j + 1 := ⟨fuel - 1, by omega⟩
    rw [enumMembers]
    refine .bind (reads_comes .rbrace) ?_
    rw [if_pos (by simp)]
    exact .pure d
  | cons e es ih =>
    obtain ⟨fuel, rfl⟩ : ∃ j, fuel = j + 1 := ⟨fuel - 1, by omega⟩
    have hmore := ih (fun v hv => hes v (List.mem_cons_of_mem _ hv)) (Nat.lt_of_succ_lt_succ hfuel)
      (d.insert e.1 e.2)
    rw [List.map_cons, List.flatten_cons, EnumDef.memberKinds, List.cons_append, List.cons_append,
      List.cons_append, List.cons_append, List.append_assoc, List.append_assoc, List.singleton_append,
      enumMembers]
    refine .bind (reads_comes .rbrace) ?_
    rw [if_neg (by simp)]
    refine .bind (reads_name? (hes e List.mem_cons_self)) (.bind (reads_accept .assign) ?_)
    rw [if_pos rfl]
    refine .bind (reads_memberValue d e.1 e.2) (.bind (reads_accept .comma) ?_)
    rw [if_pos rfl]
    exact hmore

end Source

theorem EnumDef.foldl_insert (d : EnumDef) :
    d.members.entries.foldl (fun d e => d.insert e.1 e.2) .empty = d := by
  have hmembers : ∀ (es : List (String × Int64)) (d : EnumDef),
      (es.foldl (fun d e => d.insert e.1 e.2) d).members =
        es.foldl (fun m e => m.insert e.1 e.2) d.members := by
    intro es
    induction es with
    | nil => exact fun _ => rfl
    | cons e es ih => exact fun d => ih (d.insert e.1 e.2)
  have h := hmembers d.members.entries .empty
  rw [show d.members.entries.foldl (fun m e => m.insert e.1 e.2) EnumDef.empty.members = d.members from
    d.members.ofList_entries] at h
  exact congrArg EnumDef.mk h

/-! ### Stages -/

/-- From the stage the production gives `a` and leaves the tokens `ls`, without an error; what is in
sight then is as `P` says. -/
def Source.Ends {α : Type} (src : Source) (p : Production α) (s : Stage) (a : α)
    (ls : List TokenKind) (P : Definitions → Prop) : Prop :=
  ∃ t : Stage, p s = .ok (a, t) ∧ t.kinds = ls ∧ t.errors = s.errors ∧ P (src.sight t)

section

variable {α β : Type} {p : Production α} {f : α → Production β} {a : α} {b : β} {s t : Stage}
  {ks ms ls : List TokenKind} {P Q : Definitions → Prop}

/-- A sequence goes on behind its first piece. -/
theorem Production.bind_run (h : p s = .ok (a, t)) : (p >>= f) s = f a t := by
  show (p s >>= fun (a, s) => f a s) = _
  rw [h]
  rfl

namespace Source.Ends

theorem of_eq {q : Production α} (h : p s = q t) (herrors : t.errors = s.errors)
    (hq : src.Ends q t a ls P) : src.Ends p s a ls P := by
  obtain ⟨u, hu, hls, herrors', hsight⟩ := hq
  exact ⟨u, h.trans hu, hls, herrors'.trans herrors, hsight⟩

/-- A sequence goes on behind its first piece, if it is known where that leads. -/
theorem bind_run (h : p s = .ok (a, t)) (herrors : t.errors = s.errors)
    (hf : src.Ends (f a) t b ls P) : src.Ends (p >>= f) s b ls P :=
  of_eq (Production.bind_run h) herrors hf

/-- A sequence goes on behind its first piece, whatever that stages. -/
theorem bind_reads (hp : Reads p ks a ms) (hs : s.kinds = ks)
    (hf : ∀ t : Stage, t.kinds = ms → src.Ends (f a) t b ls P) : src.Ends (p >>= f) s b ls P := by
  obtain ⟨t, ht, hms, herrors⟩ := hp s hs
  exact bind_run ht herrors (hf t hms)

/-- A sequence ends as its last piece does. -/
theorem bind (hp : src.Ends p s a ms Q)
    (hf : ∀ t : Stage, t.kinds = ms → Q (src.sight t) → src.Ends (f a) t b ls P) :
    src.Ends (p >>= f) s b ls P := by
  obtain ⟨t, ht, hms, herrors, hsight⟩ := hp
  exact bind_run ht herrors (hf t hms hsight)

theorem pure (hs : s.kinds = ls) (hsight : P (src.sight s)) : src.Ends (pure a) s a ls P :=
  ⟨s, rfl, hs, rfl, hsight⟩

end Source.Ends

theorem get_run (s : Stage) : (get : Production Stage) s = .ok (s, s) := rfl

theorem moveTo_run (rest : List Token) (s : Stage) : moveTo rest s = .ok ((), { s with rest }) := rfl

theorem line_run (s : Stage) : src.line s = .ok (src.lineAt s.rest, s) := rfl

/-- Behind the keyword of a definition stand its name and its members. -/
theorem name?_run {keyword name : String} {members : List (List TokenKind)}
    (hname : src.grammar.isKeyword name = false)
    (hs : s.kinds = aggregateKinds keyword name members ++ ks) :
    ∃ rest : List Token, src.name? { s with rest := s.rest.drop 1 } =
      .ok (some name, { s with rest }) ∧ rest.map (·.kind) = bodyKinds members ++ ks := by
  obtain ⟨u, more, hrest, hu, hmore⟩ := List.map_eq_cons_iff.1 hs
  obtain ⟨v, rest, rfl, hv, hks⟩ := List.map_eq_cons_iff.1 hmore
  have hword : word? (s.rest.drop 1) = some name := by
    rw [hrest]
    exact congrArg TokenKind.ident? hv
  refine ⟨rest, ?_, hks⟩
  rw [Source.name?, Production.bind_run (get_run _)]
  simp only [hword, hname]
  rw [if_neg Bool.false_ne_true, Production.bind_run (get_run _), Production.bind_run (moveTo_run _ _),
    hrest]
  rfl

/-! ### Structures and unions -/

theorem CompoundKind.keyword_mem (kind : CompoundKind) : kind.keyword ∈ Grammar.tagWords := by
  cases kind <;> decide

/-- An aggregate that is defined is in sight. -/
theorem ends_defineCompound (kind : CompoundKind) (name : String) (c : Compound) (hs : s.kinds = ks) :
    src.Ends (defineCompound kind name c) s () ks
      fun d => d.get? (kind.definition c).category name = some (kind.definition c) := by
  refine ⟨_, rfl, hs, rfl, ?_⟩
  have hsynonym : (kind.definition c).category ≠ .types := by cases kind <;> rintro ⟨⟩
  show (((src.sight s).insert name (kind.definition c)).insert (kind.keyword ++ " " ++ name)
    ⟨.types, .named (kind.keyword ++ " " ++ name)⟩).get? _ _ = _
  rw [Definitions.get?_insert, if_neg fun h => hsynonym h.1, Definitions.get?_insert_self]

/-- Fields define an aggregate, where no packing is set. -/
theorem defineFields_eq (hpacking : ∀ line, src.packing.packAt line = none) (kind : CompoundKind)
    (name : String) (line : Nat) {fields : List Field} (hfields : fields ≠ []) :
    src.defineFields kind name line fields = defineCompound kind name ⟨fields, none, rfl⟩ := by
  have hsome : fields.isEmpty = false := List.isEmpty_eq_false_iff.2 hfields
  funext s
  rw [defineFields, Production.bind_run (get_run s), hpacking, hsome]
  rfl

/-- **The tokens of a structure or union define it.** One without fields is only declared, which
defines it where its name is new. -/
theorem ends_compound (hg : src.grammar.Proper) (hpacking : ∀ line, src.packing.packAt line = none)
    (kind : CompoundKind) {name : String} (hname : src.grammar.isKeyword name = false) {c : Compound}
    (hpack : c.pack = none) (hfields : ∀ f ∈ c.fields, f.Writable src.grammar)
    (hnew : src.visibleCompound? s kind name = none) {fuel : Nat}
    (hfuel : 8 * (c.fields.map Field.kinds).flatten.length + 1 < fuel) (hsrc : fuel ≤ src.fuel)
    (hs : s.kinds = aggregateKinds kind.keyword name (c.fields.map Field.kinds) ++ .punct .semi :: ks) :
    src.Ends (src.compound (fuel + 1) kind) s (kind.keyword ++ " " ++ name) (.punct .semi :: ks)
      fun d => d.get? (kind.definition c).category name = some (kind.definition c) := by
  obtain ⟨fields, pack, hvalid⟩ := c
  obtain rfl : pack = none := hpack
  obtain ⟨rest, hrest, hbody⟩ := name?_run hname hs
  rw [compound]
  refine .bind_run (line_run s) rfl (.bind_run (get_run s) rfl ?_)
  refine .bind_run (moveTo_run _ s) rfl (.bind_run hrest rfl ?_)
  by_cases hnil : fields = []
  · subst hnil
    have hvisible : src.visibleCompound? { s with rest } kind name = none := by
      cases kind <;> exact hnew
    have hbrace : rest.head?.map (·.kind) ≠ some (.punct .lbrace) := by
      rw [← List.head?_map, hbody]
      exact fun h => by cases h
    refine .bind_run (accept_of_not_head hbrace) rfl ?_
    rw [if_neg Bool.false_ne_true]
    refine .bind_run (get_run _) rfl ?_
    rw [hvisible, Option.isNone_none, if_pos rfl]
    exact .bind (ends_defineCompound kind name _ hbody) fun t ht hsight => .pure ht hsight
  · have hmembers : fields.map Field.kinds ≠ [] := mt List.map_eq_nil_iff.1 hnil
    rw [bodyKinds_append hmembers, ← List.flatMap_def] at hbody
    rw [← List.flatMap_def] at hfuel
    refine .bind_reads (reads_accept .lbrace) hbody fun s hs => ?_
    rw [if_pos rfl]
    refine .bind_reads (reads_members hg hfields hfuel hsrc _) hs fun s hs => ?_
    show src.Ends (src.defineFields kind name _ fields >>= fun _ => pure (kind.keyword ++ " " ++ name))
      s _ _ _
    rw [defineFields_eq hpacking kind name _ hnil]
    exact .bind (ends_defineCompound kind name _ hs) fun t ht hsight => .pure ht hsight

/-! ### Enumerations -/

/-- The definitions with the values of some members. -/
def Definitions.insertValues (d : Definitions) (es : List (String × Int64)) : Definitions :=
  es.foldl (fun d e => d.insert e.1 ⟨.values, .int e.2⟩) d

theorem Definitions.get?_insertValues_of_not_mem {es : List (String × Int64)} {m : String}
    (hm : m ∉ es.map Prod.fst) (d : Definitions) :
    (d.insertValues es).get? .values m = d.get? .values m := by
  induction es generalizing d with
  | nil => rfl
  | cons e es ih =>
    have hne : m ≠ e.1 := fun h => hm (by rw [h]; exact List.mem_cons_self)
    have hrest := ih (fun h => hm (List.mem_cons_of_mem _ h)) (d.insert e.1 ⟨.values, .int e.2⟩)
    rw [get?_insert, if_neg fun h => hne h.2] at hrest
    exact hrest

/-- Each member has its value. -/
theorem Definitions.get?_insertValues {es : List (String × Int64)} (hnodup : (es.map Prod.fst).Nodup)
    {m : String} {v : Int64} (hm : (m, v) ∈ es) (d : Definitions) :
    (d.insertValues es).get? .values m = some ⟨.values, .int v⟩ := by
  induction es generalizing d with
  | nil => cases hm
  | cons e es ih =>
    obtain ⟨hnew, hrest⟩ := List.nodup_cons.1 hnodup
    rcases List.mem_cons.1 hm with rfl | hm
    · have hlast := get?_insertValues_of_not_mem hnew (d.insert m ⟨.values, .int v⟩)
      rw [get?_insert, if_pos ⟨rfl, rfl⟩] at hlast
      exact hlast
    · exact ih hrest hm (d.insert e.1 ⟨.values, .int e.2⟩)

/-- The values of members come in sight one after another. -/
theorem ends_forIn_define (es : List (String × Int64)) (hs : s.kinds = ks) :
    src.Ends (forIn es PUnit.unit fun e _ => do
        define e.1 ⟨.values, .int e.2⟩
        return ForInStep.yield PUnit.unit) s PUnit.unit ks
      fun d => d = (src.sight s).insertValues es := by
  induction es generalizing s with
  | nil => exact .pure hs rfl
  | cons e es ih =>
    have hnext := ih (s := { s with staged := (e.1, ⟨.values, .int e.2⟩) :: s.staged }) hs
    have hstep : (do
        define e.1 ⟨.values, .int e.2⟩
        return ForInStep.yield PUnit.unit : Production (ForInStep PUnit)) s =
        .ok (.yield PUnit.unit, { s with staged := (e.1, ⟨.values, .int e.2⟩) :: s.staged }) := rfl
    rw [List.forIn_cons]
    exact .bind_run hstep rfl hnext

/-- What is in sight is the enumeration with the values of its members. -/
def EnumDef.InSight (name : String) (d : EnumDef) (ds : Definitions) : Prop :=
  ds.get? .enums name = some ⟨.enums, d⟩ ∧
    ∀ m v, d.get? m = some v → ds.get? .values m = some ⟨.values, .int v⟩

/-- An enumeration that is defined is in sight, and no value gets out of sight. -/
theorem ends_defineEnum (name : String) (d : EnumDef) (hs : s.kinds = ks)
    (hvalues : ∀ m v, d.get? m = some v → (src.sight s).get? .values m = some ⟨.values, .int v⟩) :
    src.Ends (defineEnum name d) s () ks (d.InSight name) := by
  refine ⟨_, rfl, hs, rfl, ?_⟩
  show d.InSight name (((src.sight s).insert name ⟨.enums, d⟩).insert ("enum" ++ " " ++ name)
    ⟨.types, .named ("enum" ++ " " ++ name)⟩)
  have hothers : ∀ (c : Category) (n : String), c ≠ .types →
      (((src.sight s).insert name ⟨.enums, d⟩).insert ("enum" ++ " " ++ name)
        ⟨.types, .named ("enum" ++ " " ++ name)⟩).get? c n =
      ((src.sight s).insert name ⟨.enums, d⟩).get? c n := by
    intro c n hc
    rw [Definitions.get?_insert, if_neg fun h => hc h.1]
  refine ⟨?_, fun m v hm => ?_⟩
  · rw [hothers _ _ (by decide)]
    exact Definitions.get?_insert_self _ name ⟨.enums, d⟩
  · rw [hothers _ _ (by decide), Definitions.get?_insert, if_neg fun h => (by cases h.1)]
    exact hvalues m v hm

/-- An enumeration with members is defined, and so are the values of its members. -/
theorem ends_defineMembers (name : String) {d : EnumDef} (hd : d.members.entries ≠ [])
    (hs : s.kinds = ks) : src.Ends (src.defineMembers name d) s () ks (d.InSight name) := by
  have hsome : d.isEmpty = false := List.isEmpty_eq_false_iff.2 hd
  rw [defineMembers]
  refine .bind_run (get_run s) rfl ?_
  simp only [hsome, Bool.not_false, Bool.true_or, if_true]
  refine .bind (ends_forIn_define d.members.entries hs) fun t ht hsight => ?_
  refine ends_defineEnum name d ht fun m v hm => ?_
  rw [hsight]
  exact Definitions.get?_insertValues d.members.nodup (OrderedMap.mem_entries_of_get? hm) _

/-- **The tokens of an enumeration define it**, with the values of its members. One without members is
only declared, which defines it where its name is new. -/
theorem ends_enumeration {name : String} (hname : src.grammar.isKeyword name = false) {d : EnumDef}
    (hd : d.Writable src.grammar) (hnew : src.visible? s .enums name = none)
    (hsrc : d.members.entries.length < src.fuel)
    (hs : s.kinds = aggregateKinds "enum" name (d.members.entries.map EnumDef.memberKinds) ++
      .punct .semi :: ks) :
    src.Ends src.enumeration { s with rest := s.rest.drop 1 } ("enum " ++ name) (.punct .semi :: ks)
      (d.InSight name) := by
  obtain ⟨rest, hrest, hbody⟩ := name?_run hname hs
  rw [enumeration]
  refine .bind_run hrest rfl ?_
  by_cases hnil : d.members.entries = []
  · obtain rfl : d = .empty := by
      obtain ⟨⟨entries, hnodup⟩⟩ := d
      cases hnil
      rfl
    have hvisible : src.visible? { s with rest } .enums name = none := hnew
    have hbrace : rest.head?.map (·.kind) ≠ some (.punct .lbrace) := by
      rw [← List.head?_map, hbody]
      exact fun h => by cases h
    refine .bind_run (accept_of_not_head hbrace) rfl ?_
    rw [if_neg Bool.false_ne_true]
    refine .bind_run (get_run _) rfl ?_
    rw [hvisible, Option.isNone_none, if_pos rfl]
    exact .bind (ends_defineEnum name .empty hbody fun m v hm => by cases hm)
      fun t ht hsight => .pure ht hsight
  · have hmembers : d.members.entries.map EnumDef.memberKinds ≠ [] := mt List.map_eq_nil_iff.1 hnil
    have hkeys : ∀ e ∈ d.members.entries, src.grammar.isKeyword e.1 = false :=
      fun e he => (hd e.1 (List.mem_map_of_mem he)).2
    rw [bodyKinds_append hmembers] at hbody
    refine .bind_reads (reads_accept .lbrace) hbody fun s hs => ?_
    rw [if_pos rfl]
    refine .bind_reads (reads_enumMembers hkeys hsrc .empty) hs fun s hs => ?_
    rw [d.foldl_insert]
    refine .bind_reads (reads_expect .rbrace) hs fun s hs => ?_
    show src.Ends (src.defineMembers name d >>= fun _ => pure ("enum " ++ name)) s _ _ _
    exact .bind (ends_defineMembers name hnil hs) fun t ht hsight => .pure ht hsight

/-! ### Declarations of tags -/

/-- The keyword of a structure or union leads to its production. -/
theorem typeName_compound (kind : CompoundKind) (hs : word? s.rest = some kind.keyword) (fuel : Nat) :
    src.typeName (fuel + 1) s = src.compound fuel kind s := by
  rw [typeName, Production.bind_run (get_run s), hs]
  cases kind <;> rfl

/-- The keyword of an enumeration leads to its production, behind it. -/
theorem typeName_enumeration (hs : word? s.rest = some "enum") (fuel : Nat) :
    src.typeName (fuel + 1) s = src.enumeration { s with rest := s.rest.drop 1 } := by
  rw [typeName, Production.bind_run (get_run s), hs]
  rfl

/-- A word of the grammar that is neither a storage class nor a qualifier begins the type. -/
theorem leadingWords_of_word {word : String} (hstorage : src.grammar.isStorage word = false)
    (hqualifier : src.grammar.isQualifier word = false)
    (hmodifier : src.grammar.isModifier word = false) (hkey : src.grammar.isKeyword word = true)
    (hs : word? s.rest = some word) (k : Nat) :
    src.leadingWords (k + 1) [] [] s = .ok (([], []), s) := by
  have hends : src.EndsQualifiers s.kinds := by
    obtain ⟨ks, hks⟩ := List.head?_eq_some_iff.1 (head?_of_word? hs)
    rw [hks]
    exact endsQualifiers_word hqualifier hmodifier (Or.inl hkey)
  have hword : (word? s.rest).filter src.grammar.isStorage = none := by
    rw [hs]
    simp [hstorage]
  rw [leadingWords, Production.bind_run (get_run s), hword]
  show (get >>= _ : Production (List String × Qualifiers)) s = _
  rw [Production.bind_run (get_run s), hends.qualifier?_eq_none rfl]
  rfl

/-- No qualifier and no storage class stands before the keyword of a type. -/
theorem leadingWords_keyword (hg : src.grammar.Proper) {keyword : String}
    (hkeyword : keyword ∈ src.grammar.fundamentalWords ++ Grammar.tagWords)
    (hs : word? s.rest = some keyword) (k : Nat) :
    src.leadingWords (k + 1) [] [] s = .ok (([], []), s) := by
  obtain ⟨hq, hm, hstorage⟩ := hg.typeWord keyword hkeyword
  have hkey : src.grammar.isKeyword keyword = true := by
    rcases List.mem_append.1 hkeyword with hfundamental | htag
    · have hword : src.grammar.isFundamental keyword = true := List.contains_iff_mem.2 hfundamental
      simp only [Grammar.isKeyword, hword, Bool.true_or]
    · have hreserved : keyword ∈ Grammar.reservedWords := List.mem_of_mem_take (i := 3) htag
      simp only [Grammar.isKeyword, List.contains_iff_mem.2 hreserved, Bool.or_true]
  exact leadingWords_of_word hstorage hq hm hkey hs k

/-- A word that is not the expected one is not passed. -/
theorem acceptWord_of_ne {word expected : String} (hs : word? s.rest = some word)
    (hne : word ≠ expected) : acceptWord expected s = .ok (false, s) := by
  rw [acceptWord, Production.bind_run (get_run s), hs, if_neg fun h => hne (Option.some.inj h)]
  rfl

/-- A tag that is declared alone is all that its declaration holds. -/
theorem ends_declaration {keyword : String} (hkeyword : keyword ∈ Grammar.tagWords)
    (hs : word? s.rest = some keyword) {fuel : Nat} (hfuel : src.fuel = fuel + 1)
    (hleading : src.leadingWords (fuel + 1) [] [] s = .ok (([], []), s)) {base : String}
    (h : src.Ends (src.typeName fuel) s base (.punct .semi :: ks) P) :
    src.Ends src.declaration s () ks P := by
  have hword : acceptWord "typedef" s = .ok (false, s) := by
    refine acceptWord_of_ne hs ?_
    rintro rfl
    exact absurd hkeyword (by decide)
  have hspecifiers : src.Ends (src.specifiers src.fuel) s ⟨[], .base base []⟩
      (.punct .semi :: ks) P := by
    rw [hfuel, specifiers, hfuel]
    refine .bind_run hleading rfl ?_
    exact .bind h fun t ht hsight => .pure ht hsight
  rw [Source.declaration]
  refine .bind_run hword rfl ?_
  rw [if_neg Bool.false_ne_true]
  refine .bind hspecifiers fun t ht hsight => ?_
  obtain ⟨u, ts, hts, hu, hks⟩ := List.map_eq_cons_iff.1 ht
  refine .bind_run (accept_of_head hts hu) rfl ?_
  rw [if_pos rfl]
  exact .pure hks hsight

end

/-! ### Headers of one declaration -/

section

variable {g : Grammar} {text : String}

/-- A word that sets no linkage begins a declaration. -/
theorem HeaderText.step_of_word {h : HeaderText} {s : HeaderState} {w : String}
    (hword : word? s.stage.rest = some w) (hw : w ≠ "extern") : h.step s = h.declaration s := by
  obtain ⟨u, ts, hrest, hu⟩ := word?_eq_some hword
  have hlinkage : linkage? (u :: ts) = none := by
    cases ts with
    | nil => rfl
    | cons v ts => simp [linkage?, hu, hw]
  have hlinked : h.linked s = h.declaration s := by
    simp [HeaderText.linked, hrest, hu]
  rw [HeaderText.step, hrest]
  simp only [hu, hlinkage, hlinked]
  rw [if_neg (by simp)]

/-- What a declaration without an error has staged is taken over. -/
theorem HeaderText.declaration_eq {h : HeaderText} {s : HeaderState} {t : Stage}
    (hrun : (h.source s.registry).declaration s.stage = .ok ((), t)) (herrors : t.errors = []) :
    h.declaration s = { s with
      stage := { t with staged := [] }
      registry := s.registry.insertAll h.file t.staged.reverse } := by
  rw [HeaderText.declaration, hrun]
  simp only [commit, herrors, List.take_nil, List.isEmpty_nil, if_true]
  rfl

/-- A header that holds one declaration is read without a fault, and defines what the declaration
stages. -/
theorem parseFile_of_declaration (registry : Registry) (file : String) (packing : PackingLog)
    {word : String} (hword : word? (tokenize text) = some word) (hne : word ≠ "extern") {src : Source}
    (hsrc : src = .ofTokens g registry packing text.toList (tokenize text)) {t : Stage}
    (hrun : src.declaration ⟨tokenize text, [], []⟩ = .ok ((), t)) (hrest : t.rest = [])
    (herrors : t.errors = []) :
    g.parseFile registry file packing text = (registry.insertAll file t.staged.reverse, .clean) := by
  let h := g.header registry file packing text
  let start := HeaderState.start registry text
  have hsource : h.source start.registry = src := hsrc.symm
  obtain ⟨u, ts, htokens, -⟩ := word?_eq_some hword
  -- the declaration is the only turn of the loop
  have hone : h.run 1 start = h.declaration start := by
    have hstep : h.step start = h.declaration start := HeaderText.step_of_word hword hne
    have hmore : start.stage.rest.isEmpty = false := by
      rw [show start.stage.rest = tokenize text from rfl, htokens]
      rfl
    rw [HeaderText.run, hmore, if_neg Bool.false_ne_true, hstep]
    rfl
  have hdeclaration := HeaderText.declaration_eq (h := h) (s := start) (by rw [hsource]; exact hrun)
    herrors
  have hall : h.run (tokenize text).length start = h.declaration start := by
    have hend : (h.run 1 start).stage.rest = [] := by
      rw [hone, hdeclaration]
      exact hrest
    rw [HeaderText.run_of_le (m := 1) (by rw [htokens]; exact Nat.succ_pos _) hend, hone]
  rw [parseFile_eq_run, hall, hdeclaration]
  rfl

/-- A header that holds one declaration, that of a tag, is read without a fault; then what was in sight
is defined. -/
theorem parseFile_of_tag (registry : Registry) (file : String) (packing : PackingLog) {keyword : String}
    (hkeyword : keyword ∈ Grammar.tagWords) (hword : word? (tokenize text) = some keyword)
    {src : Source} (hsrc : src = .ofTokens g registry packing text.toList (tokenize text))
    {P : Definitions → Prop} (h : src.Ends src.declaration ⟨tokenize text, [], []⟩ () [] P) :
    ∃ r, g.parseFile registry file packing text = (r, .clean) ∧ P r.flat := by
  obtain ⟨t, hrun, ht, herrors, hsight⟩ := h
  have hne : keyword ≠ "extern" := by
    rintro rfl
    exact absurd hkeyword (by decide)
  refine ⟨_, parseFile_of_declaration registry file packing hword hne hsrc hrun
    (List.map_eq_nil_iff.1 ht) herrors, ?_⟩
  rw [Registry.flat_insertAll, List.foldl_reverse]
  rw [hsrc] at hsight
  exact hsight

theorem length_le_bodyKinds (members : List (List TokenKind)) :
    members.flatten.length ≤ (bodyKinds members).length := by
  cases members with
  | nil => exact Nat.le_refl 0
  | cons m members =>
    rw [bodyKinds, List.length_cons, List.length_append]
    omega

/-- The tokens of a definition with a semicolon behind it: its keyword, and enough others for all of
its members. -/
theorem tokenize_definition {definition keyword name : String} {members : List (List TokenKind)}
    (h : ∀ r : List Char, r.head?.all endsWord = true →
      kindsOf (definition.toList ++ r) = aggregateKinds keyword name members ++ kindsOf r) :
    (tokenize (definition ++ ";")).map (·.kind) =
        aggregateKinds keyword name members ++ [.punct .semi] ∧
      word? (tokenize (definition ++ ";")) = some keyword ∧
      members.flatten.length + 3 ≤ (tokenize (definition ++ ";")).length := by
  have hsemi : kindsOf (Punct.semi.text.toList ++ []) = .punct .semi :: kindsOf [] :=
    kindsOf_separator (by decide) []
  have htext : (definition ++ ";").toList = definition.toList ++ (Punct.semi.text.toList ++ []) := by
    rw [String.toList_append, List.append_nil]
    rfl
  have hkinds : (tokenize (definition ++ ";")).map (·.kind) =
      aggregateKinds keyword name members ++ [.punct .semi] := by
    show kindsOf (definition ++ ";").toList = _
    rw [htext, h _ rfl, hsemi, kindsOf_nil]
  have hlength := congrArg List.length hkinds
  have hbody := length_le_bodyKinds members
  rw [List.length_map, List.length_append, aggregateKinds] at hlength
  simp only [List.length_cons, List.length_nil] at hlength
  exact ⟨hkinds, word?_of_kinds (s := ⟨tokenize (definition ++ ";"), [], []⟩) hkinds, by omega⟩

/-- **A structure or union is read back as it was written**, where its name is new. -/
theorem parseFile_compound (hg : g.Proper) (registry : Registry) (file : String)
    (kind : CompoundKind) {name : String} (hident : isIdentifier name.toList = true)
    (hname : g.isKeyword name = false) {c : Compound} (hpack : c.pack = none)
    (hfields : ∀ f ∈ c.fields, f.Writable g)
    (hnew : registry.flat.get? (kind.definition c).category name = none) :
    ∃ r, g.parseFile registry file .initial (c.render kind.keyword name ++ ";") = (r, .clean) ∧
      r.flat.get? (kind.definition c).category name = some (kind.definition c) := by
  obtain ⟨hkinds, hword, hlength⟩ := tokenize_definition fun r hr => c.kindsOf_render hg hfields
    (Grammar.isIdentifier_of_mem_tagWords kind.keyword_mem) hident (r := r) hr
  generalize c.render kind.keyword name ++ ";" = text at hkinds hword hlength ⊢
  let src := Source.ofTokens g registry .initial text.toList (tokenize text)
  have hfuel : src.fuel = 8 * (tokenize text).length + 6 + 1 + 1 := rfl
  have hvisible : src.visibleCompound? ⟨tokenize text, [], []⟩ kind name = none := by
    cases kind <;> exact Option.map_eq_none_iff.1 hnew
  have hproper : src.grammar.Proper := hg
  have hends := ends_compound hproper packAt_initial kind hname hpack hfields hvisible
    (show _ < 8 * (tokenize text).length + 5 by omega) (by omega) hkinds
  have htype := Ends.of_eq (typeName_compound kind hword _) rfl hends
  have hleading : src.leadingWords (8 * (tokenize text).length + 8) [] [] ⟨tokenize text, [], []⟩ =
      .ok (([], []), ⟨tokenize text, [], []⟩) :=
    leadingWords_keyword hproper (List.mem_append_right _ kind.keyword_mem) hword _
  exact parseFile_of_tag registry file .initial kind.keyword_mem hword rfl
    (ends_declaration kind.keyword_mem hword hfuel hleading htype)

/-- **An enumeration is read back as it was written**, and so are the values of its members, where its
name is new. -/
theorem parseFile_enum (hg : g.Proper) (registry : Registry) (file : String) {name : String}
    (hident : isIdentifier name.toList = true) (hname : g.isKeyword name = false) {d : EnumDef}
    (hd : d.Writable g) (hnew : registry.flat.get? .enums name = none) :
    ∃ r, g.parseFile registry file .initial (d.render name ++ ";") = (r, .clean) ∧
      d.InSight name r.flat := by
  obtain ⟨hkinds, hword, hlength⟩ := tokenize_definition fun r hr =>
    EnumDef.kindsOf_render hd hident (r := r) hr
  generalize d.render name ++ ";" = text at hkinds hword hlength ⊢
  let src := Source.ofTokens g registry .initial text.toList (tokenize text)
  have hfuel : src.fuel = 8 * (tokenize text).length + 6 + 1 + 1 := rfl
  have hvisible : src.visible? ⟨tokenize text, [], []⟩ .enums name = none :=
    Option.map_eq_none_iff.1 hnew
  have hmembers := length_le_flatMap (f := EnumDef.memberKinds) (fun m => List.cons_ne_nil _ _)
    d.members.entries
  rw [List.flatMap_def] at hmembers
  have hword' : src.grammar.isKeyword name = false := hname
  have hends := ends_enumeration hword' hd hvisible (by omega) hkinds
  have htype := Ends.of_eq (typeName_enumeration hword (8 * (tokenize text).length + 6)) rfl hends
  have htag : "enum" ∈ Grammar.tagWords := by decide
  have hproper : src.grammar.Proper := hg
  have hleading : src.leadingWords (8 * (tokenize text).length + 8) [] [] ⟨tokenize text, [], []⟩ =
      .ok (([], []), ⟨tokenize text, [], []⟩) :=
    leadingWords_keyword hproper (List.mem_append_right _ htag) hword _
  exact parseFile_of_tag registry file .initial htag hword rfl
    (ends_declaration htag hword hfuel hleading htype)

end

/-- **Aggregates are read back as they were written.** The text of a structure or union that has no
packing defines it under its name, where that is new; the text of an enumeration defines it, with the
values of its members. Nothing is skipped or in error. -/
theorem parseFile_render (registry : Registry) (file : String) {name : String}
    (hident : isIdentifier name.toList = true) (hname : Grammar.standard.isKeyword name = false) :
    (∀ (kind : CompoundKind) (c : Compound), c.pack = none →
      (∀ f ∈ c.fields, f.Writable .standard) →
      registry.flat.get? (kind.definition c).category name = none →
      ∃ r, Grammar.standard.parseFile registry file .initial (c.render kind.keyword name ++ ";") =
          (r, .clean) ∧
        r.flat.get? (kind.definition c).category name = some (kind.definition c)) ∧
    ∀ d : EnumDef, d.Writable .standard → registry.flat.get? .enums name = none →
      ∃ r, Grammar.standard.parseFile registry file .initial (d.render name ++ ";") = (r, .clean) ∧
        r.flat.get? .enums name = some ⟨.enums, d⟩ ∧
        ∀ m v, d.get? m = some v → r.flat.get? .values m = some ⟨.values, .int v⟩ :=
  ⟨fun kind _ hpack hfields hnew =>
      parseFile_compound Grammar.standard_proper registry file kind hident hname hpack hfields hnew,
    fun _ hd hnew => parseFile_enum Grammar.standard_proper registry file hident hname hd hnew⟩

/-- A list cell that points to another, with a bit field that has a value, and bits without a name. -/
def listCell : Compound :=
  { Compound.empty with
    fields :=
      [⟨some "next", .pointer (.base "struct cell" []) [], none, none⟩,
       ⟨some "tags", .array (.base "char" ["const"]) (some 2) [],
        some (.list [.int (Int64.ofInt (-1)), .str "a\n\"", .list []]), some 3⟩,
       ⟨none, .base "int" [], none, some 4⟩] }

/-- The ends of the range of values. -/
def rangeEnds : EnumDef := ⟨⟨[("low", Int64.minValue), ("high", Int64.maxValue)], by decide⟩⟩

theorem parseFile_listCell :
    isIdentifier "cell".toList = true ∧ Grammar.standard.isKeyword "cell" = false ∧
      (∀ f ∈ listCell.fields, f.Writable .standard) ∧ rangeEnds.Writable .standard ∧
      (∃ r, Grammar.standard.parseFile .empty "cell.h" .initial
          (listCell.render "struct" "cell" ++ ";") = (r, .clean) ∧
        r.flat.get? .structs "cell" = some ⟨.structs, listCell⟩) ∧
      ∃ r, Grammar.standard.parseFile .empty "cell.h" .initial (rangeEnds.render "cell" ++ ";") =
          (r, .clean) ∧
        r.flat.get? .values "low" = some ⟨.values, .int Int64.minValue⟩ := by
  have hident : isIdentifier "cell".toList = true := by decide
  have hname : Grammar.standard.isKeyword "cell" = false := by decide
  have hnames : ∀ w ∈ ["next", "tags", "cell"], Grammar.standard.IsName w := by
    unfold Grammar.IsName
    decide
  have hconst : Grammar.standard.IsQuals ["const"] := by
    unfold Grammar.IsQuals
    decide
  have hwords : ∀ w ∈ ["char", "int"], Grammar.standard.isFundamental w = true := by decide
  have hbuiltIn : ∀ w ∈ ["char", "int"], Grammar.standard.IsBase w := by
    intro w hw
    have h : Grammar.standard.IsBase (" ".intercalate [w]) := by
      refine .builtIn (by simp) fun v hv => ?_
      rw [List.mem_singleton.1 hv]
      exact hwords w hw
    rwa [String.intercalate_singleton] at h
  have hcell : Grammar.standard.IsBase "struct cell" :=
    have h : Grammar.standard.IsBase ("struct" ++ " " ++ "cell") :=
      .tag (by decide) (hnames "cell" (by decide))
    h
  have hnone : ∀ {α : Type} {P : α → Prop}, ∀ v ∈ (none : Option α), P v :=
    fun v hv => by cases hv
  have hfieldName : ∀ w ∈ ["next", "tags"], ∀ n ∈ some w, Grammar.standard.IsName n := by
    intro w hw n hn
    obtain rfl := Option.some.inj hn
    exact hnames w (List.mem_of_mem_take (i := 2) hw)
  have hfields : ∀ f ∈ listCell.fields, f.Writable .standard := by
    intro f hf
    simp only [listCell, List.mem_cons, List.not_mem_nil, or_false] at hf
    rcases hf with rfl | rfl | rfl
    · exact ⟨⟨hfieldName "next" (by decide), by simp, .nil, hcell, .nil⟩, hnone, by simp⟩
    · have hsize : ∀ n ∈ some (2 : UInt64), n.toNat < 2 ^ 63 := by simp
      have htext : '\x00' ∉ "a\n\"".toList := by decide
      have hvalue : ∀ v ∈ some (Value.list [.int (Int64.ofInt (-1)), .str "a\n\"", .list []]),
          v.IsLiteral := by
        intro v hv
        obtain rfl := Option.some.inj hv
        exact ⟨trivial, htext, trivial, trivial⟩
      have hchar : (CType.base "char" ["const"]).Legal .standard :=
        ⟨hbuiltIn "char" (by decide), hconst⟩
      exact ⟨⟨hfieldName "tags" (by decide), by simp, rfl, hsize, rfl, hchar⟩, hvalue, by simp⟩
    · exact ⟨⟨hnone, fun _ => rfl, hbuiltIn "int" (by decide), .nil⟩, hnone, fun _ => ⟨rfl, rfl⟩⟩
  have hmembers : rangeEnds.Writable .standard := by
    unfold EnumDef.Writable
    decide
  obtain ⟨hcompound, henum⟩ := parseFile_render .empty "cell.h" hident hname
  obtain ⟨r, hparse, -, hvalues⟩ := henum rangeEnds hmembers rfl
  exact ⟨hident, hname, hfields, hmembers, hcompound .struct listCell rfl hfields rfl, r, hparse,
    hvalues "low" _ rfl⟩

example : listCell.render "struct" "cell" =
    "struct cell \x7b\n    struct cell *next;\n" ++
      "    const char tags[2] : 3 = \x7b-1, \"a\\n\\\"\", \x7b\x7d\x7d;\n    int : 4;\n\x7d" := by
  decide

end CInterface
