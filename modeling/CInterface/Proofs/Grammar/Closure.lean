import CInterface.Proofs.Grammar.TagsKept
import CInterface.Proofs.Grammar.Turns
import CInterface.Proofs.Token.Fusing
/-!
# Reading a header keeps registries closed

A closed registry has the aggregate of every tag that occurs in it. Whatever a header declares ahead,
leaves without a body or defines again, and wherever a declaration of it is dropped or given up, the
registry is closed behind it as before, and no aggregate has lost all its members.

* `isPlain_of_mem_tokenize` — words have no blanks, so no declared name is a tag with its keyword.
* `HeaderText.Turn.keeps` — what one turn of the loop over a header does to the registry.
* `parseFile_keeps` — the reading of a whole header.
-/

namespace CInterface

open Text

/-! ### Words of a text -/

theorem not_mem_of_nextToken {c : Char} {r : List Char} {word : String}
    (h : (nextToken c r).1 = .ident word) : ' ' ∉ word.toList := by
  obtain ⟨hlongest, htext⟩ := nextToken_eq (n := (nextToken c r).2) (Prod.ext h rfl) nofun
  have hlength : identLength (c :: r) = (nextToken c r).2 + 1 := LexClass.length_longest hlongest
  rw [identLength] at hlength
  split at hlength
  · rename_i hc
    have htake : r.take (nextToken c r).2 = r.takeWhile isIdentTail := by
      rw [← Nat.succ.inj hlength]
      exact (List.prefix_iff_eq_take.1 (List.takeWhile_prefix isIdentTail)).symm
    rw [show word.toList = _ from htext, htake]
    intro hmem
    cases List.mem_cons.1 hmem with
    | inl hhead =>
      rw [← hhead] at hc
      exact absurd hc (by decide)
    | inr htail => exact absurd (List.all_eq_true.1 List.all_takeWhile _ htail) (by decide)
  · cases hlength

theorem isPlain_of_mem_tokensFrom {offset : Nat} {cs : List Char} {t : Token}
    (h : t ∈ tokensFrom offset cs) : t.IsPlain := by
  fun_induction tokensFrom offset cs with
  | case1 => cases h
  | case2 offset c r _ ih => exact ih h
  | case3 offset c r _ kind n hnext stop ih =>
    cases List.mem_cons.1 h with
    | inl hhead =>
      intro word hword
      rw [hhead] at hword
      exact not_mem_of_nextToken (c := c) (r := r) (by rw [hnext]; exact hword)
    | inr htail => exact ih htail

/-- No word of a text has a blank in it. -/
theorem isPlain_of_mem_tokenize {text : String} {t : Token} (h : t ∈ tokenize text) : t.IsPlain :=
  isPlain_of_mem_tokensFrom h

/-! ### The registry -/

/-- What a reading keeps of the definitions: that they are closed, and the aggregates with their
members. -/
structure Definitions.Keeps (d e : Definitions) : Prop where
  closed : d.Closed → e.Closed
  extended : d.Extends e

theorem Definitions.Keeps.refl (d : Definitions) : d.Keeps d := ⟨id, .refl d⟩

theorem Definitions.Keeps.trans {d e f : Definitions} (h : d.Keeps e) (h' : e.Keeps f) : d.Keeps f :=
  ⟨fun hd => h'.closed (h.closed hd), h.extended.trans h'.extended⟩

/-- A declaration that matches without an error keeps what the registry holds. -/
theorem keeps_of_declaration {src : Source} {ts : List Token} {t : Stage}
    (hplain : ∀ u ∈ ts, u.IsPlain) (hrun : src.declaration ⟨ts, [], []⟩ = .ok ((), t))
    (herrors : t.errors = []) (file : String) :
    src.registry.flat.Keeps (src.registry.insertAll file t.staged.reverse).flat := by
  have hgiven : ∀ f ∈ ([] : List Fact), f.Holds (src.sight ⟨ts, [], []⟩) :=
    fun f hf => absurd hf List.not_mem_nil
  obtain ⟨hadvances, hend⟩ := silent_declaration ⟨ts, [], []⟩ hplain () t hrun
  have hsight : (src.registry.insertAll file t.staged.reverse).flat = src.sight t := by
    rw [Registry.flat_insertAll, List.foldl_reverse]
    rfl
  rw [hsight]
  exact ⟨fun hclosed => (hend herrors hclosed hgiven).1, hadvances.extends_sight⟩

/-- **One turn of the loop keeps the registry closed.** -/
theorem HeaderText.Turn.keeps {h : HeaderText} {s s' : HeaderState} (hturn : h.Turn s s')
    (hs : s.Idle) (hplain : ∀ t ∈ s.stage.rest, t.IsPlain) :
    s.registry.flat.Keeps s'.registry.flat := by
  cases hturn with
  | semicolon _ _ hnext | opened _ hnext | closed _ _ _ _ hnext | skipped _ _ hnext =>
    rw [hnext]
    exact .refl _
  | matched _ hrun hnext =>
    rw [hs.ahead_stage] at hrun
    rw [hnext, commit_eq (s := s.ahead) hs]
    split
    · rename_i herrors
      have htokens : ∀ t ∈ declarationTokens s.stage.rest, t.IsPlain :=
        fun t ht => hplain t ((declarationTokens_suffix _).subset ht)
      exact keeps_of_declaration htokens hrun herrors h.file
    · exact .refl _

/-- All turns keep the registry closed. -/
theorem HeaderText.keeps_run (h : HeaderText) {s : HeaderState} (hs : s.Idle)
    (hplain : ∀ t ∈ s.stage.rest, t.IsPlain) (n : Nat) :
    s.registry.flat.Keeps (h.run n s).registry.flat := by
  induction n with
  | zero => exact .refl _
  | succ n ih =>
    rcases h.turn_run n s with ⟨-, hstay⟩ | ⟨-, hturn⟩
    · rw [hstay]
      exact ih
    · have hsuffix : (h.run n s).stage.rest <:+ s.stage.rest := run_suffix hs n.zero_le
      exact ih.trans (hturn.keeps (idle_run hs n) fun t ht => hplain t (hsuffix.subset ht))

/-- **No header leaves a tag without its aggregate, or an aggregate without its members.** The
reading of any text takes a closed registry to a closed registry; and from any registry, an aggregate
that has a member has one afterwards. -/
theorem parseFile_keeps (g : Grammar) (registry : Registry) (file : String) (packing : PackingLog)
    (text : String) :
    let after := (g.parseFile registry file packing text).1.flat
    (registry.flat.Closed → after.Closed) ∧
      ∀ (k : TagKind) (name : String), registry.flat.hasMembers k name = true →
        after.hasMembers k name = true := by
  intro after
  have hkeeps : registry.flat.Keeps after :=
    (g.header registry file packing text).keeps_run (idle_start registry text)
      (fun t ht => isPlain_of_mem_tokenize ht) (tokenize text).length
  exact ⟨hkeeps.closed, hkeeps.extended.members⟩

/-! ### A list node -/

/-- A node that is declared ahead of its body. -/
def nodeAhead : Definitions :=
  (Definitions.empty.insert "node" ⟨.structs, .empty⟩).insert "struct node"
    ⟨.types, .named "struct node"⟩

/-- A node that points to another. -/
def nodeView : Definitions :=
  (nodeAhead.insert "node"
    ⟨.structs, { Compound.empty with
      fields := [⟨some "next", .pointer (.named "struct node") [], none, none⟩] }⟩).insert
      "struct node" ⟨.types, .named "struct node"⟩

/-- A text that declares the node again without a body and with an empty one, refers ahead, and
fails in the middle of an aggregate. -/
def nodeText : String :=
  "struct node; struct node \x7b\x7d; union box \x7b struct later *p; enum \x7b on, off \x7d s; \x7d;" ++
  " struct broken \x7b struct lost *q; ] \x7d;"

theorem closed_empty : Definitions.empty.Closed := by
  constructor
  · intro c name x hx
    cases c <;> cases hx
  · intro k name hk
    cases k <;> cases hk

theorem closed_nodeAhead : nodeAhead.Closed :=
  closed_empty.insertAggregate (k := .struct) rfl fun _ hb => absurd hb List.not_mem_nil

theorem closed_nodeView : nodeView.Closed := by
  refine closed_nodeAhead.insertAggregate (k := .struct) rfl fun b hb => ?_
  obtain rfl := List.mem_singleton.1 hb
  have hnode : nodeAhead.contains TagKind.struct.category "node" = true := by decide
  exact Definitions.known_tag hnode

theorem parseFile_keeps_nodeView :
    let after := (Grammar.standard.parseFile ⟨nodeView, .empty⟩ "node.h" .initial nodeText).1.flat
    nodeView.Closed ∧ nodeView.hasMembers .struct "node" = true ∧
      after.Closed ∧ after.hasMembers .struct "node" = true := by
  intro after
  have hmembers : nodeView.hasMembers .struct "node" = true := by decide
  obtain ⟨hclosed, hkept⟩ :=
    parseFile_keeps Grammar.standard ⟨nodeView, .empty⟩ "node.h" .initial nodeText
  exact ⟨closed_nodeView, hmembers, hclosed closed_nodeView, hkept .struct "node" hmembers⟩

end CInterface
