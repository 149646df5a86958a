import LeanFlow.Goals.Planned
import LeanFlow.Source.LeanDeclarations

/-! Helpers that say what an ancestor says.

What a statement claims is what Lean reads behind the name of its declaration
(`stated_claim`). The check of a proposal compares texts instead, cut off behind one of
four keywords. It sees through the names and the white space of plain statements
(`normalized_of_plain`), and `proposal_preserves` is exact about the others. -/
namespace LeanFlow.Goals
open General Source

/-! ### Claims -/

section Claims

variable (C : CharClass) (symbols : List Text)

/-- The declaration of a statement. -/
def declared (statement : Text) : Option LeanDeclaration := (lex symbols statement).bind fun tokens => (lean_declarations tokens).head?

/-- The tokens behind the name of the declaration. -/
def claim_tokens (statement : Text) : Option (List LeanToken) :=
  (declared symbols statement).bind fun d => lex symbols (d.named.drop (identifier d.named).length)

/-- What a statement claims, without name, white space and comments. -/
def stated_claim (statement : Text) : Option (List Text) :=
  (claim_tokens symbols statement).map fun tokens => (tokens.filter fun token => !token.white).map (·.text)

/-- Two nodes claim the same. -/
def SameClaim (a b : Node) : Prop :=
  ∃ claim, stated_claim symbols a.statement.toList = some claim ∧ stated_claim symbols b.statement.toList = some claim

/-- A statement that starts with a keyword and the node's name, and has no comments and nothing quoted in its claim. -/
structure PlainClaim (node : Node) : Prop where
  keyword : ∀ d, declared symbols node.statement.toList = some d →
    ((claim_keyword C).matchStart node.statement.toList).map (·.rest) = some d.named
  name : ∀ d, declared symbols node.statement.toList = some d → identifier d.named = node.name.toList
  comments : ∀ tokens, claim_tokens symbols node.statement.toList = some tokens → ∀ token ∈ tokens,
    token.kind ≠ .line_comment ∧ token.kind ≠ .block_comment
  quotes : ∀ tokens, claim_tokens symbols node.statement.toList = some tokens → ∀ token ∈ tokens,
    '"' ∉ token.text ∧ '«' ∉ token.text

end Claims

section Plain

variable {C : CharClass} {symbols : List Text}

/-- Without quotes the expression finds the characters that are no white space, one by one. -/
theorem findall_plain {text : Text} (h : ∀ c ∈ text, c ≠ '"' ∧ c ≠ '«') (before : Option Char) :
    ((claim_token C).findall text.length before text).flatten = text.filter fun c => !C.space c := by
  induction text generalizing before with
  | nil => rfl
  | cons c text ih =>
    obtain ⟨⟨hstring, hquote⟩, htext⟩ := List.forall_mem_cons.mp h
    have hrun : Regex.run (claim_token C) ⟨before, c :: text, []⟩ some =
        if C.space c = true then none else some ⟨some c, text, []⟩ := by
      have hc : (c == '"') = false ∧ (c == '«') = false := ⟨beq_eq_false_iff_ne.mpr hstring, beq_eq_false_iff_ne.mpr hquote⟩
      cases hspace : C.space c <;>
        simp [claim_token, Regex.any, Regex.all, Pattern.text, Regex.word, Regex.run, hc, hspace]
    rw [List.length_cons, Regex.findall, hrun, List.filter_cons]
    by_cases hspace : C.space c = true
    · rw [if_pos hspace, hspace]
      exact ih htext (some c)
    · rw [if_neg hspace, Bool.not_eq_true] at *
      rw [hspace]
      have hone : Regex.At.upTo ⟨before, c :: text, []⟩ ⟨some c, text, []⟩ = [c] := by
        simp [Regex.At.upTo]
      simp [hone, ih htext]

/-- The check reads the claim of a plain statement. -/
theorem normalized_of_plain {node : Node} {claim : List Text} (hplain : PlainClaim C symbols node)
    (hclaim : stated_claim symbols node.statement.toList = some claim) :
    normalized_claim C node = claim.flatten.filter fun c => !C.space c := by
  obtain ⟨tokens, htokens, rfl⟩ := Option.map_eq_some_iff.mp hclaim
  obtain ⟨d, hd, hlex⟩ := Option.bind_eq_some_iff.mp htokens
  have hname := hplain.name d hd
  have htext : tokens.flatMap (·.text) = d.named.drop (identifier d.named).length := lex_text hlex
  have hbehind : ∀ c ∈ d.named.drop (identifier d.named).length, c ≠ '"' ∧ c ≠ '«' := by
    rw [← htext]
    intro c hc
    obtain ⟨token, htoken, hc⟩ := List.mem_flatMap.mp hc
    obtain ⟨hstring, hquote⟩ := hplain.quotes tokens htokens token htoken
    exact ⟨fun h => hstring (h ▸ hc), fun h => hquote (h ▸ hc)⟩
  have hstarts : node.name.toList.isPrefixOf d.named = true := by
    rw [← hname]
    exact List.isPrefixOf_iff_prefix.mpr (identifier_starts _)
  have hsignature : normalized_claim C node = (d.named.drop (identifier d.named).length).filter fun c => !C.space c := by
    unfold normalized_claim
    dsimp only
    rw [hplain.keyword d hd, Option.getD_some, if_pos hstarts, ← String.length_toList, ← hname]
    exact findall_plain hbehind none
  rw [hsignature, ← htext]
  -- White space tokens leave nothing.
  have hcomments := hplain.comments tokens htokens
  clear htext hlex htokens hclaim
  induction tokens with
  | nil => rfl
  | cons token tokens ih =>
    obtain ⟨⟨hline, hblock⟩, hrest⟩ := List.forall_mem_cons.mp hcomments
    rw [List.flatMap_cons, List.filter_append, ih hrest, List.filter_cons]
    cases hwhite : token.white with
    | false => simp
    | true =>
      have hspace : token.text.all lean_space = true := by
        have hsymbol : (token.kind == .symbol && token.text.all lean_space) = true := by
          simpa [LeanToken.white, hline, hblock] using hwhite
        exact (Bool.and_eq_true_iff.mp hsymbol).2
      have hnil : token.text.filter (fun c => !C.space c) = [] :=
        List.filter_eq_nil_iff.mpr fun c hc => by simp [space_of_lean (C := C) (List.all_eq_true.mp hspace c hc)]
      rw [hnil]
      rfl

theorem normalized_eq_of_plain {a b : Node} (hsame : SameClaim symbols a b) (ha : PlainClaim C symbols a)
    (hb : PlainClaim C symbols b) : normalized_claim C a = normalized_claim C b := by
  obtain ⟨claim, hclaim, hclaim'⟩ := hsame
  rw [normalized_of_plain ha hclaim, normalized_of_plain hb hclaim']

end Plain

/-! ### The graph that is asked for -/

section Asked

variable (C : CharClass) (repr : Json → String) (affected : Option (List String))

/-- The dependencies that a planned node lists, or the ones that the node has. -/
def listed (raw : Fields) (current : List String) : List String :=
  (string_list ((raw.get? "dependencies").getD (.arr (current.map .str)))).getD []

/-- One planned node, with nothing checked. -/
def ask_node (asked : Dag) : Json → Dag
  | .obj raw =>
    let node_id := str_field repr raw "id" ""
    if node_id ∈ asked.ids then
      if affected.any (node_id ∉ ·) then asked
      else asked.update node_id fun node => { node with dependencies := listed raw node.dependencies }
    else
      { asked with nodes := asked.nodes ++ [
          { id := node_id, name := str_field repr raw "name" "", file := str_field repr raw "file" ("LeanFlowProofs/" ++ node_id ++ ".lean")
            statement := String.ofList (declaration_statement_text C (str_field repr raw "statement" "").toList)
            dependencies := listed raw [] }] }
  | _ => asked

/-- The graph that a proposal asks for. -/
def asked_graph (dag : Dag) (proposal : Fields) : Dag :=
  match (proposal.get? "nodes").getD (.arr []) with
  | .arr raw_nodes => raw_nodes.foldl (ask_node C repr affected) dag
  | _ => dag

/-- Where a new helper of the graph that is asked for claims the same as an ancestor that stays, both statements are plain. -/
def RestatesPlainly (symbols : List Text) (dag asked : Dag) : Prop :=
  ∀ helper ∈ asked.nodes, helper.id ∉ dag.ids → ∀ ancestor ∈ asked.nodes,
    ancestor.original = true ∨ ancestor.status = .proved ∨ asked.Reaches ancestor.id → ancestor.id ≠ helper.id →
    asked.Ancestor ancestor.id helper.id → SameClaim symbols ancestor helper →
    PlainClaim C symbols ancestor ∧ PlainClaim C symbols helper

end Asked

/-! ### The draft and what was asked for -/

section Drafted

variable {C : CharClass} {repr dumps : Json → String} {affected : Option (List String)}

/-- What a node is known for, but for how far it has got. -/
def Node.outline (node : Node) : String × String × String × Bool × Bool × List String :=
  (node.id, node.name, node.statement, node.original, node.status == .proved, node.dependencies)

/-- Two graphs with the same nodes, as far as their outlines go. -/
structure Alike (a b : Dag) : Prop where
  roots : a.roots = b.roots
  nodes : a.nodes.map Node.outline = b.nodes.map Node.outline

theorem Alike.ids {a b : Dag} (h : Alike a b) : a.ids = b.ids := by
  have hids (dag : Dag) : dag.ids = (dag.nodes.map Node.outline).map Prod.fst := by
    rw [List.map_map]
    rfl
  rw [hids, hids, h.nodes]

theorem Alike.dependencies {a b : Dag} (h : Alike a b) (id : String) : a.dependencies id = b.dependencies id := by
  have hfind (dag : Dag) : dag.dependencies id =
      (((dag.nodes.map Node.outline).find? (·.1 == id)).map (·.2.2.2.2.2)).getD [] := by
    rw [List.find?_map, Option.map_map]
    rfl
  rw [hfind, hfind, h.nodes]

theorem Alike.reaches {a b : Dag} (h : Alike a b) (id : String) : a.Reaches id ↔ b.Reaches id := by
  unfold Dag.Reaches
  rw [h.roots, funext h.dependencies]

theorem Alike.ancestor {a b : Dag} (h : Alike a b) (ancestor id : String) : a.Ancestor ancestor id ↔ b.Ancestor ancestor id := by
  unfold Dag.Ancestor
  rw [funext h.dependencies]

theorem Alike.node {a b : Dag} (h : Alike a b) {node : Node} (hnode : node ∈ a.nodes) :
    ∃ node' ∈ b.nodes, node'.outline = node.outline := by
  have hmem := List.mem_map_of_mem (f := Node.outline) hnode
  rw [h.nodes] at hmem
  exact List.mem_map.mp hmem

theorem Alike.symm {a b : Dag} (h : Alike a b) : Alike b a := ⟨h.roots.symm, h.nodes.symm⟩

/-- Changes that do the same to outlines keep lists alike. -/
theorem outline_map {l l' : List Node} {f g : Node → Node} (h : l.map Node.outline = l'.map Node.outline)
    (hfg : ∀ a ∈ l, ∀ b, a.outline = b.outline → (f a).outline = (g b).outline) :
    (l.map f).map Node.outline = (l'.map g).map Node.outline := by
  induction l generalizing l' with
  | nil =>
    cases l' with
    | nil => rfl
    | cons b l' => cases h
  | cons a l ih =>
    cases l' with
    | nil => cases h
    | cons b l' =>
      obtain ⟨hhead, htail⟩ := List.cons.inj h
      rw [List.map_cons, List.map_cons, List.map_cons, List.map_cons, hfg a (List.mem_cons_self ..) b hhead,
        ih htail fun a ha => hfg a (List.mem_cons_of_mem _ ha)]

/-- New dependencies show in the outline only as such. -/
theorem outline_depend {node : Node} {dependencies : List String} (hopen : ¬(node.dependencies ≠ dependencies ∧ node.status = .proved))
    (informal_justification : String) :
    Node.outline { node.depend dependencies with informal_justification } = Node.outline { node with dependencies } := by
  by_cases hchange : node.dependencies ≠ dependencies
  · have hstatus : (node.status == .proved) = false := beq_eq_false_iff_ne.mpr fun hproved => hopen ⟨hchange, hproved⟩
    simp only [Node.outline, Node.depend, if_pos hchange, hstatus]
    rfl
  · have hsame : node.depend dependencies = node := if_neg hchange
    rw [hsame]
    simp only [Node.outline, not_not.mp hchange]

theorem alike_update {updated asked draft : Dag} (h : Alike draft asked) (hdistinct : draft.ids.Nodup) {existing : Node}
    (hexisting : existing ∈ draft.nodes) {raw : Fields} (hupdate : update_node repr dumps draft existing raw = .ok updated) :
    Alike updated (asked.update existing.id fun node => { node with dependencies := listed raw node.dependencies }) := by
  unfold update_node at hupdate
  dsimp only at hupdate
  split at hupdate
  · cases hupdate
  · split at hupdate
    · cases hupdate
    · rename_i dependencies hdependencies
      split at hupdate
      · cases hupdate
      · rename_i hopen
        obtain rfl := Except.ok.inj hupdate
        refine ⟨h.roots, outline_map h.nodes fun a ha b hab => ?_⟩
        have hid : a.id = b.id := congrArg Prod.fst hab
        rw [hid]
        split
        · rename_i hb
          obtain rfl := Dag.eq_of_id hdistinct ha hexisting (hid.trans hb)
          have hcurrent : a.dependencies = b.dependencies := congrArg (·.2.2.2.2.2) hab
          have hlisted : listed raw b.dependencies = dependencies := by
            rw [listed, ← hcurrent, hdependencies]
            rfl
          show Node.outline { a.depend dependencies with informal_justification := _ } =
            Node.outline { b with dependencies := listed raw b.dependencies }
          rw [outline_depend hopen, hlisted]
          simp only [Node.outline, Prod.mk.injEq] at hab ⊢
          exact ⟨hab.1, hab.2.1, hab.2.2.1, hab.2.2.2.1, hab.2.2.2.2.1, trivial⟩
        · exact hab

/-- A helper is as it was asked for. -/
theorem new_node_outline {draft : Dag} {node_id : String} {raw : Fields} {node : Node} {skeleton : Text}
    (h : new_node C repr draft node_id raw = .ok (node, skeleton)) : node.outline =
      (node_id, str_field repr raw "name" "",
        String.ofList (declaration_statement_text C (str_field repr raw "statement" "").toList), false, false, listed raw []) := by
  obtain ⟨entry, -, h⟩ := bind_eq_ok.mp h
  obtain ⟨mask, -, h⟩ := bind_eq_ok.mp h
  dsimp only at h
  split at h
  · cases h
  · rename_i hname
    split at h
    · cases h
    · split at h
      · cases h
      · obtain ⟨relative, -, h⟩ := bind_eq_ok.mp h
        split at h
        · cases h
        · split at h
          · cases h
          · split at h
            · cases h
            · rename_i dependencies hdependencies
              obtain ⟨rfl, -⟩ := Prod.mk.inj (Except.ok.inj h)
              have hlisted : listed raw [] = dependencies := by
                rw [listed, List.map_nil, hdependencies]
                rfl
              simp only [Node.outline, hlisted, not_not.mp hname]
              rfl

theorem alike_apply {asked dag : Dag} {draft draft' : Draft} (h : Alike draft.updated asked) (hgrown : Grown dag affected draft)
    {raw : Json} (happly : apply_node C repr dumps affected draft raw = .ok draft') :
    Alike draft'.updated (ask_node C repr affected asked raw) := by
  unfold apply_node at happly
  split at happly
  · rename_i raw
    dsimp only at happly
    rw [ask_node, ← h.ids]
    split at happly
    · rename_i existing hexisting
      have hid := Dag.id_of_by_id hexisting
      have hold : str_field repr raw "id" "" ∈ draft.updated.ids := List.mem_map.mpr ⟨existing, Dag.mem_of_by_id hexisting, hid⟩
      rw [if_pos hold]
      split at happly
      · rename_i haffected
        obtain rfl := Except.ok.inj happly
        rw [if_pos haffected]
        exact h
      · rename_i haffected
        obtain ⟨updated, hupdate, happly⟩ := bind_eq_ok.mp happly
        obtain rfl := Except.ok.inj happly
        rw [if_neg haffected, ← hid]
        exact alike_update h hgrown.distinct (Dag.mem_of_by_id hexisting) hupdate
    · rename_i hnew
      obtain ⟨⟨node, skeleton⟩, hnode, happly⟩ := bind_eq_ok.mp happly
      obtain rfl := Except.ok.inj happly
      have hfresh : str_field repr raw "id" "" ∉ draft.updated.ids := by
        intro hmem
        obtain ⟨other, hother, hid⟩ := List.mem_map.mp hmem
        have hfound := Dag.by_id_of_mem hgrown.distinct hother
        rw [hid, hnew] at hfound
        cases hfound
      rw [if_neg hfresh]
      refine ⟨h.roots, ?_⟩
      show (draft.updated.nodes ++ [node]).map Node.outline = _
      rw [List.map_append, List.map_append, h.nodes, List.map_singleton, new_node_outline hnode]
      rfl
  · cases happly

/-- The graph before nodes are dropped is the one that is asked for. -/
theorem alike_of_applied {dag updated whole : Dag} {limit max_nodes : Nat} {proposal : Fields} {skeletons : Dict String Text} {draft : Draft}
    (hvalid : dag.validate limit = .ok ())
    (h : Applied C repr dumps dag updated proposal skeletons max_nodes affected draft whole) :
    Alike whole (asked_graph C repr affected dag proposal) := by
  obtain ⟨raw_nodes, hraw, hdraft⟩ := h.taken
  have hfold {raw_nodes : List Json} {start stop : Draft} {asked : Dag} (hstart : Alike start.updated asked)
      (hgrown : Grown dag affected start) (hfold : raw_nodes.foldlM (apply_node C repr dumps affected) start = .ok stop) :
      Alike stop.updated (raw_nodes.foldl (ask_node C repr affected) asked) := by
    induction raw_nodes generalizing start asked with
    | nil =>
      obtain rfl := Except.ok.inj hfold
      exact hstart
    | cons raw raw_nodes ih =>
      rw [List.foldlM_cons] at hfold
      obtain ⟨middle, hturn, hfold⟩ := bind_eq_ok.mp hfold
      exact ih (alike_apply hstart hgrown hturn) (grown_apply hgrown hturn) hfold
  have halike : Alike draft.updated (raw_nodes.foldl (ask_node C repr affected) dag) :=
    hfold ⟨rfl, rfl⟩ (grown_start (Dag.valid_of_validate hvalid) affected) hdraft
  rw [h.grown, asked_graph, hraw]
  exact ⟨halike.roots, halike.nodes⟩

/-! ### The returned graph -/

variable {symbols : List Text}

/-- An ancestor that stays is still an ancestor in the graph that is returned. -/
theorem Pruned.ancestor {whole kept : Dag} (h : Pruned whole kept) (hwhole : whole.ids.Nodup) (hkept : kept.Valid) {ancestor : Node}
    (hancestor : ancestor ∈ kept.nodes) {id : String} (hpath : whole.Ancestor ancestor.id id) : kept.Ancestor ancestor.id id ∧ id ∈ kept.ids := by
  unfold Dag.Ancestor at hpath ⊢
  -- Downwards from the ancestor, every node is needed by one that stays.
  induction hpath using Relation.ReflTransGen.head_induction_on with
  | refl => exact ⟨.refl, List.mem_map.mpr ⟨ancestor, hancestor, rfl⟩⟩
  | @head a b hedge _ ih =>
    obtain ⟨hpath, hb⟩ := ih
    obtain ⟨node, hnode, rfl⟩ := List.mem_map.mp hb
    have hedge' : a ∈ kept.dependencies node.id := by
      rw [Dag.dependencies_of_mem hkept.distinct hnode, ← Dag.dependencies_of_mem hwhole ((h.nodes node).mp hnode).1]
      exact hedge
    exact ⟨.head hedge' hpath, hkept.dependencies_subset _ hedge'⟩

/-- Claims and plainness show in the outline. -/
theorem same_of_outline {a a' b b' : Node} (ha : a.outline = a'.outline) (hb : b.outline = b'.outline) :
    SameClaim symbols a b ↔ SameClaim symbols a' b' := by
  have hstatement {a b : Node} (h : a.outline = b.outline) : a.statement = b.statement := congrArg (·.2.2.1) h
  unfold SameClaim
  rw [hstatement ha, hstatement hb]

theorem plain_of_outline {a b : Node} (h : a.outline = b.outline) (ha : PlainClaim C symbols a) : PlainClaim C symbols b := by
  have hname : a.name = b.name := congrArg (·.2.1) h
  have hstatement : a.statement = b.statement := congrArg (·.2.2.1) h
  obtain ⟨hkeyword, hnamed, hcomments, hquotes⟩ := ha
  rw [hstatement] at hkeyword hnamed hcomments hquotes
  rw [hname] at hnamed
  exact ⟨hkeyword, hnamed, hcomments, hquotes⟩

theorem stays_of_outline {a b : Dag} (h : Alike a b) {node node' : Node} (houtline : node.outline = node'.outline) :
    (node.original = true ∨ node.status = .proved ∨ a.Reaches node.id) ↔
      (node'.original = true ∨ node'.status = .proved ∨ b.Reaches node'.id) := by
  have hid : node.id = node'.id := congrArg (·.1) houtline
  have horiginal : node.original = node'.original := congrArg (·.2.2.2.1) houtline
  have hproved : (node.status == .proved) = (node'.status == .proved) := congrArg (·.2.2.2.2.1) houtline
  rw [horiginal, ← beq_iff_eq (a := node.status), hproved, beq_iff_eq, h.reaches, hid]

def samplePlan (statement : String) : Fields :=
  [("nodes", .arr [
    .obj [("id", .str "goal"), ("dependencies", .arr [.str "h"])],
    .obj [("id", .str "h"), ("name", .str "h"), ("statement", .str (statement ++ " := by sorry"))]])]

def samplePlanned (statement : String) : Dag where
  nodes := [
    { sampleGoal with dependencies := ["h"], revision := 1 },
    { id := "h", name := "h", file := "LeanFlowProofs/h.lean", module := "LeanFlowProofs.h", kind := "lemma", statement
      holes := [0] }]
  roots := ["goal"]
  revision := 1

def sampleSkeletons (statement : String) : Dict String Text := Dict.empty.set "h" (statement ++ " := by sorry").toList

theorem sample_valid : ({ nodes := [sampleGoal], roots := ["goal"] } : Dag).validate 8 = .ok () := by
  decide +kernel

end Drafted

end LeanFlow.Goals
