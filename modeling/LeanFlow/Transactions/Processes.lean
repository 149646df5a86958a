import LeanFlow.Transactions.Counting
import LeanFlow.Transactions.Stages

/-! Runs of the controller, and what their crashes leave.

A process resumes from the files of the one before it, promotes and accepts
candidates while worker threads publish and persist, and stops anywhere. -/
namespace LeanFlow.Transactions
open General Goals Source Stock

variable {k : Stock} {g : Hold k} {w w' : World} {C : CharClass} {sha256 : Text → String}

/-! ### Promotion -/

/-- Workers do not touch the graph in memory. -/
theorem Workers.dag (h : Workers w w') : w'.dag = w.dag := by
  induction h with
  | refl => rfl
  | tail _ hstep ih =>
    obtain ⟨step, -, hstep⟩ := hstep
    refine Eq.trans ?_ ih
    cases step with
    | publish step =>
      obtain ⟨saved, publishing, rfl⟩ := apply_eq hstep
      rfl
    | persist shown =>
      rename_i w₁ _ _
      simp only [Worker.apply] at hstep
      split at hstep
      · cases hstep
      · rw [← Option.some.inj hstep]
        show (if _ then _ else _ : World).dag = w₁.dag
        split
        · rfl
        · exact (same_checkpoint w₁).dag

/-- The node of an id is the only one. -/
theorem eq_of_by_id {dag : Dag} (hunique : (dag.nodes.map (·.id)).Nodup) {id : String} {node other : Node}
    (hnode : dag.by_id id = some node) (hother : other ∈ dag.nodes) (hid : other.id = id) : other = node := by
  have hmem : node ∈ dag.nodes := List.mem_of_find?_eq_some hnode
  exact List.inj_on_of_nodup_map hunique hother hmem (hid.trans (Dag.id_of_by_id hnode).symm)

/-- A candidate waits in its node until it is taken out. -/
theorem fits_candidate {dag : Dag} (h : k.Graph dag) {id : String} {node : Node} (hnode : dag.by_id id = some node)
    (hstatus : node.status = .candidate) : k.Fits node.id node.candidate := by
  have hwhole := h.nodes node (List.mem_of_find?_eq_some hnode)
  refine ⟨(hwhole.candidate hstatus).trans hwhole.holes, fun other hother => ?_⟩
  rcases hwhole.kept other hother with hproved | hkept
  · rw [hproved] at hstatus
    cases hstatus
  · exact hkept.symm

/-- The graph that was read is the one in memory, whatever the workers do. -/
theorem read_kept (d : Dag) : Prog.Kept Workers k.Guard fun w => (whole k).At w ∧ w.dag = d :=
  ⟨(whole k).stable.and fun _ _ h hworkers => hworkers.dag.trans h, fun _ h => h.1.durable.toStored⟩

theorem get_passes {α : Type} {f : World → Controller α} {Q : α → World → Prop} {E : Raised → World → Prop}
    (h : ∀ w, k.Graph w.dag →
      Prog.Outline Workers k.Guard (fun w' => (whole k).At w' ∧ w'.dag = w.dag) (f w) Q E) :
    Prog.Outline Workers k.Guard (whole k).At (Prog.get >>= f) Q E := by
  intro w hw
  refine Prog.Spec.bind Workers.refl (Prog.Spec.get Workers.trans (fun w' hworkers => ?_) fun w' w'' hworkers hworkers' => ?_)
  · exact ((whole k).stable w w' hw hworkers).durable.toStored
  · have hw' := (whole k).stable w w' hw hworkers
    exact h w' hw'.dag w'' ⟨(whole k).stable w' w'' hw' hworkers', hworkers'.dag⟩

/-- A part of the promotion: it keeps whole graphs and does not miscount. -/
abbrev Promotes (k : Stock) {α : Type} (x : Controller α) : Prop :=
  Prog.Outline Workers k.Guard (whole k).At x (fun _ => (whole k).At) fun e w => Calculated e ∧ (whole k).At w

section Promote

variable {env : Environment} {research : Bool}

theorem accept_passes {out : Bool} {node : Node} {candidate : List Text} (hfits : k.Fits node.id candidate)
    (job_id : String) :
    Passes k (taken out hfits fun _ => True).At (accept C sha256 env node candidate job_id)
      (Accepted out hfits env.verdict) (taken out hfits fun _ => True).At := by
  have hheld (b : Bool) {g : Hold k} :
      Prog.Keeps Workers g.At (Prog.modify fun w => { w with held := b } : Controller Unit) :=
    hold_modify fun w => ⟨rfl, rfl, rfl, rfl, rfl⟩
  have htaken := (taken out hfits fun _ => True).kept
  have hsubmission : k.Fits (env.submission node candidate job_id).node.id
      (env.submission node candidate job_id).candidate := hfits
  refine .bind Workers.refl (keeps_passes (hheld true)) fun _ => ?_
  refine .bind Workers.refl (.handle Workers.refl (accept_locked_passes hsubmission) fun e => ?_) fun accepted => ?_
  · exact .bind Workers.refl (keeps_passes (hheld false)) fun _ => .raise htaken fun _ h => h
  · cases accepted with
    | true =>
      refine Prog.Outline.mono (P := (whole k).At) (.bind Workers.refl (keeps_passes (hheld false)) fun _ =>
        .ret (whole k).kept fun _ h => h) (fun _ h => h) (fun _ _ h => h) fun _ _ h =>
          h.weaken (fun _ h => h.accepts _) fun _ _ => trivial
    | false =>
      refine fun w h => Prog.Outline.bind Workers.refl (keeps_passes (hheld false)) (fun _ => ?_) w h.2
      exact .ret htaken fun _ h' => ⟨h.1, h'⟩

/-- A node without a submission to keep is blocked or retried; it may have been refused its candidate. -/
theorem status_graph {id : String} {d : Dag} (h : k.Taken id d) (hfree : k.saved id = none) {status : NodeStatus}
    (hstatus : status ≠ .candidate) : k.Graph (d.update id fun node => { node with status := status }) := by
  refine h.update (fun _ => rfl) fun node hid hholes hnode => ?_
  have hcount : node.candidate = [] ∨ node.candidate.length = node.holes.length := by
    rcases hnode with hwhole | ⟨-, hempty⟩
    · exact hwhole.count
    · exact Or.inl hempty
  refine ⟨hid ▸ hholes, hcount, fun h => absurd h hstatus, fun other hother => ?_⟩
  rw [show k.saved node.id = none from hid ▸ hfree] at hother
  cases hother

theorem enqueue_recovery_passes {id : String} (hfree : k.saved id = none) :
    Passes k (whole k).At (enqueue_recovery env id) (fun _ => (whole k).At) (whole k).At := by
  refine .ite (fun _ => keeps_passes (.ret (whole k).stable _)) fun _ => ?_
  refine .bind (Q := fun _ => (whole k).At) Workers.refl (update_passes (fun d h => ?_) fun _ h => h) fun _ =>
    keeps_passes (hold_persist (fun _ h => h) _ _)
  exact status_graph (Graph.taken h id) hfree (by decide)

theorem refuse_passes {id : String} {candidate : List Text} (hfits : k.Fits id candidate)
    (hfree : k.saved id = none) : Passes k (taken true hfits fun _ => True).At (refuse research env id)
      (fun _ => (whole k).At) (whole k).At := by
  have hstatus {status : NodeStatus} (h : status ≠ .candidate) : Passes k (taken true hfits fun _ => True).At
      (Prog.modify (World.updateNode id fun node => { node with status := status })) (fun _ => (whole k).At)
      (whole k).At := update_passes (fun d (hd : _ ∧ _) => status_graph hd.1 hfree h) fun _ _ => trivial
  refine .ite (fun _ => ?_) fun _ => ?_
  · exact .bind Workers.refl (hstatus (by decide)) fun _ =>
      .bind Workers.refl (enqueue_recovery_passes hfree) fun _ => .ret (whole k).kept fun _ h => h
  · refine .bind (Q := fun _ => (whole k).At) Workers.refl (hstatus ?_) fun _ => .ret (whole k).kept fun _ h => h
    split <;> decide

/-- The candidate is out of its node. -/
theorem clear_taken {d : Dag} {id : String} {node : Node} (hnode : d.by_id id = some node)
    (hstatus : node.status = .candidate) (hgraph : k.Graph d) :
    k.Taken node.id (d.update node.id fun node => { node with candidate := [] }) := by
  refine (hgraph.taken node.id).reassign (ids_update d fun _ => rfl) fun other hother => ?_
  obtain ⟨old, hold, ⟨hid, rfl⟩ | ⟨-, rfl⟩⟩ := mem_update hother
  · obtain rfl := eq_of_by_id hgraph.unique hnode hold (hid.trans (Dag.id_of_by_id hnode))
    exact Or.inr ⟨rfl, (hgraph.nodes old hold).holes, hstatus, rfl⟩
  · exact Or.inl (hgraph.nodes other hold)

theorem put_back_graph {d : Dag} {id : String} {candidate : List Text} (hfits : k.Fits id candidate)
    (h : k.Taken id d) : k.Graph (d.update id (put_back candidate)) := by
  have hid (node : Node) : (put_back candidate node).id = node.id := by
    unfold put_back
    split <;> rfl
  refine h.update hid fun node hsame hholes hnode => ?_
  unfold put_back
  split
  · rename_i hproved
    rcases hnode with hwhole | ⟨hstatus, -⟩
    · exact hwhole
    · rw [hproved] at hstatus
      cases hstatus
  · exact whole_candidate hfits hsame hholes rfl

theorem take_candidate_passes {d : Dag} {id : String} {node : Node} (hnode : d.by_id id = some node)
    (hstatus : node.status = .candidate) (hgraph : k.Graph d)
    (hkeeps : env.verdict.refuses = true → k.saved node.id = none) :
    Passes k (fun w => (whole k).At w ∧ w.dag = d) (take_candidate C sha256 research env node)
      (fun _ => (whole k).At) (whole k).At := by
  have hfits : k.Fits node.id node.candidate := fits_candidate hgraph hnode hstatus
  refine .bind (Q := fun _ => (taken true hfits fun _ => True).At) Workers.refl (.modify (read_kept d)
    (taken true hfits fun _ => True).kept fun w h => ?_) fun _ => ?_
  · obtain ⟨hw, rfl⟩ := h
    exact ⟨{ hw.durable with }, ⟨clear_taken hnode hstatus hgraph, nofun⟩, trivial⟩
  refine .bind (Q := Accepted true hfits env.verdict) Workers.refl (.handle Workers.refl
    (accept_passes hfits "controller") fun e => ?_) fun accepted => ?_
  · refine .bind (Q := fun _ => (whole k).At) Workers.refl (update_passes (fun d (h : _ ∧ _) => put_back_graph hfits h.1)
      fun _ _ => trivial) fun _ => .raise (whole k).kept fun _ h => h
  · cases accepted with
    | true => exact .ret (whole k).kept fun _ h => h
    | false => exact fun w h => refuse_passes hfits (hkeeps h.1) w h.2

theorem promote_node_promotes {id : String} (hkeeps : env.verdict.refuses = true → k.saved id = none) :
    Promotes k (promote_node C sha256 research env id) := by
  refine get_passes fun w hgraph => ?_
  have hread := read_kept (k := k) w.dag
  cases hnode : w.dag.by_id id with
  | none => exact .ret hread fun _ h => h.1
  | some node =>
    refine .ite (fun _ => .ret hread fun _ h => h.1) fun hstatus => ?_
    have hcandidate := not_not.mp hstatus
    refine .bind (Q := fun _ w' => (whole k).At w' ∧ w'.dag = w.dag) Workers.refl
      (.ofExcept hread (fun _ _ _ h => h) fun e he _ h => ⟨open_dependency_calculated he, h.1⟩) fun waiting => ?_
    refine .ite (fun _ => .ret hread fun _ h => h.1) fun _ => ?_
    have hkeeps' : env.verdict.refuses = true → k.saved node.id = none := (Dag.id_of_by_id hnode).symm ▸ hkeeps
    have hcount := (hgraph.nodes node (List.mem_of_find?_eq_some hnode)).candidate hcandidate
    exact (take_candidate_passes hnode hcandidate hgraph hkeeps').raises (counts_take_candidate research hcount)

/-- A promotion refuses no submission that is to be kept: the verifier rejects none, and neither the gate
of its imports nor a change of its inputs drops one. -/
structure Approves (k : Stock) (env : String → Environment) : Prop where
  unrejected : ∀ id, (env id).verdict.rejects = true → k.saved id = none
  undropped : ∀ id, (env id).verdict.drops = true → k.saved id = none

theorem Approves.unrefused {env : String → Environment} (h : Approves k env) {id : String}
    (hrefuses : (env id).verdict.refuses = true) : k.saved id = none := by
  rcases Bool.or_eq_true_iff.mp hrefuses with hrejects | hdrops
  · exact h.unrejected id hrejects
  · exact h.undropped id hdrops

theorem promote_pass_promotes {env : String → Environment} (henv : Approves k env) (ids : List String) :
    Promotes k (promote_pass C sha256 research env ids) := by
  induction ids with
  | nil => exact .ret (whole k).kept fun _ h => h
  | cons id ids ih =>
    refine .bind Workers.refl (promote_node_promotes fun hrefuses => henv.unrefused hrefuses) fun turn => ?_
    exact .bind Workers.refl ih fun turns => .ret (whole k).kept fun _ h => h

theorem get_promotes {α : Type} {f : World → Controller α} (h : ∀ w, Promotes k (f w)) :
    Promotes k (Prog.get >>= f) :=
  .bind Workers.refl (.get (whole k).kept fun w w' h hworkers => (whole k).stable w w' h hworkers) h

theorem promote_passes_promotes {env : Nat → String → Environment} (henv : ∀ pass, Approves k (env pass))
    (bound : Nat) : Promotes k (promote_passes C sha256 research env bound) := by
  have hkept := (whole k).kept
  induction bound with
  | zero => exact .ret hkept fun _ h => h
  | succ bound ih =>
    refine get_promotes fun w => .bind Workers.refl (promote_pass_promotes (henv bound) _) fun turns => ?_
    refine .ite (fun _ => ?_) fun _ => .ret hkept fun _ h => h
    exact .bind Workers.refl ih fun rest => .ret hkept fun _ h => h

theorem promote_candidates_promotes {env : Nat → String → Environment} (henv : ∀ pass, Approves k (env pass))
    (last : Environment) : Promotes k (promote_candidates C sha256 research env last) := by
  refine get_promotes fun w => .bind Workers.refl (promote_passes_promotes henv _) fun turns => ?_
  refine .bind Workers.refl (.ite (fun _ => ?_) fun _ => .ret (whole k).kept fun _ h => h) fun _ =>
    .ret (whole k).kept fun _ h => h
  exact (keeps_passes (hold_persist (fun _ h => h) _ _)).raises (counts_persist _)

end Promote

/-! ### Submissions -/

section Submit

variable {env : Environment}

/-- The candidate stands in its node. -/
def holding (k : Stock) (id : String) (candidate : List Text) : Hold k :=
  ⟨fun d => k.Graph d ∧ ∀ node ∈ d.nodes, node.id = id → node.candidate = candidate, fun _ => True, fun _ h _ => h.1⟩

theorem holding_assign {id : String} {candidate : List Text} (hfits : k.Fits id candidate) {d : Dag} {f : Node → Node}
    (h : k.Taken id d)
    (hf : ∀ node, (f node).id = node.id ∧ (f node).holes = node.holes ∧ (f node).candidate = candidate) :
    (holding k id candidate).dag (d.update id f) := by
  refine ⟨put_graph hfits h hf, fun node hnode hid => ?_⟩
  obtain ⟨old, hold, ⟨-, rfl⟩ | ⟨hother, rfl⟩⟩ := mem_update hnode
  · exact (hf old).2.2
  · exact absurd hid hother

/-- Other fields of its node are assigned. -/
theorem holding_update {id : String} {candidate : List Text} (hfits : k.Fits id candidate) {d : Dag} {f : Node → Node}
    (h : (holding k id candidate).dag d)
    (hf : ∀ node, (f node).id = node.id ∧ (f node).holes = node.holes ∧ (f node).candidate = node.candidate) :
    (holding k id candidate).dag (d.update id f) := by
  have hnodes (node : Node) (hnode : node ∈ (d.update id f).nodes) (hid : node.id = id) : node.candidate = candidate := by
    obtain ⟨old, hold, ⟨hsame, rfl⟩ | ⟨hother, rfl⟩⟩ := mem_update hnode
    · exact (hf old).2.2.trans (h.2 old hold hsame)
    · exact absurd hid hother
  refine ⟨Graph.reassign h.1.unique h.1.present (ids_update d fun node => (hf node).1) fun node hnode => ?_, hnodes⟩
  obtain ⟨old, hold, ⟨hsame, rfl⟩ | ⟨-, rfl⟩⟩ := mem_update hnode
  · refine whole_candidate hfits ((hf old).1.trans hsame) ?_ (hnodes _ hnode ((hf old).1.trans hsame))
    rw [(hf old).2.1, (h.1.nodes old hold).holes, hsame]
  · exact h.1.nodes node hold

/-- A node is looked up in a whole graph. -/
theorem find_passes {α : Type} {id : String} {f : Node → Controller α} {Q : α → World → Prop}
    (h : ∀ d node, k.Graph d → d.by_id id = some node → Passes k (whole k).At (f node) Q (whole k).At) :
    Passes k (whole k).At (find_node id >>= f) Q (whole k).At := by
  have hfind : find_node id = Prog.get >>= fun w => (w.dag.by_id id).elim (.raise (.key_error id)) pure := by
    unfold find_node
    congr 1
    funext w
    cases w.dag.by_id id <;> rfl
  rw [hfind]
  show Passes k (whole k).At (Prog.get >>= fun w =>
    ((w.dag.by_id id).elim (.raise (.key_error id)) pure : Controller Node) >>= f) Q (whole k).At
  refine get_passes fun w hgraph => ?_
  cases hnode : w.dag.by_id id with
  | none => exact .raise (read_kept w.dag) fun _ h => h.1
  | some node => exact (h w.dag node hgraph hnode).mono (fun _ h => h.1) (fun _ _ h => h) fun _ _ h => h

/-- What a complete candidate of a node is. -/
theorem fits_complete {d : Dag} (hgraph : k.Graph d) {id : String} {node : Node} (hnode : d.by_id id = some node)
    {candidate : List Text} (hcomplete : complete node candidate = true)
    (hsaved : ∀ other, k.saved id = some other → other = candidate) : k.Fits node.id candidate := by
  obtain ⟨-, hcount⟩ : candidate ≠ [] ∧ candidate.length = node.holes.length := by simpa [complete] using hcomplete
  have hwhole := hgraph.nodes node (List.mem_of_find?_eq_some hnode)
  exact ⟨hcount.trans hwhole.holes, fun other hother => hsaved other (Dag.id_of_by_id hnode ▸ hother)⟩

theorem keep_candidate_passes {id : String} {candidate : List Text} (hfits : k.Fits id candidate) (waiting : List String) :
    Passes k (whole k).At (keep_candidate id candidate waiting) (fun _ => (whole k).At) (whole k).At := by
  refine .bind (Q := fun _ => (holding k id candidate).At) Workers.refl (update_passes (fun d h => ?_) fun _ _ => trivial)
    fun _ => .bind (Q := fun _ => (holding k id candidate).At) Workers.refl (update_passes (fun d h => ?_)
      fun _ _ => trivial) fun _ => update_passes (fun d h => ?_) fun _ _ => trivial
  · exact holding_assign hfits (Graph.taken h id) fun node => ⟨rfl, rfl, rfl⟩
  · exact holding_update hfits h fun node => ⟨rfl, rfl, rfl⟩
  · have hstatus : (holding k id candidate).dag (d.update id fun node => { node with status := .candidate }) :=
      holding_update hfits h fun node => ⟨rfl, rfl, rfl⟩
    exact hstatus.1

theorem handle_candidate_passes {id : String} {candidate : List Text} (job_id : String)
    (hsaved : ∀ other, k.saved id = some other → other = candidate) :
    Passes k (whole k).At (handle_candidate C sha256 env id candidate job_id) (fun _ => (whole k).At) (whole k).At := by
  refine find_passes fun d node hgraph hnode => ?_
  have hid := Dag.id_of_by_id hnode
  refine .ite (fun _ => .ret (whole k).kept fun _ h => h) fun hcomplete => ?_
  have hfits : k.Fits node.id candidate := fits_complete hgraph hnode (not_not.mp hcomplete) hsaved
  refine .bind Workers.refl (keeps_passes (.get (whole k).stable)) fun _ => ?_
  refine .bind Workers.refl (keeps_passes (.ofExcept (whole k).stable _)) fun waiting => ?_
  refine .ite (fun _ => ?_) fun _ => ?_
  · exact .bind Workers.refl (keep_candidate_passes (hid ▸ hfits) _) fun _ =>
      keeps_passes (hold_persist (fun _ h => h) _ _)
  · have haccepts {w : World} (h : (taken false hfits fun _ => True).At w) : (whole k).At w :=
      h.weaken (fun _ h => h.2 rfl) fun _ _ => trivial
    have haccept : Passes k (whole k).At (accept C sha256 env node candidate job_id) (fun _ => (whole k).At) (whole k).At := by
      refine (@accept_passes _ C sha256 env false _ _ hfits job_id).mono
        (fun _ h => h.weaken (fun _ h => Graph.accepts h _) fun _ _ => trivial) (fun accepted w h => ?_) fun _ _ => haccepts
      cases accepted with
      | true => exact h
      | false => exact haccepts h.2
    exact .bind Workers.refl haccept fun _ => .ret (whole k).kept fun _ h => h

theorem retain_result_passes {id : String} {candidate : List Text}
    (hsaved : ∀ other, k.saved id = some other → other = candidate) :
    Passes k (whole k).At (retain_result id candidate) (fun _ => (whole k).At) (whole k).At := by
  refine find_passes fun d node hgraph hnode => ?_
  have hid := Dag.id_of_by_id hnode
  refine .ite (fun _ => .ret (whole k).kept fun _ h => h) fun hcomplete => ?_
  have hfits : k.Fits node.id candidate :=
    fits_complete hgraph hnode (not_not.mp (not_or.mp hcomplete).2) hsaved
  have hback {w : World} (h : (holding k id candidate).At w) : (whole k).At w :=
    h.weaken (fun _ h => h.1) fun _ _ => trivial
  refine .bind (Q := fun _ => (holding k id candidate).At) Workers.refl (update_passes (fun d h => ?_)
    fun _ _ => trivial) fun _ => Prog.Outline.mono (P := (holding k id candidate).At) ?_ (fun _ h => h)
      (fun _ _ h => h) fun _ _ => hback
  · exact holding_assign (hid ▸ hfits) (Graph.taken h id) fun node => ⟨rfl, rfl, rfl⟩
  · refine .bind Workers.refl (keeps_passes (.get (holding k id candidate).stable)) fun _ => ?_
    refine .bind Workers.refl (keeps_passes (.ofExcept (holding k id candidate).stable _)) fun waiting => ?_
    refine update_passes (fun d h => ?_) fun _ _ => trivial
    have hwaiting : (holding k id candidate).dag
        (d.update id fun node => { node with conditional_dependencies := waiting }) :=
      holding_update (hid ▸ hfits) h fun node => ⟨rfl, rfl, rfl⟩
    exact hwaiting.1

/-- A node that is not proved keeps its candidate when it is blocked. -/
theorem blocked_graph {d : Dag} (h : k.Graph d) {id : String} {node : Node} (hnode : d.by_id id = some node)
    (hopen : node.status ≠ .proved) : k.Graph (d.update id fun node => { node with status := .blocked }) := by
  refine Graph.reassign h.unique h.present (ids_update _ fun _ => rfl) fun other hother => ?_
  obtain ⟨old, hold, ⟨hid, rfl⟩ | ⟨-, rfl⟩⟩ := mem_update hother
  · obtain rfl := eq_of_by_id h.unique hnode hold hid
    have hwhole := h.nodes old hold
    refine ⟨hwhole.holes, hwhole.count, nofun, fun candidate hcandidate => ?_⟩
    rcases hwhole.kept candidate hcandidate with hproved | hkept
    · exact absurd hproved hopen
    · exact Or.inr hkept
  · exact h.nodes other hold

theorem reopen_passes {id : String} :
    Passes k (whole k).At (reopen env id) (fun _ => (whole k).At) (whole k).At := by
  refine get_passes fun w hgraph => ?_
  have hread := read_kept (k := k) w.dag
  cases hnode : w.dag.by_id id with
  | none => exact .ret hread fun _ h => h.1
  | some node =>
    refine .ite (fun _ => .ret hread fun _ h => h.1) fun hopen => .ite (fun _ => .ret hread fun _ h => h.1) fun _ => ?_
    refine .bind (Q := fun _ => (whole k).At) Workers.refl (.modify hread (whole k).kept fun w' h => ?_) fun _ =>
      keeps_passes (hold_persist (fun _ h => h) _ _)
    have hblocked := blocked_graph hgraph hnode fun h => hopen (Or.inl h)
    rw [← h.2] at hblocked
    exact ⟨{ h.1.durable with }, hblocked, trivial⟩

/-- No operation loses a submission: none is refused, and none is replaced by another of its node. -/
def Stock.Respects (k : Stock) : Operation → Prop
  | .promote _ env _ => ∀ pass, Approves k (env pass)
  | .submit _ id candidate _ | .retain id candidate => ∀ other, k.saved id = some other → other = candidate
  | .enqueue _ _ => True

theorem operation_passes {operation : Operation} (h : k.Respects operation) :
    Passes k (whole k).At (operation.run C sha256) (fun _ => (whole k).At) (whole k).At := by
  cases operation with
  | promote research env last =>
    exact .bind Workers.refl ((promote_candidates_promotes h last).mono (fun _ h => h) (fun _ _ h => h)
      fun _ _ h => h.2) fun _ => .ret (whole k).kept fun _ h => h
  | submit env id candidate job_id => exact handle_candidate_passes job_id h
  | retain id candidate => exact retain_result_passes h
  | enqueue env id => exact reopen_passes

theorem operations_passes {operations : List Operation} (h : ∀ operation ∈ operations, k.Respects operation) :
    Passes k (whole k).At (operations.forM (Operation.run C sha256)) (fun _ => (whole k).At) (whole k).At := by
  induction operations with
  | nil => exact .ret (whole k).kept fun _ h => h
  | cons operation operations ih =>
    exact .bind Workers.refl (operation_passes (h operation (List.mem_cons_self ..))) fun _ =>
      ih fun other hother => h other (List.mem_cons_of_mem _ hother)

theorem work_passes {operations : List Operation} (h : ∀ operation ∈ operations, k.Respects operation) :
    Passes k (whole k).At (work C sha256 operations env) (fun _ => (whole k).At) (whole k).At :=
  .bind Workers.refl (.handle Workers.refl (operations_passes h) fun _ => .ret (whole k).kept fun _ h => h) fun _ =>
    keeps_passes (hold_persist (fun _ h => h) _ _)

end Submit

/-! ### Resuming -/

/-- The statuses of a resume keep the candidates. -/
theorem resumed_graph {d : Dag} (h : k.Graph d) (resumable : String → Bool) (restarts : Node → Bool) :
    k.Graph { d with nodes := d.nodes.map (resumed_status resumable restarts) } := by
  have hid (node : Node) : (resumed_status resumable restarts node).id = node.id := by
    unfold resumed_status
    split_ifs <;> rfl
  have hids : (d.nodes.map (resumed_status resumable restarts)).map (·.id) = d.nodes.map (·.id) := by
    rw [List.map_map]
    exact List.map_congr_left fun node _ => hid node
  refine Graph.reassign h.unique h.present hids fun node hnode => ?_
  obtain ⟨old, hold, rfl⟩ := List.mem_map.mp hnode
  have hwhole := h.nodes old hold
  have hopen {status : NodeStatus} (hproved : old.status ≠ .proved)
      (hcandidate : status = .candidate → old.candidate ≠ []) : k.Whole { old with status := status } :=
    ⟨hwhole.holes, hwhole.count, fun hstatus => hwhole.count.resolve_left (hcandidate hstatus),
      fun candidate hkept => Or.inr ((hwhole.kept candidate hkept).resolve_left hproved)⟩
  unfold resumed_status
  split_ifs with hproved hcandidate hstopped hretry
  · exact hwhole
  · exact hopen hproved fun _ => hcandidate
  · exact hopen hproved nofun
  · exact hopen hproved nofun
  · exact hwhole

/-- What is kept beside worker threads is kept without them. -/
theorem alone {α : Type} {P : World → Prop} {x : Controller α} {Q : α → World → Prop} {E : World → Prop}
    (h : Passes k P x Q E) : Prog.Outline Eq k.Guard P x Q fun _ => E :=
  fun w hw => (h w hw).narrow fun w _ h => h ▸ Workers.refl w

/-- The graph that is loaded is the one that was saved. -/
theorem restore_alone {max_nodes : Nat} {shown : Node → NodeStatus} {disk : Disk} (h : k.Stored disk) :
    Prog.Outline Eq k.Guard (fun w => w = disk.resume) (restore C sha256 max_nodes shown)
      (fun _ => (whole k).At) fun _ w => k.Stored w.disk := by
  have hwhole {w : World} (h : (whole k).At w) : k.Stored w.disk := h.durable.toStored
  have hkeeps {α : Type} {x : Controller α} (hx : Prog.Keeps Workers (whole k).At x) :
      Prog.Outline Eq k.Guard (whole k).At x (fun _ => (whole k).At) fun _ w => k.Stored w.disk :=
    (alone (keeps_passes hx)).mono (fun _ h => h) (fun _ _ h => h) fun _ _ => hwhole
  have hstart : Prog.Kept Eq k.Guard fun w => w = disk.resume := ⟨Prog.stable_eq _, fun w hw => hw ▸ h⟩
  have hstable := (whole k).stable
  refine .bind Eq.refl (.get hstart fun w _ hw hsame => (⟨hw, hsame ▸ hw⟩ : w = disk.resume ∧ _ = disk.resume))
    fun w w' hw => ?_
  obtain ⟨rfl, rfl⟩ := hw
  refine Prog.Outline.bind (P := fun w => w = disk.resume) (Q := fun _ => (whole k).At) Eq.refl
    (.modify hstart ⟨Prog.stable_eq _, fun _ => hwhole⟩ fun w hw => ?_) (fun _ => ?_) _ rfl
  · obtain rfl := hw
    exact ⟨{ saved := h.saved, journal := h.journal, live := h.saved, copied := nofun }, h.saved, trivial⟩
  refine .bind Eq.refl (hkeeps (hold_checked _)) fun _ => .bind Eq.refl (hkeeps (hold_checked _)) fun _ => ?_
  refine .bind Eq.refl (hkeeps (.ofExcept hstable _)) fun documents => ?_
  refine .bind Eq.refl (hkeeps (hold_modify fun w => ⟨rfl, rfl, rfl, rfl, rfl⟩)) fun _ => ?_
  refine .bind Eq.refl ((alone recover_proof_passes).mono (fun _ h => h) (fun _ _ h => h) fun _ _ => hwhole)
    fun _ => hkeeps hold_assert_sources

theorem restart_alone {max_nodes : Nat} {resumable : String → Bool} {restarts : Node → Bool} {env : Environment}
    {disk : Disk} (h : k.Stored disk) : Prog.Outline Eq k.Guard (fun w => w = disk.resume)
      (restart C sha256 max_nodes resumable restarts env) (fun _ => (whole k).At) fun _ w => k.Stored w.disk := by
  refine .bind Eq.refl (restore_alone h) fun _ => .bind (Q := fun _ => (whole k).At) Eq.refl ?_ fun _ => ?_
  · refine .modify ⟨Prog.stable_eq _, fun _ h => h.durable.toStored⟩ ⟨Prog.stable_eq _, fun _ h => h.durable.toStored⟩
      fun w hw => ⟨{ hw.durable with }, resumed_graph hw.dag resumable restarts, trivial⟩
  · exact (alone (keeps_passes (hold_persist (fun _ h => h) _ _))).mono (fun _ h => h) (fun _ _ h => h)
      fun _ _ h => h.durable.toStored

/-! ### Runs -/

/-- The submission stands in a graph. -/
def Holds (id : String) (candidate : List Text) (d : Dag) : Prop := ∃ node, d.by_id id = some node ∧ node.candidate = candidate

/-- The submission is in the files and in every copy of the graph. -/
structure Settled (id : String) (candidate : List Text) (w : World) : Prop where
  journal : w.disk.journal = none
  saved : Holds id candidate w.disk.state_json.dag
  live : Holds id candidate w.state.dag
  copied : ∀ p, w.publishing = some p → Holds id candidate p.copied.dag
  dag : Holds id candidate w.dag

/-- Where a run has got to: the submissions it is to keep, the rest of the program, and the world. A process
works, and the next one restarts from the files wherever that one stopped. What is to be kept may change
between two operations: a submission counts from when it is settled, and no more once it is given up. -/
inductive Reached (C : CharClass) (sha256 : Text → String) (k₀ : Stock) (w₀ : World) :
    Stock → Controller Unit → World → Prop
  | start : Reached C sha256 k₀ w₀ k₀ (.ret ()) w₀
  | account {k k' : Stock} {w : World} (hreached : Reached C sha256 k₀ w₀ k (.ret ()) w) (hholes : k'.holes = k.holes)
      (hsaved : ∀ id candidate, k'.saved id = some candidate → k.saved id = some candidate ∨ Settled id candidate w) :
      Reached C sha256 k₀ w₀ k' (.ret ()) w
  | work {k : Stock} {w w' : World} {x : Controller Unit} {operations : List Operation} {env : Environment}
      {moves : List (Prog.Move Worker)} (hreached : Reached C sha256 k₀ w₀ k (.ret ()) w)
      (hrespects : ∀ operation ∈ operations, k.Respects operation)
      (hrun : Prog.drive (Prog.restrict (fun (step : Worker) w => step.clean w = true) Worker.apply) moves
        (work C sha256 operations env, w) = some (x, w')) : Reached C sha256 k₀ w₀ k x w'
  | restart {k : Stock} {w w' : World} {x x' : Controller Unit} {max_nodes : Nat} {resumable : String → Bool}
      {restarts : Node → Bool} {env : Environment} {moves : List (Prog.Move Empty)}
      (hreached : Reached C sha256 k₀ w₀ k x w)
      (hrun : Prog.drive nofun moves (restart C sha256 max_nodes resumable restarts env, w.disk.resume) =
        some (x', w')) : Reached C sha256 k₀ w₀ k x' w'

theorem clean_workers (step : Worker) (w w' : World)
    (h : Prog.restrict (fun (step : Worker) w => step.clean w = true) Worker.apply step w = some w') : Workers w w' := by
  rw [Prog.restrict] at h
  split at h
  · exact Relation.ReflTransGen.single ⟨step, ‹_›, h⟩
  · cases h

/-- A graph in which the new submissions stand keeps them. -/
theorem Stock.Graph.account {k' : Stock} {d : Dag} (h : k.Graph d) (hholes : k'.holes = k.holes)
    (hsaved : ∀ id candidate, k'.saved id = some candidate → k.saved id = some candidate ∨ Holds id candidate d) :
    k'.Graph d := by
  refine ⟨h.unique, fun id candidate hcandidate => ?_, fun node hnode => ?_⟩
  · rcases hsaved id candidate hcandidate with hold | ⟨node, hnode, -⟩
    · exact h.present id candidate hold
    · exact List.mem_map.mpr ⟨node, List.mem_of_find?_eq_some hnode, Dag.id_of_by_id hnode⟩
  · have hwhole := h.nodes node hnode
    refine ⟨hholes ▸ hwhole.holes, hwhole.count, hwhole.candidate, fun candidate hcandidate => ?_⟩
    rcases hsaved node.id candidate hcandidate with hold | ⟨other, hother, hstands⟩
    · exact hwhole.kept candidate hold
    · obtain rfl := eq_of_by_id h.unique hother hnode rfl
      exact Or.inr hstands

/-- The files are as they should wherever a run is; at rest so is the graph in memory. -/
theorem Reached.stored {k₀ : Stock} {w₀ : World} {x : Controller Unit} (h₀ : (whole k₀).At w₀)
    (h : Reached C sha256 k₀ w₀ k x w) : k.Stored w.disk ∧ (x = .ret () → (whole k).At w) := by
  induction h with
  | start => exact ⟨h₀.durable.toStored, fun _ => h₀⟩
  | @account k k' w _ hholes hsaved ih =>
    have hw := ih.2 rfl
    have haccount {d : Dag} (hd : k.Graph d)
        (hstands : ∀ id candidate, Settled id candidate w → Holds id candidate d) : k'.Graph d :=
      hd.account hholes fun id candidate hcandidate => (hsaved id candidate hcandidate).imp_right (hstands id candidate)
    have hjournal : k'.Sound w.disk.journal := by
      have hsound := hw.durable.journal
      cases hj : w.disk.journal with
      | none => trivial
      | some journal =>
        rw [hj] at hsound
        have hless (id : String) (candidate : List Text) (h : k'.saved id = some candidate) :
            k.saved id = some candidate := by
          refine (hsaved id candidate h).resolve_right fun hsettled => ?_
          rw [hsettled.journal] at hj
          cases hj
        cases journal with
        | proof journal =>
          refine ⟨?_, fun other h => hsound.saved other (hless _ _ h)⟩
          rw [hholes]
          exact hsound.count
        | materialization journal => exact hsound.account hholes fun id candidate h => Or.inl (hless id candidate h)
    have hat : (whole k').At w := {
      durable := {
        saved := haccount hw.durable.saved fun _ _ h => h.saved
        journal := hjournal
        live := haccount hw.durable.live fun _ _ h => h.live
        copied := fun p hp => haccount (hw.durable.copied p hp) fun _ _ h => h.copied p hp }
      dag := haccount hw.dag fun _ _ h => h.dag
      journal := trivial }
    exact ⟨hat.durable.toStored, fun _ => hat⟩
  | work _ hrespects hrun ih =>
    have hspec := (work_passes hrespects _ (ih.2 rfl)).drive Workers.refl Workers.trans clean_workers hrun
    refine ⟨hspec.inv Workers.refl, fun hx => ?_⟩
    rw [hx] at hspec
    exact (hspec _ (Workers.refl _)).2
  | restart _ hrun ih =>
    have hspec := (restart_alone ih.1 _ rfl).drive Eq.refl (fun _ _ _ => Eq.trans) nofun hrun
    refine ⟨hspec.inv Eq.refl, fun hx => ?_⟩
    rw [hx] at hspec
    exact (hspec _ rfl).2

end LeanFlow.Transactions
