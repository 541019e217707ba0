import ProofMarket.Network.Exclusion

/-!
# Assigned jobs are attended to

Over a network that delivers every message to every node once, is a job that the coordinator holds
as `Assigned` worked on? No message gives an assignment back: when the assigned worker fails to
prove or to submit, it returns to `Idle` and says nothing, and the coordinator keeps the assignment.

**Theorem (`assignments_attended`).** With no message on its way, an assigned job is worked on by
its worker, or closed on chain, or the worker's task for it has ended without success. This takes
that no worker gives up a claim of which the coordinator holds the acceptance because of a rejection
that was meant for another worker.

The invariant follows an assignment from the claim to the acceptance: a claim on its way comes from
a worker that waits for the reply, and so does an acceptance on its way.
-/

namespace ProofMarket

open Registry (Deployment)

/-- The worker that a status names. -/
def JobStatus.assignee : JobStatus → Option PeerId
  | .assigned worker _ => some worker
  | _ => none

namespace System

/-! ## The runs -/

/-- A transaction hash that `submit_proof` returns is that of a mined transaction, and a hash
belongs to one transaction: the `submitProof` of the task's job. -/
def Receipted (s : System) : Label → Prop
  | .worker _ (.submitted job _ (.ok txHash)) =>
    (∃ r ∈ s.backend.chain.receipts, r.txHash = txHash) ∧
      ∀ r ∈ s.backend.chain.receipts, r.txHash = txHash → Chain.submitsProof r.act job.id = true
  | _ => True

/-- No worker takes a rejection for its own while the coordinator holds the job as assigned to
it. -/
def NoStrayRejection (s : System) : Label → Prop
  | .worker id (.recv (.claimRejected jobId _) _) =>
    (s.workers id).status.isClaiming jobId = true →
      (s.backend.jobs.status jobId).bind JobStatus.assignee ≠ some id
  | _ => True

/-- What the assignments rest on: the network, fresh ids, receipts, and no stray rejection. -/
structure Orderly (D : Deployment) (members : List PeerId) (s : System) (l : Label) : Prop where
  once : s.ExactlyOnce l
  member : ByMember members l
  fresh : s.Fresh D l
  receipted : s.Receipted l
  noStray : s.NoStrayRejection l

instance (s : System) (l : Label) : Decidable (s.Receipted l) :=
  match l with
  | .worker _ (.submitted job _ (.ok txHash)) =>
    inferInstanceAs (Decidable ((∃ r ∈ s.backend.chain.receipts, r.txHash = txHash) ∧
      ∀ r ∈ s.backend.chain.receipts, r.txHash = txHash → Chain.submitsProof r.act job.id = true))
  | .coordinator _ | .worker _ (.recv _ _) | .worker _ (.proved _ _ _)
  | .worker _ (.submitted _ _ (.error _)) | .worker _ (.announce _ _) | .worker _ (.leave _) =>
    isTrue trivial

instance (s : System) (l : Label) : Decidable (s.NoStrayRejection l) :=
  match l with
  | .worker id (.recv (.claimRejected jobId _) _) =>
    inferInstanceAs (Decidable ((s.workers id).status.isClaiming jobId = true →
      (s.backend.jobs.status jobId).bind JobStatus.assignee ≠ some id))
  | .worker _ (.recv (.jobAvailable _) _) | .worker _ (.recv (.claimJob _ _) _)
  | .worker _ (.recv (.claimAccepted _ _) _) | .worker _ (.recv (.jobCompleted _ _) _)
  | .coordinator _ | .worker _ (.proved _ _ _) | .worker _ (.submitted _ _ _)
  | .worker _ (.announce _ _) | .worker _ (.leave _) => isTrue trivial

instance (D : Deployment) (members : List PeerId) (s : System) (l : Label) :
    Decidable (Orderly D members s l) :=
  decidable_of_iff (s.ExactlyOnce l ∧ ByMember members l ∧ s.Fresh D l ∧ s.Receipted l ∧
    s.NoStrayRejection l)
    ⟨fun ⟨h₁, h₂, h₃, h₄, h₅⟩ => ⟨h₁, h₂, h₃, h₄, h₅⟩,
      fun ⟨h₁, h₂, h₃, h₄, h₅⟩ => ⟨h₁, h₂, h₃, h₄, h₅⟩⟩

/-- The job is worked on by `w`, or closed on chain, or the task of `w` has failed. -/
def Attended (s : System) (j : JobId) (w : PeerId) : Prop :=
  (s.workers w).status.isWorking j = true ∨ s.backend.chain.world.completed j = true ∨
    (w, j) ∈ s.failed

/-! ## The invariant -/

structure Attending (D : Deployment) (members : List PeerId) (s : System) : Prop where
  inv : s.Inv
  chain : s.backend.chain.Ok D
  receipts : s.backend.chain.ReceiptsOk
  flight : ∀ d ∈ s.flight, d.2 ∈ s.sent
  assigned : ∀ j w since, s.backend.jobs.status j = some (.assigned w since) → s.Attended j w ∨
    ((.worker w, .claimAccepted j w) ∈ s.flight ∧ (s.workers w).status.isClaiming j = true)
  claims : ∀ j w, (.coordinator, .claimJob j w) ∈ s.flight → w ∈ members ∧
    ((s.workers w).status.isClaiming j = true ∨ s.backend.jobs.status j ≠ some .pending)
  rejections : ∀ j reason, .claimRejected j reason ∈ s.sent →
    s.backend.jobs.status j ≠ some .pending
  tasks : ∀ w, ∀ t ∈ (s.workers w).tasks, t.isOver = true →
    s.backend.chain.world.completed t.jobId = true ∨ (w, t.jobId) ∈ s.failed

theorem attending_start (D : Deployment) (members : List PeerId) (prefunded : Nat)
    (blocks : List (List (TxHash × Registry.Act))) (contract : Bool)
    (defaultDeadlineSecs : UInt64) (startBlock : Nat) :
    Attending D members
      (start (Chain.after D prefunded blocks) contract defaultDeadlineSecs startBlock) where
  inv := inv_start ..
  chain := Chain.ok_after D prefunded blocks
  receipts := Chain.receiptsOk_after D prefunded blocks
  flight d h := by cases h
  assigned j w since h := by simp [start, Backend.start, JobMap.status] at h
  claims j w h := by cases h
  rejections j reason h := by cases h
  tasks w t h := by cases h

section Step

variable {D : Deployment} {members : List PeerId} {s s' : System}

theorem ExactlyOnce.lossy {l : Label} (h : s.ExactlyOnce l)
    (hflight : ∀ d ∈ s.flight, d.2 ∈ s.sent) : s.Lossy l :=
  fun m hm => hflight _ (h m hm)

/-! ## A step of the coordinator -/

section Coordinator

variable {l : Backend.Label} {b : Backend} {ms : List GossipMessage}

theorem Attending.flight_route (h : Attending D members s) {l : Label} {ms : List GossipMessage}
    {d : Node × GossipMessage} (hd : d ∈ s.route members l ms) : d.2 ∈ s.sent ++ ms := by
  rcases mem_route hd with hd | hd
  · exact List.mem_append_left _ (h.flight d hd)
  · exact List.mem_append_right _ (mem_broadcast.1 hd).1

/-- A claim came from a worker that waits; when it is accepted, the acceptance is on its way to
it. -/
theorem Attending.assigned_coordinator (h : Attending D members s)
    (hstep : s.backend.Step D l b ms) (hl : Orderly D members s (.coordinator l)) {j : JobId}
    {w : PeerId} {since : UInt64} (hst : b.jobs.status j = some (.assigned w since)) :
    (s.afterCoordinator members l b ms).Attended j w ∨
      ((.worker w, .claimAccepted j w) ∈ s.route members (.coordinator l) ms ∧
        (s.workers w).status.isClaiming j = true) := by
  have hmono := (hstep.extends h.chain).world.completed j
  obtain ⟨st', hst', hchange⟩ := hstep.status j
  rw [hst'] at hst
  cases hchange with
  | keep =>
    rcases h.assigned j w since hst with hatt | ⟨hway, hclaim⟩
    · exact .inl (hatt.imp_right fun hrest => hrest.imp_left hmono)
    · exact .inr ⟨mem_route_of_mem hway fun m _ heq => (by cases heq), hclaim⟩
  | assigned hpend =>
    cases hst
    obtain ⟨hmember, hwaits⟩ := h.claims j w (hl.once _ rfl)
    refine .inr ⟨List.mem_append_right _ (mem_broadcast.2 ?_), ?_⟩
    · exact ⟨List.mem_singleton.2 rfl, nofun, .inr ⟨w, hmember, rfl⟩⟩
    · exact hwaits.resolve_right fun hne => hne hpend
  | inserted hmem =>
    rw [h.inv.pending _ hmem] at hst
    cases hst
  | _ => cases hst

theorem Attending.claims_coordinator (h : Attending D members s)
    (hstep : s.backend.Step D l b ms) {j : JobId} {w : PeerId}
    (hd : (.coordinator, .claimJob j w) ∈ s.route members (.coordinator l) ms) :
    w ∈ members ∧ ((s.workers w).status.isClaiming j = true ∨
      b.jobs.status j ≠ some .pending) := by
  rcases mem_route hd with hd | hd
  · obtain ⟨hmember, hwaits⟩ := h.claims j w hd
    have hmentioned : s.Mentioned j := .inr ⟨_, h.flight _ hd, rfl⟩
    exact ⟨hmember, hwaits.imp_right (h.inv.not_pending_kept hstep hmentioned)⟩
  · exact absurd rfl (mem_broadcast.1 hd).2.1

theorem Attending.rejections_coordinator (h : Attending D members s)
    (hstep : s.backend.Step D l b ms) (hlossy : s.Lossy (.coordinator l)) {j : JobId}
    {reason : String} (hmem : .claimRejected j reason ∈ s.sent ++ ms) :
    b.jobs.status j ≠ some .pending := by
  rcases List.mem_append.1 hmem with hmem | hmem
  · exact h.inv.not_pending_kept hstep (.inr ⟨_, hmem, rfl⟩) (h.rejections j reason hmem)
  · rcases hstep.sends hmem with ⟨k, w, now, reachable, rfl, ⟨heq, -⟩ | ⟨why, heq, hne⟩⟩ |
        ⟨job, heq, -⟩
    · cases heq
    · cases heq
      exact h.inv.not_pending_kept hstep (.inr ⟨_, hlossy.claim, rfl⟩) hne
    · cases heq

/-- **A step of the coordinator keeps the invariant.** -/
theorem Attending.coordinator (h : Attending D members s) (hstep : s.backend.Step D l b ms)
    (hl : Orderly D members s (.coordinator l)) :
    Attending D members (s.afterCoordinator members l b ms) := by
  have hlossy := hl.once.lossy h.flight
  have hmono := (hstep.extends h.chain).world.completed
  exact {
    inv := h.inv.coordinator hstep hlossy hl.fresh
    chain := hstep.chain_ok h.chain
    receipts := hstep.receiptsOk h.receipts
    flight := fun _ hd => h.flight_route hd
    assigned := fun _ _ _ hst => h.assigned_coordinator hstep hl hst
    claims := fun _ _ hd => h.claims_coordinator hstep hd
    rejections := fun _ _ hmem => h.rejections_coordinator hstep hlossy hmem
    tasks := fun w t ht hover => (h.tasks w t ht hover).imp_left (hmono _) }

end Coordinator

/-! ## A step of a worker -/

section Worker

variable {id : PeerId} {l : Worker.Label} {w : Worker} {ms : List GossipMessage}

theorem recv_of_handles {m : GossipMessage} (h : (Label.worker id l).handles = some m) :
    ∃ now, l = .recv m now := by
  cases l with
  | recv m' now =>
    cases h
    exact ⟨now, rfl⟩
  | _ => cases h

/-- A proof that was submitted completed its job, or is recorded as failed. -/
theorem submitted_outcome {job : Job} {bundle : ProofBundle} {result : Except String TxHash}
    (hreceipts : s.backend.chain.ReceiptsOk)
    (h : s.Receipted (.worker id (.submitted job bundle result))) :
    s.backend.chain.world.completed job.id = true ∨
      (id, job.id) ∈ failures s.backend.chain id (.submitted job bundle result) := by
  cases result with
  | error e => exact .inr (List.mem_singleton.2 rfl)
  | ok txHash =>
    by_cases hany : (s.backend.chain.receipts.any fun r => r.txHash = txHash && r.ok) = true
    · left
      obtain ⟨r, hr, hok⟩ := List.any_eq_true.1 hany
      obtain ⟨hhash, hok⟩ := Bool.and_eq_true_iff.1 hok
      exact hreceipts r hr hok job.id (h.2 r hr (of_decide_eq_true hhash))
    · right
      simp [failures, hany]

/-- The worker of an assigned job attends to it, or still waits for the acceptance. -/
theorem Attending.assigned_worker (h : Attending D members s) (hstep : (s.workers id).Step l w ms)
    (hl : Orderly D members s (.worker id l)) {j : JobId} {since : UInt64}
    (hst : s.backend.jobs.status j = some (.assigned id since)) :
    (s.afterWorker members id l w ms).Attended j id ∨
      ((.worker id, .claimAccepted j id) ∈ s.route members (.worker id l) ms ∧
        w.status.isClaiming j = true) := by
  have hlossy := hl.once.lossy h.flight
  rcases h.assigned j id since hst with (hwork | hclosed | hfail) | ⟨hway, hclaim⟩
  · left
    rcases hstep.working_kept (h.inv.matched id) hwork with hwork | ⟨job, e, rfl⟩ | hleave
    · exact .inl (by simpa using hwork)
    · exact .inr (.inr (List.mem_append_right _ (List.mem_singleton.2 rfl)))
    · rcases h.tasks id _ hleave rfl with hclosed | hfail
      · exact .inr (.inl hclosed)
      · exact .inr (.inr (List.mem_append_left _ hfail))
  · exact .inl (.inr (.inl hclosed))
  · exact .inl (.inr (.inr (List.mem_append_left _ hfail)))
  · rcases hstep.claiming_kept hclaim with ⟨hstill, hother⟩ | ⟨q, now, rfl, hwon⟩ |
        ⟨reason, now, rfl⟩
    · refine .inr ⟨mem_route_of_mem hway ?_, hstill⟩
      intro m hm heq
      cases heq
      obtain ⟨now, hl⟩ := recv_of_handles hm
      exact hother id now hl
    · -- There is one acceptance for the job, so the one handled is the worker's own.
      have haccepted : s.Accepted j id := h.inv.assigned j id since hst
      have hq : q = id := h.inv.unique j q id (hlossy _ rfl) haccepted
      exact .inl (.inl (by simpa using hwon (hq.trans (h.inv.peer id).symm)))
    · exact absurd (by rw [hst]; rfl) (hl.noStray hclaim)

/-- The worker of a claim on its way waits for the reply, unless the job is taken. -/
theorem Attending.claims_worker (h : Attending D members s) (hstep : (s.workers id).Step l w ms)
    (hlossy : s.Lossy (.worker id l)) {j : JobId}
    (hclaim : (s.workers id).status.isClaiming j = true) :
    w.status.isClaiming j = true ∨ s.backend.jobs.status j ≠ some .pending := by
  rcases hstep.claiming_kept hclaim with ⟨hstill, -⟩ | ⟨q, now, rfl, -⟩ | ⟨reason, now, rfl⟩
  · exact .inl hstill
  · exact .inr (h.inv.taken j q (hlossy _ rfl))
  · exact .inr (h.rejections j reason (hlossy _ rfl))

theorem claims_broadcast (hstep : (s.workers id).Step l w ms)
    (hpeer : (s.workers id).peerId = id) {j : JobId} {p : PeerId} (hm : .claimJob j p ∈ ms) :
    p = id ∧ w.status.isClaiming j = true := by
  rcases hstep.sends hm with ⟨job, now, -, heq, hst⟩ | ⟨job, x, -, heq⟩
  · cases heq
    exact ⟨hpeer, by simp [hst, WorkerStatus.isClaiming]⟩
  · cases heq

theorem Attending.tasks_worker (h : Attending D members s) (hstep : (s.workers id).Step l w ms)
    (hl : Orderly D members s (.worker id l)) {t : Task} (ht : t ∈ w.tasks)
    (hover : t.isOver = true) :
    s.backend.chain.world.completed t.jobId = true ∨
      (id, t.jobId) ∈ s.failed ++ failures s.backend.chain id l := by
  rcases hstep.over_cases ht hover with ⟨old, hmem, hold, hid⟩ | ⟨job, bundle, result, rfl, hid⟩
  · rw [← hid]
    exact (h.tasks id old hmem hold).imp_right fun hfail => List.mem_append_left _ hfail
  · rw [← hid]
    exact (submitted_outcome h.receipts hl.receipted).imp_right fun hfail =>
      List.mem_append_right _ hfail

/-- **A step of a worker keeps the invariant.** -/
theorem Attending.worker (h : Attending D members s) (hstep : (s.workers id).Step l w ms)
    (hl : Orderly D members s (.worker id l)) :
    Attending D members (s.afterWorker members id l w ms) := by
  have hlossy := hl.once.lossy h.flight
  refine {
    inv := h.inv.worker hstep hlossy
    chain := h.chain
    receipts := h.receipts
    flight := fun _ hd => h.flight_route hd
    assigned := ?_
    claims := ?_
    rejections := ?_
    tasks := ?_ }
  · intro j p since hst
    by_cases hp : p = id
    · subst hp
      simpa using h.assigned_worker hstep hl hst
    · -- The other workers, and what is on its way to them, are as before.
      rcases h.assigned j p since hst with (hwork | hclosed | hfail) | ⟨hway, hclaim⟩
      · exact .inl (.inl (by simpa [hp] using hwork))
      · exact .inl (.inr (.inl hclosed))
      · exact .inl (.inr (.inr (List.mem_append_left _ hfail)))
      · refine .inr ⟨mem_route_of_mem hway ?_, by simpa [hp] using hclaim⟩
        intro m _ heq
        cases heq
        exact hp rfl
  · intro j p hd
    rcases mem_route hd with hd | hd
    · obtain ⟨hmember, hwaits⟩ := h.claims j p hd
      refine ⟨hmember, ?_⟩
      rcases hwaits with hclaim | hne
      · by_cases hp : p = id
        · subst hp
          simpa using h.claims_worker hstep hlossy hclaim
        · exact .inl (by simpa [hp] using hclaim)
      · exact .inr hne
    · obtain ⟨rfl, hclaim⟩ := claims_broadcast hstep (h.inv.peer id) (mem_broadcast.1 hd).1
      refine ⟨?_, .inl (by simpa using hclaim)⟩
      rcases hl.member with hc | ⟨q, hq, hnode⟩
      · cases hc
      · cases hnode
        exact hq
  · intro j reason hmem
    rcases List.mem_append.1 hmem with hmem | hmem
    · exact h.rejections j reason hmem
    · rcases hstep.sends hmem with ⟨job, now, -, heq, -⟩ | ⟨job, x, -, heq⟩
      · cases heq
      · cases heq
  · intro p t ht hover
    by_cases hp : p = id
    · subst hp
      exact h.tasks_worker hstep hl (by simpa using ht) hover
    · exact (h.tasks p t (by simpa [hp] using ht) hover).imp_right fun hfail =>
        List.mem_append_left _ hfail

end Worker

theorem Attending.step {l : Label} (h : Attending D members s) (hstep : Step D members s l s')
    (hl : Orderly D members s l) : Attending D members s' := by
  cases hstep with
  | coordinator hb => exact h.coordinator hb hl
  | worker hw => exact h.worker hw hl

end Step

/-! ## Runs -/

/-- **With no message on its way, every assigned job is attended to.** -/
theorem assignments_attended (D : Deployment) (members : List PeerId) (prefunded : Nat)
    (blocks : List (List (TxHash × Registry.Act))) (contract : Bool)
    (defaultDeadlineSecs : UInt64) (startBlock : Nat) (s : System)
    (h : Steps D members (Orderly D members)
      (start (Chain.after D prefunded blocks) contract defaultDeadlineSecs startBlock) s)
    (hquiet : s.flight = []) :
    ∀ j w since, s.backend.jobs.status j = some (.assigned w since) → s.Attended j w := by
  have hatt : Attending D members s := by
    refine Transition.Steps.invariant ?_ h (attending_start D members prefunded blocks contract
      defaultDeadlineSecs startBlock)
    intro u l v hu hl hnext
    exact hu.step (.of_step hnext) hl
  intro j w since hst
  rcases hatt.assigned j w since hst with hdone | ⟨hway, -⟩
  · exact hdone
  · rw [hquiet] at hway
    cases hway

/-! ## A worker that fails -/

open Sample

theorem assignments_attended_won :
    ∃ s, Steps deployment [prover] (Orderly deployment [prover])
        (start (Chain.after deployment 0 []) true 300 0) s ∧
      s.flight = [] ∧ s.backend.jobs.status jobId = some (.assigned prover 1002) ∧
        s.Attended jobId prover := by
  have hrun : (Transition.run (Transition.checked (step deployment [prover])
      (Orderly deployment [prover])) won (start (Chain.after deployment 0 []) true 300 0)).map
        (fun s => (s.flight, s.backend.jobs.status jobId)) =
          some ([], some (.assigned prover 1002)) := by
    decide +kernel
  obtain ⟨s, hs, hst⟩ := Transition.exists_of_checked hrun
  obtain ⟨hquiet, hassigned⟩ := Prod.ext_iff.1 hst
  exact ⟨s, hs, hquiet, hassigned, assignments_attended deployment [prover] 0 [] true 300 0 s hs
    hquiet jobId prover 1002 hassigned⟩

/-- The prover gives an error, and the worker returns to `Idle`. -/
def wonInVain : List Label :=
  won ++ [.worker prover (.proved jobId job (.error "proving failed"))]

theorem assignment_orphaned :
    ∃ s, Steps deployment [prover]
        (fun u l => u.ExactlyOnce l ∧ ByMember [prover] l ∧ u.Fresh deployment l)
        (start (Chain.after deployment 0 []) true 300 0) s ∧
      s.flight = [] ∧ s.backend.verified = none ∧
        s.backend.jobs.status jobId = some (.assigned prover 1002) ∧
          (s.workers prover).status = .idle ∧ s.backend.chain.world.completed jobId = false := by
  have hrun : (Transition.run (Transition.checked (step deployment [prover])
      fun u l => u.ExactlyOnce l ∧ ByMember [prover] l ∧ u.Fresh deployment l) wonInVain
        (start (Chain.after deployment 0 []) true 300 0)).map
          (fun s => decide (s.flight = [] ∧ s.backend.verified = none ∧
            s.backend.jobs.status jobId = some (.assigned prover 1002) ∧
              (s.workers prover).status = .idle ∧ s.backend.chain.world.completed jobId = false)) =
                some true := by
    decide +kernel
  obtain ⟨s, hs, hst⟩ := Transition.exists_of_checked hrun
  exact ⟨s, hs, of_decide_eq_true hst⟩

end System

end ProofMarket
