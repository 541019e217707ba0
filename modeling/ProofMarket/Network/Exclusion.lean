import ProofMarket.Network.System

/-!
# A job is assigned to one worker

**Theorem (`claim_exclusion`).** Over a network that loses, delays, reorders and duplicates
messages, at most one worker is named in the acceptances of a job, only that worker proves it or
submits its proof, and an assignment in the coordinator's map names it too.

The proof is an induction over the run with the invariant `Inv`:

* *acceptance*: an accepted job has left `Pending`, and nothing leads back, so there is no second
  acceptance;
* *opening*: a job that a message is about, or that is pending, has been inserted, so no request in
  progress will insert it again;
* *work*: a worker works on a job only because it was accepted for it.
-/

namespace ProofMarket

open Registry (Deployment)

namespace System

/-- Messages and announcements exist about the job. -/
def Mentioned (s : System) (j : JobId) : Prop :=
  (∃ job, (job ∈ s.backend.announcing ∨ job ∈ s.backend.resending) ∧ job.id = j) ∨
    ∃ m ∈ s.sent, m.jobId = j

/-- The claim of `w` for the job has been accepted. -/
def Accepted (s : System) (j : JobId) (w : PeerId) : Prop := .claimAccepted j w ∈ s.sent

theorem Accepted.mentioned {s : System} {j : JobId} {w : PeerId} (h : s.Accepted j w) :
    s.Mentioned j :=
  .inr ⟨_, h, rfl⟩

structure Inv (s : System) : Prop where
  peer : ∀ w, (s.workers w).peerId = w
  keyed : s.backend.jobs.Keyed
  distinct : s.backend.CreatesDistinct
  pending : s.backend.CreatingPending
  opened : ∀ j, s.Mentioned j ∨ s.backend.jobs.status j = some .pending →
    (s.backend.jobs.status j).isSome = true ∧ ∀ job ∈ s.backend.creating, job.id ≠ j
  unique : ∀ j w w', s.Accepted j w → s.Accepted j w' → w = w'
  assigned : ∀ j w since, s.backend.jobs.status j = some (.assigned w since) → s.Accepted j w
  taken : ∀ j w, s.Accepted j w → s.backend.jobs.status j ≠ some .pending
  matched : ∀ w, (s.workers w).TasksMatch
  tasks : ∀ w, ∀ t ∈ (s.workers w).tasks, s.Accepted t.jobId w
  working : ∀ w j, (s.workers w).status.isWorking j = true → s.Accepted j w

theorem inv_start (chain : Chain) (contract : Bool) (defaultDeadlineSecs : UInt64)
    (startBlock : Nat) : Inv (start chain contract defaultDeadlineSecs startBlock) where
  peer _ := rfl
  keyed j job h := by simp [start, Backend.start] at h
  distinct := List.nodup_nil
  pending job h := by cases h
  opened j h := by
    rcases h with (⟨job, hjob | hjob, -⟩ | ⟨m, hm, -⟩) | hst
    · cases hjob
    · cases hjob
    · cases hm
    · simp [start, Backend.start, JobMap.status] at hst
  unique j w w' h := by cases h
  assigned j w since h := by simp [start, Backend.start, JobMap.status] at h
  taken j w h := by cases h
  matched w j job h := by cases h
  tasks w t h := by cases h
  working w j h := by cases h

section Step

variable {D : Deployment} {members : List PeerId} {s s' : System}

/-! ## A step of the coordinator -/

section Coordinator

variable {l : Backend.Label} {b : Backend} {ms : List GossipMessage}

/-- The state after a step of the coordinator. -/
abbrev afterCoordinator (members : List PeerId) (s : System) (l : Backend.Label) (b : Backend)
    (ms : List GossipMessage) : System :=
  { s with
    backend := b
    sent := s.sent ++ ms
    flight := s.route members (.coordinator l) ms }

theorem Lossy.claim {j : JobId} {w : PeerId} {now : UInt64} {reachable : Bool}
    (h : s.Lossy (.coordinator (.recv (.claimJob j w) now reachable))) :
    .claimJob j w ∈ s.sent :=
  h _ rfl

theorem Inv.opened_before (hinv : s.Inv) (hstep : s.backend.Step D l b ms)
    (hlossy : s.Lossy (.coordinator l)) {j : JobId}
    (h : (s.afterCoordinator members l b ms).Mentioned j ∨ b.jobs.status j = some .pending) :
    (s.Mentioned j ∨ s.backend.jobs.status j = some .pending) ∨
      ∃ job ∈ s.backend.creating, l = .insert job ∧ job.id = j := by
  rcases h with (⟨job, hjob, rfl⟩ | ⟨m, hm, rfl⟩) | hst
  · rcases hstep.listed hjob with hold | ⟨rfl, hmem⟩ | ⟨k, hk, hp⟩
    · exact .inl (.inl (.inl ⟨job, hold, rfl⟩))
    · exact .inr ⟨job, hmem, rfl, rfl⟩
    · obtain rfl := hinv.keyed k job hk
      exact .inl (.inr (by simp [JobMap.status, hk, hp]))
  · rcases List.mem_append.1 hm with hm | hm
    · exact .inl (.inl (.inr ⟨m, hm, rfl⟩))
    · rcases hstep.sends hm with ⟨k, w, now, reachable, rfl, hreply⟩ | ⟨job, rfl, hlist⟩
      · have hclaim := hlossy.claim
        have hk : m.jobId = k := by
          rcases hreply with ⟨rfl, -⟩ | ⟨reason, rfl, -⟩ <;> rfl
        exact .inl (.inl (.inr ⟨_, hclaim, hk.symm⟩))
      · exact .inl (.inl (.inl ⟨job, hlist, rfl⟩))
  · obtain ⟨st', hst', hchange⟩ := hstep.status j
    rw [hst'] at hst
    cases hchange with
    | keep => exact .inl (.inr hst)
    | inserted hmem hid => exact .inr ⟨_, hmem, rfl, hid⟩
    | _ => cases hst

theorem Inv.not_pending_kept (hinv : s.Inv) (hstep : s.backend.Step D l b ms) {j : JobId}
    (hmentioned : s.Mentioned j) (hj : s.backend.jobs.status j ≠ some .pending) :
    b.jobs.status j ≠ some .pending := by
  intro hp
  obtain ⟨st', hst', hchange⟩ := hstep.status j
  rw [hst'] at hp
  cases hchange with
  | keep => exact hj hp
  | inserted hmem hid => exact (hinv.opened j (.inl hmentioned)).2 _ hmem hid
  | _ => cases hp

/-- A new acceptance is the reply to a claim of a pending job, which it assigns. -/
theorem accepted_coordinator (members : List PeerId) (hstep : s.backend.Step D l b ms) {j : JobId}
    {w : PeerId} (h : (s.afterCoordinator members l b ms).Accepted j w) :
    s.Accepted j w ∨ ∃ now reachable, l = .recv (.claimJob j w) now reachable ∧
      s.backend.jobs.status j = some .pending ∧ b.jobs.status j = some (.assigned w now) := by
  rcases List.mem_append.1 h with h | h
  · exact .inl h
  · rcases hstep.sends h with ⟨k, p, now, reachable, rfl, ⟨heq, hp, hb⟩ | ⟨reason, heq, -⟩⟩ |
        ⟨job, heq, -⟩
    · cases heq
      exact .inr ⟨now, reachable, rfl, hp, hb⟩
    · cases heq
    · cases heq

theorem Inv.opened_coordinator (hinv : s.Inv) (hstep : s.backend.Step D l b ms)
    (hlossy : s.Lossy (.coordinator l)) (hfresh : s.backend.ChoosesFresh D l) {j : JobId}
    (h : (s.afterCoordinator members l b ms).Mentioned j ∨ b.jobs.status j = some .pending) :
    (b.jobs.status j).isSome = true ∧ ∀ job ∈ b.creating, job.id ≠ j := by
  rcases hinv.opened_before hstep hlossy h with hold | ⟨job, hmem, rfl, rfl⟩
  · obtain ⟨hsome, hcreating⟩ := hinv.opened j hold
    refine ⟨hstep.status_isSome hsome, ?_⟩
    intro job hjob hid
    rcases hstep.creating_cases hjob with hmem | ⟨req, nonce, now, rfl, rfl⟩
    · exact hcreating job hmem hid
    · rw [← hid, hfresh.1] at hsome
      cases hsome
  · cases hstep with
    | insert =>
      refine ⟨by rw [status_insert, if_pos rfl]; rfl, ?_⟩
      intro other hother
      exact Backend.not_mem_erase_of_nodup hinv.distinct hmem hother

theorem Inv.unique_coordinator (hinv : s.Inv) (hstep : s.backend.Step D l b ms) {j : JobId}
    {w w' : PeerId} (hw : (s.afterCoordinator members l b ms).Accepted j w)
    (hw' : (s.afterCoordinator members l b ms).Accepted j w') : w = w' := by
  rcases accepted_coordinator members hstep hw with hold | ⟨now, reachable, hl, hp, -⟩
  · rcases accepted_coordinator members hstep hw' with hold' | ⟨-, -, -, hp, -⟩
    · exact hinv.unique j w w' hold hold'
    · exact absurd hp (hinv.taken j w hold)
  · rcases accepted_coordinator members hstep hw' with hold' | ⟨now', reachable', hl', -, -⟩
    · exact absurd hp (hinv.taken j w' hold')
    · rw [hl] at hl'
      cases hl'
      rfl

theorem Inv.assigned_coordinator (hinv : s.Inv) (hstep : s.backend.Step D l b ms) {j : JobId}
    {w : PeerId} {since : UInt64} (hst : b.jobs.status j = some (.assigned w since)) :
    (s.afterCoordinator members l b ms).Accepted j w := by
  obtain ⟨st', hst', hchange⟩ := hstep.status j
  rw [hst'] at hst
  cases hchange with
  | keep => exact List.mem_append_left _ (hinv.assigned j w since hst)
  | assigned =>
    cases hst
    exact List.mem_append_right _ (List.mem_singleton.2 rfl)
  | inserted hmem =>
    rw [hinv.pending _ hmem] at hst
    cases hst
  | _ => cases hst

theorem Inv.taken_coordinator (hinv : s.Inv) (hstep : s.backend.Step D l b ms) {j : JobId}
    {w : PeerId} (hw : (s.afterCoordinator members l b ms).Accepted j w) :
    b.jobs.status j ≠ some .pending := by
  rcases accepted_coordinator members hstep hw with hold | ⟨now, reachable, -, -, hb⟩
  · exact hinv.not_pending_kept hstep hold.mentioned (hinv.taken j w hold)
  · rw [hb]
    nofun

/-- **A step of the coordinator keeps the invariant.** -/
theorem Inv.coordinator (hinv : s.Inv) (hstep : s.backend.Step D l b ms)
    (hlossy : s.Lossy (.coordinator l)) (hfresh : s.backend.ChoosesFresh D l) :
    (s.afterCoordinator members l b ms).Inv where
  peer := hinv.peer
  keyed := hstep.keyed hinv.keyed
  distinct := hstep.createsDistinct hfresh hinv.distinct
  pending := hstep.creatingPending hinv.pending
  opened _ h := hinv.opened_coordinator hstep hlossy hfresh h
  unique _ _ _ hw hw' := hinv.unique_coordinator hstep hw hw'
  assigned _ _ _ hst := hinv.assigned_coordinator hstep hst
  taken _ _ hw := hinv.taken_coordinator hstep hw
  matched := hinv.matched
  tasks w t ht := List.mem_append_left _ (hinv.tasks w t ht)
  working w j hj := List.mem_append_left _ (hinv.working w j hj)

end Coordinator

/-! ## A step of a worker -/

section Worker

variable {id : PeerId} {l : Worker.Label} {w : Worker} {ms : List GossipMessage}

/-- The state after a step of a worker. -/
abbrev afterWorker (members : List PeerId) (s : System) (id : PeerId) (l : Worker.Label)
    (w : Worker) (ms : List GossipMessage) : System :=
  { s with
    workers := Function.update s.workers id w
    sent := s.sent ++ ms
    flight := s.route members (.worker id l) ms
    failed := s.failed ++ failures s.backend.chain id l }

theorem Inv.sends_worker (hinv : s.Inv) (hstep : (s.workers id).Step l w ms)
    (hlossy : s.Lossy (.worker id l)) {m : GossipMessage} (hm : m ∈ ms) :
    s.Mentioned m.jobId ∧ ∀ j p, m ≠ .claimAccepted j p := by
  rcases hstep.sends hm with ⟨job, now, rfl, rfl, -⟩ | ⟨job, h, hmem, rfl⟩
  · exact ⟨.inr ⟨.jobAvailable job, hlossy _ rfl, rfl⟩, nofun⟩
  · exact ⟨(hinv.tasks id _ hmem).mentioned, nofun⟩

theorem Inv.accepted_worker (hinv : s.Inv) (hstep : (s.workers id).Step l w ms)
    (hlossy : s.Lossy (.worker id l)) {j : JobId} {p : PeerId}
    (h : (s.afterWorker members id l w ms).Accepted j p) : s.Accepted j p := by
  rcases List.mem_append.1 h with h | h
  · exact h
  · exact absurd rfl ((hinv.sends_worker hstep hlossy h).2 j p)

theorem Inv.accepted_of_won (hinv : s.Inv) (hlossy : s.Lossy (.worker id l)) {j : JobId}
    {now : UInt64} (hl : l = .recv (.claimAccepted j (s.workers id).peerId) now) :
    s.Accepted j id := by
  subst hl
  have hmem : .claimAccepted j (s.workers id).peerId ∈ s.sent := hlossy _ rfl
  rwa [hinv.peer id] at hmem

theorem Inv.tasks_worker (hinv : s.Inv) (hstep : (s.workers id).Step l w ms)
    (hlossy : s.Lossy (.worker id l)) {t : Task} (ht : t ∈ w.tasks) : s.Accepted t.jobId id := by
  rcases hstep.task_cases (hinv.matched id) ht with ⟨old, hmem, hid⟩ | ⟨now, hl⟩
  · exact hid ▸ hinv.tasks id old hmem
  · exact hinv.accepted_of_won hlossy hl

theorem Inv.working_worker (hinv : s.Inv) (hstep : (s.workers id).Step l w ms)
    (hlossy : s.Lossy (.worker id l)) {j : JobId} (hj : w.status.isWorking j = true) :
    s.Accepted j id := by
  rcases hstep.working_cases (hinv.matched id) hj with hwork | ⟨t, ht, rfl⟩ | ⟨now, hl⟩
  · exact hinv.working id j hwork
  · exact hinv.tasks id t ht
  · exact hinv.accepted_of_won hlossy hl

/-- **A step of a worker keeps the invariant.** -/
theorem Inv.worker (hinv : s.Inv) (hstep : (s.workers id).Step l w ms)
    (hlossy : s.Lossy (.worker id l)) : (s.afterWorker members id l w ms).Inv := by
  have hold : ∀ j p, (s.afterWorker members id l w ms).Accepted j p → s.Accepted j p :=
    fun j p h => hinv.accepted_worker hstep hlossy h
  have hmono : ∀ j p, s.Accepted j p → (s.afterWorker members id l w ms).Accepted j p :=
    fun j p h => List.mem_append_left _ h
  refine {
    peer := ?_
    keyed := hinv.keyed
    distinct := hinv.distinct
    pending := hinv.pending
    opened := ?_
    unique := fun j p p' hp hp' => hinv.unique j p p' (hold j p hp) (hold j p' hp')
    assigned := fun j p since hst => hmono j p (hinv.assigned j p since hst)
    taken := fun j p hp => hinv.taken j p (hold j p hp)
    matched := ?_
    tasks := ?_
    working := ?_ }
  · intro p
    by_cases hp : p = id
    · subst hp
      simpa using hstep.peerId.trans (hinv.peer p)
    · simpa [hp] using hinv.peer p
  · rintro j ((hlist | ⟨m, hm, rfl⟩) | hst)
    · exact hinv.opened j (.inl (.inl hlist))
    · rcases List.mem_append.1 hm with hm | hm
      · exact hinv.opened _ (.inl (.inr ⟨m, hm, rfl⟩))
      · exact hinv.opened _ (.inl (hinv.sends_worker hstep hlossy hm).1)
    · exact hinv.opened j (.inr hst)
  · intro p
    by_cases hp : p = id
    · subst hp
      simpa using hstep.tasksMatch (hinv.matched p)
    · simpa [hp] using hinv.matched p
  · intro p t ht
    by_cases hp : p = id
    · subst hp
      exact hmono _ _ (hinv.tasks_worker hstep hlossy (by simpa using ht))
    · exact hmono _ _ (hinv.tasks p t (by simpa [hp] using ht))
  · intro p j hj
    by_cases hp : p = id
    · subst hp
      exact hmono _ _ (hinv.working_worker hstep hlossy (by simpa using hj))
    · exact hmono _ _ (hinv.working p j (by simpa [hp] using hj))

end Worker

/-- **Every step keeps the invariant.** -/
theorem Inv.step {l : Label} (hinv : s.Inv) (hstep : Step D members s l s') (hlossy : s.Lossy l)
    (hfresh : s.Fresh D l) : s'.Inv := by
  cases hstep with
  | coordinator hb => exact hinv.coordinator hb hlossy hfresh
  | worker hw => exact hinv.worker hw hlossy

end Step

/-! ## Runs -/

/-- One worker for each job. -/
structure ClaimExclusion (s : System) : Prop where
  unique : ∀ j w w', .claimAccepted j w ∈ s.sent → .claimAccepted j w' ∈ s.sent → w = w'
  working : ∀ w job, (s.workers w).status = .proving job ∨ (s.workers w).status = .submitting job →
    .claimAccepted job.id w ∈ s.sent
  assigned : ∀ j w assignedAt, s.backend.jobs.status j = some (.assigned w assignedAt) →
    .claimAccepted j w ∈ s.sent

theorem Inv.claimExclusion {s : System} (h : s.Inv) : s.ClaimExclusion where
  unique := h.unique
  working w job hst := h.working w job.id (WorkerStatus.isWorking_iff.2 ⟨job, hst, rfl⟩)
  assigned := h.assigned

/-- **A job is claimed by at most one worker**, whatever the network does. -/
theorem claim_exclusion (D : Deployment) (members : List PeerId) (chain : Chain) (contract : Bool)
    (defaultDeadlineSecs : UInt64) (startBlock : Nat) (s : System)
    (h : Steps D members (fun u l => u.Lossy l ∧ u.Fresh D l)
      (start chain contract defaultDeadlineSecs startBlock) s) :
    s.ClaimExclusion := by
  have hinv : s.Inv := by
    refine Transition.Steps.invariant ?_ h (inv_start chain contract defaultDeadlineSecs startBlock)
    rintro u l v hu ⟨hlossy, hfresh⟩ hnext
    exact hu.step (.of_step hnext) hlossy hfresh
  exact hinv.claimExclusion

/-! ## One worker wins a job -/

open Sample

def prover : PeerId := ⟨.fill 32 1⟩

/-- A job is created, announced, claimed and won. -/
def won : List Label :=
  [.coordinator (.create request nonce 1000), .coordinator (.mine [submitJob]),
    .coordinator (.insert job), .coordinator (.announce job),
    .worker prover (.recv (.jobAvailable job) 1001),
    .coordinator (.recv (.claimJob jobId prover) 1002 true),
    .worker prover (.recv (.claimAccepted jobId prover) 1003)]

theorem claim_exclusion_won :
    ∃ s, Steps deployment [prover] (fun u l => u.Lossy l ∧ u.Fresh deployment l)
        (start (Chain.genesis 0) true 300 0) s ∧
      (s.workers prover).status = .proving job ∧ s.ClaimExclusion := by
  have hrun : (Transition.run (Transition.checked (step deployment [prover])
      fun u l => u.Lossy l ∧ u.Fresh deployment l) won
        (start (Chain.genesis 0) true 300 0)).map (fun s => (s.workers prover).status) =
          some (.proving job) := by
    decide +kernel
  obtain ⟨s, hs, hst⟩ := Transition.exists_of_checked hrun
  exact ⟨s, hs, hst, claim_exclusion deployment [prover] (Chain.genesis 0) true 300 0 s hs⟩

end System

end ProofMarket
