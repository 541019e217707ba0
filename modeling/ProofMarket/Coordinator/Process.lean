import ProofMarket.Chain
import ProofMarket.Coordinator.Handlers
import ProofMarket.Lib.Transition

/-!
# One coordinator process and the chain

The tasks of the coordinator share the job map and interleave at their `await`s. `Backend` is the
chain with the map and where each task stands:

* `run_gossip_handler` handles one message at a time. A claim is handled in one step. A completion
  takes two: the answer of `is_completed` (`recv`), and the write that follows (`record`).
* `create_job` chooses an id (`create`), awaits the receipt of its `submitJob`, and then inserts the
  job (`insert`) or gives up (`abandon`); the announcement comes last (`announce`). Any number of
  requests may be under way. What their transactions do on chain is left to `mine`.
* `run_pending_rebroadcast` clones the pending jobs it finds (`collect`), then sends them
  (`resend`).
* `Indexer::run` polls: it reads the head (`pollBegin`), then queries and applies the completions
  and after them the expirations, one entry a step (`pollStep`). Either query may fail (`pollFail`).

A step returns the messages it broadcasts.
-/

namespace ProofMarket

open Registry (Deployment Act)

/-- Where `poll_events` stands, with the head it has read and the events left to apply. -/
inductive Poll where
  | idle
  | queryCompleted (head : Nat)
  | applyCompleted (head : Nat) (logs : List (JobId × TxHash))
  | queryExpired (head : Nat)
  | applyExpired (head : Nat) (logs : List JobId)

/-- The chain and one coordinator process. `contract` says whether a contract client is configured;
`verified` is a completion that the chain has confirmed and that is yet to be written. -/
structure Backend where
  chain : Chain
  contract : Bool
  defaultDeadlineSecs : UInt64
  jobs : JobMap
  verified : Option (JobId × TxHash)
  creating : List Job
  announcing : List Job
  resending : List Job
  lastBlock : Nat
  poll : Poll

namespace Backend

/-- A process just started with the jobs `m`, its indexer at `startBlock`. -/
def start (chain : Chain) (contract : Bool) (defaultDeadlineSecs : UInt64) (m : JobMap)
    (startBlock : Nat) : Backend where
  chain := chain
  contract := contract
  defaultDeadlineSecs := defaultDeadlineSecs
  jobs := m
  verified := none
  creating := []
  announcing := []
  resending := []
  lastBlock := startBlock
  poll := .idle

inductive Label where
  | mine (txs : List (TxHash × Act))
  | recv (m : GossipMessage) (now : UInt64) (reachable : Bool)
  | record
  | create (req : Coordinator.CreateJobRequest) (nonce : FixedBytes 8) (now : UInt64)
  | insert (job : Job)
  | abandon (job : Job)
  | announce (job : Job)
  | collect (jobId : JobId)
  | resend
  | pollBegin
  | pollStep
  | pollFail

/-- What `contract.is_completed(job_id).await` gives now; `none` without a contract client. -/
def isCompleted (s : Backend) (jobId : JobId) (reachable : Bool) : Option (Except String Bool) :=
  if s.contract then
    some (if reachable then .ok (s.chain.world.completed jobId) else .error "contract call failed")
  else none

/-- `process_message`, up to the answer of the chain where it asks for one. -/
def recv (s : Backend) (m : GossipMessage) (now : UInt64) (reachable : Bool) :
    Backend × List GossipMessage :=
  match m with
  | .claimJob jobId workerId =>
    let (jobs, reply) := Coordinator.handleClaim now s.jobs jobId workerId
    ({ s with jobs }, [reply])
  | .jobCompleted jobId txHash =>
    if Coordinator.verifyCompletion (s.isCompleted jobId reachable) then
      ({ s with verified := some (jobId, txHash) }, [])
    else (s, [])
  | _ => (s, [])

/-- The next step of a poll that is under way. -/
def pollStep (s : Backend) : Option Backend :=
  match s.poll with
  | .idle => none
  | .queryCompleted head =>
    some { s with poll := .applyCompleted head (s.chain.completedLogs (s.lastBlock + 1) head) }
  | .applyCompleted head ((jobId, txHash) :: logs) =>
    some { s with
      jobs := Indexer.handleJobCompleted s.jobs jobId txHash
      poll := .applyCompleted head logs }
  | .applyCompleted head [] => some { s with poll := .queryExpired head }
  | .queryExpired head =>
    some { s with poll := .applyExpired head (s.chain.expiredLogs (s.lastBlock + 1) head) }
  | .applyExpired head (jobId :: logs) =>
    some { s with
      jobs := Indexer.handleJobExpired s.jobs jobId
      poll := .applyExpired head logs }
  | .applyExpired head [] => some { s with lastBlock := head, poll := .idle }

def step (D : Deployment) (s : Backend) : Label → Option (Backend × List GossipMessage)
  | .mine txs => some ({ s with chain := s.chain.mine D txs }, [])
  | .recv m now reachable => if s.verified.isSome then none else some (s.recv m now reachable)
  | .record =>
    match s.verified with
    | some (jobId, txHash) =>
      some ({ s with
        jobs := Coordinator.recordCompletion s.jobs jobId txHash
        verified := none }, [])
    | none => none
  | .create req nonce now =>
    some ({ s with
      creating := s.creating ++ [req.job D.sha256 nonce now s.defaultDeadlineSecs] }, [])
  | .insert job =>
    if job ∈ s.creating then
      some ({ s with
        jobs := Finmap.insert job.id job s.jobs
        creating := s.creating.erase job
        announcing := s.announcing ++ [job] }, [])
    else none
  | .abandon job =>
    if job ∈ s.creating then some ({ s with creating := s.creating.erase job }, []) else none
  | .announce job =>
    if job ∈ s.announcing then
      some ({ s with announcing := s.announcing.erase job }, [.jobAvailable job])
    else none
  | .collect jobId =>
    match s.jobs.lookup jobId with
    | some job =>
      if job.jobStatus = .pending then some ({ s with resending := s.resending ++ [job] }, [])
      else none
    | none => none
  | .resend =>
    match s.resending with
    | job :: rest => some ({ s with resending := rest }, [.jobAvailable job])
    | [] => none
  | .pollBegin =>
    match s.poll with
    | .idle =>
      if s.chain.head ≤ s.lastBlock then some (s, [])
      else some ({ s with poll := .queryCompleted s.chain.head }, [])
    | _ => none
  | .pollStep => s.pollStep.map fun s' => (s', [])
  | .pollFail =>
    match s.poll with
    | .queryCompleted _ | .queryExpired _ => some ({ s with poll := .idle }, [])
    | _ => none

/-- The step without its messages. -/
def next (D : Deployment) (s : Backend) (l : Label) : Option Backend := (s.step D l).map Prod.fst

/-- Runs whose every step satisfies `ok`. -/
abbrev Steps (D : Deployment) (ok : Backend → Label → Prop) : Backend → Backend → Prop :=
  Transition.Steps (next D) ok

/-! ## What a step does -/

section Step

variable {D : Deployment} {s s' : Backend} {l : Label} {ms : List GossipMessage}

/-- The ways a step can go, with what each requires. -/
inductive Step (D : Deployment) (s : Backend) : Label → Backend → List GossipMessage → Prop where
  | mine {txs : List (TxHash × Act)} :
      Step D s (.mine txs) { s with chain := s.chain.mine D txs } []
  | claim {j : JobId} {w : PeerId} {now : UInt64} {reachable : Bool} : s.verified = none →
      Step D s (.recv (.claimJob j w) now reachable)
        { s with jobs := (Coordinator.handleClaim now s.jobs j w).1 }
        [(Coordinator.handleClaim now s.jobs j w).2]
  | verify {j : JobId} {h : TxHash} {now : UInt64} : s.verified = none →
      s.chain.world.completed j = true →
      Step D s (.recv (.jobCompleted j h) now true) { s with verified := some (j, h) } []
  | ignore {m : GossipMessage} {now : UInt64} {reachable : Bool} : s.verified = none →
      (∀ j w, m ≠ .claimJob j w) → Step D s (.recv m now reachable) s []
  | record {j : JobId} {h : TxHash} : s.verified = some (j, h) →
      Step D s .record
        { s with jobs := Coordinator.recordCompletion s.jobs j h, verified := none } []
  | create {req : Coordinator.CreateJobRequest} {nonce : FixedBytes 8} {now : UInt64} :
      Step D s (.create req nonce now)
        { s with
          creating := s.creating ++ [req.job D.sha256 nonce now s.defaultDeadlineSecs] } []
  | insert {job : Job} : job ∈ s.creating →
      Step D s (.insert job)
        { s with
          jobs := Finmap.insert job.id job s.jobs
          creating := s.creating.erase job
          announcing := s.announcing ++ [job] } []
  | abandon {job : Job} : job ∈ s.creating →
      Step D s (.abandon job) { s with creating := s.creating.erase job } []
  | announce {job : Job} : job ∈ s.announcing →
      Step D s (.announce job) { s with announcing := s.announcing.erase job } [.jobAvailable job]
  | collect {j : JobId} {job : Job} : s.jobs.lookup j = some job → job.jobStatus = .pending →
      Step D s (.collect j) { s with resending := s.resending ++ [job] } []
  | resend {job : Job} {rest : List Job} : s.resending = job :: rest →
      Step D s .resend { s with resending := rest } [.jobAvailable job]
  | upToDate : Step D s .pollBegin s []
  | pollBegin : s.poll = .idle → s.lastBlock < s.chain.head →
      Step D s .pollBegin { s with poll := .queryCompleted s.chain.head } []
  | queryCompleted {head : Nat} : s.poll = .queryCompleted head →
      Step D s .pollStep
        { s with poll := .applyCompleted head (s.chain.completedLogs (s.lastBlock + 1) head) } []
  | applyCompleted {head : Nat} {j : JobId} {h : TxHash} {logs : List (JobId × TxHash)} :
      s.poll = .applyCompleted head ((j, h) :: logs) →
      Step D s .pollStep
        { s with
          jobs := Indexer.handleJobCompleted s.jobs j h
          poll := .applyCompleted head logs } []
  | completedDone {head : Nat} : s.poll = .applyCompleted head [] →
      Step D s .pollStep { s with poll := .queryExpired head } []
  | queryExpired {head : Nat} : s.poll = .queryExpired head →
      Step D s .pollStep
        { s with poll := .applyExpired head (s.chain.expiredLogs (s.lastBlock + 1) head) } []
  | applyExpired {head : Nat} {j : JobId} {logs : List JobId} :
      s.poll = .applyExpired head (j :: logs) →
      Step D s .pollStep
        { s with
          jobs := Indexer.handleJobExpired s.jobs j
          poll := .applyExpired head logs } []
  | expiredDone {head : Nat} : s.poll = .applyExpired head [] →
      Step D s .pollStep { s with lastBlock := head, poll := .idle } []
  | pollFail : Step D s .pollFail { s with poll := .idle } []

theorem of_verifyCompletion {j : JobId} {reachable : Bool}
    (h : Coordinator.verifyCompletion (s.isCompleted j reachable) = true) :
    reachable = true ∧ s.chain.world.completed j = true := by
  unfold isCompleted at h
  split_ifs at h with hc hr
  · exact ⟨hr, h⟩
  · cases h
  · cases h

theorem Step.of_recv (hv : s.verified = none) (m : GossipMessage) (now : UInt64)
    (reachable : Bool) :
    Step D s (.recv m now reachable) (s.recv m now reachable).1 (s.recv m now reachable).2 := by
  cases m with
  | claimJob j w => exact .claim hv
  | jobCompleted j x =>
    have hne : ∀ k w, GossipMessage.jobCompleted j x ≠ .claimJob k w := by
      intro k w h
      cases h
    by_cases hc : Coordinator.verifyCompletion (s.isCompleted j reachable) = true
    · obtain ⟨rfl, hj⟩ := of_verifyCompletion hc
      simpa only [recv, if_pos hc] using .verify hv hj
    · simpa only [recv, if_neg hc] using .ignore hv hne
  | jobAvailable | claimAccepted | claimRejected =>
    refine .ignore hv ?_
    intro k w h
    cases h

theorem Step.of_pollStep (h : s.pollStep = some s') : Step D s .pollStep s' [] := by
  unfold pollStep at h
  split at h <;> cases h
  · rename_i hp
    exact .queryCompleted hp
  · rename_i hp
    exact .applyCompleted hp
  · rename_i hp
    exact .completedDone hp
  · rename_i hp
    exact .queryExpired hp
  · rename_i hp
    exact .applyExpired hp
  · rename_i hp
    exact .expiredDone hp

/-- **Every step goes in one of these ways.** -/
theorem Step.of_step (h : s.step D l = some (s', ms)) : Step D s l s' ms := by
  cases l with
  | mine txs =>
    cases h
    exact .mine
  | recv m now reachable =>
    simp only [step] at h
    split at h
    · cases h
    · rename_i hv
      have hrecv : s.recv m now reachable = (s', ms) := Option.some.inj h
      have hstep : Step D s _ _ _ := .of_recv (by simpa using hv) m now reachable
      rwa [hrecv] at hstep
  | record =>
    simp only [step] at h
    split at h
    · rename_i j x hv
      cases h
      exact .record hv
    · cases h
  | create req nonce now =>
    cases h
    exact .create
  | insert job =>
    simp only [step] at h
    split at h
    · rename_i hmem
      cases h
      exact .insert hmem
    · cases h
  | abandon job =>
    simp only [step] at h
    split at h
    · rename_i hmem
      cases h
      exact .abandon hmem
    · cases h
  | announce job =>
    simp only [step] at h
    split at h
    · rename_i hmem
      cases h
      exact .announce hmem
    · cases h
  | collect j =>
    simp only [step] at h
    split at h
    · rename_i job hj
      split at h
      · rename_i hp
        cases h
        exact .collect hj hp
      · cases h
    · cases h
  | resend =>
    simp only [step] at h
    split at h
    · rename_i job rest hr
      cases h
      exact .resend hr
    · cases h
  | pollBegin =>
    simp only [step] at h
    split at h
    · rename_i hp
      split at h
      · cases h
        exact .upToDate
      · rename_i hlt
        cases h
        exact .pollBegin hp (Nat.lt_of_not_le hlt)
    · cases h
  | pollStep =>
    simp only [step, Option.map_eq_some_iff, Prod.mk.injEq] at h
    obtain ⟨t, ht, rfl, rfl⟩ := h
    exact .of_pollStep ht
  | pollFail =>
    simp only [step] at h
    split at h <;> cases h <;> exact .pollFail

theorem next_eq_some : s.next D l = some s' ↔ ∃ ms, s.step D l = some (s', ms) := by
  unfold next
  rw [Option.map_eq_some_iff]
  constructor
  · rintro ⟨⟨t, ms⟩, ht, rfl⟩
    exact ⟨ms, ht⟩
  · rintro ⟨ms, h⟩
    exact ⟨_, h, rfl⟩

theorem Step.of_next (h : s.next D l = some s') : ∃ ms, Step D s l s' ms := by
  obtain ⟨ms, hms⟩ := next_eq_some.1 h
  exact ⟨ms, .of_step hms⟩

theorem Step.chain_ok (hstep : Step D s l s' ms) (h : s.chain.Ok D) : s'.chain.Ok D := by
  cases hstep with
  | mine => exact h.mine _
  | _ => exact h

theorem Step.receiptsOk (hstep : Step D s l s' ms) (h : s.chain.ReceiptsOk) :
    s'.chain.ReceiptsOk := by
  cases hstep with
  | mine => exact h.mine _
  | _ => exact h

theorem Step.extends (hstep : Step D s l s' ms) (h : s.chain.Ok D) : s.chain.Extends s'.chain := by
  cases hstep with
  | mine => exact h.extends_mine _
  | _ => exact .refl _

/-! ## What a step does to a status -/

/-- The ways the status of `j` becomes `st'`: nothing changes it, a claim assigns the pending job,
`create_job` inserts the job, one of the two paths completes it, or the indexer expires it. -/
inductive StatusChange (s : Backend) (j : JobId) :
    Label → Option JobStatus → List GossipMessage → Prop where
  | keep {l : Label} {ms : List GossipMessage} : StatusChange s j l (s.jobs.status j) ms
  | assigned {w : PeerId} {now : UInt64} {reachable : Bool} : s.jobs.status j = some .pending →
      StatusChange s j (.recv (.claimJob j w) now reachable) (some (.assigned w now))
        [.claimAccepted j w]
  | inserted {job : Job} : job ∈ s.creating → job.id = j →
      StatusChange s j (.insert job) (some job.jobStatus) []
  | confirmed {h : TxHash} {st : JobStatus} : s.verified = some (j, h) →
      s.jobs.status j = some st → st.isCompleted = false →
      StatusChange s j .record (some (.completed h)) []
  | indexed {head : Nat} {h : TxHash} {logs : List (JobId × TxHash)} :
      s.poll = .applyCompleted head ((j, h) :: logs) →
      (∀ st, s.jobs.status j = some st → st.isCompleted = false) →
      StatusChange s j .pollStep (some (.completed h)) []
  | expired {head : Nat} {logs : List JobId} {st : JobStatus} :
      s.poll = .applyExpired head (j :: logs) → s.jobs.status j = some st →
      st.isCompleted = false → StatusChange s j .pollStep (some .expired) []

/-- **A status changes in one of these ways.** -/
theorem Step.status (hstep : Step D s l s' ms) (j : JobId) :
    ∃ st', s'.jobs.status j = st' ∧ StatusChange s j l st' ms := by
  cases hstep with
  | @claim k w now reachable =>
    rcases handleClaim_cases now s.jobs k w with ⟨job, hjob, hp, hcl⟩ | ⟨-, reason, hcl⟩
    · by_cases hk : j = k
      · subst hk
        have hpending : s.jobs.status j = some .pending := by
          simp [JobMap.status, hjob, hp]
        refine ⟨some (.assigned w now), ?_, ?_⟩
        · rw [status_handleClaim, if_pos ⟨rfl, hpending⟩]
        · rw [hcl]
          exact .assigned hpending
      · refine ⟨s.jobs.status j, ?_, .keep⟩
        rw [status_handleClaim, if_neg (fun h => hk h.1)]
    · exact ⟨s.jobs.status j, by rw [hcl], .keep⟩
  | @record k x hv =>
    by_cases hk : j = k
    · subst hk
      have hst' := status_recordCompletion s.jobs j j x
      rw [if_pos rfl] at hst'
      rcases JobStatus.complete_cases x (s.jobs.status j) with hkeep | ⟨st, hst, hc, hset⟩
      · exact ⟨_, hst'.trans hkeep, .keep⟩
      · exact ⟨_, hst'.trans hset, .confirmed hv hst hc⟩
    · exact ⟨s.jobs.status j, by simp [status_recordCompletion, hk], .keep⟩
  | @applyCompleted head k x logs hp =>
    by_cases hk : j = k
    · subst hk
      have hst' := status_handleJobCompleted s.jobs j j x
      rw [if_pos rfl] at hst'
      rcases JobStatus.complete_cases x (s.jobs.status j) with hkeep | ⟨st, hst, hc, hset⟩
      · cases hst : s.jobs.status j with
        | none =>
          refine ⟨some (.completed x), by simp [hst', hst], .indexed hp ?_⟩
          simp [hst]
        | some st =>
          rw [hkeep, hst] at hst'
          exact ⟨some st, hst', hst ▸ .keep⟩
      · refine ⟨some (.completed x), by simp [hst', hset], .indexed hp ?_⟩
        simp [hst, hc]
    · exact ⟨s.jobs.status j, by simp [status_handleJobCompleted, hk], .keep⟩
  | @applyExpired head k logs hp =>
    by_cases hk : j = k
    · subst hk
      have hst' := status_handleJobExpired s.jobs j j
      rw [if_pos rfl] at hst'
      rcases JobStatus.expire_cases (s.jobs.status j) with hkeep | ⟨st, hst, hc, hset⟩
      · exact ⟨_, hst'.trans hkeep, .keep⟩
      · exact ⟨_, hst'.trans hset, .expired hp hst hc⟩
    · exact ⟨s.jobs.status j, by simp [status_handleJobExpired, hk], .keep⟩
  | @insert job hmem =>
    by_cases hk : j = job.id
    · exact ⟨some job.jobStatus, by simp [status_insert, hk], .inserted hmem hk.symm⟩
    · exact ⟨s.jobs.status j, by simp [status_insert, hk], .keep⟩
  | _ => exact ⟨s.jobs.status j, rfl, .keep⟩

theorem Step.status_isSome (hstep : Step D s l s' ms) {j : JobId}
    (hj : (s.jobs.status j).isSome = true) : (s'.jobs.status j).isSome = true := by
  obtain ⟨st', hst', hchange⟩ := hstep.status j
  rw [hst']
  cases hchange with
  | keep => exact hj
  | _ => rfl

end Step

end Backend

end ProofMarket
