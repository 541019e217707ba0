import ProofMarket.Core
import Mathlib.Data.Finmap

/-!
# What the coordinator and the indexer do to the job map

The functions of `gossip_handler.rs`, `api.rs` and `indexer/src/lib.rs` that write the shared
`DashMap<JobId, Job>`. Each takes one entry's lock once, so each is one atomic change of the map;
what is awaited in between is left to `ProofMarket.Coordinator.Process`.
-/

namespace ProofMarket

/-- `DashMap<JobId, Job>`. -/
abbrev JobMap := Finmap fun _ : JobId => Job

namespace JobMap

/-- `jobs.entry(jobId).and_modify(f)`. -/
def andModify (m : JobMap) (jobId : JobId) (f : Job → Job) : JobMap :=
  match m.lookup jobId with
  | some job => m.insert jobId (f job)
  | none => m

/-- The status recorded for a job. -/
def status (m : JobMap) (jobId : JobId) : Option JobStatus := (m.lookup jobId).map Job.jobStatus

theorem lookup_andModify (m : JobMap) (j k : JobId) (f : Job → Job) :
    (m.andModify j f).lookup k = if k = j then (m.lookup j).map f else m.lookup k := by
  unfold andModify
  by_cases hk : k = j
  · subst hk
    cases hm : m.lookup k <;> simp [hm]
  · cases hm : m.lookup j <;> simp [hk]

theorem lookup_insert_eq (m : JobMap) (j k : JobId) (job : Job) :
    (m.insert j job).lookup k = if k = j then some job else m.lookup k := by
  by_cases hk : k = j
  · subst hk
    simp
  · simp [hk]

theorem status_of_lookup {m m' : JobMap} {j k : JobId} {v : Option Job}
    (h : m'.lookup k = if k = j then v else m.lookup k) :
    m'.status k = if k = j then v.map Job.jobStatus else m.status k := by
  unfold status
  rw [h]
  split_ifs <;> rfl

end JobMap

/-! ## `gossip_handler.rs` -/

namespace Coordinator

/-- `handle_claim`: the new map and the reply that is broadcast. -/
def handleClaim (now : UInt64) (jobs : JobMap) (jobId : JobId) (workerId : PeerId) :
    JobMap × GossipMessage :=
  match jobs.lookup jobId with
  | none => (jobs, .claimRejected jobId "job not found")
  | some job =>
    if job.jobStatus = .pending then
      (jobs.insert jobId { job with jobStatus := .assigned workerId now },
        .claimAccepted jobId workerId)
    else (jobs, .claimRejected jobId "job already assigned")

/-- The first half of `handle_job_completed`: the completion is kept only when there is a contract
client and `is_completed` answers `Ok(true)`. -/
def verifyCompletion (isCompleted : Option (Except String Bool)) : Bool :=
  match isCompleted with
  | none => false
  | some (.ok completed) => completed
  | some (.error _) => false

/-- The second half of `handle_job_completed`: the write, once the chain has confirmed. -/
def recordCompletion (jobs : JobMap) (jobId : JobId) (txHash : TxHash) : JobMap :=
  jobs.andModify jobId fun job =>
    if !job.jobStatus.isCompleted then { job with jobStatus := .completed txHash } else job

/-! ## `api.rs` -/

/-- A `CreateJobRequest` whose payload and owner have been decoded. -/
structure CreateJobRequest where
  payload : Bytes
  reward : BitVec 128
  owner : Option Address

/-- `generate_job_id`. -/
def generateJobId (sha256 : Bytes → FixedBytes 32) (owner : Address) (payload nonce : Bytes) :
    JobId :=
  ⟨sha256 (owner.bytes.val ++ payload ++ nonce)⟩

/-- The job `create_job` makes of a request. -/
def CreateJobRequest.job (req : CreateJobRequest) (sha256 : Bytes → FixedBytes 32)
    (nonce : FixedBytes 8) (now defaultDeadlineSecs : UInt64) : Job :=
  let owner := req.owner.getD Address.zero
  { id := generateJobId sha256 owner req.payload nonce.val
    jobStatus := .pending
    owner := owner
    payload := req.payload
    reward := req.reward
    createdAt := now
    deadline := now + defaultDeadlineSecs }

end Coordinator

/-! ## `indexer/src/lib.rs` -/

namespace Indexer

/-- The job the indexer inserts for a completion of a job it does not know. -/
def discoveredJob (jobId : JobId) (txHash : TxHash) : Job where
  id := jobId
  jobStatus := .completed txHash
  owner := Address.zero
  payload := []
  reward := 0
  createdAt := 0
  deadline := 0

/-- `Indexer::handle_job_completed`. -/
def handleJobCompleted (jobs : JobMap) (jobId : JobId) (txHash : TxHash) : JobMap :=
  match jobs.lookup jobId with
  | some job =>
    if !job.jobStatus.isCompleted then
      jobs.insert jobId { job with jobStatus := .completed txHash }
    else jobs
  | none => jobs.insert jobId (discoveredJob jobId txHash)

/-- `Indexer::handle_job_expired`. -/
def handleJobExpired (jobs : JobMap) (jobId : JobId) : JobMap :=
  jobs.andModify jobId fun job =>
    if !(job.jobStatus.isCompleted || job.jobStatus = .expired) then
      { job with jobStatus := .expired }
    else job

end Indexer

/-! ## Each change, key by key -/

open Coordinator Indexer

theorem JobStatus.isCompleted_iff {st : JobStatus} :
    st.isCompleted = true ↔ ∃ h, st = .completed h := by
  cases st <;> simp [JobStatus.isCompleted]

/-- `handle_claim` has two outcomes: it assigns a pending job, or it changes nothing. -/
theorem handleClaim_cases (now : UInt64) (jobs : JobMap) (j : JobId) (w : PeerId) :
    (∃ job, jobs.lookup j = some job ∧ job.jobStatus = .pending ∧
      handleClaim now jobs j w =
        (jobs.insert j { job with jobStatus := .assigned w now }, .claimAccepted j w)) ∨
    ((∀ job, jobs.lookup j = some job → job.jobStatus ≠ .pending) ∧
      ∃ reason, handleClaim now jobs j w = (jobs, .claimRejected j reason)) := by
  unfold handleClaim
  cases hj : jobs.lookup j with
  | none => exact .inr ⟨by simp, _, rfl⟩
  | some job =>
    by_cases hp : job.jobStatus = .pending
    · exact .inl ⟨job, rfl, hp, if_pos hp⟩
    · refine .inr ⟨fun job' h => ?_, _, if_neg hp⟩
      cases h
      exact hp

theorem lookup_recordCompletion (jobs : JobMap) (j k : JobId) (h : TxHash) :
    (recordCompletion jobs j h).lookup k =
      if k = j then (jobs.lookup j).map fun job =>
        if !job.jobStatus.isCompleted then { job with jobStatus := .completed h } else job
      else jobs.lookup k :=
  JobMap.lookup_andModify ..

theorem lookup_handleJobCompleted (jobs : JobMap) (j k : JobId) (h : TxHash) :
    (handleJobCompleted jobs j h).lookup k =
      if k = j then some (match jobs.lookup j with
        | some job =>
          if !job.jobStatus.isCompleted then { job with jobStatus := .completed h } else job
        | none => discoveredJob j h)
      else jobs.lookup k := by
  unfold handleJobCompleted
  cases hj : jobs.lookup j with
  | none => exact JobMap.lookup_insert_eq ..
  | some job =>
    by_cases hc : job.jobStatus.isCompleted
    · by_cases hk : k = j
      · subst hk
        simp [hc, hj]
      · simp [hc, hk]
    · by_cases hk : k = j
      · subst hk
        simp [hc]
      · simp [hc, hk]

theorem lookup_handleJobExpired (jobs : JobMap) (j k : JobId) :
    (handleJobExpired jobs j).lookup k =
      if k = j then (jobs.lookup j).map fun job =>
        if !(job.jobStatus.isCompleted || job.jobStatus = .expired) then
          { job with jobStatus := .expired } else job
      else jobs.lookup k :=
  JobMap.lookup_andModify ..

/-! ## Each change, status by status -/

namespace JobStatus

/-- What a completion makes of a status: the first one stays. -/
def complete (h : TxHash) (st : JobStatus) : JobStatus :=
  if st.isCompleted then st else .completed h

/-- What an expiration makes of a status. -/
def expire (st : JobStatus) : JobStatus := if st.isCompleted then st else .expired

@[simp] theorem isCompleted_complete (h : TxHash) (st : JobStatus) :
    (complete h st).isCompleted = true := by
  unfold complete
  split_ifs with hc
  · exact hc
  · rfl

theorem exists_complete (h : TxHash) (st : JobStatus) : ∃ x, complete h st = .completed x :=
  isCompleted_iff.1 (isCompleted_complete h st)

theorem expire_shown (st : JobStatus) : st.expire.isCompleted = true ∨ st.expire = .expired := by
  unfold expire
  split_ifs with hc
  · exact .inl hc
  · exact .inr rfl

/-- A completion or an expiration leaves a status as it is, or sets it where nothing is
completed. -/
theorem complete_cases (h : TxHash) (o : Option JobStatus) :
    o.map (complete h) = o ∨
      ∃ st, o = some st ∧ st.isCompleted = false ∧ o.map (complete h) = some (.completed h) := by
  cases o with
  | none => exact .inl rfl
  | some st =>
    cases hc : st.isCompleted with
    | false => exact .inr ⟨st, rfl, hc, by simp [complete, hc]⟩
    | true => exact .inl (by simp [complete, hc])

theorem expire_cases (o : Option JobStatus) :
    o.map expire = o ∨
      ∃ st, o = some st ∧ st.isCompleted = false ∧ o.map expire = some .expired := by
  cases o with
  | none => exact .inl rfl
  | some st =>
    cases hc : st.isCompleted with
    | false => exact .inr ⟨st, rfl, hc, by simp [expire, hc]⟩
    | true => exact .inl (by simp [expire, hc])

end JobStatus

theorem status_handleClaim (now : UInt64) (jobs : JobMap) (j k : JobId) (w : PeerId) :
    (handleClaim now jobs j w).1.status k =
      if k = j ∧ jobs.status k = some .pending then some (.assigned w now) else jobs.status k := by
  rcases handleClaim_cases now jobs j w with ⟨job, hj, hp, hcl⟩ | ⟨hj, reason, hcl⟩
  · rw [hcl, JobMap.status_of_lookup (JobMap.lookup_insert_eq ..)]
    by_cases hk : k = j
    · subst hk
      simp [JobMap.status, hj, hp]
    · simp [hk]
  · rw [hcl, if_neg]
    rintro ⟨rfl, hp⟩
    obtain ⟨job, hlook, hst⟩ := Option.map_eq_some_iff.1 hp
    exact hj job hlook hst

theorem status_recordCompletion (jobs : JobMap) (j k : JobId) (h : TxHash) :
    (recordCompletion jobs j h).status k =
      if k = j then (jobs.status j).map (JobStatus.complete h) else jobs.status k := by
  rw [JobMap.status_of_lookup (lookup_recordCompletion ..)]
  congr 1
  cases hj : jobs.lookup j with
  | none => simp [JobMap.status, hj]
  | some job =>
    cases hc : job.jobStatus.isCompleted <;> simp [JobMap.status, hj, hc, JobStatus.complete]

theorem status_handleJobCompleted (jobs : JobMap) (j k : JobId) (h : TxHash) :
    (handleJobCompleted jobs j h).status k =
      if k = j then some (((jobs.status j).map (JobStatus.complete h)).getD (.completed h))
      else jobs.status k := by
  rw [JobMap.status_of_lookup (lookup_handleJobCompleted ..)]
  congr 1
  cases hj : jobs.lookup j with
  | none => simp [JobMap.status, hj, discoveredJob]
  | some job =>
    cases hc : job.jobStatus.isCompleted <;> simp [JobMap.status, hj, hc, JobStatus.complete]

theorem status_handleJobExpired (jobs : JobMap) (j k : JobId) :
    (handleJobExpired jobs j).status k =
      if k = j then (jobs.status j).map JobStatus.expire else jobs.status k := by
  rw [JobMap.status_of_lookup (lookup_handleJobExpired ..)]
  congr 1
  cases hj : jobs.lookup j with
  | none => simp [JobMap.status, hj]
  | some job =>
    cases hst : job.jobStatus <;>
      simp [JobMap.status, hj, hst, JobStatus.expire, JobStatus.isCompleted]

theorem status_insert (jobs : JobMap) (job : Job) (k : JobId) :
    JobMap.status (jobs.insert job.id job) k =
      if k = job.id then some job.jobStatus else jobs.status k :=
  JobMap.status_of_lookup (JobMap.lookup_insert_eq ..)

end ProofMarket
