import ProofMarket.Core

/-!
# One worker

`worker/src/handler.rs` and the task of `worker/src/lib.rs`. The message loop handles one message at
a time; each `run_proving` it spawns is a task of its own that meets the loop at the status lock.
Every function takes that lock once, so the pieces between two `await`s of a task are its steps
(`Task`). What proving, proof extraction and submission return is up to the environment.
-/

namespace ProofMarket

/-- The part of a `ProofBundle` that the worker reads. -/
structure ProofBundle where
  receiptBytes : Bytes
  deriving DecidableEq

inductive WorkerStatus where
  | idle
  | claiming (job : Job)
  | proving (job : Job)
  | proofReady (job : Job) (bundle : ProofBundle)
  | submitting (job : Job)
  deriving DecidableEq

namespace WorkerStatus

/-- `matches!(status, WorkerStatus::Claiming { job } if job.id == job_id)`. -/
def isClaiming (status : WorkerStatus) (jobId : JobId) : Bool :=
  match status with
  | .claiming job => job.id = jobId
  | _ => false

/-- `matches!(status, WorkerStatus::Proving { job } if job.id == job_id)`. -/
def isProving (status : WorkerStatus) (jobId : JobId) : Bool :=
  match status with
  | .proving job => job.id = jobId
  | _ => false

/-- The worker proves the job or submits its proof. -/
def isWorking (status : WorkerStatus) (jobId : JobId) : Bool :=
  match status with
  | .proving job => job.id = jobId
  | .submitting job => job.id = jobId
  | _ => false

theorem isClaiming_iff {st : WorkerStatus} {j : JobId} :
    st.isClaiming j = true ↔ ∃ job, st = .claiming job ∧ job.id = j := by
  cases st <;> simp [isClaiming]

theorem isProving_iff {st : WorkerStatus} {j : JobId} :
    st.isProving j = true ↔ ∃ job, st = .proving job ∧ job.id = j := by
  cases st <;> simp [isProving]

theorem isWorking_iff {st : WorkerStatus} {j : JobId} :
    st.isWorking j = true ↔ ∃ job, (st = .proving job ∨ st = .submitting job) ∧ job.id = j := by
  cases st <;> simp [isWorking]

end WorkerStatus

/-- Where a spawned `run_proving` stands: waiting for the prover, for `submit_proof`, about to
broadcast the completion, or about to return to `Idle`. -/
inductive Task where
  | proving (jobId : JobId) (job : Job)
  | submitting (job : Job) (bundle : ProofBundle)
  | announcing (job : Job) (txHash : TxHash)
  | leaving (jobId : JobId)
  deriving DecidableEq

/-- The job a task is about. -/
def Task.jobId : Task → JobId
  | .proving j _ | .leaving j => j
  | .submitting job _ | .announcing job _ => job.id

/-- The outcome of the task is known. -/
def Task.isOver : Task → Bool
  | .proving _ _ | .submitting _ _ => false
  | .announcing _ _ | .leaving _ => true

structure Worker where
  peerId : PeerId
  status : WorkerStatus
  tasks : List Task

namespace Worker

/-- `Worker::new`. -/
def start (peerId : PeerId) : Worker := ⟨peerId, .idle, []⟩

/-- `handle_job_available`: the new status, and the message that is broadcast. -/
def handleJobAvailable (peerId : PeerId) (now : UInt64) (status : WorkerStatus) (job : Job) :
    WorkerStatus × List GossipMessage :=
  if status ≠ .idle then (status, [])
  else if job.deadline ≤ now then (status, [])
  else (.claiming job, [.claimJob job.id peerId])

/-- `handle_claim_accepted`: the new status, and the job whose proof is spawned. -/
def handleClaimAccepted (peerId : PeerId) (status : WorkerStatus) (jobId : JobId)
    (workerId : PeerId) : WorkerStatus × Option Job :=
  match status with
  | .claiming job =>
    if job.id = jobId then
      if workerId = peerId then (.proving job, some job) else (.idle, none)
    else (status, none)
  | _ => (status, none)

/-- `handle_claim_rejected`. The message does not say whose claim it rejects. -/
def handleClaimRejected (status : WorkerStatus) (jobId : JobId) (_reason : String) :
    WorkerStatus :=
  if status.isClaiming jobId then .idle else status

/-- `handle_message`. -/
def handleMessage (w : Worker) (m : GossipMessage) (now : UInt64) : Worker × List GossipMessage :=
  match m with
  | .jobAvailable job =>
    let (status, sent) := handleJobAvailable w.peerId now w.status job
    ({ w with status }, sent)
  | .claimAccepted jobId workerId =>
    let (status, spawned) := handleClaimAccepted w.peerId w.status jobId workerId
    ({ w with status, tasks := w.tasks ++ spawned.toList.map (.proving jobId) }, [])
  | .claimRejected jobId reason =>
    ({ w with status := handleClaimRejected w.status jobId reason }, [])
  | _ => (w, [])

/-- `transition_to_idle`. -/
def transitionToIdle (status : WorkerStatus) (expectedJobId : JobId) : WorkerStatus :=
  match status with
  | .submitting job => if job.id = expectedJobId then .idle else status
  | .proving job => if job.id = expectedJobId then .idle else status
  | _ => status

inductive Label where
  | recv (m : GossipMessage) (now : UInt64)
  | proved (jobId : JobId) (job : Job) (result : Except String ProofBundle)
  | submitted (job : Job) (bundle : ProofBundle) (result : Except String TxHash)
  | announce (job : Job) (txHash : TxHash)
  | leave (jobId : JobId)

/-- The new status of `run_proving` when the prover returns, and what is left of the task. -/
def finishProving (status : WorkerStatus) (jobId : JobId) (job : Job) :
    Except String ProofBundle → WorkerStatus × Option Task
  | .error _ => (if status.isProving jobId then .idle else status, none)
  | .ok bundle =>
    if status.isProving jobId then (.submitting job, some (.submitting job bundle))
    else (status, none)

/-- `submit_proof_onchain` when it knows the outcome: an error is that of
`extract_proof_components` or of `submit_proof`, a hash is that of the receipt. -/
def finishSubmitting (job : Job) : Except String TxHash → Task
  | .error _ => .leaving job.id
  | .ok txHash => .announcing job txHash

def step (w : Worker) : Label → Option (Worker × List GossipMessage)
  | .recv m now => some (w.handleMessage m now)
  | .proved jobId job result =>
    if .proving jobId job ∈ w.tasks then
      let (status, task) := finishProving w.status jobId job result
      some ({ w with status, tasks := w.tasks.erase (.proving jobId job) ++ task.toList }, [])
    else none
  | .submitted job bundle result =>
    if .submitting job bundle ∈ w.tasks then
      some ({ w with
        tasks := w.tasks.erase (.submitting job bundle) ++ [finishSubmitting job result] }, [])
    else none
  | .announce job txHash =>
    if .announcing job txHash ∈ w.tasks then
      some ({ w with tasks := w.tasks.erase (.announcing job txHash) ++ [.leaving job.id] },
        [.jobCompleted job.id txHash])
    else none
  | .leave jobId =>
    if .leaving jobId ∈ w.tasks then
      some ({ w with
        status := transitionToIdle w.status jobId
        tasks := w.tasks.erase (.leaving jobId) }, [])
    else none

/-! ## What a step does -/

section Step

variable {w w' : Worker} {l : Label} {ms : List GossipMessage}

/-- The ways a step can go, with what each requires. -/
inductive Step (w : Worker) : Label → Worker → List GossipMessage → Prop where
  | claim {job : Job} {now : UInt64} : w.status = .idle → ¬ job.deadline ≤ now →
      Step w (.recv (.jobAvailable job) now) { w with status := .claiming job }
        [.claimJob job.id w.peerId]
  | won {job : Job} {now : UInt64} : w.status = .claiming job →
      Step w (.recv (.claimAccepted job.id w.peerId) now)
        { w with status := .proving job, tasks := w.tasks ++ [.proving job.id job] } []
  | lost {job : Job} {other : PeerId} {now : UInt64} : w.status = .claiming job →
      other ≠ w.peerId →
      Step w (.recv (.claimAccepted job.id other) now) { w with status := .idle } []
  | rejected {job : Job} {reason : String} {now : UInt64} : w.status = .claiming job →
      Step w (.recv (.claimRejected job.id reason) now) { w with status := .idle } []
  | ignore {m : GossipMessage} {now : UInt64} :
      (∀ j p, m = .claimAccepted j p → w.status.isClaiming j = false) →
      (∀ j reason, m = .claimRejected j reason → w.status.isClaiming j = false) →
      Step w (.recv m now) w []
  | proveFailed {j : JobId} {job : Job} {e : String} : .proving j job ∈ w.tasks →
      Step w (.proved j job (.error e))
        { w with
          status := if w.status.isProving j then .idle else w.status
          tasks := w.tasks.erase (.proving j job) } []
  | proved {j : JobId} {job : Job} {bundle : ProofBundle} : .proving j job ∈ w.tasks →
      w.status.isProving j = true →
      Step w (.proved j job (.ok bundle))
        { w with
          status := .submitting job
          tasks := w.tasks.erase (.proving j job) ++ [.submitting job bundle] } []
  | aborted {j : JobId} {job : Job} {bundle : ProofBundle} : .proving j job ∈ w.tasks →
      w.status.isProving j = false →
      Step w (.proved j job (.ok bundle)) { w with tasks := w.tasks.erase (.proving j job) } []
  | submitted {job : Job} {bundle : ProofBundle} {result : Except String TxHash} :
      .submitting job bundle ∈ w.tasks →
      Step w (.submitted job bundle result)
        { w with
          tasks := w.tasks.erase (.submitting job bundle) ++ [finishSubmitting job result] } []
  | announce {job : Job} {h : TxHash} : .announcing job h ∈ w.tasks →
      Step w (.announce job h)
        { w with tasks := w.tasks.erase (.announcing job h) ++ [.leaving job.id] }
        [.jobCompleted job.id h]
  | leave {j : JobId} : .leaving j ∈ w.tasks →
      Step w (.leave j)
        { w with
          status := transitionToIdle w.status j
          tasks := w.tasks.erase (.leaving j) } []

theorem Step.of_handleMessage (m : GossipMessage) (now : UInt64) :
    Step w (.recv m now) (w.handleMessage m now).1 (w.handleMessage m now).2 := by
  cases m with
  | jobAvailable job =>
    by_cases hclaim : w.status = .idle ∧ ¬ job.deadline ≤ now
    · obtain ⟨hidle, hlate⟩ := hclaim
      have hopen : handleJobAvailable w.peerId now w.status job =
          (.claiming job, [.claimJob job.id w.peerId]) := by
        simp [handleJobAvailable, hidle, hlate]
      simpa only [handleMessage, hopen] using .claim hidle hlate
    · have hignore : handleJobAvailable w.peerId now w.status job = (w.status, []) := by
        unfold handleJobAvailable
        split_ifs with hidle hlate
        · rfl
        · rfl
        · exact absurd ⟨not_not.1 hidle, hlate⟩ hclaim
      simp only [handleMessage, hignore]
      exact .ignore nofun nofun
  | claimAccepted j p =>
    by_cases hclaim : w.status.isClaiming j = true
    · obtain ⟨job, hst, rfl⟩ := WorkerStatus.isClaiming_iff.1 hclaim
      by_cases hp : p = w.peerId
      · subst hp
        simpa [handleMessage, handleClaimAccepted, hst] using .won hst
      · simpa [handleMessage, handleClaimAccepted, hst, hp] using .lost hst hp
    · have hignore : handleClaimAccepted w.peerId w.status j p = (w.status, none) := by
        cases hst : w.status with
        | claiming job =>
          have hne : job.id ≠ j := by simpa [WorkerStatus.isClaiming, hst] using hclaim
          simp [handleClaimAccepted, hne]
        | _ => rfl
      simp only [handleMessage, hignore, Option.toList_none, List.map_nil, List.append_nil]
      refine .ignore ?_ nofun
      intro k q heq
      cases heq
      simpa using hclaim
  | claimRejected j reason =>
    by_cases hclaim : w.status.isClaiming j = true
    · obtain ⟨job, hst, rfl⟩ := WorkerStatus.isClaiming_iff.1 hclaim
      simpa [handleMessage, handleClaimRejected, hclaim] using .rejected hst
    · simp only [handleMessage, handleClaimRejected, if_neg hclaim]
      refine .ignore nofun ?_
      intro k q heq
      cases heq
      simpa using hclaim
  | claimJob | jobCompleted => exact .ignore nofun nofun

/-- **Every step goes in one of these ways.** -/
theorem Step.of_step (h : w.step l = some (w', ms)) : Step w l w' ms := by
  cases l with
  | recv m now =>
    have heq : w.handleMessage m now = (w', ms) := Option.some.inj h
    have hstep : Step w _ _ _ := .of_handleMessage m now
    rwa [heq] at hstep
  | proved j job result =>
    simp only [step] at h
    split at h
    · rename_i hmem
      cases result with
      | error e =>
        cases h
        simpa [finishProving] using .proveFailed hmem
      | ok bundle =>
        by_cases hst : w.status.isProving j = true
        · simp only [finishProving, hst, if_true] at h
          cases h
          exact .proved hmem hst
        · simp only [finishProving, hst] at h
          cases h
          simpa using .aborted hmem (by simpa using hst)
    · cases h
  | submitted job bundle result =>
    simp only [step] at h
    split at h
    · rename_i hmem
      cases h
      exact .submitted hmem
    · cases h
  | announce job x =>
    simp only [step] at h
    split at h
    · rename_i hmem
      cases h
      exact .announce hmem
    · cases h
  | leave j =>
    simp only [step] at h
    split at h
    · rename_i hmem
      cases h
      exact .leave hmem
    · cases h

theorem Step.peerId (hstep : Step w l w' ms) : w'.peerId = w.peerId := by
  cases hstep <;> rfl

/-- **What a worker sends**: a claim in its own name, and the completions of its tasks. -/
theorem Step.sends (hstep : Step w l w' ms) {m : GossipMessage} (hm : m ∈ ms) :
    (∃ job now, l = .recv (.jobAvailable job) now ∧ m = .claimJob job.id w.peerId ∧
      w'.status = .claiming job) ∨
    ∃ job h, .announcing job h ∈ w.tasks ∧ m = .jobCompleted job.id h := by
  cases hstep with
  | @claim job now =>
    exact .inl ⟨job, now, rfl, List.mem_singleton.1 hm, rfl⟩
  | announce hmem => exact .inr ⟨_, _, hmem, List.mem_singleton.1 hm⟩
  | _ => cases hm

/-- The job of a `run_proving` task is the one it was spawned for. -/
def TasksMatch (w : Worker) : Prop := ∀ j job, .proving j job ∈ w.tasks → job.id = j

theorem Step.tasksMatch (hstep : Step w l w' ms) (hw : w.TasksMatch) : w'.TasksMatch := by
  intro j job hmem
  cases hstep with
  | won =>
    rcases List.mem_append.1 hmem with hmem | hmem
    · exact hw j job hmem
    · cases List.mem_singleton.1 hmem
      rfl
  | proved | announce =>
    rcases List.mem_append.1 hmem with hmem | hmem
    · exact hw j job (List.mem_of_mem_erase hmem)
    · cases List.mem_singleton.1 hmem
  | @submitted _ _ result =>
    rcases List.mem_append.1 hmem with hmem | hmem
    · exact hw j job (List.mem_of_mem_erase hmem)
    · cases result <;> cases List.mem_singleton.1 hmem
  | proveFailed | aborted | leave => exact hw j job (List.mem_of_mem_erase hmem)
  | _ => exact hw j job hmem

theorem Step.task_cases (hstep : Step w l w' ms) (hw : w.TasksMatch) {t : Task}
    (ht : t ∈ w'.tasks) :
    (∃ old ∈ w.tasks, old.jobId = t.jobId) ∨
      ∃ now, l = .recv (.claimAccepted t.jobId w.peerId) now := by
  cases hstep with
  | won =>
    rcases List.mem_append.1 ht with ht | ht
    · exact .inl ⟨t, ht, rfl⟩
    · cases List.mem_singleton.1 ht
      exact .inr ⟨_, rfl⟩
  | @proved j job bundle hmem =>
    rcases List.mem_append.1 ht with ht | ht
    · exact .inl ⟨t, List.mem_of_mem_erase ht, rfl⟩
    · cases List.mem_singleton.1 ht
      exact .inl ⟨_, hmem, (hw j job hmem).symm⟩
  | @submitted job bundle result hmem =>
    rcases List.mem_append.1 ht with ht | ht
    · exact .inl ⟨t, List.mem_of_mem_erase ht, rfl⟩
    · cases List.mem_singleton.1 ht
      exact .inl ⟨_, hmem, by cases result <;> rfl⟩
  | announce hmem =>
    rcases List.mem_append.1 ht with ht | ht
    · exact .inl ⟨t, List.mem_of_mem_erase ht, rfl⟩
    · cases List.mem_singleton.1 ht
      exact .inl ⟨_, hmem, rfl⟩
  | proveFailed | aborted | leave => exact .inl ⟨t, List.mem_of_mem_erase ht, rfl⟩
  | _ => exact .inl ⟨t, ht, rfl⟩

/-- The last branch of `transition_to_idle` changes nothing. -/
theorem transitionToIdle_eq (status : WorkerStatus) (j : JobId) :
    transitionToIdle status j = if status.isWorking j then .idle else status := by
  cases status <;> simp [transitionToIdle, WorkerStatus.isWorking]

theorem isWorking_transitionToIdle {st : WorkerStatus} {j k : JobId}
    (h : (transitionToIdle st k).isWorking j = true) : st.isWorking j = true := by
  rw [transitionToIdle_eq] at h
  split_ifs at h
  · cases h
  · exact h

theorem Step.working_cases (hstep : Step w l w' ms) (hw : w.TasksMatch) {j : JobId}
    (hj : w'.status.isWorking j = true) :
    w.status.isWorking j = true ∨ (∃ t ∈ w.tasks, t.jobId = j) ∨
      ∃ now, l = .recv (.claimAccepted j w.peerId) now := by
  cases hstep with
  | @won job now =>
    have hid : job.id = j := by simpa [WorkerStatus.isWorking] using hj
    exact .inr (.inr ⟨now, by rw [hid]⟩)
  | proveFailed =>
    left
    dsimp only at hj
    split_ifs at hj
    · cases hj
    · exact hj
  | @proved k job bundle hmem =>
    have hid : job.id = j := by simpa [WorkerStatus.isWorking] using hj
    exact .inr (.inl ⟨_, hmem, (hw k job hmem).symm.trans hid⟩)
  | leave => exact .inl (isWorking_transitionToIdle hj)
  | claim | lost | rejected => cases hj
  | _ => exact .inl hj

/-- **How a worker stops working on a job**: the prover failed, or a task whose outcome is known
leaves. -/
theorem Step.working_kept (hstep : Step w l w' ms) (hw : w.TasksMatch) {j : JobId}
    (hj : w.status.isWorking j = true) :
    w'.status.isWorking j = true ∨ (∃ job e, l = .proved j job (.error e)) ∨
      .leaving j ∈ w.tasks := by
  cases hstep with
  | claim hst | won hst | lost hst | rejected hst =>
    rw [hst] at hj
    cases hj
  | @proveFailed k job e hmem =>
    by_cases hk : k = j
    · subst hk
      exact .inr (.inl ⟨job, e, rfl⟩)
    · left
      by_cases hp : w.status.isProving k = true
      · obtain ⟨other, hst, hid⟩ := WorkerStatus.isProving_iff.1 hp
        rw [hst] at hj
        exact absurd (hid.symm.trans (by simpa [WorkerStatus.isWorking] using hj)) hk
      · simpa only [if_neg hp] using hj
  | @proved k job bundle hmem hp =>
    left
    obtain ⟨other, hst, hid⟩ := WorkerStatus.isProving_iff.1 hp
    rw [hst] at hj
    have hkj : k = j := hid.symm.trans (by simpa [WorkerStatus.isWorking] using hj)
    simpa [WorkerStatus.isWorking] using (hw k job hmem).trans hkj
  | @leave k hmem =>
    by_cases hk : k = j
    · subst hk
      exact .inr (.inr hmem)
    · left
      show (transitionToIdle w.status k).isWorking j = true
      obtain ⟨job, hst, rfl⟩ := WorkerStatus.isWorking_iff.1 hj
      rcases hst with hst | hst <;>
        simp [transitionToIdle, hst, Ne.symm hk, WorkerStatus.isWorking]
  | _ => exact .inl hj

/-- **How a worker stops claiming a job**: by a reply about it; its own acceptance puts it to
work. -/
theorem Step.claiming_kept (hstep : Step w l w' ms) {j : JobId}
    (hj : w.status.isClaiming j = true) :
    (w'.status.isClaiming j = true ∧ ∀ p now, l ≠ .recv (.claimAccepted j p) now) ∨
    (∃ p now, l = .recv (.claimAccepted j p) now ∧
      (p = w.peerId → w'.status.isWorking j = true)) ∨
    ∃ reason now, l = .recv (.claimRejected j reason) now := by
  obtain ⟨job, hst, rfl⟩ := WorkerStatus.isClaiming_iff.1 hj
  cases hstep with
  | claim hidle =>
    rw [hst] at hidle
    cases hidle
  | won hst' =>
    rw [hst] at hst'
    cases hst'
    exact .inr (.inl ⟨_, _, rfl, fun _ => by simp [WorkerStatus.isWorking]⟩)
  | lost hst' hne =>
    rw [hst] at hst'
    cases hst'
    exact .inr (.inl ⟨_, _, rfl, fun hp => absurd hp hne⟩)
  | rejected hst' =>
    rw [hst] at hst'
    cases hst'
    exact .inr (.inr ⟨_, _, rfl⟩)
  | ignore haccepted =>
    refine .inl ⟨hj, ?_⟩
    intro p now hl
    cases hl
    rw [haccepted _ _ rfl] at hj
    cases hj
  | proveFailed =>
    refine .inl ⟨?_, nofun⟩
    dsimp only
    rw [hst]
    simp [WorkerStatus.isProving, WorkerStatus.isClaiming]
  | proved _ hp =>
    rw [hst] at hp
    cases hp
  | leave =>
    refine .inl ⟨?_, nofun⟩
    dsimp only
    rw [hst]
    simp [transitionToIdle, WorkerStatus.isClaiming]
  | _ => exact .inl ⟨hj, nofun⟩

theorem Step.over_cases (hstep : Step w l w' ms) {t : Task} (ht : t ∈ w'.tasks)
    (hover : t.isOver = true) :
    (∃ old ∈ w.tasks, old.isOver = true ∧ old.jobId = t.jobId) ∨
      ∃ job bundle result, l = .submitted job bundle result ∧ job.id = t.jobId := by
  cases hstep with
  | won =>
    rcases List.mem_append.1 ht with ht | ht
    · exact .inl ⟨t, ht, hover, rfl⟩
    · cases List.mem_singleton.1 ht
      cases hover
  | proved =>
    rcases List.mem_append.1 ht with ht | ht
    · exact .inl ⟨t, List.mem_of_mem_erase ht, hover, rfl⟩
    · cases List.mem_singleton.1 ht
      cases hover
  | @submitted job bundle result =>
    rcases List.mem_append.1 ht with ht | ht
    · exact .inl ⟨t, List.mem_of_mem_erase ht, hover, rfl⟩
    · cases List.mem_singleton.1 ht
      exact .inr ⟨job, bundle, result, rfl, by cases result <;> rfl⟩
  | announce hmem =>
    rcases List.mem_append.1 ht with ht | ht
    · exact .inl ⟨t, List.mem_of_mem_erase ht, hover, rfl⟩
    · cases List.mem_singleton.1 ht
      exact .inl ⟨_, hmem, rfl, rfl⟩
  | proveFailed | aborted | leave => exact .inl ⟨t, List.mem_of_mem_erase ht, hover, rfl⟩
  | _ => exact .inl ⟨t, ht, hover, rfl⟩

end Step

end Worker

end ProofMarket
