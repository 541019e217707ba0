import ProofMarket.Lib.Transition
import ProofMarket.Worker.Handler

/-!
# The status of a worker and its proving task

The message loop and the spawned `run_proving` tasks write the same status, each under a lock of its
own, in any order. A task is active from the write that leads to its spawn until its last one.

**Theorem (`status_matches_task`).** At most one task is active, and the status says which and how
far it has come; so no task ever meets a status it does not expect, and each leaves `Idle` behind.
-/

namespace ProofMarket

namespace Worker

/-- The step without its messages. -/
def next (w : Worker) (l : Label) : Option Worker := (w.step l).map Prod.fst

/-- What `tracing::warn!` says in the branch that a step of a task takes. -/
def warning (w : Worker) : Label → Option String
  | .proved jobId _ (.ok _) =>
    if w.status.isProving jobId then none
    else some "unexpected state after proving, aborting submission"
  | .leave jobId =>
    if w.status.isWorking jobId then none else some "unexpected state during transition to idle"
  | _ => none

/-! ## How far the task has come -/

/-- The statuses and tasks that go together. -/
inductive Stage : WorkerStatus → List Task → Prop where
  | idle : Stage .idle []
  | claiming (job : Job) : Stage (.claiming job) []
  | proving (job : Job) : Stage (.proving job) [.proving job.id job]
  | submitting (job : Job) (bundle : ProofBundle) :
      Stage (.submitting job) [.submitting job bundle]
  | announcing (job : Job) (txHash : TxHash) : Stage (.submitting job) [.announcing job txHash]
  | leaving (job : Job) : Stage (.submitting job) [.leaving job.id]

variable {w w' : Worker} {l : Label} {ms : List GossipMessage}

/-- **Every step leads from a stage to a stage.** -/
theorem Step.stage (hstep : Step w l w' ms) (hw : Stage w.status w.tasks) :
    Stage w'.status w'.tasks := by
  obtain ⟨peerId, status, tasks⟩ := w
  cases hstep with
  | claim hst =>
    cases hw <;> cases hst
    exact .claiming _
  | won hst =>
    cases hw <;> cases hst
    exact .proving _
  | lost hst | rejected hst =>
    cases hw <;> cases hst
    exact .idle
  | ignore => exact hw
  | proveFailed hmem =>
    cases hw <;> simp at hmem
    obtain ⟨rfl, rfl⟩ := hmem
    simpa [WorkerStatus.isProving] using Stage.idle
  | proved hmem =>
    cases hw <;> simp at hmem
    obtain ⟨rfl, rfl⟩ := hmem
    simpa using Stage.submitting _ _
  | aborted hmem hst =>
    cases hw <;> simp at hmem
    obtain ⟨rfl, rfl⟩ := hmem
    simp [WorkerStatus.isProving] at hst
  | @submitted job bundle result hmem =>
    cases hw <;> simp at hmem
    obtain ⟨rfl, rfl⟩ := hmem
    cases result with
    | error e => simpa [finishSubmitting] using Stage.leaving job
    | ok h => simpa [finishSubmitting] using Stage.announcing job h
  | announce hmem =>
    cases hw <;> simp at hmem
    obtain ⟨rfl, rfl⟩ := hmem
    simpa using Stage.leaving _
  | leave hmem =>
    cases hw <;> simp at hmem
    subst hmem
    simpa [transitionToIdle] using Stage.idle

theorem Step.of_next (h : w.next l = some w') : ∃ ms, Step w l w' ms := by
  obtain ⟨⟨v, ms⟩, hv, rfl⟩ := Option.map_eq_some_iff.1 h
  exact ⟨ms, .of_step hv⟩

/-! ## What a stage says -/

/-- A task is active for the job. -/
def Active (w : Worker) (j : JobId) : Prop := ∃ t ∈ w.tasks, t.jobId = j

theorem Stage.active_iff (hw : Stage w.status w.tasks) (j : JobId) :
    w.Active j ↔ w.status.isWorking j = true := by
  obtain ⟨peerId, status, tasks⟩ := w
  unfold Active
  cases hw <;> simp [WorkerStatus.isWorking, Task.jobId]

theorem Stage.silent (hw : Stage w.status w.tasks) (h : w.next l = some w') :
    w.warning l = none := by
  obtain ⟨ms, hstep⟩ := Step.of_next h
  obtain ⟨peerId, status, tasks⟩ := w
  cases hstep with
  | proved hmem hst => simpa [warning] using hst
  | aborted hmem hst =>
    cases hw <;> simp at hmem
    obtain ⟨rfl, rfl⟩ := hmem
    simp [WorkerStatus.isProving] at hst
  | leave hmem =>
    cases hw <;> simp at hmem
    subst hmem
    simp [warning, WorkerStatus.isWorking]
  | _ => rfl

/-- A task ends by a failed proof or by leaving, and both write `Idle`. -/
theorem Stage.idle_of_ended (hw : Stage w.status w.tasks) (h : w.next l = some w')
    (hactive : w.tasks ≠ []) (hended : w'.tasks = []) : w'.status = .idle := by
  obtain ⟨ms, hstep⟩ := Step.of_next h
  obtain ⟨peerId, status, tasks⟩ := w
  cases hstep with
  | claim hst | won hst | lost hst | rejected hst =>
    cases hw <;> cases hst
    exact absurd rfl hactive
  | ignore => exact absurd hended hactive
  | proveFailed hmem =>
    cases hw <;> simp at hmem
    obtain ⟨rfl, rfl⟩ := hmem
    simp [WorkerStatus.isProving]
  | aborted hmem hst =>
    cases hw <;> simp at hmem
    obtain ⟨rfl, rfl⟩ := hmem
    simp [WorkerStatus.isProving] at hst
  | leave hmem =>
    cases hw <;> simp at hmem
    subst hmem
    simp [transitionToIdle]
  | proved | submitted | announce => simp at hended

/-! ## Runs -/

/-- The status says which task is active. -/
structure StatusMatches (w : Worker) : Prop where
  single : w.tasks.length ≤ 1
  active : ∀ j, w.Active j ↔
    ∃ job, (w.status = .proving job ∨ w.status = .submitting job) ∧ job.id = j
  silent : ∀ l w', w.next l = some w' → w.warning l = none
  ended : ∀ l w', w.next l = some w' → w.tasks ≠ [] → w'.tasks = [] → w'.status = .idle

theorem Stage.statusMatches (hw : Stage w.status w.tasks) : w.StatusMatches where
  single := by
    generalize w.status = status, w.tasks = tasks at hw
    cases hw <;> simp
  active j := (hw.active_iff j).trans WorkerStatus.isWorking_iff
  silent _ _ h := hw.silent h
  ended _ _ h hactive hended := hw.idle_of_ended h hactive hended

/-- **The status of a worker matches its proving task**, whatever messages arrive and however
proving, proof extraction and submission go. -/
theorem status_matches_task (peerId : PeerId) (w : Worker)
    (h : Transition.Steps next Transition.Any (start peerId) w) : w.StatusMatches := by
  have hw : Stage w.status w.tasks := by
    refine h.invariant (I := fun w => Stage w.status w.tasks) ?_ .idle
    intro u l v hu _ hnext
    obtain ⟨ms, hstep⟩ := Step.of_next hnext
    exact hstep.stage hu
  exact hw.statusMatches

/-! ## A worker that is busy -/

/-- A job to be proved. -/
def offered (b : UInt8) : Job :=
  ⟨⟨.fill 32 b⟩, .pending, Address.zero, [], 1, 0, 1300⟩

/-- The worker wins job 1, is offered job 2 while it proves, and hears a late rejection. -/
def busy : List Label :=
  [.recv (.jobAvailable (offered 1)) 1000,
    .recv (.claimAccepted (offered 1).id ⟨.fill 32 9⟩) 1001,
    .recv (.jobAvailable (offered 2)) 1002,
    .recv (.claimRejected (offered 1).id "job already assigned") 1003,
    .proved (offered 1).id (offered 1) (.ok ⟨[]⟩)]

theorem status_matches_task_busy :
    ∃ w, Transition.Steps next Transition.Any (start ⟨.fill 32 9⟩) w ∧
      w.status = .submitting (offered 1) ∧ w.StatusMatches := by
  have hrun : (Transition.run next busy (start ⟨.fill 32 9⟩)).map Worker.status =
      some (.submitting (offered 1)) := by
    decide +kernel
  obtain ⟨w, hw, hst⟩ := Transition.exists_of_run (fun _ _ _ => trivial) hrun
  exact ⟨w, hw, hst, status_matches_task ⟨.fill 32 9⟩ w hw⟩

end Worker

end ProofMarket
