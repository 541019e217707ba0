import ProofMarket.Coordinator.Outcome
import ProofMarket.Coordinator.Persistence

/-!
# What a restarted coordinator has missed

A snapshot is older than the crash, and the chain goes on while the coordinator is down. The indexer
created at a restart starts at the chain's head, so it never reads the blocks in between.

* `CaughtUp` — the indexer's blocks are those up to the last one it is done with, however they went
  by: every job of the map that ended in one of them is recorded so.
* `Tracked` — a run with the last block that each entry reflects: in the map, in the save under way
  and in the snapshot.
* `caught_up` — it holds in runs in which no job of the loaded map ends in the gap between the block
  that its entry reflects and the creation of the indexer (`Catches`).
* `caught_up_fails` — a job is proved while the coordinator is down, and stays pending.
-/

namespace ProofMarket

open Registry (Deployment)

open Persistence (loadJobs Saving)

/-! ## One process -/

namespace Backend

variable {D : Deployment} {s s' : Backend} {l : Label} {ms : List GossipMessage}

/-- The map shows every end that the indexer is done with. -/
structure Shown (s : Backend) : Prop where
  completed : ∀ e ∈ s.chain.logs, ∀ j, e.event.completes j = true → s.DoneCompleted e j →
    ∀ st, s.jobs.status j = some st → st.isCompleted = true
  expired : ∀ e ∈ s.chain.logs, ∀ j, e.event.expires j = true → s.DoneExpired e j →
    ∀ st, s.jobs.status j = some st → st.isCompleted = true ∨ st = .expired

/-- Completions are of jobs that were proved, and those about to be recorded of jobs that the chain
has closed. -/
structure ProvedFirst (s : Backend) : Prop where
  status : ∀ j h, s.jobs.status j = some (.completed h) → Proved s.chain j h
  verified : ∀ j h, s.verified = some (j, h) → s.chain.world.completed j = true

instance (s : Backend) (e : LogEntry) (j : JobId) : Decidable (s.DoneCompleted e j) :=
  inferInstanceAs (Decidable (_ ∨ _ ∧ _))

instance (s : Backend) (e : LogEntry) (j : JobId) : Decidable (s.DoneExpired e j) :=
  inferInstanceAs (Decidable (_ ∨ _ ∧ _))

/-- The step keeps in sight what the indexer is done with: the gossip path completes no expired job
of the map, and `create_job` inserts no job whose end the indexer is done with. -/
def KeepsShown (s : Backend) : Label → Prop
  | .record => ∀ p ∈ s.verified, (s.jobs.status p.1).isSome = true → ¬ s.chain.Expired p.1
  | .insert job => ∀ e ∈ s.chain.logs,
      (e.event.completes job.id = true → ¬ s.DoneCompleted e job.id) ∧
      (e.event.expires job.id = true → ¬ s.DoneExpired e job.id)
  | _ => True

instance (s : Backend) (l : Label) : Decidable (s.KeepsShown l) :=
  match l with
  | .record => inferInstanceAs (Decidable (∀ p ∈ s.verified,
      (s.jobs.status p.1).isSome = true → ¬ s.chain.Expired p.1))
  | .insert job => inferInstanceAs (Decidable (∀ e ∈ s.chain.logs,
      (e.event.completes job.id = true → ¬ s.DoneCompleted e job.id) ∧
      (e.event.expires job.id = true → ¬ s.DoneExpired e job.id)))
  | .mine _ | .recv _ _ _ | .create _ _ _ | .abandon _ | .announce _ | .collect _ | .resend
  | .pollBegin | .pollStep | .pollFail => isTrue trivial

/-- The indexer is done with the end of `j`, perhaps in a poll that is still going on. -/
def SeenEnd (s : Backend) (j : JobId) : Prop :=
  ∃ e ∈ s.chain.logs, e.event.completes j = true ∧ s.DoneCompleted e j ∨
    e.event.expires j = true ∧ s.DoneExpired e j

instance (s : Backend) (j : JobId) : Decidable (s.SeenEnd j) :=
  inferInstanceAs (Decidable (∃ e ∈ s.chain.logs, _ ∧ _ ∨ _ ∧ _))

/-- The map records the end `e`, if it has the job that ended. -/
def Records (s : Backend) (e : LogEntry) : Prop :=
  ∀ st ∈ s.jobs.status e.event.jobId,
    (e.event.completes e.event.jobId = true → st.isCompleted = true) ∧
    (e.event.expires e.event.jobId = true → st = .expired)

instance (s : Backend) (e : LogEntry) : Decidable (s.Records e) :=
  inferInstanceAs (Decidable (∀ st ∈ s.jobs.status e.event.jobId, _ ∧ _))

theorem Step.provedFirst (hstep : Step D s l s' ms) (hp : Polling D 0 s)
    (hpend : s.CreatingPending) (hkeeps : s.KeepsShown l) (h : ProvedFirst s) :
    ProvedFirst s' := by
  have hext := hstep.extends hp.chain
  refine ⟨?_, ?_⟩
  · intro j x hx
    refine (acceptable_proved D).mono _ _ j x hext ?_
    obtain ⟨st', hst', hchange⟩ := hstep.status j
    rw [hst'] at hx
    cases hchange with
    | keep => exact h.status j x hx
    | assigned | expired => cases hx
    | confirmed hv hst =>
      rcases (hp.chain.completed_iff j).1 (h.verified j _ hv) with hproved | hexp
      · exact hproved
      · exact absurd hexp (hkeeps _ hv (by simp [hst]))
    | @indexed head y logs hpoll =>
      exact ⟨y, hp.completions (j, y) (by simp [hpoll, Poll.completions])⟩
    | inserted hmem =>
      rw [hpend _ hmem] at hx
      cases hx
  · intro j x hv
    apply hext.world.completed
    rcases hstep.verified_cases hv with hold | ⟨hj, -⟩
    · exact h.verified j x hold
    · exact hj

theorem ProvedFirst.eq_expired (h : ProvedFirst s) (hchain : s.chain.Ok D) {j : JobId}
    (hexp : s.chain.Expired j) {st : JobStatus} (hst : s.jobs.status j = some st)
    (hended : st.isCompleted = true ∨ st = .expired) : st = .expired := by
  rcases hended with hc | hended
  · obtain ⟨x, rfl⟩ := JobStatus.isCompleted_iff.1 hc
    obtain ⟨y, hy⟩ := h.status j x hst
    exact absurd hexp (hy.not_expired hchain)
  · exact hended

theorem Step.completed_shown (hstep : Step D s l s' ms) (hp : Polling D 0 s) {j : JobId}
    {x : TxHash} (hx : s.chain.CompletedBy j x) (hne : ∀ job, l = .insert job → job.id ≠ j)
    (h : ∀ st, s.jobs.status j = some st → st.isCompleted = true) :
    ∀ st, s'.jobs.status j = some st → st.isCompleted = true := by
  intro st hst
  obtain ⟨st', hst', hchange⟩ := hstep.status j
  rw [hst'] at hst
  cases hchange with
  | keep => exact h st hst
  | assigned hpending => cases h _ hpending
  | inserted _ hid => exact absurd hid (hne _ rfl)
  | confirmed | indexed =>
    cases hst
    rfl
  | expired hpoll =>
    have hexp := hp.expirations j (by simp [hpoll, Poll.expirations])
    exact absurd hexp (hx.not_expired hp.chain)

theorem Step.shown (hstep : Step D s l s' ms) (hp : Polling D 0 s)
    (hpos : ∀ e ∈ s'.chain.logs, 0 < e.block) (hkeeps : s.KeepsShown l) (h : Shown s) :
    Shown s' := by
  refine ⟨?_, ?_⟩
  · intro e he j hej hdone
    rcases hstep.doneCompleted hp he hej (hpos e he) hdone with ⟨hold, hdone⟩ | ⟨x, hx⟩
    · refine hstep.completed_shown hp ⟨e, hold, hej, rfl⟩ ?_ (h.completed e hold j hej hdone)
      rintro job rfl rfl
      exact (hkeeps e hold).1 hej hdone
    · intro st hst
      rw [hx] at hst
      cases hst
      rfl
  · intro e he j hej hdone
    rcases hstep.doneExpired hp he hej (hpos e he) hdone with ⟨hold, hdone⟩ | hnew
    · refine hstep.shown_kept ?_ (h.expired e hold j hej hdone)
      rintro job rfl rfl
      exact (hkeeps e hold).2 hej hdone
    · exact hnew

/-! ### What an entry reflects -/

/-- The status shows how the job ended, if it did in the blocks up to `n`. -/
def Reflects (c : Chain) (j : JobId) (st : JobStatus) (n : Nat) : Prop :=
  ∀ e ∈ c.logs, e.block ≤ n →
    (e.event.completes j = true → st.isCompleted = true) ∧
    (e.event.expires j = true → st = .expired)

theorem Reflects.mono {c c' : Chain} {j : JobId} {st : JobStatus} {n : Nat}
    (h : Reflects c j st n) (hext : c.Extends c') (hn : n ≤ c.head) : Reflects c' j st n := by
  intro e he hle
  rcases hext.fresh e he with hold | hnew
  · exact h e hold hle
  · exact absurd hle (Nat.not_le.2 (hn.trans_lt hnew))

/-- A completion of a proved job reflects the chain for good. -/
theorem reflects_completed {c : Chain} (hc : c.Ok D) {j : JobId} {x : TxHash}
    (h : Proved c j x) (n : Nat) : Reflects c j (.completed x) n := by
  intro e he _
  refine ⟨fun _ => rfl, fun hej => ?_⟩
  obtain ⟨y, hy⟩ := h
  exact absurd ⟨e, he, hej⟩ (hy.not_expired hc)

/-- An entry goes on to reflect what it did, unless it is replaced. -/
theorem Step.reflects (hstep : Step D s l s' ms) (hp : Polling D 0 s) (h' : ProvedFirst s')
    {j : JobId} {n : Nat} (hn : n ≤ s.chain.head) (hne : ∀ job, l = .insert job → job.id ≠ j)
    (h : ∀ st, s.jobs.status j = some st → Reflects s.chain j st n) :
    ∀ st, s'.jobs.status j = some st → Reflects s'.chain j st n := by
  intro st hst e he hle
  have hold : e ∈ s.chain.logs := by
    rcases (hstep.extends hp.chain).fresh e he with hold | hnew
    · exact hold
    · exact absurd hle (Nat.not_le.2 (hn.trans_lt hnew))
  constructor
  · intro hej
    exact hstep.completed_shown hp ⟨e, hold, hej, rfl⟩ hne
      (fun st hst => (h st hst e hold hle).1 hej) st hst
  · intro hej
    refine h'.eq_expired (hstep.chain_ok hp.chain) ⟨e, he, hej⟩ hst ?_
    exact hstep.shown_kept hne (fun st hst => .inr ((h st hst e hold hle).2 hej)) st hst

theorem Step.recorded_reflects (hstep : Step D s .record s' ms) (hp : Polling D 0 s)
    (h' : ProvedFirst s') {j : JobId} {x : TxHash} (hv : s.verified = some (j, x)) (n : Nat) :
    ∀ st, s'.jobs.status j = some st → Reflects s'.chain j st n := by
  intro st hst
  have hcompleted : st.isCompleted = true := by
    cases hstep with
    | record hv' =>
      cases hv.symm.trans hv'
      rw [status_recordCompletion, if_pos rfl] at hst
      obtain ⟨old, -, rfl⟩ := Option.map_eq_some_iff.1 hst
      unfold JobStatus.complete
      split_ifs with hc
      · exact hc
      · rfl
  obtain ⟨y, rfl⟩ := JobStatus.isCompleted_iff.1 hcompleted
  exact reflects_completed (hstep.chain_ok hp.chain) (h'.status j y hst) n

end Backend

/-! ## Restarts -/

namespace Host

variable {D : Deployment} {s s' : Host} {l : Label}

/-- The map records every end up to the last block the indexer is done with, if it has the job. -/
def CaughtUp (s : Host) : Prop :=
  s.phase = .running → ∀ e ∈ s.backend.chain.logs, e.block ≤ s.backend.lastBlock →
    s.backend.Records e

end Host

/-- A coordinator with the last block that each entry reflects: of the map, of the save under way
and of the snapshot. -/
structure Tracked where
  host : Host
  map : JobId → Nat
  saving : JobId → Nat
  snapshot : JobId → Nat

namespace Tracked

/-- While the indexer runs, the entries reflect all blocks that it is done with. A job ends once, so
an entry with its end reflects the whole chain. -/
def reflected (s : Tracked) (j : JobId) : Nat :=
  if s.host.phase = .running then
    if s.host.backend.SeenEnd j then s.host.backend.chain.head
    else max s.host.backend.lastBlock (s.map j)
  else s.map j

/-- What the entries of the map reflect after a step of the process. The gossip path records what
the chain says now, and a new job has not been looked up. -/
def noted (b : Backend) (map : JobId → Nat) : Backend.Label → JobId → Nat
  | .record =>
    match b.verified with
    | some (j, _) => Function.update map j b.chain.head
    | none => map
  | .insert job => Function.update map job.id 0
  | _ => map

/-- A save clones entries with what they reflect, and a start loads those of the snapshot. -/
def step (D : Deployment) (s : Tracked) (l : Host.Label) : Option Tracked :=
  (s.host.step D l).map fun host =>
    match l with
    | .process l => { s with host, map := noted s.host.backend s.map l }
    | .start _ => { s with host, map := s.snapshot }
    | .saveEntry j => { s with host, saving := Function.update s.saving j (s.reflected j) }
    | .saveCommit => { s with host, snapshot := s.saving }
    | _ => { s with host }

abbrev Steps (D : Deployment) (ok : Tracked → Host.Label → Prop) : Tracked → Tracked → Prop :=
  Transition.Steps (step D) ok

/-- A machine on which no coordinator has run yet. -/
def fresh (chain : Chain) (defaultDeadlineSecs : UInt64) : Tracked :=
  ⟨Host.fresh chain defaultDeadlineSecs, fun _ => 0, fun _ => 0, fun _ => 0⟩

/-- No job of the map has ended between the block that its entry reflects and the creation of the
indexer. And the process keeps in sight what it has seen. -/
def Catches (s : Tracked) : Host.Label → Prop
  | .createIndexer => ∀ e ∈ s.host.backend.chain.logs,
      e.event.completes e.event.jobId = true ∨ e.event.expires e.event.jobId = true →
        (s.host.backend.jobs.status e.event.jobId).isSome = true → e.block ≤ s.map e.event.jobId
  | .process l => s.host.backend.KeepsShown l
  | _ => True

instance (s : Tracked) (l : Host.Label) : Decidable (s.Catches l) :=
  match l with
  | .createIndexer => inferInstanceAs (Decidable (∀ e ∈ s.host.backend.chain.logs, _ ∨ _ → _ → _))
  | .process l => inferInstanceAs (Decidable (s.host.backend.KeepsShown l))
  | .crash | .start _ | .saveBegin | .saveEntry _ | .saveCommit | .saveFail => isTrue trivial

variable {D : Deployment} {s s' : Tracked} {l : Host.Label}

/-- **Every run is tracked.** -/
theorem exists_steps {host : Host} (h : Host.Steps D Transition.Any s.host host) :
    ∃ t, Steps D Transition.Any s t ∧ t.host = host := by
  refine h.simulate (R := fun host (t : Tracked) => t.host = host) ?_ rfl
  rintro u l v t rfl - hst
  refine ⟨_, .single ⟨l, trivial, by rw [step, hst]; rfl⟩, ?_⟩
  cases l <;> rfl

/-- The entry `job` reflects the chain up to block `n`, and a completion in it is true. -/
structure Kept (c : Chain) (job : Job) (n : Nat) : Prop where
  proved : ∀ h, job.jobStatus = .completed h → Backend.Proved c job.id h
  reflects : Backend.Reflects c job.id job.jobStatus n

theorem Kept.mono {c c' : Chain} {job : Job} {n : Nat} (h : Kept c job n) (hext : c.Extends c')
    (hn : n ≤ c.head) : Kept c' job n where
  proved x hx := by
    obtain ⟨y, hy⟩ := h.proved x hx
    exact ⟨y, hy.mono hext⟩
  reflects := h.reflects.mono hext hn

structure Inv (D : Deployment) (s : Tracked) : Prop where
  polling : Backend.Polling D 0 s.host.backend
  positive : ∀ e ∈ s.host.backend.chain.logs, 0 < e.block
  idle : s.host.phase ≠ .running → s.host.backend.poll = .idle
  keyed : s.host.backend.jobs.Keyed
  pending : s.host.backend.CreatingPending
  provedFirst : s.host.backend.ProvedFirst
  shown : s.host.phase = .running → s.host.backend.Shown
  le_head : ∀ j, s.map j ≤ s.host.backend.chain.head ∧ s.saving j ≤ s.host.backend.chain.head ∧
    s.snapshot j ≤ s.host.backend.chain.head
  map : ∀ j st, s.host.backend.jobs.status j = some st →
    Backend.Reflects s.host.backend.chain j st (s.map j)
  saving : ∀ sv, s.host.saving = some sv → ∀ x ∈ sv.entries,
    x.2.id = x.1 ∧ Kept s.host.backend.chain x.2 (s.saving x.1)
  snapshot : ∀ jobs, s.host.snapshot = some jobs → ∀ job ∈ jobs,
    Kept s.host.backend.chain job (s.snapshot job.id)

theorem Inv.lastBlock_le (h : Inv D s) :
    s.host.backend.lastBlock ≤ s.host.backend.chain.head := by
  rcases h.polling.last with hzero | hle
  · rw [hzero]
    exact Nat.zero_le _
  · exact hle

theorem Inv.reflected_le (h : Inv D s) (j : JobId) :
    s.reflected j ≤ s.host.backend.chain.head := by
  unfold reflected
  split_ifs
  · exact le_rfl
  · exact max_le h.lastBlock_le (h.le_head j).1
  · exact (h.le_head j).1

theorem Inv.lastBlock_le_reflected (h : Inv D s) (hphase : s.host.phase = .running) (j : JobId) :
    s.host.backend.lastBlock ≤ s.reflected j := by
  unfold reflected
  rw [if_pos hphase]
  split_ifs
  · exact h.lastBlock_le
  · exact le_max_left _ _

/-- An entry whose job's end has been seen shows it, and there is no other. -/
theorem Inv.seen_reflects (h : Inv D s) (hphase : s.host.phase = .running) {j : JobId}
    (hseen : s.host.backend.SeenEnd j) {st : JobStatus}
    (hst : s.host.backend.jobs.status j = some st) (n : Nat) :
    Backend.Reflects s.host.backend.chain j st n := by
  have hchain := h.polling.chain
  obtain ⟨e, he, ⟨hej, hdone⟩ | ⟨hej, hdone⟩⟩ := hseen
  · have hcompleted := (h.shown hphase).completed e he j hej hdone st hst
    obtain ⟨x, rfl⟩ := JobStatus.isCompleted_iff.1 hcompleted
    exact Backend.reflects_completed hchain ⟨e.txHash, e, he, hej, rfl⟩ n
  · have hended := (h.shown hphase).expired e he j hej hdone st hst
    obtain rfl := h.provedFirst.eq_expired hchain ⟨e, he, hej⟩ hst hended
    refine fun e' he' _ => ⟨fun hej' => ?_, fun _ => rfl⟩
    have hby : s.host.backend.chain.CompletedBy j e'.txHash := ⟨e', he', hej', rfl⟩
    exact absurd ⟨e, he, hej⟩ (hby.not_expired hchain)

/-- **The entries of the map reflect what they are said to.** -/
theorem Inv.reflects (h : Inv D s) {j : JobId} {st : JobStatus}
    (hst : s.host.backend.jobs.status j = some st) :
    Backend.Reflects s.host.backend.chain j st (s.reflected j) := by
  unfold reflected
  split_ifs with hphase hseen
  · exact h.seen_reflects hphase hseen hst _
  · intro e he hle
    rcases le_max_iff.1 hle with hlast | hmap
    · have hshown := h.shown hphase
      refine ⟨fun hej => hshown.completed e he j hej (.inl hlast) st hst, fun hej => ?_⟩
      exact h.provedFirst.eq_expired h.polling.chain ⟨e, he, hej⟩ hst
        (hshown.expired e he j hej (.inl hlast) st hst)
    · exact h.map j st hst e he hmap
  · exact h.map j st hst

section Process

variable {b : Backend} {k : Backend.Label} {ms : List GossipMessage}

theorem noted_le (hhead : ∀ j, s.map j ≤ s.host.backend.chain.head) (j : JobId) :
    noted s.host.backend s.map k j ≤ s.host.backend.chain.head := by
  have hupdate : ∀ i n, n ≤ s.host.backend.chain.head →
      Function.update s.map i n j ≤ s.host.backend.chain.head := by
    intro i n hn
    by_cases hj : j = i
    · rw [hj, Function.update_self]
      exact hn
    · rw [Function.update_of_ne hj]
      exact hhead j
  cases k with
  | record =>
    unfold noted
    cases s.host.backend.verified with
    | none => exact hhead j
    | some p => exact hupdate p.1 _ le_rfl
  | insert job => exact hupdate job.id 0 (Nat.zero_le _)
  | _ => exact hhead j

theorem Inv.noted (h : Inv D s) (hstep : Backend.Step D s.host.backend k b ms)
    (hpositive : ∀ e ∈ b.chain.logs, 0 < e.block) (h' : b.ProvedFirst) (j : JobId) :
    ∀ st, b.jobs.status j = some st →
      Backend.Reflects b.chain j st (Tracked.noted s.host.backend s.map k j) := by
  have hkept := hstep.reflects (j := j) h.polling h' (h.le_head j).1
  cases k with
  | record =>
    unfold Tracked.noted
    cases hv : s.host.backend.verified with
    | none => exact hkept nofun (h.map j)
    | some p =>
      by_cases hj : j = p.1
      · subst hj
        exact hstep.recorded_reflects h.polling h' hv _
      · dsimp only
        rw [Function.update_of_ne hj]
        exact hkept nofun (h.map j)
  | insert job =>
    unfold Tracked.noted
    by_cases hj : j = job.id
    · subst hj
      dsimp only
      rw [Function.update_self]
      exact fun st _ e he hle => absurd hle (Nat.not_le.2 (hpositive e he))
    · dsimp only
      rw [Function.update_of_ne hj]
      refine hkept ?_ (h.map j)
      rintro _ ⟨⟩
      exact Ne.symm hj
  | _ => exact hkept nofun (h.map j)

theorem poll_eq {p : Phase} {b b' : Backend} (hp : p ≠ .running) (hl : Host.allows p k = true)
    (hstep : Backend.Step D b k b' ms) : b'.poll = b.poll := by
  cases hstep with
  | pollBegin | queryCompleted | applyCompleted | completedDone | queryExpired | applyExpired
  | expiredDone | pollFail =>
    cases p with
    | running => exact absurd rfl hp
    | _ => cases hl
  | _ => rfl

theorem Inv.process (h : Inv D s) (hl : Host.allows s.host.phase k = true)
    (hkeeps : s.host.backend.KeepsShown k) (hstep : Backend.Step D s.host.backend k b ms) :
    Inv D { s with
      host := { s.host with backend := b }
      map := Tracked.noted s.host.backend s.map k } := by
  have hext := hstep.extends h.polling.chain
  have hpositive : ∀ e ∈ b.chain.logs, 0 < e.block := by
    intro e he
    rcases hext.fresh e he with hold | hnew
    · exact h.positive e hold
    · exact Nat.zero_lt_of_lt hnew
  have hproved := hstep.provedFirst h.polling h.pending hkeeps h.provedFirst
  exact {
    polling := hstep.polling h.polling
    positive := hpositive
    idle := fun hphase => (poll_eq hphase hl hstep).trans (h.idle hphase)
    keyed := hstep.keyed h.keyed
    pending := hstep.creatingPending h.pending
    provedFirst := hproved
    shown := fun hphase => hstep.shown h.polling hpositive hkeeps (h.shown hphase)
    le_head := fun j => ⟨(noted_le (fun j => (h.le_head j).1) j).trans hext.head,
      (h.le_head j).2.1.trans hext.head, (h.le_head j).2.2.trans hext.head⟩
    map := h.noted hstep hpositive hproved
    saving := fun sv hsv x hx => (h.saving sv hsv x hx).imp_right
      fun hkept => hkept.mono hext (h.le_head _).2.1
    snapshot := fun jobs hjobs job hjob =>
      (h.snapshot jobs hjobs job hjob).mono hext (h.le_head _).2.2 }

end Process

theorem Inv.loaded (h : Inv D s) {j : JobId} {st : JobStatus}
    (hst : (loadJobs s.host.snapshot).status j = some st) :
    ∃ job, job.id = j ∧ job.jobStatus = st ∧
      Kept s.host.backend.chain job (s.snapshot j) := by
  obtain ⟨job, hjob, rfl⟩ := Option.map_eq_some_iff.1 hst
  obtain ⟨entries, hentries, hmem, rfl⟩ := Persistence.mem_of_lookup_loadJobs hjob
  exact ⟨job, rfl, rfl, h.snapshot entries hentries job hmem⟩

theorem Inv.crash (h : Inv D s) : Inv D { s with
    host := { s.host with
      phase := .down
      backend := Host.idle s.host.backend.chain false s.host.backend.defaultDeadlineSecs ∅
      saving := none } } where
  polling := Backend.polling_start h.polling.chain false _ ∅ 0
  positive := h.positive
  idle _ := rfl
  keyed := Persistence.keyed_loadJobs none
  pending := nofun
  provedFirst := ⟨fun j x hx => by simp [Host.idle, Backend.start, JobMap.status] at hx, nofun⟩
  shown := nofun
  le_head := h.le_head
  map j st hst := by simp [Host.idle, Backend.start, JobMap.status] at hst
  saving := nofun
  snapshot := h.snapshot

theorem Inv.start (h : Inv D s) (contract : Bool) : Inv D { s with
    host := { s.host with
      phase := .booting
      backend := Host.idle s.host.backend.chain contract s.host.backend.defaultDeadlineSecs
        (loadJobs s.host.snapshot) }
    map := s.snapshot } where
  polling := Backend.polling_start h.polling.chain contract _ _ 0
  positive := h.positive
  idle _ := rfl
  keyed := Persistence.keyed_loadJobs _
  pending := nofun
  provedFirst := by
    refine ⟨fun j x hx => ?_, nofun⟩
    obtain ⟨job, rfl, hst, hkept⟩ := h.loaded hx
    exact hkept.proved x hst
  shown := nofun
  le_head j := ⟨(h.le_head j).2.2, (h.le_head j).2⟩
  map j st hst := by
    obtain ⟨job, rfl, rfl, hkept⟩ := h.loaded hst
    exact hkept.reflects
  saving := h.saving
  snapshot := h.snapshot

/-- The indexer starts at the head, and no end lies in the gap. -/
theorem Inv.createIndexer (h : Inv D s) (hphase : s.host.phase = .booting)
    (hcatches : s.Catches .createIndexer) : Inv D { s with
      host := { s.host with
        phase := .running
        backend := { s.host.backend with lastBlock := s.host.backend.chain.head } } } := by
  have hidle : s.host.backend.poll = .idle := h.idle (by rw [hphase]; decide)
  have hreflected : ∀ e ∈ s.host.backend.chain.logs, ∀ j,
      e.event.completes j = true ∨ e.event.expires j = true →
        ∀ st, s.host.backend.jobs.status j = some st → e.block ≤ s.map j := by
    intro e he j hej st hst
    obtain rfl : e.event.jobId = j := by
      rcases hej with hej | hej
      · exact Registry.Event.jobId_of_completes hej
      · exact Registry.Event.jobId_of_expires hej
    exact hcatches e he hej (by rw [hst]; rfl)
  exact {
    polling := {
      chain := h.polling.chain
      start := Nat.zero_le _
      last := .inr (Nat.le_refl _)
      head := by
        intro n hn
        simp [hidle, Poll.head?] at hn
      completions := h.polling.completions
      expirations := h.polling.expirations }
    positive := h.positive
    idle := fun hne => absurd rfl hne
    keyed := h.keyed
    pending := h.pending
    provedFirst := ⟨h.provedFirst.status, h.provedFirst.verified⟩
    shown := fun _ => {
      completed := fun e he j hej _ st hst =>
        (h.map j st hst e he (hreflected e he j (.inl hej) st hst)).1 hej
      expired := fun e he j hej _ st hst =>
        .inr ((h.map j st hst e he (hreflected e he j (.inr hej) st hst)).2 hej) }
    le_head := h.le_head
    map := h.map
    saving := h.saving
    snapshot := h.snapshot }

theorem Inv.saveEntry (h : Inv D s) {sv : Saving} (hsv : s.host.saving = some sv) {j : JobId}
    {job : Job} (hjob : s.host.backend.jobs.lookup j = some job)
    (hnew : j ∉ sv.entries.map Prod.fst) : Inv D { s with
      host := { s.host with saving := some { sv with entries := sv.entries ++ [(j, job)] } }
      saving := Function.update s.saving j (s.reflected j) } := by
  have hid : job.id = j := h.keyed j job hjob
  have hst : s.host.backend.jobs.status j = some job.jobStatus := by
    unfold JobMap.status
    rw [hjob]
    rfl
  refine { h with le_head := fun k => ⟨(h.le_head k).1, ?_, (h.le_head k).2.2⟩, saving := ?_ }
  · show Function.update s.saving j (s.reflected j) k ≤ _
    by_cases hk : k = j
    · rw [hk, Function.update_self]
      exact h.reflected_le j
    · rw [Function.update_of_ne hk]
      exact (h.le_head k).2.1
  · intro sv' hsv' x hx
    cases hsv'
    rcases List.mem_append.1 hx with hold | hclone
    · have hne : x.1 ≠ j := by
        rintro rfl
        exact hnew (List.mem_map_of_mem hold)
      show x.2.id = x.1 ∧ Kept _ x.2 (Function.update s.saving j (s.reflected j) x.1)
      rw [Function.update_of_ne hne]
      exact h.saving sv hsv x hold
    · obtain rfl := List.mem_singleton.1 hclone
      refine ⟨hid, ?_, ?_⟩
      · intro y hy
        rw [hid]
        exact h.provedFirst.status j y (by rw [hst, hy])
      · show Backend.Reflects _ job.id _ (Function.update s.saving j (s.reflected j) j)
        rw [Function.update_self, hid]
        exact h.reflects hst

theorem Inv.step (h : Inv D s) (hcatches : s.Catches l) (hstep : s.step D l = some s') :
    Inv D s' := by
  obtain ⟨host, hhost, rfl⟩ := Option.map_eq_some_iff.1 hstep
  cases Host.Step.of_step hhost with
  | process hl hb => exact h.process hl hcatches hb
  | crash => exact h.crash
  | start => exact h.start _
  | createIndexer hphase => exact h.createIndexer hphase hcatches
  | saveBegin =>
    refine { h with saving := ?_ }
    rintro sv hsv x hx
    cases hsv
    cases hx
  | saveEntry hsv hjob hnew => exact h.saveEntry hsv hjob hnew
  | @saveCommit sv hsv =>
    refine { h with
      le_head := fun j => ⟨(h.le_head j).1, (h.le_head j).2.1, (h.le_head j).2.1⟩
      saving := nofun
      snapshot := ?_ }
    intro jobs hjobs job hjob
    cases hjobs
    obtain ⟨x, hx, rfl⟩ := List.mem_map.1 hjob
    obtain ⟨hid, hkept⟩ := h.saving sv hsv x hx
    rwa [← hid] at hkept
  | saveFail => exact { h with saving := nofun }

theorem inv_fresh {chain : Chain} (hchain : chain.Ok D) (hpos : ∀ e ∈ chain.logs, 0 < e.block)
    (defaultDeadlineSecs : UInt64) : Inv D (fresh chain defaultDeadlineSecs) where
  polling := Backend.polling_start hchain false _ ∅ 0
  positive := hpos
  idle _ := rfl
  keyed := Persistence.keyed_loadJobs none
  pending := nofun
  provedFirst := by
    refine ⟨fun j x hx => ?_, nofun⟩
    simp [fresh, Host.fresh, Host.idle, Backend.start, JobMap.status] at hx
  shown := nofun
  le_head _ := ⟨Nat.zero_le _, Nat.zero_le _, Nat.zero_le _⟩
  map j st hst := by simp [fresh, Host.fresh, Host.idle, Backend.start, JobMap.status] at hst
  saving := nofun
  snapshot := nofun

/-- **A coordinator that restarts has caught up** with whatever its indexer is done with, in runs in
which no job of the map ends in the gap before the indexer is created. -/
theorem caught_up (D : Deployment) (prefunded : Nat)
    (blocks : List (List (TxHash × Registry.Act))) (defaultDeadlineSecs : UInt64) (s : Tracked)
    (h : Steps D Catches (fresh (Chain.after D prefunded blocks) defaultDeadlineSecs) s) :
    s.host.CaughtUp := by
  have hinv : Inv D s :=
    Transition.Steps.invariant (fun _ _ _ hs hl hst => hs.step hl hst) h
      (inv_fresh (Chain.ok_after D prefunded blocks) (Chain.positive_after D prefunded blocks)
        defaultDeadlineSecs)
  intro hphase e he hle st hst
  exact hinv.reflects hst e he (hle.trans (hinv.lastBlock_le_reflected hphase _))

end Tracked

/-! ## Two restarts -/

open Sample
open Host (Label)

namespace Tracked

/-- What the process does. -/
def does (ls : List Backend.Label) : List Label := ls.map .process

/-- The job is created and saved. -/
def saved : List Label :=
  [.start true, .createIndexer] ++
    does [.create request nonce 1000, .mine [submitJob], .insert job] ++
      [.saveBegin, .saveEntry jobId, .saveCommit]

/-- The job is proved after the restart. -/
def provedAfter : List Label :=
  saved ++ [.crash, .start true, .createIndexer] ++
    does (.mine [submitProof] :: Backend.pollOf 1)

theorem caught_up_proved :
    ∃ s, Steps deployment Catches (fresh (Chain.after deployment 0 []) 300) s ∧
      s.host.phase = .running ∧ s.host.backend.lastBlock = 2 ∧
        s.host.backend.jobs.status jobId = some (.completed (txHash 2)) ∧ s.host.CaughtUp := by
  have hrun : (Transition.run (Transition.checked (step deployment) Catches) provedAfter
      (fresh (Chain.after deployment 0 []) 300)).map
        (fun s => decide (s.host.phase = .running ∧ s.host.backend.lastBlock = 2 ∧
          s.host.backend.jobs.status jobId = some (.completed (txHash 2)))) = some true := by
    decide +kernel
  obtain ⟨s, hs, hst⟩ := Transition.exists_of_checked hrun
  obtain ⟨hphase, hlast, hstatus⟩ := of_decide_eq_true hst
  exact ⟨s, hs, hphase, hlast, hstatus, caught_up deployment 0 [] 300 s hs⟩

end Tracked

namespace Host

/-- The job is proved while the coordinator is down, and the new indexer polls the next block. -/
def provedMeanwhile : List Label :=
  Tracked.saved ++ [.crash, .process (.mine [submitProof]), .start true, .createIndexer] ++
    Tracked.does (.mine [] :: Backend.pollOf 0)

theorem caught_up_fails :
    ∃ s, Steps deployment Transition.Any (fresh (Chain.after deployment 0 []) 300) s ∧
      s.phase = .running ∧ s.backend.poll.head? = none ∧ s.backend.lastBlock = 3 ∧
        s.backend.chain.CompletedBy jobId (txHash 2) ∧
          s.backend.jobs.status jobId = some .pending ∧ ¬ CaughtUp s := by
  have hrun : (Transition.run (step deployment) provedMeanwhile
      (fresh (Chain.after deployment 0 []) 300)).map
        (fun s => decide (s.phase = .running ∧ s.backend.poll.head? = none ∧
          s.backend.lastBlock = 3 ∧ s.backend.chain.CompletedBy jobId (txHash 2) ∧
            s.backend.jobs.status jobId = some .pending ∧
              ∃ e ∈ s.backend.chain.logs, e.block ≤ 3 ∧ ¬ s.backend.Records e)) = some true := by
    decide +kernel
  obtain ⟨s, hs, hst⟩ := Transition.exists_of_run (fun _ _ _ => trivial) hrun
  obtain ⟨hphase, hpoll, hlast, hby, hstatus, e, he, hle, hnot⟩ := of_decide_eq_true hst
  refine ⟨s, hs, hphase, hpoll, hlast, hby, hstatus, fun h => ?_⟩
  exact hnot (h hphase e he (by rw [hlast]; exact hle))

end Host

end ProofMarket
