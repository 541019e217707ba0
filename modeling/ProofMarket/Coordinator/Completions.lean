import ProofMarket.Coordinator.Process

/-!
# Recorded completions

Three tasks write the job map. Two of them leave a recorded completion alone; the third, the
insertion at the end of `create_job`, writes without looking.

* `Step.completed_new` — where a recorded completion comes from.
* `Step.completed_kept` — what a step can do to a recorded completion.
* `completions_kept_iff` — a run keeps every completion it records exactly when none of its
  insertions meets one.
-/

namespace ProofMarket

open Registry (Deployment)

namespace Backend

variable {D : Deployment} {s s' : Backend} {l : Label} {ms : List GossipMessage}

/-! ## One step -/

/-- Only an insertion overwrites a recorded completion. -/
theorem Step.completed_kept {j : JobId} {h : TxHash} (hstep : Step D s l s' ms)
    (hj : s.jobs.status j = some (.completed h)) :
    s'.jobs.status j = some (.completed h) ∨ ∃ job ∈ s.creating, l = .insert job ∧ job.id = j := by
  obtain ⟨st', hst', hchange⟩ := hstep.status j
  cases hchange with
  | keep => exact .inl (hst'.trans hj)
  | inserted hmem hid => exact .inr ⟨_, hmem, rfl, hid⟩
  | assigned hp =>
    rw [hp] at hj
    cases hj
  | confirmed _ hst hc | expired _ hst hc =>
    rw [hst] at hj
    cases hj
    cases hc
  | indexed _ hopen => cases hopen _ hj

/-- A completion is recorded by the gossip path, by the indexer, or it comes with a created job. -/
theorem Step.completed_new {j : JobId} {h : TxHash} (hstep : Step D s l s' ms)
    (hj : s'.jobs.status j = some (.completed h)) :
    s.jobs.status j = some (.completed h) ∨
    (s.verified = some (j, h) ∧ ∃ st, s.jobs.status j = some st ∧ st.isCompleted = false) ∨
    (∃ head logs, s.poll = .applyCompleted head ((j, h) :: logs)) ∨
    ∃ job ∈ s.creating, job.jobStatus = .completed h := by
  obtain ⟨st', hst', hchange⟩ := hstep.status j
  rw [hst'] at hj
  cases hchange with
  | keep => exact .inl hj
  | assigned | expired => cases hj
  | confirmed hv hst hc =>
    cases hj
    exact .inr (.inl ⟨hv, _, hst, hc⟩)
  | indexed hp =>
    cases hj
    exact .inr (.inr (.inl ⟨_, _, hp⟩))
  | inserted hmem => exact .inr (.inr (.inr ⟨_, hmem, Option.some.inj hj⟩))

/-- The jobs `create_job` is about to insert are pending. -/
def CreatingPending (s : Backend) : Prop := ∀ job ∈ s.creating, job.jobStatus = .pending

theorem Step.creatingPending (hstep : Step D s l s' ms) (hs : s.CreatingPending) :
    s'.CreatingPending := by
  cases hstep with
  | create =>
    intro job hjob
    rcases List.mem_append.1 hjob with hjob | hjob
    · exact hs job hjob
    · rw [List.mem_singleton.1 hjob]
      rfl
  | insert | abandon => exact fun job hjob => hs job (List.mem_of_mem_erase hjob)
  | _ => exact hs

theorem run_creatingPending {ls : List Label} (h : Transition.run (next D) ls s = some s')
    (hs : s.CreatingPending) : s'.CreatingPending :=
  have hsteps : Steps D Transition.Any s s' := Transition.steps_of_run (fun _ _ _ => trivial) h
  hsteps.invariant (fun _ _ _ hu _ hnext =>
    have ⟨_, hstep⟩ := Step.of_next hnext
    hstep.creatingPending hu) hs

/-! ## Runs -/

/-- Once the run has recorded a completion, it is there in every later state of the run. -/
def KeepsCompletions (D : Deployment) (s : Backend) (ls : List Label) : Prop :=
  ∀ as bs cs u v, ls = as ++ (bs ++ cs) →
    Transition.run (next D) as s = some u → Transition.run (next D) bs u = some v →
    ∀ j h, u.jobs.status j = some (.completed h) → v.jobs.status j = some (.completed h)

/-- No insertion of the run meets a recorded completion under the id of its job. -/
def InsertsNoCompleted (D : Deployment) (s : Backend) (ls : List Label) : Prop :=
  ∀ as job cs u, ls = as ++ .insert job :: cs → Transition.run (next D) as s = some u →
    ∀ h, u.jobs.status job.id ≠ some (.completed h)

theorem InsertsNoCompleted.of_append {as bs : List Label} {u : Backend}
    (h : InsertsNoCompleted D s (as ++ bs)) (hrun : Transition.run (next D) as s = some u) :
    InsertsNoCompleted D u bs := by
  intro as' job cs v hbs hv
  refine h (as ++ as') job cs v (by rw [hbs, List.append_assoc]) ?_
  rw [Transition.run_append, hrun]
  exact hv

theorem InsertsNoCompleted.run {j : JobId} {h : TxHash} :
    ∀ {ls cs : List Label} {u v : Backend}, InsertsNoCompleted D u (ls ++ cs) →
      Transition.run (next D) ls u = some v → u.jobs.status j = some (.completed h) →
      v.jobs.status j = some (.completed h)
  | [], _, u, v, _, hrun, hj => by
    cases hrun
    exact hj
  | l :: ls, cs, u, v, hok, hrun, hj => by
    obtain ⟨t, ht, hrest⟩ := Option.bind_eq_some_iff.1 hrun
    have hsingle : Transition.run (next D) [l] u = some t := by
      simp [Transition.run, ht]
    have hok' : InsertsNoCompleted D u ([l] ++ (ls ++ cs)) := hok
    refine InsertsNoCompleted.run (hok'.of_append hsingle) hrest ?_
    obtain ⟨ms, hstep⟩ := Step.of_next ht
    rcases hstep.completed_kept hj with hkept | ⟨job, -, rfl, rfl⟩
    · exact hkept
    · exact absurd hj (hok [] job (ls ++ cs) u rfl rfl h)

/-- **A run keeps its completions exactly when no insertion meets one.** -/
theorem completions_kept_iff (D : Deployment) (chain : Chain) (contract : Bool)
    (defaultDeadlineSecs : UInt64) (m : JobMap) (startBlock : Nat) (ls : List Label)
    (h : (Transition.run (next D) ls
      (start chain contract defaultDeadlineSecs m startBlock)).isSome = true) :
    KeepsCompletions D (start chain contract defaultDeadlineSecs m startBlock) ls ↔
      InsertsNoCompleted D (start chain contract defaultDeadlineSecs m startBlock) ls := by
  constructor
  · intro hkeep as job cs u hls hu x hx
    obtain ⟨t, ht⟩ := Option.isSome_iff_exists.1 h
    obtain ⟨u', hu', hrest⟩ := Transition.run_split (hls ▸ ht)
    obtain rfl : u' = u := Option.some.inj (hu'.symm.trans hu)
    obtain ⟨v, hv, -⟩ := Option.bind_eq_some_iff.1 hrest
    have hkept : v.jobs.status job.id = some (.completed x) :=
      hkeep as [.insert job] cs u' v hls hu (by simp [Transition.run, hv]) job.id x hx
    -- The inserted job is pending, so its status is not what was recorded.
    obtain ⟨ms, hstep⟩ := Step.of_next hv
    have hpending : u'.CreatingPending := run_creatingPending hu fun job hjob => by cases hjob
    cases hstep with
    | insert hmem =>
      rw [status_insert, if_pos rfl, hpending job hmem] at hkept
      cases hkept
  · intro hins as bs cs u v hls hu hv j x hj
    rw [hls] at hins
    exact (hins.of_append hu).run hv hj

end Backend

/-! ## A run that loses a completion -/

namespace Sample

/-- The input of the guest: 10, as eight bytes. -/
def payload : Bytes := [10, 0, 0, 0, 0, 0, 0, 0]

def request : Coordinator.CreateJobRequest := ⟨payload, 100, none⟩

def nonce : FixedBytes 8 := .fill 8 0

def jobId : JobId := ⟨⟨[192, 9, 92, 244, 239, 187, 204, 223, 55, 250, 244, 67, 160, 93, 5, 151, 85,
  182, 38, 0, 90, 23, 222, 100, 195, 33, 62, 41, 107, 16, 85, 21], rfl⟩⟩

def payloadHash : FixedBytes 32 := ⟨[161, 17, 242, 117, 204, 46, 117, 136, 0, 0, 1, 211, 0, 163, 30,
  118, 51, 109, 21, 185, 211, 20, 205, 26, 29, 143, 61, 53, 86, 151, 94, 237], rfl⟩

/-- What the guest commits: the 10th Fibonacci number after the two words. -/
def journal : Bytes := jobId.bytes.val ++ payloadHash.val ++ [55, 0, 0, 0, 0, 0, 0, 0]

def journalHash : FixedBytes 32 := ⟨[137, 225, 240, 93, 254, 62, 100, 15, 179, 56, 151, 133, 238,
  120, 118, 243, 222, 129, 206, 157, 4, 172, 216, 3, 201, 161, 57, 139, 14, 153, 229, 139], rfl⟩

/-- SHA-256 at the three inputs of the runs below. -/
def sha256 (b : Bytes) : FixedBytes 32 :=
  if b = Address.zero.bytes.val ++ payload ++ nonce.val then jobId.bytes
  else if b = payload then payloadHash
  else if b = journal then journalHash
  else .fill 32 0

def deployment : Deployment := ⟨sha256, .fill 32 0⟩

/-- A call by the account `b`; the verifier accepts every seal. -/
def call (b : UInt8) (value timestamp : Nat) (c : Registry.Call) : Registry.Act :=
  .call (⟨⟨.fill 20 b⟩, value, timestamp, fun _ _ _ => true⟩, c) [] true

def txHash (b : UInt8) : TxHash := ⟨.fill 32 b⟩

/-- The creation of the job, mined with deadline 1300. -/
def submitJob : TxHash × Registry.Act :=
  (txHash 1, call 1 100 1000 (.submitJob jobId payload 1300))

def submitProof : TxHash × Registry.Act :=
  (txHash 2, call 2 0 1005 (.submitProof jobId journal []))

/-- The job as `create_job` makes it. -/
def job : Job := request.job sha256 nonce 1000 300

end Sample

namespace Backend

open Sample

/-- While `create_job` waits for its receipt, another account proves the job, and the indexer sees
the proof. -/
def provedBeforeInsert : List Label :=
  [.create request nonce 1000, .mine [submitJob], .mine [submitProof], .pollBegin, .pollStep,
    .pollStep, .pollStep, .pollStep, .pollStep]

/-- The job is inserted first, proved, and the indexer sees the proof. -/
def provedAfterInsert : List Label :=
  [.create request nonce 1000, .insert job, .mine [submitJob], .mine [submitProof], .pollBegin,
    .pollStep, .pollStep, .pollStep, .pollStep, .pollStep]

/-- Then a worker reports another transaction. -/
def reported : List Label := [.recv (.jobCompleted jobId (txHash 3)) 1100 true, .record]

theorem insertsNoCompleted_reported :
    InsertsNoCompleted deployment (start (Chain.genesis 0) true 300 ∅ 0)
      (provedAfterInsert ++ reported) := by
  intro as job' cs u hls hu h hcompleted
  match as, hls, hu with
  | [], hls, _ => cases (List.cons.inj hls).1
  | [_], hls, hu =>
    -- The map is empty.
    cases (List.cons.inj hls).1
    cases hu
    cases hcompleted
  | _ :: _ :: as, hls, _ =>
    have hrest : provedAfterInsert.drop 2 ++ reported = as ++ .insert job' :: cs :=
      (List.cons.inj (List.cons.inj hls).2).2
    have hmem : Label.insert job' ∈ provedAfterInsert.drop 2 ++ reported := by
      rw [hrest]
      exact List.mem_append_right _ List.mem_cons_self
    simp [provedAfterInsert, reported] at hmem

theorem completions_kept_reported : ∃ u v,
    Transition.run (next deployment) provedAfterInsert (start (Chain.genesis 0) true 300 ∅ 0) =
      some u ∧ u.jobs.status jobId = some (.completed (txHash 2)) ∧
    Transition.run (next deployment) reported u = some v ∧
      v.jobs.status jobId = some (.completed (txHash 2)) := by
  have hbefore : (Transition.run (next deployment) provedAfterInsert
      (start (Chain.genesis 0) true 300 ∅ 0)).map (fun s => s.jobs.status jobId) =
        some (some (.completed (txHash 2))) := by
    decide +kernel
  have hruns : (Transition.run (next deployment) (provedAfterInsert ++ reported)
      (start (Chain.genesis 0) true 300 ∅ 0)).isSome = true := by
    decide +kernel
  obtain ⟨u, hu, huj⟩ := Option.map_eq_some_iff.1 hbefore
  obtain ⟨v, hv⟩ := Option.isSome_iff_exists.1 hruns
  obtain ⟨u', hu', huv⟩ := Transition.run_split hv
  obtain rfl : u' = u := Option.some.inj (hu'.symm.trans hu)
  have hkept := (completions_kept_iff deployment (Chain.genesis 0) true 300 ∅ 0 _ hruns).2
    insertsNoCompleted_reported
  exact ⟨u', v, hu, huj, huv,
    hkept provedAfterInsert reported [] u' v (by simp) hu huv jobId (txHash 2) huj⟩

theorem completions_lost : ¬ ∀ ls,
    (Transition.run (next deployment) ls
      (start (Chain.genesis 0) true 300 ∅ 0)).isSome = true →
    KeepsCompletions deployment (start (Chain.genesis 0) true 300 ∅ 0) ls := by
  intro h
  let f : Backend → Option JobStatus := fun s => s.jobs.status jobId
  have hbefore : (Transition.run (next deployment) provedBeforeInsert
      (start (Chain.genesis 0) true 300 ∅ 0)).map f = some (some (.completed (txHash 2))) := by
    decide +kernel
  have hafter : (Transition.run (next deployment) (provedBeforeInsert ++ [.insert job])
      (start (Chain.genesis 0) true 300 ∅ 0)).map f = some (some .pending) := by
    decide +kernel
  obtain ⟨v, hv, hvj⟩ := Option.map_eq_some_iff.1 hafter
  obtain ⟨u, hu, huv⟩ := Transition.run_split hv
  rw [hu] at hbefore
  have hlost := h _ (by rw [hv]; rfl) provedBeforeInsert [.insert job] [] u v (by simp) hu huv jobId
    (txHash 2) (Option.some.inj hbefore)
  rw [show f v = v.jobs.status jobId from rfl, hlost] at hvj
  cases hvj

end Backend

end ProofMarket
