import ProofMarket.Coordinator.Assignments

/-!
# A coordinator that crashes and restarts

`persistence.rs` and `main.rs`. Every few seconds `save_jobs` clones the entries of the job map, one
after the other while other tasks write to it, and renames the finished file over the last one. A
crash leaves that file and nothing else. `main` loads it, starts the gossip handler and the other
tasks on the loaded map, and only then creates the indexer, which starts at the chain's head
because `start_block` is `None`. The API is served last.

A snapshot is the list of jobs that its file encodes.
-/

namespace ProofMarket

open Registry (Deployment)

namespace Persistence

/-- `load_jobs`: every entry under its own id. Without a file there are no jobs. -/
def loadJobs : Option (List Job) → JobMap
  | none => ∅
  | some entries => entries.foldl (fun m job => m.insert job.id job) ∅

/-- `save_jobs` under way: the jobs that were in the map when it began, and the entries it has
cloned. -/
structure Saving where
  keys : Finset JobId
  entries : List (JobId × Job)

theorem keyed_foldl {entries : List Job} {m : JobMap} (hm : m.Keyed) :
    JobMap.Keyed (entries.foldl (fun m job => m.insert job.id job) m) := by
  induction entries generalizing m with
  | nil => exact hm
  | cons job entries ih => exact ih (hm.insert rfl)

theorem keyed_loadJobs (snapshot : Option (List Job)) : (loadJobs snapshot).Keyed := by
  cases snapshot with
  | none => exact fun j job hj => by simp [loadJobs] at hj
  | some entries => exact keyed_foldl fun j job hj => by simp at hj

theorem mem_of_lookup_foldl {entries : List Job} {m : JobMap} {j : JobId} {job : Job}
    (h : Finmap.lookup j (entries.foldl (fun m job => m.insert job.id job) m) = some job) :
    m.lookup j = some job ∨ job ∈ entries ∧ job.id = j := by
  induction entries generalizing m with
  | nil => exact .inl h
  | cons new entries ih =>
    rcases ih h with hm | ⟨hmem, hid⟩
    · rw [JobMap.lookup_insert_eq] at hm
      split_ifs at hm with hj
      · cases hm
        exact .inr ⟨List.mem_cons_self, hj.symm⟩
      · exact .inl hm
    · exact .inr ⟨List.mem_cons_of_mem _ hmem, hid⟩

theorem mem_of_lookup_loadJobs {snapshot : Option (List Job)} {j : JobId} {job : Job}
    (h : (loadJobs snapshot).lookup j = some job) :
    ∃ entries, snapshot = some entries ∧ job ∈ entries ∧ job.id = j := by
  cases snapshot with
  | none => simp [loadJobs] at h
  | some entries =>
    rcases mem_of_lookup_foldl h with hm | hmem
    · simp at hm
    · exact ⟨entries, rfl, hmem⟩

theorem lookup_foldl_of_not_mem {entries : List Job} {m : JobMap} {j : JobId}
    (h : j ∉ entries.map Job.id) :
    Finmap.lookup j (entries.foldl (fun m job => m.insert job.id job) m) = m.lookup j := by
  induction entries generalizing m with
  | nil => rfl
  | cons new entries ih =>
    rw [List.map_cons, List.mem_cons, not_or] at h
    rw [List.foldl_cons, ih h.2, JobMap.lookup_insert_eq, if_neg h.1]

theorem lookup_loadJobs {entries : List Job} (hnodup : (entries.map Job.id).Nodup) {job : Job}
    (hjob : job ∈ entries) : (loadJobs (some entries)).lookup job.id = some job := by
  suffices hfold : ∀ m : JobMap, Finmap.lookup job.id
      (entries.foldl (fun m job => m.insert job.id job) m) = some job from hfold ∅
  induction entries with
  | nil => cases hjob
  | cons new entries ih =>
    intro m
    rw [List.map_cons, List.nodup_cons] at hnodup
    rw [List.foldl_cons]
    rcases List.mem_cons.1 hjob with rfl | hjob
    · rw [lookup_foldl_of_not_mem hnodup.1, Finmap.lookup_insert]
    · exact ih hnodup.2 hjob _

end Persistence

open Persistence (loadJobs Saving)

/-- Where `main` stands: it does not run, it has started its tasks and waits for the indexer to be
created, or all of it runs. -/
inductive Phase where
  | down
  | booting
  | running
  deriving DecidableEq

/-- A coordinator with its disk. While it is down, `backend` is there for its chain only. -/
structure Host where
  phase : Phase
  backend : Backend
  snapshot : Option (List Job)
  saving : Option Saving

namespace Host

inductive Label where
  | process (l : Backend.Label)
  | crash
  | start (contract : Bool)
  | createIndexer
  | saveBegin
  | saveEntry (jobId : JobId)
  | saveCommit
  | saveFail

/-- A process without jobs, or none. -/
def idle (chain : Chain) (contract : Bool) (defaultDeadlineSecs : UInt64) (m : JobMap) : Backend :=
  .start chain contract defaultDeadlineSecs m 0

/-- A machine on which no coordinator has run yet. -/
def fresh (chain : Chain) (defaultDeadlineSecs : UInt64) : Host :=
  ⟨.down, idle chain false defaultDeadlineSecs ∅, none, none⟩

/-- What may happen in a phase. The chain always moves on; before the indexer is created, only the
gossip handler and the rebroadcast run. -/
def allows : Phase → Backend.Label → Bool
  | .running, _ => true
  | .booting, .mine _ | .booting, .recv _ _ _ | .booting, .record | .booting, .collect _
  | .booting, .resend => true
  | .down, .mine _ => true
  | _, _ => false

def step (D : Deployment) (s : Host) : Label → Option Host
  | .process l =>
    if allows s.phase l then (s.backend.next D l).map fun b => { s with backend := b } else none
  | .crash =>
    if s.phase = .down then none
    else some { s with
      phase := .down
      backend := idle s.backend.chain false s.backend.defaultDeadlineSecs ∅
      saving := none }
  | .start contract =>
    if s.phase = .down then some { s with
      phase := .booting
      backend := idle s.backend.chain contract s.backend.defaultDeadlineSecs
        (loadJobs s.snapshot) }
    else none
  | .createIndexer =>
    if s.phase = .booting then some { s with
      phase := .running
      backend := { s.backend with lastBlock := s.backend.chain.head } }
    else none
  | .saveBegin =>
    if s.phase = .down ∨ s.saving.isSome then none
    else some { s with saving := some ⟨s.backend.jobs.keys, []⟩ }
  | .saveEntry jobId =>
    match s.saving, s.backend.jobs.lookup jobId with
    | some sv, some job =>
      if jobId ∈ sv.entries.map Prod.fst then none
      else some { s with saving := some { sv with entries := sv.entries ++ [(jobId, job)] } }
    | _, _ => none
  | .saveCommit =>
    match s.saving with
    | some sv =>
      if ∀ j ∈ sv.keys, j ∈ sv.entries.map Prod.fst then
        some { s with snapshot := some (sv.entries.map Prod.snd), saving := none }
      else none
    | none => none
  | .saveFail => if s.saving.isSome then some { s with saving := none } else none

/-- Runs whose every step satisfies `ok`. -/
abbrev Steps (D : Deployment) (ok : Host → Label → Prop) : Host → Host → Prop :=
  Transition.Steps (step D) ok

/-- The ways a step can go, with what each requires. -/
inductive Step (D : Deployment) (s : Host) : Label → Host → Prop where
  | process {l : Backend.Label} {b : Backend} {ms : List GossipMessage} :
      allows s.phase l = true → Backend.Step D s.backend l b ms →
      Step D s (.process l) { s with backend := b }
  | crash : s.phase ≠ .down →
      Step D s .crash
        { s with
          phase := .down
          backend := idle s.backend.chain false s.backend.defaultDeadlineSecs ∅
          saving := none }
  | start {contract : Bool} : s.phase = .down →
      Step D s (.start contract)
        { s with
          phase := .booting
          backend := idle s.backend.chain contract s.backend.defaultDeadlineSecs
            (loadJobs s.snapshot) }
  | createIndexer : s.phase = .booting →
      Step D s .createIndexer
        { s with
          phase := .running
          backend := { s.backend with lastBlock := s.backend.chain.head } }
  | saveBegin : s.phase ≠ .down → s.saving = none →
      Step D s .saveBegin { s with saving := some ⟨s.backend.jobs.keys, []⟩ }
  | saveEntry {j : JobId} {job : Job} {sv : Saving} : s.saving = some sv →
      s.backend.jobs.lookup j = some job → j ∉ sv.entries.map Prod.fst →
      Step D s (.saveEntry j)
        { s with saving := some { sv with entries := sv.entries ++ [(j, job)] } }
  | saveCommit {sv : Saving} : s.saving = some sv →
      (∀ j ∈ sv.keys, j ∈ sv.entries.map Prod.fst) →
      Step D s .saveCommit { s with snapshot := some (sv.entries.map Prod.snd), saving := none }
  | saveFail : Step D s .saveFail { s with saving := none }

/-- **Every step goes in one of these ways.** -/
theorem Step.of_step {D : Deployment} {s s' : Host} {l : Label} (h : s.step D l = some s') :
    Step D s l s' := by
  cases l with
  | process l =>
    simp only [step] at h
    split at h
    · rename_i hl
      obtain ⟨b, hb, rfl⟩ := Option.map_eq_some_iff.1 h
      obtain ⟨ms, hstep⟩ := Backend.Step.of_next hb
      exact .process hl hstep
    · cases h
  | crash =>
    simp only [step] at h
    split at h
    · cases h
    · rename_i hphase
      cases h
      exact .crash hphase
  | start contract =>
    simp only [step] at h
    split at h
    · rename_i hphase
      cases h
      exact .start hphase
    · cases h
  | createIndexer =>
    simp only [step] at h
    split at h
    · rename_i hphase
      cases h
      exact .createIndexer hphase
    · cases h
  | saveBegin =>
    simp only [step] at h
    split at h
    · cases h
    · rename_i hidle
      push Not at hidle
      cases h
      exact .saveBegin hidle.1 (by simpa using hidle.2)
  | saveEntry j =>
    simp only [step] at h
    split at h
    · rename_i sv job hsv hjob
      split at h
      · cases h
      · rename_i hnew
        cases h
        exact .saveEntry hsv hjob hnew
    · cases h
  | saveCommit =>
    simp only [step] at h
    split at h
    · rename_i sv hsv
      split at h
      · rename_i hall
        cases h
        exact .saveCommit hsv hall
      · cases h
    · cases h
  | saveFail =>
    simp only [step] at h
    split at h
    · cases h
      exact .saveFail
    · cases h

/-- Every way to write the map keeps each job under its own id. -/
theorem Step.keyed {D : Deployment} {s s' : Host} {l : Label} (hstep : Step D s l s')
    (h : s.backend.jobs.Keyed) : s'.backend.jobs.Keyed := by
  cases hstep with
  | process _ hb => exact hb.keyed h
  | crash => exact Persistence.keyed_loadJobs none
  | start => exact Persistence.keyed_loadJobs s.snapshot
  | _ => exact h

end Host

end ProofMarket
