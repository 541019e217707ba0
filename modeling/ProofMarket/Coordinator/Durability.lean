import ProofMarket.Coordinator.Snapshot

/-!
# Which accepted claims survive a crash

`handle_claim` broadcasts its acceptance when it has written the status, and does not wait for
`save_jobs`. What a crash leaves of the claim is what the last completed save had cloned.

`Ledger` is a coordinator with a record, which no code reads, of the acceptances it has broadcast,
of those that a save under way has cloned, and of those that a completed save had cloned.

* `accepted_durable` — **an acceptance that was saved before the next crash is never undone.**
* `accepted_durable_fails` — a crash before the next save gives the job to another worker.
-/

namespace ProofMarket

open Registry (Deployment)
open Persistence (loadJobs Saving lookup_loadJobs keyed_loadJobs)

/-- A status that a job may have once it was assigned to `worker`. -/
def JobStatus.Keeps (worker : PeerId) (status : JobStatus) : Prop :=
  (∃ t, status = .assigned worker t) ∨ status.isCompleted = true ∨ status = .expired

/-- The claim that a message accepts. -/
def GossipMessage.acceptance : GossipMessage → Option (JobId × PeerId)
  | .claimAccepted jobId workerId => some (jobId, workerId)
  | _ => none

namespace Backend

variable {D : Deployment} {s s' : Backend} {l : Label} {ms : List GossipMessage}

/-- No request in progress is about a pending job. -/
def PendingStored (s : Backend) : Prop :=
  ∀ job ∈ s.creating, s.jobs.status job.id ≠ some .pending

theorem Step.pendingStored (hstep : Step D s l s' ms) (hfresh : s.ChoosesFresh D l)
    (hdistinct : s.CreatesDistinct) (h : s.PendingStored) : s'.PendingStored := by
  intro job hjob hp
  obtain ⟨st', hst', hchange⟩ := hstep.status job.id
  rw [hst'] at hp
  rcases hstep.creating_cases hjob with hold | ⟨req, nonce, now, rfl, rfl⟩
  · cases hchange with
    | keep => exact h job hold hp
    | assigned | confirmed | indexed | expired => cases hp
    | @inserted new hmem hid =>
      cases hstep with
      | insert => exact not_mem_erase_of_nodup hdistinct hmem hjob hid.symm
  · cases hchange with
    | keep => exact absurd (hfresh.1.symm.trans hp) (by simp)

theorem Step.accepts (hstep : Step D s l s' ms) {j : JobId} {w : PeerId}
    (h : (j, w) ∈ ms.filterMap GossipMessage.acceptance) :
    s.jobs.status j = some .pending ∧ s'.creating = s.creating ∧
      ∃ t, s'.jobs.status j = some (.assigned w t) := by
  obtain ⟨m, hm, hacc⟩ := List.mem_filterMap.1 h
  obtain ⟨k, v, now, reachable, rfl, ⟨rfl, hp, hst⟩ | ⟨reason, rfl, -⟩⟩ | ⟨job, rfl, -⟩ :=
    hstep.sends hm
  · cases hacc
    refine ⟨hp, ?_, now, hst⟩
    cases hstep <;> rfl
  · cases hacc
  · cases hacc

/-- A status that keeps a claim goes on keeping it, as long as no request inserts the job again. -/
theorem Step.keeps (hstep : Step D s l s' ms) {j : JobId} {w : PeerId}
    (hnew : ∀ job ∈ s.creating, job.id ≠ j) {st : JobStatus} (hst : s.jobs.status j = some st)
    (h : st.Keeps w) : ∃ st', s'.jobs.status j = some st' ∧ st'.Keeps w := by
  obtain ⟨st', hst', hchange⟩ := hstep.status j
  cases hchange with
  | keep => exact ⟨st, hst'.trans hst, h⟩
  | assigned hp =>
    rw [hst] at hp
    cases hp
    obtain ⟨t, ht⟩ | hc | he := h
    · cases ht
    · cases hc
    · cases he
  | inserted hmem hid => exact absurd hid (hnew _ hmem)
  | confirmed | indexed => exact ⟨_, hst', .inr (.inl rfl)⟩
  | expired => exact ⟨_, hst', .inr (.inr rfl)⟩

end Backend

/-- A coordinator with its acceptances: those it has broadcast, those whose job the save under way
has cloned since, and those whose job a completed save had cloned since. -/
structure Ledger where
  host : Host
  accepted : List (JobId × PeerId)
  cloned : List (JobId × PeerId)
  saved : List (JobId × PeerId)

namespace Ledger

open Host (Label allows)

/-- What the coordinator broadcasts in a step. -/
def broadcasts (D : Deployment) (s : Host) : Label → List GossipMessage
  | .process l => ((s.backend.step D l).map Prod.snd).getD []
  | _ => []

/-- The record after a step that leads to `host`. -/
def note (D : Deployment) (s : Ledger) (host : Host) : Label → Ledger
  | .process l => { s with
      host
      accepted := s.accepted ++
        (broadcasts D s.host (.process l)).filterMap GossipMessage.acceptance }
  | .saveEntry jobId => { s with
      host
      cloned := s.cloned ++ s.accepted.filter fun claim => claim.1 = jobId }
  | .saveCommit => { s with host, cloned := [], saved := s.saved ++ s.cloned }
  | .crash | .start _ | .saveBegin | .saveFail => { s with host, cloned := [] }
  | .createIndexer => { s with host }

def step (D : Deployment) (s : Ledger) (l : Label) : Option Ledger :=
  (s.host.step D l).map fun host => s.note D host l

/-- Runs whose every step satisfies `ok`. -/
abbrev Steps (D : Deployment) (ok : Ledger → Label → Prop) : Ledger → Ledger → Prop :=
  Transition.Steps (step D) ok

/-- A machine that is off, with nothing accepted. -/
def off (chain : Chain) (defaultDeadlineSecs : UInt64) (file : Option (List Char)) : Ledger :=
  ⟨.off chain defaultDeadlineSecs file, [], [], []⟩

/-- What keeps the acceptance of one claim: no crash comes before a save of it, and no request draws
an id that the coordinator has seen. -/
def Survives (D : Deployment) (claim : JobId × PeerId) (s : Ledger) : Label → Prop
  | .crash => claim ∈ s.accepted → claim ∈ s.saved
  | .process l => s.host.backend.ChoosesFresh D l
  | _ => True

instance (D : Deployment) (claim : JobId × PeerId) (s : Ledger) (l : Label) :
    Decidable (s.Survives D claim l) :=
  match l with
  | .crash => inferInstanceAs (Decidable (claim ∈ s.accepted → claim ∈ s.saved))
  | .process l => inferInstanceAs (Decidable (s.host.backend.ChoosesFresh D l))
  | .start _ | .createIndexer | .saveBegin | .saveEntry _ | .saveCommit | .saveFail =>
    isTrue trivial

/-- The coordinator runs with the job as the claim left it, or further on. -/
def Holds (s : Ledger) (claim : JobId × PeerId) : Prop :=
  ∃ st, s.host.backend.jobs.status claim.1 = some st ∧ st.Keeps claim.2

variable {D : Deployment} {s s' : Ledger} {l : Label} {claim : JobId × PeerId}

/-- What runs keep. `entries` is about the clones that a save under way has made, and `fresh` says
that such a save began after the claim was in the snapshot, if it is in there. -/
structure Inv (claim : JobId × PeerId) (s : Ledger) : Prop where
  keyed : s.host.backend.jobs.Keyed
  distinct : s.host.backend.CreatesDistinct
  pending : s.host.backend.PendingStored
  holds : claim ∈ s.accepted → s.host.phase ≠ .down →
    s.Holds claim ∧ ∀ job ∈ s.host.backend.creating, job.id ≠ claim.1
  off : s.host.phase = .down → s.host.saving = none ∧ (claim ∈ s.accepted → claim ∈ s.saved)
  entries : ∀ sv, s.host.saving = some sv → (sv.entries.map Prod.fst).Nodup ∧
    ∀ entry ∈ sv.entries, entry.2.id = entry.1
  cloned : claim ∈ s.cloned → claim ∈ s.accepted ∧ ∃ sv job, s.host.saving = some sv ∧
    (claim.1, job) ∈ sv.entries ∧ job.jobStatus.Keeps claim.2
  saved : claim ∈ s.saved → claim ∈ s.accepted ∧
    ∃ st, (loadJobs s.host.snapshot).status claim.1 = some st ∧ st.Keeps claim.2
  fresh : claim ∈ s.saved → ∀ sv, s.host.saving = some sv → claim.1 ∈ sv.keys ∧
    (claim.1 ∈ sv.entries.map Prod.fst → claim ∈ s.cloned)

theorem of_process {l : Backend.Label} (h : s.step D (.process l) = some s') :
    ∃ b ms, allows s.host.phase l = true ∧ Backend.Step D s.host.backend l b ms ∧
      s' = { s with
        host := { s.host with backend := b }
        accepted := s.accepted ++ ms.filterMap GossipMessage.acceptance } := by
  obtain ⟨host, hhost, rfl⟩ := Option.map_eq_some_iff.1 h
  simp only [Host.step] at hhost
  split at hhost
  · rename_i hl
    obtain ⟨b, hb, rfl⟩ := Option.map_eq_some_iff.1 hhost
    obtain ⟨ms, hms⟩ := Backend.next_eq_some.1 hb
    exact ⟨b, ms, hl, .of_step hms, by simp [note, broadcasts, hms]⟩
  · cases hhost

theorem silent {b b' : Backend} {l : Backend.Label} {ms : List GossipMessage}
    (hl : allows .down l = true) (hstep : Backend.Step D b l b' ms) : ms = [] := by
  cases hstep with
  | mine => rfl
  | _ => cases hl

theorem Inv.process (h : Inv claim s) {l : Backend.Label} {b : Backend} {ms : List GossipMessage}
    (hl : allows s.host.phase l = true) (hfresh : s.host.backend.ChoosesFresh D l)
    (hstep : Backend.Step D s.host.backend l b ms) :
    Inv claim { s with
      host := { s.host with backend := b }
      accepted := s.accepted ++ ms.filterMap GossipMessage.acceptance } where
  keyed := hstep.keyed h.keyed
  distinct := hstep.createsDistinct hfresh h.distinct
  pending := hstep.pendingStored hfresh h.distinct h.pending
  holds := by
    intro hacc hphase
    rcases List.mem_append.1 hacc with hold | hnew
    · obtain ⟨⟨st, hst, hkeeps⟩, hothers⟩ := h.holds hold hphase
      refine ⟨hstep.keeps hothers hst hkeeps, ?_⟩
      intro job hjob hid
      rcases hstep.creating_cases hjob with hjob | ⟨req, nonce, now, rfl, rfl⟩
      · exact hothers job hjob hid
      · have hnone := hfresh.1
        rw [hid, hst] at hnone
        cases hnone
    · obtain ⟨hp, hcreating, t, ht⟩ := hstep.accepts hnew
      refine ⟨⟨_, ht, .inl ⟨t, rfl⟩⟩, ?_⟩
      intro job hjob hid
      exact h.pending job (hcreating ▸ hjob) (hid ▸ hp)
  off := by
    intro hphase
    have hdown : s.host.phase = .down := hphase
    rw [silent (hdown ▸ hl) hstep]
    simpa using h.off hphase
  entries := h.entries
  cloned hcl := ⟨List.mem_append_left _ (h.cloned hcl).1, (h.cloned hcl).2⟩
  saved hsv := ⟨List.mem_append_left _ (h.saved hsv).1, (h.saved hsv).2⟩
  fresh := h.fresh

theorem Inv.restart (h : Inv claim s) (phase : Phase) (contract : Bool) {m : JobMap} (hm : m.Keyed)
    (hholds : claim ∈ s.accepted → phase ≠ .down →
      ∃ st, m.status claim.1 = some st ∧ st.Keeps claim.2)
    (hoff : phase = .down → claim ∈ s.accepted → claim ∈ s.saved) :
    Inv claim { s with
      host := { s.host with
        phase
        backend := Host.idle s.host.backend.chain contract s.host.backend.defaultDeadlineSecs m
        saving := none }
      cloned := [] } where
  keyed := hm
  distinct := List.nodup_nil
  pending job hjob := by cases hjob
  holds hacc hphase := by
    refine ⟨hholds hacc hphase, ?_⟩
    intro job hjob
    cases hjob
  off hphase := ⟨rfl, hoff hphase⟩
  entries sv hsv := by cases hsv
  cloned hcl := by cases hcl
  saved := h.saved
  fresh _ sv hsv := by cases hsv

/-- A save looks at every job in the map, so at every one that is accepted. -/
theorem Inv.saveBegin (h : Inv claim s) (hphase : s.host.phase ≠ .down) :
    Inv claim { s with
      host := { s.host with saving := some ⟨s.host.backend.jobs.keys, []⟩ }
      cloned := [] } where
  keyed := h.keyed
  distinct := h.distinct
  pending := h.pending
  holds := h.holds
  off hdown := absurd hdown hphase
  entries := by
    intro sv hsv
    cases hsv
    exact ⟨List.nodup_nil, fun entry hentry => by cases hentry⟩
  cloned hcl := by cases hcl
  saved := h.saved
  fresh := by
    intro hsaved sv hsv
    cases hsv
    obtain ⟨⟨st, hst, -⟩, -⟩ := h.holds (h.saved hsaved).1 hphase
    obtain ⟨job, hjob, -⟩ := Option.map_eq_some_iff.1 hst
    refine ⟨?_, fun hmem => by cases hmem⟩
    exact Finmap.mem_keys.2 (Finmap.mem_iff.2 ⟨job, hjob⟩)

theorem Inv.saveEntry (h : Inv claim s) {j : JobId} {job : Job} {sv : Saving}
    (hsv : s.host.saving = some sv) (hjob : s.host.backend.jobs.lookup j = some job)
    (hnew : j ∉ sv.entries.map Prod.fst) :
    Inv claim { s with
      host := { s.host with saving := some { sv with entries := sv.entries ++ [(j, job)] } }
      cloned := s.cloned ++ s.accepted.filter fun claim => claim.1 = j } where
  keyed := h.keyed
  distinct := h.distinct
  pending := h.pending
  holds := h.holds
  off hphase := by
    have hnone := (h.off hphase).1
    rw [hsv] at hnone
    cases hnone
  entries := by
    intro sv' hsv'
    cases hsv'
    obtain ⟨hnodup, hids⟩ := h.entries sv hsv
    refine ⟨?_, ?_⟩
    · rw [List.map_append]
      refine List.nodup_append'.2 ⟨hnodup, List.nodup_singleton _, ?_⟩
      intro k hk hkj
      obtain rfl : k = j := List.mem_singleton.1 hkj
      exact hnew hk
    · intro entry hentry
      rcases List.mem_append.1 hentry with hentry | hentry
      · exact hids entry hentry
      · obtain rfl := List.mem_singleton.1 hentry
        exact h.keyed j job hjob
  cloned := by
    intro hcl
    rcases List.mem_append.1 hcl with hcl | hcl
    · obtain ⟨hacc, sv', job', hsv', hentry, hkeeps⟩ := h.cloned hcl
      rw [hsv] at hsv'
      cases hsv'
      exact ⟨hacc, _, job', rfl, List.mem_append_left _ hentry, hkeeps⟩
    · obtain ⟨hacc, hj⟩ := List.mem_filter.1 hcl
      obtain rfl : claim.1 = j := of_decide_eq_true hj
      have hphase : s.host.phase ≠ .down := by
        intro hdown
        rw [(h.off hdown).1] at hsv
        cases hsv
      obtain ⟨⟨st, hst, hkeeps⟩, -⟩ := h.holds hacc hphase
      rw [JobMap.status, hjob] at hst
      cases hst
      exact ⟨hacc, _, job, rfl, List.mem_append_right _ List.mem_cons_self, hkeeps⟩
  saved := h.saved
  fresh := by
    intro hsaved sv' hsv'
    cases hsv'
    obtain ⟨hkey, hcl⟩ := h.fresh hsaved sv hsv
    refine ⟨hkey, ?_⟩
    intro hmem
    rw [List.map_append, List.mem_append] at hmem
    rcases hmem with hmem | hmem
    · exact List.mem_append_left _ (hcl hmem)
    · have hj : claim.1 = j := List.mem_singleton.1 hmem
      refine List.mem_append_right _ (List.mem_filter.2 ⟨(h.saved hsaved).1, ?_⟩)
      exact decide_eq_true hj

/-- A completed save has every acceptance that an earlier one had. -/
theorem Inv.saveCommit (h : Inv claim s) {sv : Saving} (hsv : s.host.saving = some sv)
    (hall : ∀ j ∈ sv.keys, j ∈ sv.entries.map Prod.fst) :
    Inv claim { s with
      host := { s.host with snapshot := some (sv.entries.map Prod.snd), saving := none }
      cloned := []
      saved := s.saved ++ s.cloned } where
  keyed := h.keyed
  distinct := h.distinct
  pending := h.pending
  holds := h.holds
  off hphase := ⟨rfl, fun hacc => List.mem_append_left _ ((h.off hphase).2 hacc)⟩
  entries sv hsv := by cases hsv
  cloned hcl := by cases hcl
  saved := by
    intro hsaved
    have hcl : claim ∈ s.cloned := by
      rcases List.mem_append.1 hsaved with hsaved | hcl
      · obtain ⟨hkey, hcl⟩ := h.fresh hsaved sv hsv
        exact hcl (hall _ hkey)
      · exact hcl
    obtain ⟨hacc, sv', job, hsv', hentry, hkeeps⟩ := h.cloned hcl
    rw [hsv] at hsv'
    cases hsv'
    obtain ⟨hnodup, hids⟩ := h.entries sv hsv
    refine ⟨hacc, job.jobStatus, ?_, hkeeps⟩
    have hjobIds : (sv.entries.map Prod.snd).map Job.id = sv.entries.map Prod.fst := by
      rw [List.map_map]
      exact List.map_congr_left hids
    have hid : job.id = claim.1 := hids _ hentry
    have hlook : (loadJobs (some (sv.entries.map Prod.snd))).lookup job.id = some job :=
      lookup_loadJobs (hjobIds ▸ hnodup) (List.mem_map_of_mem (f := Prod.snd) hentry)
    exact congrArg (Option.map Job.jobStatus) (hid ▸ hlook)
  fresh _ sv hsv := by cases hsv

theorem Inv.step (h : Inv claim s) (hok : s.Survives D claim l) (hstep : s.step D l = some s') :
    Inv claim s' := by
  obtain ⟨host, hhost, heq⟩ := Option.map_eq_some_iff.1 hstep
  cases Host.Step.of_step hhost with
  | process =>
    obtain ⟨b, ms, hl, hb, rfl⟩ := of_process hstep
    exact h.process hl hok hb
  | crash =>
    subst heq
    exact h.restart .down false (keyed_loadJobs none) (fun _ hphase => absurd rfl hphase)
      fun _ => hok
  | @start contract hphase =>
    subst heq
    obtain ⟨hsaving, hsaved⟩ := h.off hphase
    have hrestart := h.restart .booting contract (keyed_loadJobs s.host.snapshot)
      (fun hacc _ => (h.saved (hsaved hacc)).2) (fun hdown => by cases hdown)
    rw [← hsaving] at hrestart
    exact hrestart
  | createIndexer hphase =>
    subst heq
    refine { h with holds := ?_, off := fun hdown => by cases hdown }
    intro hacc _
    exact h.holds hacc (by rw [hphase]; decide)
  | saveBegin hphase =>
    subst heq
    exact h.saveBegin hphase
  | saveEntry hsv hjob hnew =>
    subst heq
    exact h.saveEntry hsv hjob hnew
  | saveCommit hsv hall =>
    subst heq
    exact h.saveCommit hsv hall
  | saveFail =>
    subst heq
    exact { h with
      off := fun hdown => ⟨rfl, (h.off hdown).2⟩
      entries := fun sv hsv => by cases hsv
      cloned := fun hcl => by cases hcl
      fresh := fun _ sv hsv => by cases hsv }

theorem inv_off (chain : Chain) (defaultDeadlineSecs : UInt64) (file : Option (List Char)) :
    Inv claim (off chain defaultDeadlineSecs file) where
  keyed := keyed_loadJobs none
  distinct := List.nodup_nil
  pending job hjob := by cases hjob
  holds hacc := by cases hacc
  off _ := ⟨rfl, fun hacc => by cases hacc⟩
  entries sv hsv := by cases hsv
  cloned hcl := by cases hcl
  saved hsaved := by cases hsaved
  fresh hsaved := by cases hsaved

/-- **An accepted claim is durable** in runs in which no crash comes before a save of it: wherever
the coordinator runs, the job is assigned to the worker, completed or expired. -/
theorem accepted_durable (D : Deployment) (chain : Chain) (defaultDeadlineSecs : UInt64)
    (file : Option (List Char)) (j : JobId) (w : PeerId) (s : Ledger)
    (h : Steps D (Survives D (j, w)) (off chain defaultDeadlineSecs file) s)
    (hacc : (j, w) ∈ s.accepted) (hphase : s.host.phase ≠ .down) :
    ∃ st, s.host.backend.jobs.status j = some st ∧
      ((∃ t, st = .assigned w t) ∨ st.isCompleted = true ∨ st = .expired) := by
  have hinv : Inv (j, w) s :=
    Transition.Steps.invariant (fun _ _ _ hs hl hst => hs.step hl hst) h
      (inv_off chain defaultDeadlineSecs file)
  exact (hinv.holds hacc hphase).1

section Example

open Sample

def winner : PeerId := ⟨.fill 32 9⟩

def rival : PeerId := ⟨.fill 32 7⟩

def claimBy (w : PeerId) : Label := .process (.recv (.claimJob jobId w) 1001 true)

/-- The job is created; a save has it as pending. -/
def stored : List Label :=
  [.start true, .createIndexer, .process (.create request nonce 1000), .process (.insert job)]

def save : List Label := [.saveBegin, .saveEntry jobId, .saveCommit]

def restart : List Label := [.crash, .start true, .createIndexer]

theorem accepted_durable_restart :
    ∃ s, Steps deployment (Survives deployment (jobId, winner))
        (off (Chain.after deployment 0 []) 300 none) s ∧
      (jobId, rival) ∉ s.accepted ∧
        ∃ st, s.host.backend.jobs.status jobId = some st ∧
          ((∃ t, st = .assigned winner t) ∨ st.isCompleted = true ∨ st = .expired) := by
  have hrun : (Transition.run
      (Transition.checked (step deployment) (Survives deployment (jobId, winner)))
      (stored ++ [claimBy winner] ++ save ++ restart ++ [claimBy rival])
      (off (Chain.after deployment 0 []) 300 none)).map
        (fun s => decide ((jobId, winner) ∈ s.accepted ∧ (jobId, rival) ∉ s.accepted ∧
          s.host.phase = .running)) = some true := by
    decide +kernel
  obtain ⟨s, hs, hst⟩ := Transition.exists_of_checked hrun
  obtain ⟨hacc, hrival, hphase⟩ := of_decide_eq_true hst
  have hrunning : s.host.phase ≠ .down := by
    rw [hphase]
    decide
  exact ⟨s, hs, hrival, accepted_durable deployment _ 300 none jobId winner s hs hacc hrunning⟩

/-- No request draws an id that the coordinator has seen. -/
def DrawsFresh (D : Deployment) (s : Ledger) : Label → Prop
  | .process l => s.host.backend.ChoosesFresh D l
  | _ => True

instance (D : Deployment) (s : Ledger) (l : Label) : Decidable (s.DrawsFresh D l) :=
  match l with
  | .process l => inferInstanceAs (Decidable (s.host.backend.ChoosesFresh D l))
  | .crash | .start _ | .createIndexer | .saveBegin | .saveEntry _ | .saveCommit | .saveFail =>
    isTrue trivial

/-- After a crash that comes before the next save the job is another worker's; and without any crash
it is pending again when a request draws its id. -/
theorem accepted_durable_fails :
    (∃ s, Steps deployment (DrawsFresh deployment) (off (Chain.after deployment 0 []) 300 none) s ∧
      (jobId, winner) ∈ s.accepted ∧ s.host.phase = .running ∧
        s.host.backend.jobs.status jobId = some (.assigned rival 1001)) ∧
    ∃ s, Steps deployment (fun _ l => l ≠ .crash) (off (Chain.after deployment 0 []) 300 none) s ∧
      (jobId, winner) ∈ s.accepted ∧ s.host.phase = .running ∧
        s.host.backend.jobs.status jobId = some .pending := by
  refine ⟨?_, ?_⟩
  · have hrun : (Transition.run (Transition.checked (step deployment) (DrawsFresh deployment))
        (stored ++ save ++ [claimBy winner] ++ restart ++ [claimBy rival])
        (off (Chain.after deployment 0 []) 300 none)).map
          (fun s => decide ((jobId, winner) ∈ s.accepted ∧ s.host.phase = .running ∧
            s.host.backend.jobs.status jobId = some (.assigned rival 1001))) = some true := by
      decide +kernel
    obtain ⟨s, hs, hst⟩ := Transition.exists_of_checked hrun
    exact ⟨s, hs, of_decide_eq_true hst⟩
  · have hrun : (Transition.run (step deployment)
        (stored ++ [claimBy winner, .process (.create request nonce 1000), .process (.insert job)])
        (off (Chain.after deployment 0 []) 300 none)).map
          (fun s => decide ((jobId, winner) ∈ s.accepted ∧ s.host.phase = .running ∧
            s.host.backend.jobs.status jobId = some .pending)) = some true := by
      decide +kernel
    have hok : ∀ l ∈ stored ++ [claimBy winner, .process (.create request nonce 1000),
        .process (.insert job)], ∀ _ : Ledger, l ≠ .crash := by
      rintro l hl - rfl
      simp [stored, claimBy] at hl
    obtain ⟨s, hs, hst⟩ := Transition.exists_of_run hok hrun
    exact ⟨s, hs, of_decide_eq_true hst⟩

end Example

end Ledger

end ProofMarket
