import ProofMarket.Coordinator.Indexing

/-!
# The recorded outcome and the outcome on chain

A job ends on chain by `submitProof` or by `expireJob`, and the coordinator records the end as
`Completed` with a transaction hash, or as `Expired`. The indexer reads both from the log. The
gossip path asks the chain for `completed[jobId]` only: the flag is set by both ends, and it says
nothing of the hash.

* `outcome_agreement` — an expired job is never recorded as completed, as long as no report of a
  completion is confirmed for an expired job of the map.
* `completions_converge` — a proved job is recorded with the hash of its proof, as long as the
  reports confirmed for it name that hash.
-/

namespace ProofMarket

open Registry (Deployment)

namespace Backend

/-! ## Expired jobs -/

section Expired

variable {D : Deployment} {startBlock : Nat} {s : Backend} {l : Label}

/-- What the coordinator records about expired jobs. -/
structure OutcomeAgreement (startBlock : Nat) (s : Backend) : Prop where
  never_completed : ∀ j, s.chain.Expired j → ∀ h, s.jobs.status j ≠ some (.completed h)
  expired : ∀ e ∈ s.chain.logs, ∀ j, e.event.expires j = true →
    startBlock < e.block → e.block ≤ s.lastBlock →
      ∀ st, s.jobs.status j = some st → st = .expired

/-- No completion of an expired job of the map is confirmed in the step. -/
def ConfirmsNoExpired (s : Backend) : Label → Prop
  | .recv (.jobCompleted j _) _ reachable =>
    reachable = true → (s.jobs.status j).isSome = true → ¬ s.chain.Expired j
  | _ => True

/-- The job was completed by some transaction. -/
def Proved (c : Chain) (j : JobId) (_ : TxHash) : Prop := ∃ x, c.CompletedBy j x

theorem acceptable_proved (D : Deployment) : Acceptable D Proved := by
  refine ⟨?_, ?_⟩
  · rintro c c' j h hext ⟨x, hx⟩
    exact ⟨x, hx.mono hext⟩
  · intro c j h _ hx
    exact ⟨h, hx⟩

theorem ConfirmsNoExpired.vouched (h : s.ConfirmsNoExpired l) (hchain : s.chain.Ok D) :
    s.Vouched Proved l := by
  cases l with
  | recv m now reachable =>
    cases m with
    | jobCompleted j x =>
      intro hr hclosed st hst _
      rcases (hchain.completed_iff j).1 hclosed with hx | hexp
      · exact hx
      · exact absurd hexp (h hr (by simp [hst]))
    | _ => trivial
  | _ => trivial

theorem Sound.outcomeAgreement (h : Sound D Proved startBlock s) :
    OutcomeAgreement startBlock s := by
  have hnever : ∀ j, s.chain.Expired j → ∀ x, s.jobs.status j ≠ some (.completed x) := by
    intro j hexp x hx
    obtain ⟨y, hy⟩ := h.recorded.status j x hx
    exact hy.not_expired h.polling.chain hexp
  refine ⟨hnever, ?_⟩
  intro e he j hej hstart hle st hst
  rcases h.indexed.expired e he j hej hstart (.inl hle) st hst with hc | hexp
  · obtain ⟨x, rfl⟩ := JobStatus.isCompleted_iff.1 hc
    exact absurd hst (hnever j ⟨e, he, hej⟩ x)
  · exact hexp

/-- **Expired jobs are recorded as expired**, and never as completed. -/
theorem outcome_agreement (D : Deployment) (prefunded : Nat)
    (blocks : List (List (TxHash × Registry.Act))) (defaultDeadlineSecs : UInt64) (m : JobMap)
    (startBlock : Nat) (s : Backend)
    (hm : ∀ j h, m.status j = some (.completed h) →
      (Chain.after D prefunded blocks).CompletedBy j h)
    (h : Steps D (fun u l => u.InsertsOpen l ∧ u.ConfirmsNoExpired l)
      (start (Chain.after D prefunded blocks) true defaultDeadlineSecs m startBlock) s) :
    OutcomeAgreement startBlock s := by
  have hstart : Sound D Proved startBlock
      (start (Chain.after D prefunded blocks) true defaultDeadlineSecs m startBlock) :=
    sound_start (Chain.ok_after D prefunded blocks) true defaultDeadlineSecs startBlock
      fun j x hx => ⟨x, hm j x hx⟩
  have hsound := Steps.sound (acceptable_proved D)
    (fun u l hu hl => ⟨hl.1, hl.2.vouched hu⟩) h hstart
  exact hsound.outcomeAgreement

end Expired

end Backend

namespace Sample

def expireJob : TxHash × Registry.Act := (txHash 3, call 3 0 1301 (.expireJob jobId))

/-- A coordinator that has just this job. -/
def knownJobs : JobMap := Finmap.insert job.id job ∅

theorem knownJobs_not_completed (j : JobId) (h : TxHash) :
    knownJobs.status j ≠ some (.completed h) := by
  unfold knownJobs
  rw [status_insert]
  split_ifs <;> intro hc <;> cases hc

end Sample

namespace Backend

open Sample

/-- One poll that finds `n` ended jobs. -/
def pollOf (n : Nat) : List Label := .pollBegin :: List.replicate (4 + n) .pollStep

/-- The job expires on chain, and the indexer sees it. -/
def expiry : List Label := [.mine [submitJob], .mine [expireJob]] ++ pollOf 1

theorem outcome_agreement_expired :
    ∃ s, Steps deployment (fun u l => u.InsertsOpen l ∧ u.ConfirmsNoExpired l)
        (start (Chain.after deployment 0 []) true 300 knownJobs 0) s ∧
      s.jobs.status jobId = some .expired ∧ OutcomeAgreement 0 s := by
  have hrun : (Transition.run (next deployment) expiry
      (start (Chain.after deployment 0 []) true 300 knownJobs 0)).map
        (fun s => s.jobs.status jobId) = some (some .expired) := by
    decide +kernel
  have hok : ∀ l ∈ expiry, ∀ u : Backend, u.InsertsOpen l ∧ u.ConfirmsNoExpired l := by
    simp [expiry, pollOf, InsertsOpen, ConfirmsNoExpired]
  obtain ⟨s, hs, hst⟩ := Transition.exists_of_run hok hrun
  exact ⟨s, hs, hst, outcome_agreement deployment 0 [] 300 knownJobs 0 s
    (fun j h hc => absurd hc (knownJobs_not_completed j h)) hs⟩

/-- The expired job is reported as completed before the poll. -/
def reportedExpiry : List Label :=
  [.mine [submitJob], .mine [expireJob], .recv (.jobCompleted jobId (txHash 9)) 1302 true,
    .record] ++ pollOf 1

theorem outcome_disagrees :
    ∃ s, Steps deployment InsertsOpen
        (start (Chain.after deployment 0 []) true 300 knownJobs 0) s ∧
      s.chain.Expired jobId ∧ s.jobs.status jobId = some (.completed (txHash 9)) ∧
        ¬ OutcomeAgreement 0 s := by
  have hrun : (Transition.run (next deployment) reportedExpiry
      (start (Chain.after deployment 0 []) true 300 knownJobs 0)).map
        (fun s => decide (s.chain.Expired jobId ∧
          s.jobs.status jobId = some (.completed (txHash 9)))) = some true := by
    decide +kernel
  have hok : ∀ l ∈ reportedExpiry, ∀ u : Backend, u.InsertsOpen l := by
    simp [reportedExpiry, pollOf, InsertsOpen]
  obtain ⟨s, hs, hst⟩ := Transition.exists_of_run hok hrun
  obtain ⟨hexp, hstatus⟩ := of_decide_eq_true hst
  exact ⟨s, hs, hexp, hstatus, fun h => h.never_completed jobId hexp (txHash 9) hstatus⟩

/-! ## Proved jobs -/

section Proved

variable {D : Deployment} {startBlock : Nat} {s : Backend} {l : Label}

/-- The indexer's blocks leave every proved job completed by its own transaction. -/
def CompletionsConverge (startBlock : Nat) (s : Backend) : Prop :=
  ∀ e ∈ s.chain.logs, ∀ j, e.event.completes j = true →
    startBlock < e.block → e.block ≤ s.lastBlock →
      s.jobs.status j = some (.completed e.txHash)

/-- A completion confirmed in the step, if the map takes it, names the transaction that completed
the job. -/
def ConfirmsHash (s : Backend) : Label → Prop
  | .recv (.jobCompleted j h) _ reachable =>
    reachable = true → ∀ st, s.jobs.status j = some st → st.isCompleted = false →
      ∀ x, s.chain.CompletedBy j x → h = x
  | _ => True

/-- The job was completed by this transaction, or not at all. -/
def ProvedBy (c : Chain) (j : JobId) (h : TxHash) : Prop := c.CompletedBy j h ∨ c.Expired j

theorem acceptable_provedBy (D : Deployment) : Acceptable D ProvedBy := by
  refine ⟨?_, ?_⟩
  · rintro c c' j h hext (hx | hexp)
    · exact .inl (hx.mono hext)
    · exact .inr (hexp.mono hext)
  · intro c j h _ hx
    exact .inl hx

theorem ConfirmsHash.vouched (h : s.ConfirmsHash l) (hchain : s.chain.Ok D) :
    s.Vouched ProvedBy l := by
  cases l with
  | recv m now reachable =>
    cases m with
    | jobCompleted j y =>
      intro hr hclosed st hst hc
      rcases (hchain.completed_iff j).1 hclosed with ⟨x, hx⟩ | hexp
      · obtain rfl : y = x := h hr st hst hc x hx
        exact .inl hx
      · exact .inr hexp
    | _ => trivial
  | _ => trivial

theorem Sound.completionsConverge (h : Sound D ProvedBy startBlock s) :
    CompletionsConverge startBlock s := by
  intro e he j hej hstart hle
  have hby : s.chain.CompletedBy j e.txHash := ⟨e, he, hej, rfl⟩
  obtain ⟨x, hx⟩ := h.indexed.completed e he j hej hstart (.inl hle)
  rcases h.recorded.status j x hx with hxby | hexp
  · rw [hx, hxby.unique h.polling.chain hby]
  · exact absurd hexp (hby.not_expired h.polling.chain)

/-- **Proved jobs are recorded with the hash of their proof**, whichever path wrote first. -/
theorem completions_converge (D : Deployment) (prefunded : Nat)
    (blocks : List (List (TxHash × Registry.Act))) (defaultDeadlineSecs : UInt64) (m : JobMap)
    (startBlock : Nat) (s : Backend)
    (hm : ∀ j h, m.status j = some (.completed h) →
      (Chain.after D prefunded blocks).CompletedBy j h)
    (h : Steps D (fun u l => u.InsertsOpen l ∧ u.ConfirmsHash l)
      (start (Chain.after D prefunded blocks) true defaultDeadlineSecs m startBlock) s) :
    CompletionsConverge startBlock s := by
  have hstart : Sound D ProvedBy startBlock
      (start (Chain.after D prefunded blocks) true defaultDeadlineSecs m startBlock) :=
    sound_start (Chain.ok_after D prefunded blocks) true defaultDeadlineSecs startBlock
      fun j x hx => .inl (hm j x hx)
  have hsound := Steps.sound (acceptable_provedBy D)
    (fun u l hu hl => ⟨hl.1, hl.2.vouched hu⟩) h hstart
  exact hsound.completionsConverge

end Proved

/-- The job is proved on chain, a report of it cannot be checked, and the indexer sees the proof. -/
def proof : List Label :=
  [.mine [submitJob], .mine [submitProof], .recv (.jobCompleted jobId (txHash 9)) 1006 false] ++
    pollOf 1

theorem completions_converge_proved :
    ∃ s, Steps deployment (fun u l => u.InsertsOpen l ∧ u.ConfirmsHash l)
        (start (Chain.after deployment 0 []) true 300 knownJobs 0) s ∧
      s.jobs.status jobId = some (.completed (txHash 2)) ∧ CompletionsConverge 0 s := by
  have hrun : (Transition.run (next deployment) proof
      (start (Chain.after deployment 0 []) true 300 knownJobs 0)).map
        (fun s => s.jobs.status jobId) = some (some (.completed (txHash 2))) := by
    decide +kernel
  have hok : ∀ l ∈ proof, ∀ u : Backend, u.InsertsOpen l ∧ u.ConfirmsHash l := by
    simp [proof, pollOf, InsertsOpen, ConfirmsHash]
  obtain ⟨s, hs, hst⟩ := Transition.exists_of_run hok hrun
  exact ⟨s, hs, hst, completions_converge deployment 0 [] 300 knownJobs 0 s
    (fun j h hc => absurd hc (knownJobs_not_completed j h)) hs⟩

/-- The proved job is reported with another hash before the poll. -/
def misreportedProof : List Label :=
  [.mine [submitJob], .mine [submitProof], .recv (.jobCompleted jobId (txHash 9)) 1006 true,
    .record] ++ pollOf 1

theorem completions_diverge :
    ∃ s, Steps deployment InsertsOpen
        (start (Chain.after deployment 0 []) true 300 knownJobs 0) s ∧
      s.chain.CompletedBy jobId (txHash 2) ∧ s.lastBlock = s.chain.head ∧
        s.jobs.status jobId = some (.completed (txHash 9)) ∧ ¬ CompletionsConverge 0 s := by
  have hrun : (Transition.run (next deployment) misreportedProof
      (start (Chain.after deployment 0 []) true 300 knownJobs 0)).map
        (fun s => decide ((∃ e ∈ s.chain.logs, e.event.completes jobId = true ∧
            e.txHash = txHash 2 ∧ 0 < e.block ∧ e.block ≤ s.lastBlock) ∧
          s.lastBlock = s.chain.head ∧
            s.jobs.status jobId = some (.completed (txHash 9)))) = some true := by
    decide +kernel
  have hok : ∀ l ∈ misreportedProof, ∀ u : Backend, u.InsertsOpen l := by
    simp [misreportedProof, pollOf, InsertsOpen]
  obtain ⟨s, hs, hst⟩ := Transition.exists_of_run hok hrun
  obtain ⟨⟨e, he, hej, hhash, hstart, hle⟩, hhead, hstatus⟩ := of_decide_eq_true hst
  refine ⟨s, hs, ⟨e, he, hej, hhash⟩, hhead, hstatus, fun h => ?_⟩
  have hright := h e he jobId hej hstart hle
  rw [hstatus, hhash] at hright
  revert hright
  decide

end Backend

end ProofMarket
