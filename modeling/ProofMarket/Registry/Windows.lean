import ProofMarket.Registry.Escrow

/-!
# No funds are stuck

An open job has two windows that meet at its deadline. Up to and including the deadline a proof
closes it, afterwards an expiry does; in between no state of the registry and no other job matters.

**Theorem (`open_job_windows`).** In every state foreign code can observe, a call of `submitProof`
or `expireJob` for an open job succeeds exactly when the timestamp is in its window, its arguments
pass, and the recipient of the reward accepts it. A call that fails, for whatever reason and
however late, changes nothing.

The registry can always pay (`escrow_solvent`), so the balance is no further condition.
-/

namespace ProofMarket.Registry

/-- Whether the call succeeds, when the code that receives control in the middle performs `body` and
then returns (`ok`) or fails. -/
def succeeds (D : Deployment) (w : World) (i : Msg × Call) (body : List Act) (ok : Bool) : Bool :=
  ((machine D).exec (.call i body ok) w).2

/-- The job is in the registry and its reward has not been sent. -/
def World.isOpen (w : World) (j : JobId) : Bool := (w.jobs j).exists && !w.completed j

section Call

variable {D : Deployment} {w : World} {i : Msg × Call}

theorem succeeds_of_yield {outer inner : World} {k : Bool → World → Except Error World}
    (h : (machine D).op i w = .yield outer inner k) (hok : ∀ t, ∃ t', k true t = .ok t')
    (hfail : ∀ t, k false t = .error .transferFailed) (body : List Act) (ok : Bool) :
    succeeds D w i body ok = ok := by
  unfold succeeds
  rw [CallTree.Machine.exec_call_yield h]
  cases ok with
  | false =>
    simp only [hfail]
    rfl
  | true =>
    obtain ⟨t', ht'⟩ := hok ((machine D).execAll body inner)
    simp only [if_true, ht']
    rfl

theorem transferThenEmit_of_le {p : Payout} {e : Event} (h : p.amount ≤ w.balance) :
    w.transferThenEmit p e = .yield w (w.send p) fun success w' =>
      if !success then .error .transferFailed else .ok (w'.emit e) :=
  if_neg (Nat.not_lt.2 h)

theorem Solvent.exec_submitProof (h : Solvent w) {msg : Msg} {j : JobId}
    {journal sealBytes : Bytes} (ha : ProofAccepted D msg j journal sealBytes w) :
    (machine D).exec (.call (msg, .submitProof j journal sealBytes) [] true) w =
      ((((w.complete j).send (proofPayout msg j journal sealBytes w)).emit
        (proofPayout msg j journal sealBytes w).event), true) := by
  have hop : (machine D).op (msg, .submitProof j journal sealBytes) w = _ :=
    (submitProof_accepted ha).trans (transferThenEmit_of_le (h.covers (.proof ha)))
  rw [CallTree.Machine.exec_call_yield hop]
  simp

theorem exec_submitProof_rejected {msg : Msg} {j : JobId} {journal sealBytes : Bytes}
    (ha : ¬ ProofAccepted D msg j journal sealBytes w) (body : List Act) (ok : Bool) :
    (machine D).exec (.call (msg, .submitProof j journal sealBytes) body ok) w = (w, false) := by
  obtain ⟨e, he⟩ := submitProof_rejected ha
  exact CallTree.Machine.exec_call_revert he body ok

/-- **A proof succeeds** when its checks pass and the caller takes the reward. -/
theorem Solvent.succeeds_submitProof (h : Solvent w) {msg : Msg} {j : JobId}
    {journal sealBytes : Bytes} (body : List Act) (ok : Bool) :
    succeeds D w (msg, .submitProof j journal sealBytes) body ok = true ↔
      ProofAccepted D msg j journal sealBytes w ∧ ok = true := by
  by_cases ha : ProofAccepted D msg j journal sealBytes w
  · have hop := (submitProof_accepted ha).trans (transferThenEmit_of_le (h.covers (.proof ha)))
    rw [succeeds_of_yield (i := (msg, .submitProof j journal sealBytes)) hop (fun t => ⟨_, rfl⟩)
      (fun t => rfl)]
    simp [ha]
  · obtain ⟨e, he⟩ := submitProof_rejected ha
    have hop : (machine D).op (msg, .submitProof j journal sealBytes) w = .revert e := he
    unfold succeeds
    rw [CallTree.Machine.exec_call_revert hop]
    simp [ha]

/-- **An expiry succeeds** when its checks pass and the owner takes the reward back. -/
theorem Solvent.succeeds_expireJob (h : Solvent w) {msg : Msg} {j : JobId} (body : List Act)
    (ok : Bool) :
    succeeds D w (msg, .expireJob j) body ok = true ↔ ExpiryAccepted msg j w ∧ ok = true := by
  by_cases ha : ExpiryAccepted msg j w
  · have hcovers := h.covers (D := D) (.expiry ha)
    have hop := (expireJob_accepted ha).trans (transferThenEmit_of_le hcovers)
    rw [succeeds_of_yield (i := (msg, .expireJob j)) hop (fun t => ⟨_, rfl⟩) (fun t => rfl)]
    simp [ha]
  · obtain ⟨e, he⟩ := expireJob_rejected ha
    have hop : (machine D).op (msg, .expireJob j) w = .revert e := he
    unfold succeeds
    rw [CallTree.Machine.exec_call_revert hop]
    simp [ha]

end Call

/-- What a journal has to be for the job, and the verifier's answer for its seal. -/
structure JournalAccepted (D : Deployment) (msg : Msg) (j : JobId)
    (payload journal sealBytes : Bytes) : Prop where
  long : 64 ≤ journal.length
  jobIdMatches : journal.take 32 = j.bytes.val
  payloadMatches : (journal.drop 32).take 32 = (D.sha256 payload).val
  verified : msg.verify sealBytes D.imageId (D.sha256 journal) = true

/-- The windows of an open job. Neither function is payable, so a call that brings ETH fails. -/
structure Windows (D : Deployment) (w : World) (j : JobId) : Prop where
  proof_late : ∀ msg journal sealBytes body ok, (w.jobs j).deadline < msg.timestamp →
    succeeds D w (msg, .submitProof j journal sealBytes) body ok = false
  expiry_late : ∀ msg body ok, (w.jobs j).deadline < msg.timestamp →
    succeeds D w (msg, .expireJob j) body ok = (msg.value = 0 && ok)
  expiry_early : ∀ msg body ok, msg.timestamp ≤ (w.jobs j).deadline →
    succeeds D w (msg, .expireJob j) body ok = false
  proof_early : ∀ msg journal sealBytes body ok, msg.timestamp ≤ (w.jobs j).deadline →
    (succeeds D w (msg, .submitProof j journal sealBytes) body ok = true ↔
      msg.value = 0 ∧ JournalAccepted D msg j (w.jobs j).payload journal sealBytes ∧ ok = true)

theorem Solvent.windows {D : Deployment} {w : World} (h : Solvent w) {j : JobId}
    (hj : w.isOpen j = true) : Windows D w j := by
  obtain ⟨hfound, hopen⟩ : (w.jobs j).exists = true ∧ w.completed j = false := by
    simpa [World.isOpen] using hj
  refine ⟨?_, ?_, ?_, ?_⟩
  · intro msg journal sealBytes body ok hlate
    rw [Bool.eq_false_iff, Ne, h.succeeds_submitProof]
    rintro ⟨ha, -⟩
    exact Nat.not_le.2 hlate ha.inTime
  · intro msg body ok hlate
    rw [Bool.eq_iff_iff, h.succeeds_expireJob, Bool.and_eq_true, decide_eq_true_eq]
    constructor
    · rintro ⟨ha, hok⟩
      exact ⟨ha.nonPayable, hok⟩
    · rintro ⟨hvalue, hok⟩
      exact ⟨⟨hvalue, hfound, hopen, hlate⟩, hok⟩
  · intro msg body ok hearly
    rw [Bool.eq_false_iff, Ne, h.succeeds_expireJob]
    rintro ⟨ha, -⟩
    exact Nat.not_lt.2 hearly ha.late
  · intro msg journal sealBytes body ok hearly
    rw [h.succeeds_submitProof]
    constructor
    · rintro ⟨ha, hok⟩
      exact ⟨ha.nonPayable, ⟨ha.long, ha.jobIdMatches, ha.payloadMatches, ha.verified⟩, hok⟩
    · rintro ⟨hvalue, ha, hok⟩
      exact ⟨⟨hvalue, hfound, hopen, hearly, ha.long, ha.jobIdMatches, ha.payloadMatches,
        ha.verified⟩, hok⟩

/-- **The windows of an open job** in every state foreign code can observe; and a failing call
changes nothing. -/
theorem open_job_windows (D : Deployment) (prefunded : Nat) (txs : List Act) (w : World)
    (h : Observes D (World.deployed prefunded) txs w) :
    (∀ j, w.isOpen j = true → Windows D w j) ∧
      ∀ i body ok, succeeds D w i body ok = false →
        ((machine D).exec (.call i body ok) w).1 = w :=
  ⟨fun _ hj => (solvent_observes h).windows hj,
    fun _ _ _ hfailed => CallTree.Machine.exec_of_failed hfailed⟩

theorem open_job_windows_first :
    ∃ w, Observes ⟨FixedBytes.ofBytes 32, FixedBytes.fill 32 0⟩ (World.deployed 5)
        (reentrantExpiry.take 1) w ∧ w.isOpen ⟨FixedBytes.fill 32 1⟩ = true ∧
      Windows ⟨FixedBytes.ofBytes 32, FixedBytes.fill 32 0⟩ w ⟨FixedBytes.fill 32 1⟩ :=
  have h : Observes ⟨FixedBytes.ofBytes 32, FixedBytes.fill 32 0⟩ (World.deployed 5)
      (reentrantExpiry.take 1) _ := .next .here
  ⟨_, h, rfl, (open_job_windows _ _ _ _ h).1 ⟨FixedBytes.fill 32 1⟩ rfl⟩

end ProofMarket.Registry
