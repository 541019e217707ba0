import ProofMarket.Registry.Invariant
import ProofMarket.Lib.Total

/-!
# The escrow is solvent

**Theorem (`escrow_solvent`).** Whenever foreign code has control, between transactions or in the
middle of a transfer, the registry's balance is the sum of the rewards of the open jobs plus the
ETH that was forced into it. So a call that passed its checks never fails for lack of funds.

Marking the job completed takes its reward out of the sum before the transfer takes it out of the
balance, and both happen before the recipient runs: the equation has no debt to index.
-/

namespace ProofMarket.Registry

/-- What the registry holds in escrow for a job: its reward while it is open. -/
def World.openReward (w : World) (j : JobId) : Nat :=
  if (w.jobs j).exists && !w.completed j then (w.jobs j).reward else 0

/-- The sum of the rewards of all open jobs. -/
noncomputable def World.escrowed (w : World) : Nat := ∑ᶠ j, w.openReward j

/-- The balance covers the open rewards exactly, up to forced ETH. -/
structure Solvent (w : World) : Prop where
  finite : (Function.support w.openReward).Finite
  balance : w.balance = w.escrowed + w.forced

theorem solvent_deployed (prefunded : Nat) : Solvent (World.deployed prefunded) := by
  have hzero : (World.deployed prefunded).openReward = fun _ => 0 := rfl
  constructor
  · rw [hzero, Function.support_fun_zero]
    exact Set.finite_empty
  · rw [World.escrowed, hzero, finsum_zero]
    exact (Nat.zero_add _).symm

section Step

variable {D : Deployment} {owed : List Payout} {w : World}

theorem Solvent.force (h : Solvent w) (amount : Nat) : Solvent (w.force amount) where
  finite := h.finite
  balance := by
    show w.balance + amount = w.escrowed + (w.forced + amount)
    rw [h.balance, Nat.add_assoc]

theorem Solvent.emit (h : Solvent w) (e : Event) : Solvent (w.emit e) := ⟨h.finite, h.balance⟩

theorem openReward_submit {s : Submission} (hopen : w.completed s.jobId = false) :
    (w.submit s).openReward = Function.update w.openReward s.jobId s.msg.value := by
  funext j
  by_cases hj : j = s.jobId
  · subst hj
    simp [World.openReward, World.submit, Submission.job, hopen]
  · simp [World.openReward, World.submit, Function.update_of_ne hj]

theorem Solvent.submit (h : Solvent w) (hinv : Inv D owed w) {s : Submission}
    (hfresh : (w.jobs s.jobId).exists = false) : Solvent (w.submit s) := by
  have hopen : w.completed s.jobId = false := by
    by_contra hc
    have := hinv.completed_exists (by simpa using hc)
    rw [hfresh] at this
    cases this
  have hzero : w.openReward s.jobId = 0 := by simp [World.openReward, hfresh]
  constructor
  · rw [openReward_submit hopen]
    exact Total.support_update_finite h.finite _ _
  · have htotal := Total.finsum_update_add h.finite s.jobId s.msg.value
    rw [hzero, ← openReward_submit hopen] at htotal
    show w.balance + s.msg.value = (∑ᶠ j, (w.submit s).openReward j) + w.forced
    rw [h.balance, World.escrowed]
    omega

theorem openReward_pay (p : Payout) :
    ((w.complete p.jobId).send p).openReward = Function.update w.openReward p.jobId 0 := by
  funext j
  by_cases hj : j = p.jobId
  · subst hj
    simp [World.openReward, World.send, World.complete]
  · simp [World.openReward, World.send, World.complete, Function.update_of_ne hj]

theorem Payable.openReward {i : Msg × Call} {p : Payout} (hp : Payable D w i p) :
    w.openReward p.jobId = p.amount := by
  simp [World.openReward, hp.found, hp.notCompleted, hp.amount]

theorem Solvent.pay_total (h : Solvent w) {i : Msg × Call} {p : Payout}
    (hp : Payable D w i p) : ((w.complete p.jobId).send p).escrowed + p.amount = w.escrowed := by
  have htotal := Total.finsum_update_add h.finite p.jobId 0
  rw [hp.openReward, ← openReward_pay] at htotal
  exact htotal

theorem Solvent.covers (h : Solvent w) {i : Msg × Call} {p : Payout} (hp : Payable D w i p) :
    p.amount ≤ w.balance := by
  have htotal := h.pay_total hp
  have hbal := h.balance
  omega

theorem Solvent.pay (h : Solvent w) {i : Msg × Call} {p : Payout} (hp : Payable D w i p) :
    Solvent ((w.complete p.jobId).send p) := by
  constructor
  · rw [openReward_pay]
    exact Total.support_update_finite h.finite _ _
  · have htotal := h.pay_total hp
    have hbal := h.balance
    show w.balance - p.amount = ((w.complete p.jobId).send p).escrowed + w.forced
    omega

end Step

/-- **Every operation keeps the registry solvent**, next to the invariant. -/
theorem Solvent.sound (D : Deployment) :
    (machine D).Sound fun owed w => Inv D owed w ∧ Solvent w where
  poke _ amount _ hw := ⟨hw.1.force amount, hw.2.force amount⟩
  done owed i w w' _ hw hop := by
    obtain ⟨s, -, hfresh, hvalue, htime, rfl⟩ := op_done hop
    exact ⟨hw.1.submit hfresh hvalue htime, hw.2.submit hw.1 hfresh⟩
  yield owed i w outer inner k _ hw hop := by
    obtain ⟨p, hp, -, rfl, hok, hfail⟩ := op_yield hop
    refine ⟨⟨p :: owed, ⟨hw.1.pay hp, hw.2.pay hp⟩, fun t t' ht hk => ?_⟩, fun t' hk => ?_⟩
    · rw [hok t t' hk]
      exact ⟨ht.1.emit, ht.2.emit _⟩
    · rw [hfail] at hk
      cases hk

theorem solvent_observes {D : Deployment} {prefunded : Nat} {txs : List Act} {w : World}
    (h : Observes D (World.deployed prefunded) txs w) : Solvent w := by
  obtain ⟨_, -, hw⟩ := CallTree.Machine.Sound.observes (Solvent.sound D) h
    ⟨inv_deployed D prefunded, solvent_deployed prefunded⟩
  exact hw

/-- **The escrow is solvent** in every state foreign code can observe; an accepted call reaches
its recipient. -/
theorem escrow_solvent (D : Deployment) (prefunded : Nat) (txs : List Act) (w : World)
    (h : Observes D (World.deployed prefunded) txs w) :
    (Function.support w.openReward).Finite ∧
      w.escrowed ≤ w.balance ∧
      w.balance = w.escrowed + w.forced ∧
      (∀ msg j journal sealBytes, ProofAccepted D msg j journal sealBytes w →
        ∃ outer inner k, submitProof D msg j journal sealBytes w = .yield outer inner k) ∧
      ∀ msg j, ExpiryAccepted msg j w →
        ∃ outer inner k, expireJob msg j w = .yield outer inner k := by
  have hs := solvent_observes h
  refine ⟨hs.finite, ?_, hs.balance, fun msg j journal sealBytes ha => ?_, fun msg j ha => ?_⟩
  · rw [hs.balance]
    exact Nat.le_add_right _ _
  · have hcov := hs.covers (.proof ha)
    exact ⟨_, _, _, (submitProof_accepted ha).trans (if_neg (Nat.not_lt.2 hcov))⟩
  · have hcov := hs.covers (D := D) (.expiry ha)
    exact ⟨_, _, _, (expireJob_accepted ha).trans (if_neg (Nat.not_lt.2 hcov))⟩

/-- Two jobs are submitted and expire; the owner of the first expires the second while the reward
of the first is on its way. -/
def reentrantExpiry : List Act :=
  let account : Address := ⟨FixedBytes.fill 20 1⟩
  let a : JobId := ⟨FixedBytes.fill 32 1⟩
  let b : JobId := ⟨FixedBytes.fill 32 2⟩
  let at' (value timestamp : Nat) : Msg := ⟨account, value, timestamp, fun _ _ _ => false⟩
  [.call (at' 10 0, .submitJob a [] 7) [] true, .call (at' 20 0, .submitJob b [] 7) [] true,
    .call (at' 0 8, .expireJob a) [.call (at' 0 8, .expireJob b) [] true] true]

theorem escrow_solvent_reentered :
    ∃ w, Observes ⟨FixedBytes.ofBytes 32, FixedBytes.fill 32 0⟩ (World.deployed 5)
        reentrantExpiry w ∧ w.balance = 5 ∧ w.balance = w.escrowed + w.forced :=
  have h : Observes ⟨FixedBytes.ofBytes 32, FixedBytes.fill 32 0⟩ (World.deployed 5)
      reentrantExpiry _ := .next (.next (.callee rfl (.callee rfl .here)))
  ⟨_, h, rfl, (escrow_solvent _ _ _ _ h).2.2.1⟩

end ProofMarket.Registry
