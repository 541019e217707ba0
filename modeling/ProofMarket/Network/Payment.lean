import ProofMarket.Network.Announcement
import ProofMarket.Registry.Binding

/-!
# Whom the registry pays

`submitProof` pays its caller. Neither the journal nor the registry names the worker whose claim was
accepted, so whoever submits a proof first is paid for it.

* `rewards_paid` — **the reward goes to the caller**; and to the worker whose claim was accepted,
  unless the call that the registry accepted was made in somebody else's transaction.
* `rewards_paid_fails` — a copied proof is executed first, and its sender is paid.
-/

namespace ProofMarket

open Registry (Deployment World Act Msg Payout ProofAccepted Solvent)

namespace Registry

/-- The call is a `submitProof` for the job. -/
def Call.proves (j : JobId) : Call → Bool
  | .submitProof k _ _ => k = j
  | _ => false

/-- Rewards that were sent for a proof of the job satisfy `R`. -/
def World.PaidTo (w : World) (j : JobId) (R : Payout → Prop) : Prop :=
  ∀ p ∈ w.payouts, p.jobId = j → ∀ journal sealBytes, p.reason = .proof journal sealBytes → R p

theorem World.PaidTo.complete_send {w : World} {j k : JobId} {R : Payout → Prop} (h : w.PaidTo j R)
    {p : Payout}
    (hp : p.jobId = j → ∀ journal sealBytes, p.reason = .proof journal sealBytes → R p) :
    ((w.complete k).send p).PaidTo j R := by
  intro q hq
  rcases List.mem_append.1 hq with hq | hq
  · exact h q hq
  · obtain rfl := List.mem_singleton.1 hq
    exact hp

/-- **Whoever submits proofs for a job only as `Q` allows** is paid for it only so. -/
theorem paidTo_sound (D : Deployment) (j : JobId) (Q : Msg → Prop) (R : Payout → Prop)
    (hR : ∀ p, Q p.msg → R p) :
    (machine D).SoundOn (fun i => i.2.proves j = true → Q i.1)
      fun (_ : Unit) w => w.PaidTo j R where
  poke _ _ _ h := h
  done := by
    intro _ i w w' _ h hop
    obtain ⟨s, -, -, -, -, rfl⟩ := op_done hop
    exact h
  yield := by
    intro _ i w outer inner k hi h hop
    obtain ⟨p, hpay, -, rfl, hsent, hfailed⟩ := op_yield hop
    refine ⟨⟨(), h.complete_send ?_, ?_⟩, ?_⟩
    · intro hj journal sealBytes hr
      cases hpay with
      | proof => exact hR _ (hi (decide_eq_true hj))
      | expiry => cases hr
    · intro t t' ht hk
      rw [hsent t t' hk]
      exact ht
    · intro t' hk
      rw [hfailed] at hk
      cases hk

end Registry

namespace Market

variable {C : Setting} {s s' : Market} {l : Label} {Q : Msg → Prop} {j : JobId}

/-- The network invents no messages, and `create_job` chooses fresh ids. -/
def Fair (C : Setting) (s : Market) : Label → Prop
  | .party l => s.system.Lossy l ∧ s.system.Fresh C.deployment l
  | _ => True

instance (C : Setting) (s : Market) (l : Label) : Decidable (s.Fair C l) :=
  match l with
  | .party l => inferInstanceAs (Decidable (s.system.Lossy l ∧ s.system.Fresh C.deployment l))
  | .receipt _ | .send _ _ _ _ | .fail _ _ _ _ | .mine _ => isTrue trivial

/-- In transactions that are not the workers', proofs for the job are submitted only in calls that
satisfy `Q`. -/
def Others (Q : Msg → Prop) (j : JobId) (_ : Market) : Label → Prop
  | .mine entries => ∀ tx, .other tx ∈ entries → tx.2.All fun i => i.2.proves j = true → Q i.1
  | _ => True

/-- The payout went to a worker whose claim for the job was accepted. -/
def ToWinner (C : Setting) (sent : List GossipMessage) (j : JobId) (p : Payout) : Prop :=
  ∃ w, .claimAccepted j w ∈ sent ∧ p.recipient = C.account w

/-- Workers send transactions for jobs they have won, and a reward for the job went to one, unless
it was paid in a call that satisfies `Q`. -/
structure Earned (C : Setting) (sent : List GossipMessage) (Q : Msg → Prop) (j : JobId)
    (p : Chain × List ProofTx) : Prop where
  settled : Settled C p
  won : ∀ tx ∈ p.2, .claimAccepted tx.job.id tx.worker ∈ sent
  paid : p.1.world.PaidTo j fun payout => ToWinner C sent j payout ∨ Q payout.msg

theorem Earned.execute {sent : List GossipMessage} {n : Nat} {p : Chain × List ProofTx}
    (h : Earned C sent Q j p) {e : Entry}
    (hothers : ∀ tx, e = .other tx → tx.2.All fun i => i.2.proves j = true → Q i.1) :
    Earned C sent Q j (Market.execute C n p e) := by
  have hsettled := h.settled.execute (n := n) e
  rcases execute_cases C n p e with ⟨tx, rfl, he⟩ | ⟨i, tx, timestamp, verify, htx, -, he⟩ | he
  · rw [he] at hsettled ⊢
    refine ⟨hsettled, h.won, ?_⟩
    have hsound := Registry.paidTo_sound C.deployment j Q
      (fun payout => ToWinner C sent j payout ∨ Q payout.msg) fun _ => .inr
    exact hsound.exec (p := ()) h.paid tx.2 (hothers tx rfl)
  · rw [he] at hsettled ⊢
    have hwon := h.won tx (List.mem_of_getElem? htx)
    refine ⟨hsettled, ?_, ?_⟩
    · intro other hother
      rcases List.mem_or_eq_of_mem_set hother with hother | rfl
      · exact h.won other hother
      · exact hwon
    · let msg : Msg := ⟨C.account tx.worker, 0, timestamp, verify⟩
      show World.PaidTo ((Registry.machine C.deployment).exec (tx.act msg) p.1.world).1 j _
      by_cases ha : ProofAccepted C.deployment msg tx.job.id tx.journal tx.sealBytes p.1.world
      · rw [ProofTx.act, h.settled.inv.2.exec_submitProof ha]
        refine h.paid.complete_send ?_
        rintro rfl journal sealBytes -
        exact .inl ⟨tx.worker, hwon, rfl⟩
      · rw [ProofTx.act, Registry.exec_submitProof_rejected ha]
        exact h.paid
  · rwa [he]

theorem Earned.mine (h : Earned C s.system.sent Q j (s.chain, s.txs)) {entries : List Entry}
    (hothers : s.Others Q j (.mine entries)) :
    Earned C s.system.sent Q j ((s.mine C entries).chain, (s.mine C entries).txs) := by
  have hfold : Earned C s.system.sent Q j
      (entries.foldl (Market.execute C (s.chain.head + 1)) (s.chain, s.txs)) := by
    refine foldl_execute C ?_ h
    intro p e he hp
    exact hp.execute fun tx htx => hothers tx (htx ▸ he)
  exact ⟨h.settled.mine entries, hfold.won, hfold.paid⟩

theorem sent_subset {u v : System} {k : System.Label}
    (hk : System.Step C.deployment C.members u k v) : u.sent ⊆ v.sent := by
  cases hk <;> exact List.subset_append_left _ _

theorem Step.sent (hstep : Step C s l s') : s.system.sent ⊆ s'.system.sent := by
  rcases hstep.system with heq | ⟨k, hk, -⟩
  · rw [heq]
    exact List.Subset.refl _
  · exact sent_subset hk

theorem Earned.mono {sent sent' : List GossipMessage} (hsent : sent ⊆ sent')
    {p : Chain × List ProofTx} (h : Earned C sent Q j p) : Earned C sent' Q j p := by
  refine ⟨h.settled, fun tx htx => hsent (h.won tx htx), ?_⟩
  intro q hq hj journal sealBytes hr
  refine (h.paid q hq hj journal sealBytes hr).imp_left ?_
  rintro ⟨w, hw, hrecipient⟩
  exact ⟨w, hsent hw, hrecipient⟩

/-- A fair step of the market is one of the system over a network that invents no messages. -/
theorem Step.exclusion (hstep : Step C s l s') (hfair : s.Fair C l) (hinv : s.system.Inv) :
    s'.system.Inv := by
  rcases hstep.system with heq | ⟨k, hk, rfl | ⟨id, job, bundle, result, rfl⟩ | ⟨txs, rfl⟩⟩
  · rwa [heq]
  · exact hinv.step hk hfair.1 hfair.2
  · exact hinv.step hk (fun m hm => by cases hm) trivial
  · exact hinv.step hk (fun m hm => by cases hm) trivial

/-- **Every fair step** keeps it so that the winners are paid. -/
theorem Earned.step (h : Earned C s.system.sent Q j (s.chain, s.txs)) (hinv : s.system.Inv)
    (hothers : s.Others Q j l) (hstep : Step C s l s') :
    Earned C s'.system.sent Q j (s'.chain, s'.txs) := by
  rcases hstep.chain with ⟨entries, rfl, rfl⟩ | ⟨hl, hchain⟩
  · exact h.mine hothers
  · have hsent := hstep.sent
    refine ⟨h.settled.step hstep, ?_, hchain ▸ (h.mono hsent).paid⟩
    intro tx htx
    rcases hstep.txs_cases hl htx with ⟨old, hold, awaited, rfl⟩ | ⟨-, htask⟩
    · exact hsent (h.won old hold)
    · exact hsent (hinv.tasks _ _ htask)

theorem earned_of_steps {prefunded : Nat} {contract : Bool} {defaultDeadlineSecs : UInt64}
    {startBlock : Nat}
    (h : Steps C (fun u k => u.Fair C k ∧ u.Others Q j k)
      (start prefunded contract defaultDeadlineSecs startBlock) s) :
    s.system.Inv ∧ Earned C s.system.sent Q j (s.chain, s.txs) := by
  refine h.invariant (I := fun s => s.system.Inv ∧ Earned C s.system.sent Q j (s.chain, s.txs))
    ?_ ⟨?_, ?_⟩
  · rintro u k v ⟨hexclusion, hearned⟩ ⟨hfair, hothers⟩ hnext
    have hstep : Step C u k v := .of_step hnext
    exact ⟨hstep.exclusion hfair hexclusion, hearned.step hexclusion hothers hstep⟩
  · exact System.inv_start (Chain.genesis prefunded) contract defaultDeadlineSecs startBlock
  · refine ⟨settled_start C prefunded contract defaultDeadlineSecs startBlock, ?_, ?_⟩
    · intro tx htx
      cases htx
    · intro q hq
      cases hq

/-- **Whom the registry pays.** Rewards for proofs go to whoever called `submitProof`; and to the
one worker whose claim was accepted, unless they were paid in a call of somebody else: `Q` may be
anything that holds of all calls with which others submit proofs for the job. -/
theorem rewards_paid (C : Setting) (prefunded : Nat) (contract : Bool)
    (defaultDeadlineSecs : UInt64) (startBlock : Nat) :
    (∀ s, Steps C Transition.Any (start prefunded contract defaultDeadlineSecs startBlock) s →
      ∀ p ∈ s.chain.world.payouts, ∀ journal sealBytes, p.reason = .proof journal sealBytes →
        p.recipient = p.msg.sender) ∧
    ∀ (Q : Msg → Prop) j s, Steps C (fun u l => u.Fair C l ∧ u.Others Q j l)
        (start prefunded contract defaultDeadlineSecs startBlock) s →
      ∀ p ∈ s.chain.world.payouts, p.jobId = j →
        ∀ journal sealBytes, p.reason = .proof journal sealBytes →
          Q p.msg ∨ ∃ w, .claimAccepted j w ∈ s.system.sent ∧
            (∀ w', .claimAccepted j w' ∈ s.system.sent → w' = w) ∧ p.recipient = C.account w := by
  refine ⟨?_, ?_⟩
  · intro s h p hp journal sealBytes hr
    have hsettled : Settled C (s.chain, s.txs) := settled_of_steps h
    exact ((hsettled.inv.1.due p hp).proof journal sealBytes hr).recipient
  · intro Q j s h p hp hj journal sealBytes hr
    obtain ⟨hinv, hearned⟩ := earned_of_steps h
    refine (hearned.paid p hp hj journal sealBytes hr).symm.imp_right ?_
    rintro ⟨w, hw, hrecipient⟩
    exact ⟨w, hw, fun w' hw' => hinv.unique j w' w hw' hw, hrecipient⟩

section Example

open Sample
open ProofMarket.System (prover)

theorem others_copied : ∀ l ∈ pending ++ [.mine [own, copied]], ∀ u : Market,
    u.Others (fun msg => msg.sender = ⟨.fill 20 7⟩) jobId l := by
  have hsubmit : submitJob.2.All fun i => i.2.proves jobId = true → i.1.sender = ⟨.fill 20 7⟩ := by
    simp [submitJob, call, CallTree.Act.All, CallTree.Act.AllIn, Registry.Call.proves]
  have hcopied : (call 7 0 1005 (.submitProof jobId journal [])).All
      fun i => i.2.proves jobId = true → i.1.sender = ⟨.fill 20 7⟩ := by
    simp [call, CallTree.Act.All, CallTree.Act.AllIn]
  intro l hl u
  simp only [pending, System.won, List.map_cons, List.map_nil, ofSystem, List.mem_append,
    List.mem_cons, List.not_mem_nil, or_false] at hl
  rcases hl with ((rfl | rfl | rfl | rfl | rfl | rfl | rfl) | rfl | rfl) | rfl <;>
    simp [Others, own, copied, hsubmit, hcopied]

/-- The copied proof comes too late. -/
theorem rewards_paid_own :
    ∃ s, Steps setting (fun u l => u.Fair setting l ∧
        u.Others (fun msg => msg.sender = ⟨.fill 20 7⟩) jobId l) (start 0 true 300 0) s ∧
      ∃ p ∈ s.chain.world.payouts, p.jobId = jobId ∧
        ∃ w, .claimAccepted jobId w ∈ s.system.sent ∧
          (∀ w', .claimAccepted jobId w' ∈ s.system.sent → w' = w) ∧
            p.recipient = setting.account w := by
  have hrun : (Transition.run (Transition.checked (step setting) (Fair setting))
      (pending ++ [.mine [own, copied]]) (start 0 true 300 0)).map
        (fun s => decide (∃ p ∈ s.chain.world.payouts, p.jobId = jobId ∧
          p.journal = some journal ∧ p.msg.sender ≠ ⟨.fill 20 7⟩)) = some true := by
    decide +kernel
  obtain ⟨s, hs, hst⟩ := Transition.exists_of_checked_and others_copied hrun
  obtain ⟨p, hp, hj, hjournal, hsender⟩ := of_decide_eq_true hst
  obtain ⟨sealBytes, hr⟩ := Registry.Payout.journal_eq_some.1 hjournal
  exact ⟨s, hs, p, hp, hj,
    ((rewards_paid setting 0 true 300 0).2 _ jobId s hs p hp hj journal sealBytes hr).resolve_left
      hsender⟩

/-- The worker's claim was accepted, and the reward goes to whoever copied its proof. -/
theorem rewards_paid_fails :
    ∃ s, Steps setting (Fair setting) (start 0 true 300 0) s ∧
      .claimAccepted jobId prover ∈ s.system.sent ∧
        ∃ p ∈ s.chain.world.payouts, p.jobId = jobId ∧ p.journal = some journal ∧
          p.recipient = ⟨.fill 20 7⟩ ∧ p.recipient ≠ setting.account prover := by
  have hrun : (Transition.run (Transition.checked (step setting) (Fair setting))
      (pending ++ [.mine [copied, own]]) (start 0 true 300 0)).map
        (fun s => decide (.claimAccepted jobId prover ∈ s.system.sent ∧
          ∃ p ∈ s.chain.world.payouts, p.jobId = jobId ∧ p.journal = some journal ∧
            p.recipient = ⟨.fill 20 7⟩ ∧ p.recipient ≠ setting.account prover)) = some true := by
    decide +kernel
  obtain ⟨s, hs, hst⟩ := Transition.exists_of_checked hrun
  exact ⟨s, hs, of_decide_eq_true hst⟩

end Example

end Market

end ProofMarket
