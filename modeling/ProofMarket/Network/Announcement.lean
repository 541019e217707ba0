import ProofMarket.Network.Market

/-!
# What an announced completion is worth

A worker announces the hash of its transaction as soon as `get_receipt` answers. The announcement is
true when the transaction was executed while its job was open and in time; otherwise it was mined as
reverted, and the worker announces it all the same.

* `executed_iff` — a worker's transaction goes through exactly when it is executed in such a state.
* `announcements_true` — **every announced completion is true** in runs in which no receipt of
  another transaction arrives.
* `announcements_true_fails` — a completion that came second is announced.
-/

namespace ProofMarket

open Registry (Deployment World Act Msg ProofAccepted Solvent)

/-- A hash is announced as it was before, or it was just learned from a receipt. -/
theorem Worker.Step.announcing_cases {w w' : Worker} {l : Worker.Label} {ms : List GossipMessage}
    (hstep : w.Step l w' ms) {job : Job} {h : TxHash} (ht : .announcing job h ∈ w'.tasks) :
    .announcing job h ∈ w.tasks ∨ ∃ bundle, l = .submitted job bundle (.ok h) := by
  cases hstep with
  | won =>
    rcases List.mem_append.1 ht with ht | ht
    · exact .inl ht
    · cases List.mem_singleton.1 ht
  | proved | announce =>
    rcases List.mem_append.1 ht with ht | ht
    · exact .inl (List.mem_of_mem_erase ht)
    · cases List.mem_singleton.1 ht
  | @submitted job' bundle result =>
    rcases List.mem_append.1 ht with ht | ht
    · exact .inl (List.mem_of_mem_erase ht)
    · have hlast := List.mem_singleton.1 ht
      cases result <;> cases hlast
      exact .inr ⟨bundle, rfl⟩
  | proveFailed | aborted | leave => exact .inl (List.mem_of_mem_erase ht)
  | _ => exact .inl ht

namespace Market

variable {C : Setting} {s s' : Market} {l : Label}

/-- What the transactions of the workers have come to: the registry is in order, and a transaction
went through exactly when its checks passed, and then proves its job. -/
structure Settled (C : Setting) (p : Chain × List ProofTx) : Prop where
  inv : Registry.Inv C.deployment [] p.1.world ∧ Solvent p.1.world
  iff : ∀ tx ∈ p.2, ∀ x, tx.executed = some x →
    (x.ok = true ↔ ProofAccepted C.deployment x.msg tx.job.id tx.journal tx.sealBytes x.world)
  proves : ∀ tx ∈ p.2, ∀ x, tx.executed = some x → x.ok = true → p.1.Proves tx.job.id tx.hash

theorem inv_execute {n : Nat} {c : Chain} (h : Registry.Inv C.deployment [] c.world ∧
    Solvent c.world) (tx : TxHash × Act) :
    Registry.Inv C.deployment [] (c.execute C.deployment n tx).world ∧
      Solvent (c.execute C.deployment n tx).world :=
  CallTree.Machine.Sound.exec (Solvent.sound C.deployment) h tx.2

theorem proves_execute {n : Nat} {c : Chain} {tx : TxHash × Act} {j : JobId} {h : TxHash}
    (hproves : c.Proves j h) : (c.execute C.deployment n tx).Proves j h :=
  hproves.mono (List.prefix_append _ _) (List.prefix_append _ _)

theorem proves_of_accepted {n : Nat} {c : Chain} (h : Solvent c.world) {tx : ProofTx} {msg : Msg}
    (ha : ProofAccepted C.deployment msg tx.job.id tx.journal tx.sealBytes c.world) :
    (c.execute C.deployment n (tx.hash, tx.act msg)).Proves tx.job.id tx.hash := by
  have hexec : (Registry.machine C.deployment).exec (tx.act msg) c.world = _ :=
    h.exec_submitProof ha
  refine ⟨⟨⟨n, tx.hash, tx.act msg, true⟩, ?_, rfl, rfl, decide_eq_true rfl⟩, ?_⟩
  · refine List.mem_append_right _ (List.mem_singleton.2 ?_)
    rw [hexec]
  · refine ⟨⟨n, tx.hash, .jobCompleted tx.job.id msg.sender (tx.journal.drop 64)⟩, ?_,
      decide_eq_true rfl, rfl⟩
    refine List.mem_append_right _ (List.mem_map.2 ⟨_, ?_, rfl⟩)
    rw [hexec]
    simp [World.emit, World.send, World.complete, Registry.proofPayout, Registry.Payout.event]

theorem Settled.execute {n : Nat} {p : Chain × List ProofTx} (h : Settled C p) (e : Entry) :
    Settled C (Market.execute C n p e) := by
  rcases execute_cases C n p e with ⟨tx, -, he⟩ | ⟨i, tx, timestamp, verify, htx, hfirst, he⟩ | he
  · rw [he]
    exact ⟨inv_execute h.inv tx, h.iff, fun tx htx x hx hok =>
      proves_execute (h.proves tx htx x hx hok)⟩
  · rw [he]
    let msg : Msg := ⟨C.account tx.worker, 0, timestamp, verify⟩
    have hiff : ((Registry.machine C.deployment).exec (tx.act msg) p.1.world).2 = true ↔
        ProofAccepted C.deployment msg tx.job.id tx.journal tx.sealBytes p.1.world := by
      have hsucceeds : Registry.succeeds C.deployment p.1.world
          (msg, .submitProof tx.job.id tx.journal tx.sealBytes) [] true = true ↔ _ :=
        h.inv.2.succeeds_submitProof [] true
      exact hsucceeds.trans (and_iff_left rfl)
    refine ⟨inv_execute h.inv _, ?_, ?_⟩
    · intro other hother x hx
      rcases List.mem_or_eq_of_mem_set hother with hother | rfl
      · exact h.iff other hother x hx
      · cases hx
        exact hiff
    · intro other hother x hx hok
      rcases List.mem_or_eq_of_mem_set hother with hother | rfl
      · exact proves_execute (h.proves other hother x hx hok)
      · cases hx
        exact proves_of_accepted h.inv.2 (hiff.1 hok)
  · rwa [he]

theorem Settled.mine (h : Settled C (s.chain, s.txs)) (entries : List Entry) :
    Settled C ((s.mine C entries).chain, (s.mine C entries).txs) := by
  have hfold : Settled C (entries.foldl (Market.execute C (s.chain.head + 1)) (s.chain, s.txs)) :=
    foldl_execute C (fun _ e _ hp => hp.execute e) h
  exact ⟨hfold.inv, hfold.iff, hfold.proves⟩

/-- **The record stays settled**, whatever the step. -/
theorem Settled.step (h : Settled C (s.chain, s.txs)) (hstep : Step C s l s') :
    Settled C (s'.chain, s'.txs) := by
  rcases hstep.chain with ⟨entries, -, rfl⟩ | ⟨hl, hchain⟩
  · exact h.mine entries
  · rw [hchain]
    refine ⟨h.inv, ?_, ?_⟩
    · intro tx htx x hx
      rcases hstep.txs_cases hl htx with ⟨old, hold, awaited, rfl⟩ | ⟨hnone, -⟩
      · exact h.iff old hold x hx
      · rw [hnone] at hx
        cases hx
    · intro tx htx x hx hok
      rcases hstep.txs_cases hl htx with ⟨old, hold, awaited, rfl⟩ | ⟨hnone, -⟩
      · exact h.proves old hold x hx hok
      · rw [hnone] at hx
        cases hx

theorem settled_start (C : Setting) (prefunded : Nat) (contract : Bool)
    (defaultDeadlineSecs : UInt64) (startBlock : Nat) :
    Settled C ((start prefunded contract defaultDeadlineSecs startBlock).chain,
      (start prefunded contract defaultDeadlineSecs startBlock).txs) where
  inv := ⟨Registry.inv_deployed C.deployment prefunded, Registry.solvent_deployed prefunded⟩
  iff tx htx := by cases htx
  proves tx htx := by cases htx

variable {prefunded : Nat} {contract : Bool} {defaultDeadlineSecs : UInt64} {startBlock : Nat}

theorem settled_of_steps
    (h : Steps C Transition.Any (start prefunded contract defaultDeadlineSecs startBlock) s) :
    Settled C (s.chain, s.txs) :=
  Transition.Steps.invariant (I := fun s => Settled C (s.chain, s.txs))
    (fun _ _ _ hs _ hst => hs.step (.of_step hst)) h
    (settled_start C prefunded contract defaultDeadlineSecs startBlock)

/-- **A transaction goes through** exactly when it is executed while its job is open, in time, and
with a journal and a seal that pass. -/
theorem executed_iff
    (h : Steps C Transition.Any (start prefunded contract defaultDeadlineSecs startBlock) s)
    {tx : ProofTx} (htx : tx ∈ s.txs) {x : Execution} (hx : tx.executed = some x) :
    x.ok = true ↔
      ProofAccepted C.deployment x.msg tx.job.id tx.journal tx.sealBytes x.world :=
  (settled_of_steps h).iff tx htx x hx

/-! ## What is announced -/

/-- What the workers announce, or are about to, is proved on the chain `c`. -/
structure Truthful (c : Chain) (s : System) : Prop where
  tasks : ∀ id job h, .announcing job h ∈ (s.workers id).tasks → c.Proves job.id h
  sent : ∀ j h, .jobCompleted j h ∈ s.sent → c.Proves j h

theorem Truthful.step {c : Chain} {s s' : System} {k : System.Label} (h : Truthful c s)
    (hstep : System.Step C.deployment C.members s k s')
    (hreceipt : ∀ id job bundle x, k = .worker id (.submitted job bundle (.ok x)) →
      c.Proves job.id x) : Truthful c s' := by
  cases hstep with
  | coordinator hb =>
    refine ⟨h.tasks, ?_⟩
    intro j x hx
    rcases List.mem_append.1 hx with hx | hx
    · exact h.sent j x hx
    · obtain ⟨k, w, now, reachable, -, ⟨heq, -⟩ | ⟨reason, heq, -⟩⟩ | ⟨job, heq, -⟩ := hb.sends hx
      all_goals cases heq
  | @worker id l w ms hw =>
    refine ⟨?_, ?_⟩
    · intro id' job x ht
      by_cases hid : id' = id
      · subst hid
        simp only [Function.update_self] at ht
        rcases hw.announcing_cases ht with hold | ⟨bundle, rfl⟩
        · exact h.tasks id' job x hold
        · exact hreceipt id' job bundle x rfl
      · simp only [Function.update_of_ne hid] at ht
        exact h.tasks id' job x ht
    · intro j x hx
      rcases List.mem_append.1 hx with hx | hx
      · exact h.sent j x hx
      · rcases hw.sends hx with ⟨job, now, -, heq, -⟩ | ⟨job, y, ht, heq⟩
        · cases heq
        · cases heq
          exact h.tasks id job x ht

theorem Truthful.mono {c c' : Chain} {s : System} (h : Truthful c s)
    (hmono : ∀ j x, c.Proves j x → c'.Proves j x) : Truthful c' s :=
  ⟨fun id job x ht => hmono _ _ (h.tasks id job x ht), fun j x hx => hmono _ _ (h.sent j x hx)⟩

theorem Step.proves (hstep : Step C s l s') {j : JobId} {x : TxHash} (h : s.chain.Proves j x) :
    s'.chain.Proves j x := by
  rcases hstep.chain with ⟨entries, -, rfl⟩ | ⟨-, hchain⟩
  · have hfold : (entries.foldl (Market.execute C (s.chain.head + 1)) (s.chain, s.txs)).1.Proves
        j x := by
      refine foldl_execute C (I := fun p => p.1.Proves j x) ?_ h
      intro p e _ hp
      rcases execute_chain C (s.chain.head + 1) p e with he | ⟨tx, he⟩
      · rwa [he]
      · rw [he]
        exact proves_execute hp
    exact hfold
  · rwa [hchain]

/-- Every receipt that arrives is of a transaction that was executed while its job was open, in
time, and with a journal and a seal that pass. -/
def AnswersAccepted (C : Setting) (s : Market) : Label → Prop
  | .receipt i => ∀ tx ∈ s.txs[i]?, tx.Accepted C.deployment
  | _ => True

instance (C : Setting) (s : Market) (l : Label) : Decidable (s.AnswersAccepted C l) :=
  match l with
  | .receipt i => inferInstanceAs (Decidable (∀ tx ∈ s.txs[i]?, tx.Accepted C.deployment))
  | .party _ | .send _ _ _ _ | .fail _ _ _ _ | .mine _ => isTrue trivial

theorem Step.truthful (hstep : Step C s l s') (hanswers : s.AnswersAccepted C l)
    (hsettled : Settled C (s.chain, s.txs)) (h : Truthful s.chain s.system) :
    Truthful s'.chain s'.system := by
  refine Truthful.mono ?_ fun j x => hstep.proves
  cases hstep with
  | @party k system hk hsystem =>
    refine h.step hsystem ?_
    rintro id job bundle x rfl
    cases hk
  | send => exact h
  | @receipt i tx x system htx hx hsystem =>
    refine h.step hsystem ?_
    intro id job bundle y heq
    cases heq
    have hmem := List.mem_of_getElem? htx
    have haccepted := hanswers tx htx x hx
    exact hsettled.proves tx hmem x hx ((hsettled.iff tx hmem x hx).2 haccepted)
  | fail hsystem =>
    refine h.step hsystem ?_
    intro id job bundle y heq
    cases heq
  | mine => exact ⟨h.tasks, h.sent⟩

/-- **Every announced completion is true**: its transaction called `submitProof` for the job, went
through, and completed it. -/
theorem announcements_true (C : Setting) (prefunded : Nat) (contract : Bool)
    (defaultDeadlineSecs : UInt64) (startBlock : Nat) (s : Market)
    (h : Steps C (AnswersAccepted C) (start prefunded contract defaultDeadlineSecs startBlock) s) :
    ∀ j x, .jobCompleted j x ∈ s.system.sent → s.chain.Proves j x := by
  have hinv : Settled C (s.chain, s.txs) ∧ Truthful s.chain s.system := by
    refine Transition.Steps.invariant
      (I := fun s => Settled C (s.chain, s.txs) ∧ Truthful s.chain s.system) ?_ h
      ⟨settled_start C prefunded contract defaultDeadlineSecs startBlock, ?_⟩
    · rintro u l v ⟨hsettled, htruthful⟩ hanswers hnext
      have hstep : Step C u l v := .of_step hnext
      exact ⟨hsettled.step hstep, hstep.truthful hanswers hsettled htruthful⟩
    · refine ⟨?_, ?_⟩
      · intro id job x ht
        cases ht
      · intro j x hx
        cases hx
  exact hinv.2.sent

section Example

open Sample

theorem announcements_true_own :
    ∃ s, Steps setting (AnswersAccepted setting) (start 0 true 300 0) s ∧
      .jobCompleted jobId (txHash 2) ∈ s.system.sent ∧ s.chain.Proves jobId (txHash 2) := by
  have hrun : (Transition.run (Transition.checked (step setting) (AnswersAccepted setting))
      (pending ++ .mine [own] :: announced) (start 0 true 300 0)).map
        (fun s => decide (.jobCompleted jobId (txHash 2) ∈ s.system.sent)) = some true := by
    decide +kernel
  obtain ⟨s, hs, hst⟩ := Transition.exists_of_checked hrun
  have hsent := of_decide_eq_true hst
  exact ⟨s, hs, hsent, announcements_true setting 0 true 300 0 s hs _ _ hsent⟩

/-- A copied proof comes first, and the worker announces its own transaction. -/
theorem announcements_true_fails :
    ∃ s, Steps setting Transition.Any (start 0 true 300 0) s ∧
      .jobCompleted jobId (txHash 2) ∈ s.system.sent ∧ s.chain.CompletedBy jobId (txHash 7) ∧
        (∀ r ∈ s.chain.receipts, r.txHash = txHash 2 → r.ok = false) ∧
          ¬ s.chain.CompletedBy jobId (txHash 2) := by
  have hrun : (Transition.run (step setting)
      (pending ++ .mine [copied, own] :: announced) (start 0 true 300 0)).map
        (fun s => decide (.jobCompleted jobId (txHash 2) ∈ s.system.sent ∧
          s.chain.CompletedBy jobId (txHash 7) ∧
            (∀ r ∈ s.chain.receipts, r.txHash = txHash 2 → r.ok = false) ∧
              ¬ s.chain.CompletedBy jobId (txHash 2))) = some true := by
    decide +kernel
  obtain ⟨s, hs, hst⟩ := Transition.exists_of_run (fun _ _ _ => trivial) hrun
  exact ⟨s, hs, of_decide_eq_true hst⟩

end Example

end Market

end ProofMarket
