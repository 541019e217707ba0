import ProofMarket.Network.Announcement
import ProofMarket.Prover.Results

/-!
# From the claim to the reward

What a worker does with a job that it has won: `run_proving` calls `prove` with the payload of the
job, `submit_proof_onchain` decodes the receipt of the bundle (`extract_proof_components`), and
`submit_proof` sends journal and seal to the registry. The zkVM and its receipts are parameters.

**Theorem (`own_proofs_accepted`).** A worker that runs this code always submits the journal that
the guest commits for its job. So its transaction fails only when the job is closed or past its
deadline at that time, or was announced with another payload than the registry has.

The invariant (`Honest`) follows the receipt from the prover through the task of the worker into the
transaction.
-/

namespace ProofMarket

namespace Prover

/-- What the code uses of receipts besides proving: their decoding, the seal of a Groth16 receipt,
and `Receipt::verify` against an image id. -/
structure Receipts (Z : Zkvm) where
  decode : Bytes → Except String Z.Receipt
  groth16Seal : Z.Receipt → Option Bytes
  verify : Z.Receipt → Vector UInt32 8 → Except String Unit

variable {Z : Zkvm} (R : Receipts Z)

/-- The seal that is submitted for a receipt; it is empty without a Groth16 seal. -/
def Receipts.sealOf (receipt : Z.Receipt) : Bytes := (R.groth16Seal receipt).getD []

/-- `extract_proof_components`: the journal and the seal. -/
def extractProofComponents (bundle : ProofMarket.ProofBundle) : Except String (Bytes × Bytes) := do
  let receipt ← (R.decode bundle.receiptBytes).mapError fun e =>
    s!"failed to deserialize receipt: {e}"
  return (Z.journal receipt, R.sealOf receipt)

/-- `verify`, of a bundle from anywhere. -/
def verify (bundle : ProofBundle) : Except ProverError Unit := do
  let receipt ← (R.decode bundle.receiptBytes).mapError .serializationFailed
  (R.verify receipt bundle.imageId).mapError fun e =>
    .provingFailed s!"verification failed: {e}"

/-- A receipt that was encoded is decoded again, and the receipts of the prover verify. -/
structure Receipts.Faithful : Prop where
  decode_encode : ∀ receipt bytes, Z.encode receipt = .ok bytes → R.decode bytes = .ok receipt
  verify_prove : ∀ env receipt, Z.prove env = .ok receipt → R.verify receipt Z.guestId = .ok ()

/-- The receipt comes from the prover, run on the job. -/
def Proves (Z : Zkvm) (job : Job) (receipt : Z.Receipt) : Prop :=
  ∃ env, Z.buildEnv ⟨job.id, job.payload⟩ = .ok env ∧ Z.prove env = .ok receipt

theorem receipt_of_proveSync {job : Job} {bundle : ProofBundle}
    (h : proveSync Z job.id job.payload = .ok bundle) :
    ∃ receipt, Proves Z job receipt ∧ Z.encode receipt = .ok bundle.receiptBytes ∧
      bundle.imageId = Z.guestId := by
  unfold proveSync at h
  cases henv : Z.buildEnv ⟨job.id, job.payload⟩ with
  | error e =>
    rw [henv] at h
    cases h
  | ok env =>
    cases hprove : Z.prove env with
    | error e =>
      simp only [henv, Except.mapError, bind, Except.bind, hprove] at h
      cases h
    | ok receipt =>
      cases hdecode : decodeJournal (Z.journal receipt) with
      | error e =>
        simp only [henv, Except.mapError, bind, Except.bind, hprove, hdecode] at h
        cases h
      | ok output =>
        cases hencode : Z.encode receipt with
        | error e =>
          simp only [henv, Except.mapError, bind, Except.bind, hprove, hdecode, hencode] at h
          cases h
        | ok bytes =>
          simp only [henv, Except.mapError, bind, Except.bind, hprove, hdecode, hencode] at h
          cases h
          exact ⟨receipt, ⟨env, henv, hprove⟩, hencode, rfl⟩

theorem Proves.journal_eq {sha256 : Bytes → FixedBytes 32} (hZ : Z.Faithful sha256) {job : Job}
    {receipt : Z.Receipt} (h : Proves Z job receipt) :
    Z.journal receipt = Guest.main sha256 ⟨job.id, job.payload⟩ := by
  obtain ⟨env, henv, hprove⟩ := h
  rw [hZ.journal_prove env receipt hprove, hZ.read_buildEnv _ env henv]

end Prover

open Registry (Msg ProofAccepted)
open Prover (Zkvm Receipts)

/-- A task that submits has done so before, or its prover has just returned. -/
theorem Worker.Step.submitting_cases {w w' : Worker} {l : Worker.Label} {ms : List GossipMessage}
    (hstep : w.Step l w' ms) {job : Job} {bundle : ProofBundle}
    (ht : .submitting job bundle ∈ w'.tasks) :
    .submitting job bundle ∈ w.tasks ∨
      ∃ j, l = .proved j job (.ok bundle) ∧ .proving j job ∈ w.tasks := by
  cases hstep with
  | won =>
    rcases List.mem_append.1 ht with ht | ht
    · exact .inl ht
    · cases List.mem_singleton.1 ht
  | @proved j _ _ hmem =>
    rcases List.mem_append.1 ht with ht | ht
    · exact .inl (List.mem_of_mem_erase ht)
    · cases List.mem_singleton.1 ht
      exact .inr ⟨j, rfl, hmem⟩
  | announce =>
    rcases List.mem_append.1 ht with ht | ht
    · exact .inl (List.mem_of_mem_erase ht)
    · cases List.mem_singleton.1 ht
  | @submitted _ _ result =>
    rcases List.mem_append.1 ht with ht | ht
    · exact .inl (List.mem_of_mem_erase ht)
    · have hlast := List.mem_singleton.1 ht
      cases result <;> cases hlast
  | proveFailed | aborted | leave => exact .inl (List.mem_of_mem_erase ht)
  | _ => exact .inl ht

namespace Market

section Proving

variable {C : Setting} {Z : Zkvm} {R : Receipts Z} {s s' : Market} {l : Label}

/-- A prover that returns a bundle has run `prove_sync` on the job. -/
def ByProver (Z : Zkvm) (_ : Market) : Label → Prop
  | .party (.worker _ (.proved _ job (.ok bundle))) =>
    ∃ b, Prover.proveSync Z job.id job.payload = .ok b ∧ b.receiptBytes = bundle.receiptBytes
  | _ => True

/-- The transaction holds journal and seal of a receipt for its job, and carries no ETH. -/
structure OwnProof (R : Receipts Z) (tx : ProofTx) : Prop where
  proves : ∃ receipt, Prover.Proves Z tx.job receipt ∧ tx.journal = Z.journal receipt ∧
    tx.sealBytes = R.sealOf receipt
  noValue : ∀ x, tx.executed = some x → x.msg.value = 0

/-- Workers submit what the prover has made of their jobs. -/
structure Honest (R : Receipts Z) (s : Market) : Prop where
  tasks : ∀ id job bundle, .submitting job bundle ∈ (s.system.workers id).tasks →
    ∃ receipt, Prover.Proves Z job receipt ∧ Z.encode receipt = .ok bundle.receiptBytes
  txs : ∀ tx ∈ s.txs, OwnProof R tx

theorem txs_mine {P : ProofTx → Prop}
    (hP : ∀ tx x, x.msg.value = 0 → P tx → P { tx with executed := some x })
    (h : ∀ tx ∈ s.txs, P tx) (entries : List Entry) : ∀ tx ∈ (s.mine C entries).txs, P tx := by
  have hfold : ∀ tx ∈ (entries.foldl (execute C (s.chain.head + 1)) (s.chain, s.txs)).2, P tx := by
    refine foldl_execute C (I := fun p => ∀ tx ∈ p.2, P tx) ?_ h
    intro p e _ hp
    rcases execute_cases C (s.chain.head + 1) p e with ⟨tx, -, he⟩ |
      ⟨i, tx, timestamp, verify, htx, -, he⟩ | he
    · rw [he]
      exact hp
    · rw [he]
      intro other hother
      rcases List.mem_or_eq_of_mem_set hother with hother | rfl
      · exact hp other hother
      · exact hP tx _ rfl (hp tx (List.mem_of_getElem? htx))
    · rwa [he]
  exact hfold

/-- What a step adds to the tasks that submit comes from the prover. -/
theorem Honest.tasks_step (h : Honest R s) (hstep : Step C s l s') (hl : s.ByProver Z l)
    (id : PeerId) (job : Job) (bundle : ProofBundle)
    (ht : .submitting job bundle ∈ (s'.system.workers id).tasks) :
    ∃ receipt, Prover.Proves Z job receipt ∧ Z.encode receipt = .ok bundle.receiptBytes := by
  rcases hstep.system with heq | ⟨k, hk, hkind⟩
  · rw [heq] at ht
    exact h.tasks id job bundle ht
  · generalize s'.system = t at hk ht
    cases hk with
    | coordinator => exact h.tasks id job bundle ht
    | @worker id' wl w ms hw =>
      by_cases hid : id = id'
      · subst hid
        simp only [Function.update_self] at ht
        rcases hw.submitting_cases ht with hold | ⟨j, rfl, -⟩
        · exact h.tasks id job bundle hold
        · rcases hkind with rfl | ⟨_, _, _, _, heq⟩ | ⟨_, heq⟩
          · obtain ⟨b, hb, hbytes⟩ := hl
            obtain ⟨receipt, hreceipt, hencode, -⟩ := Prover.receipt_of_proveSync hb
            exact ⟨receipt, hreceipt, by rw [← hbytes, hencode]⟩
          · cases heq
          · cases heq
      · simp only [Function.update_of_ne hid] at ht
        exact h.tasks id job bundle ht

theorem Honest.step (hR : R.Faithful) (hC : C.extract = Prover.extractProofComponents R)
    (h : Honest R s) (hstep : Step C s l s') (hl : s.ByProver Z l) : Honest R s' := by
  refine ⟨h.tasks_step hstep hl, ?_⟩
  cases hstep with
  | party => exact h.txs
  | @send worker job bundle hash journal sealBytes hextract htask =>
    intro tx htx
    rcases List.mem_append.1 htx with htx | htx
    · exact h.txs tx htx
    · obtain rfl := List.mem_singleton.1 htx
      obtain ⟨receipt, hreceipt, hencode⟩ := h.tasks worker job bundle htask
      have hdecode := hR.decode_encode receipt _ hencode
      rw [hC, Prover.extractProofComponents, hdecode] at hextract
      cases hextract
      exact ⟨⟨receipt, hreceipt, rfl, rfl⟩, fun x hx => by cases hx⟩
  | @receipt i tx x system htx =>
    intro other hother
    rcases List.mem_or_eq_of_mem_set hother with hother | rfl
    · exact h.txs other hother
    · have hold := h.txs tx (List.mem_of_getElem? htx)
      exact ⟨hold.proves, hold.noValue⟩
  | fail =>
    intro tx htx
    obtain ⟨old, hold, rfl⟩ := List.mem_map.1 htx
    have howed := h.txs old hold
    split_ifs
    · exact ⟨howed.proves, howed.noValue⟩
    · exact howed
  | mine =>
    refine txs_mine (fun tx x hvalue hp => ⟨hp.proves, fun y hy => ?_⟩) h.txs _
    cases hy
    exact hvalue

variable {prefunded : Nat} {contract : Bool} {defaultDeadlineSecs : UInt64} {startBlock : Nat}

theorem honest_of_steps (hR : R.Faithful) (hC : C.extract = Prover.extractProofComponents R)
    (h : Steps C (ByProver Z) (start prefunded contract defaultDeadlineSecs startBlock) s) :
    Honest R s := by
  refine Transition.Steps.invariant (I := Honest R)
    (fun _ _ _ hs hl hst => hs.step hR hC (.of_step hst) hl) h ⟨?_, ?_⟩
  · intro id job bundle ht
    cases ht
  · intro tx htx
    cases htx

/-- **An honest proof is accepted** whenever its job is open and in time. Its journal is the guest's
for this job, and it goes through exactly when the job is open under the hash of the same payload
and the deadline has not passed. -/
theorem own_proofs_accepted (C : Setting) (Z : Zkvm) (R : Receipts Z)
    (hZ : Z.Faithful C.deployment.sha256) (hR : R.Faithful)
    (hC : C.extract = Prover.extractProofComponents R) (prefunded : Nat) (contract : Bool)
    (defaultDeadlineSecs : UInt64) (startBlock : Nat) (s : Market)
    (h : Steps C (ByProver Z) (start prefunded contract defaultDeadlineSecs startBlock) s)
    (tx : ProofTx) (htx : tx ∈ s.txs) :
    tx.journal = Guest.main C.deployment.sha256 ⟨tx.job.id, tx.job.payload⟩ ∧
      tx.journal.drop 64 = Prover.fibonacciOf tx.job.payload ∧
      ∀ x, tx.executed = some x →
        (∀ receipt, Prover.Proves Z tx.job receipt →
          x.msg.verify (R.sealOf receipt) C.deployment.imageId
            (C.deployment.sha256 (Z.journal receipt)) = true) →
        (x.ok = true ↔
          x.world.isOpen tx.job.id = true ∧
            x.msg.timestamp ≤ (x.world.jobs tx.job.id).deadline ∧
            C.deployment.sha256 (x.world.jobs tx.job.id).payload =
              C.deployment.sha256 tx.job.payload) := by
  have hown := (honest_of_steps hR hC h).txs tx htx
  obtain ⟨receipt, hreceipt, hjournal, hseal⟩ := hown.proves
  have hmain := hreceipt.journal_eq hZ
  rw [← hjournal] at hmain
  refine ⟨hmain, ?_, ?_⟩
  · rw [hmain, Guest.drop_drop_main, Guest.result_fib]
    rfl
  intro x hx hverify
  have hsettled := settled_of_steps (h.mono fun _ _ _ => trivial)
  rw [hsettled.iff tx htx x hx]
  have hid := Guest.take_main C.deployment.sha256 ⟨tx.job.id, tx.job.payload⟩
  have hhash := Guest.take_drop_main C.deployment.sha256 ⟨tx.job.id, tx.job.payload⟩
  have hlong := Guest.length_main C.deployment.sha256 ⟨tx.job.id, tx.job.payload⟩
  rw [← hmain] at hid hhash hlong
  constructor
  · intro ha
    refine ⟨?_, ha.inTime, FixedBytes.ext (ha.payloadMatches.symm.trans hhash)⟩
    simp [Registry.World.isOpen, ha.found, ha.notCompleted]
  · intro hterms
    obtain ⟨hopen, htime, hpayload⟩ := hterms
    obtain ⟨hfound, hnot⟩ : (x.world.jobs tx.job.id).exists = true ∧
        x.world.completed tx.job.id = false := by
      simpa [Registry.World.isOpen] using hopen
    have hverified := hverify receipt hreceipt
    rw [← hseal, ← hjournal] at hverified
    exact ⟨hown.noValue x hx, hfound, hnot, htime, hlong, hid, by rw [hpayload, hhash],
      hverified⟩

section Example

open Sample
open ProofMarket.System (prover won)
open Prover (devMode)

/-- Receipts are journals, and have no seal. -/
def devReceipts : Receipts devMode := ⟨.ok, fun _ => none, fun _ _ => .ok ()⟩

/-- One worker, with account 2. -/
def devSetting : Setting :=
  ⟨deployment, [prover], fun _ => ⟨.fill 20 2⟩, Prover.extractProofComponents devReceipts⟩

/-- The worker has won the job and runs the prover. -/
def provedAndSent : List Label :=
  won.map ofSystem ++
    [.party (.worker prover (.proved jobId job (.ok ⟨Sample.journal⟩))),
      .send prover job ⟨Sample.journal⟩ (txHash 2), .mine [own]]

theorem prove_devMode {receipt : devMode.Receipt} (h : Prover.Proves devMode job receipt) :
    receipt = Sample.journal := by
  obtain ⟨env, henv, hprove⟩ := h
  cases henv
  cases hprove
  have hmain : Guest.main sha256 ⟨job.id, job.payload⟩ = Sample.journal := by decide +kernel
  exact hmain

theorem byProver_provedAndSent : ∀ l ∈ provedAndSent, ∀ u : Market, u.ByProver devMode l := by
  have hprove : Prover.proveSync devMode job.id job.payload =
      .ok ⟨jobId, ⟨jobId, payloadHash, [55, 0, 0, 0, 0, 0, 0, 0]⟩, Sample.journal,
        .replicate 8 0⟩ := by
    decide +kernel
  intro l hl u
  simp only [provedAndSent, won, List.map_cons, List.map_nil, ofSystem, List.mem_append,
    List.mem_cons, List.not_mem_nil, or_false] at hl
  rcases hl with (rfl | rfl | rfl | rfl | rfl | rfl | rfl) | rfl | rfl | rfl
  case inr.inl => exact ⟨_, hprove, rfl⟩
  all_goals trivial

/-- The proof of the tenth number is accepted. -/
theorem own_proofs_accepted_ten :
    ∃ s, Steps devSetting (ByProver devMode) (start 0 true 300 0) s ∧
      ∃ tx ∈ s.txs, ∃ x, tx.executed = some x ∧
        tx.journal.drop 64 = Prover.fibonacciOf payload ∧ x.ok = true := by
  have hrun : (Transition.run (step devSetting) provedAndSent (start 0 true 300 0)).map
      (fun s => decide (∃ tx ∈ s.txs, tx.job = job ∧ ∃ x ∈ tx.executed,
        x.world.isOpen jobId = true ∧ x.msg.timestamp ≤ (x.world.jobs jobId).deadline ∧
          (x.world.jobs jobId).payload = payload ∧
            x.msg.verify [] deployment.imageId (deployment.sha256 Sample.journal) = true)) =
      some true := by
    decide +kernel
  obtain ⟨s, hs, hst⟩ := Transition.exists_of_run byProver_provedAndSent hrun
  obtain ⟨tx, htx, hjob, x, hx, hopen, htime, hpayload, hverify⟩ := of_decide_eq_true hst
  have hfaithful : devMode.Faithful deployment.sha256 :=
    ⟨fun _ _ h => (Except.ok.inj h).symm, fun _ _ h => (Except.ok.inj h).symm⟩
  have hreceipts : devReceipts.Faithful :=
    ⟨fun _ _ h => congrArg Except.ok (Except.ok.inj h).symm, fun _ _ _ => rfl⟩
  obtain ⟨-, hresult, hiff⟩ := own_proofs_accepted devSetting devMode devReceipts hfaithful
    hreceipts rfl 0 true 300 0 s hs tx htx
  rw [hjob] at hresult hiff
  have hid : job.id = jobId := by decide +kernel
  refine ⟨s, hs, tx, htx, x, hx, hresult, (hiff x hx ?_).2 ?_⟩
  · intro receipt hreceipt
    rw [prove_devMode hreceipt]
    exact hverify
  · rw [hid]
    exact ⟨hopen, htime, congrArg deployment.sha256 hpayload⟩

end Example

end Proving

end Market

end ProofMarket
