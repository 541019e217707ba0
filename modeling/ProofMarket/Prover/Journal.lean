import ProofMarket.Coordinator.Completions
import ProofMarket.Prover.Guest
import ProofMarket.Registry.Windows

/-!
# One journal, four readers and writers

The journal of a proof is raw bytes: 32 of the job id, 32 of the payload's hash, then the result.
The guest writes it, `prove_sync` takes it apart, and `submitProof` takes it apart again and
compares it with the payload that `create_job` put on chain.

**Theorem (`journal_agreement`).** For a job of `create_job`, with any payload, the journal that the
guest commits passes the registry's checks for this job and for no other, the registry emits the
guest's result, and `prove_sync` decodes the same three parts.

The zkVM is a parameter. What it runs is the guest program; what it hands on are the bytes that the
guest committed (`Zkvm.Faithful`).
-/

namespace ProofMarket

structure JobOutput where
  jobId : JobId
  payloadHash : FixedBytes 32
  result : Bytes
  deriving DecidableEq

namespace Prover

structure ProofBundle where
  jobId : JobId
  output : JobOutput
  receiptBytes : Bytes
  imageId : Vector UInt32 8
  deriving DecidableEq

inductive ProverError where
  | envBuildFailed (e : String)
  | provingFailed (e : String)
  | journalDecodeFailed (e : String)
  | serializationFailed (e : String)
  deriving DecidableEq

/-- What `prove_sync` uses of the zkVM and of the serializer: `ExecutorEnv::builder().write(&input)`
and `build`, the guest's `env::read`, `default_prover().prove`, the bytes of a receipt's journal,
the encoding of a receipt, and `GUEST_ID`. -/
structure Zkvm where
  Env : Type
  Receipt : Type
  buildEnv : JobInput → Except String Env
  read : Env → JobInput
  prove : Env → Except String Receipt
  journal : Receipt → Bytes
  encode : Receipt → Except String Bytes
  guestId : Vector UInt32 8

/-- The guest reads the input that was written, and a receipt's journal holds the bytes that the
guest committed. -/
structure Zkvm.Faithful (Z : Zkvm) (sha256 : Bytes → FixedBytes 32) : Prop where
  read_buildEnv : ∀ input env, Z.buildEnv input = .ok env → Z.read env = input
  journal_prove : ∀ env receipt, Z.prove env = .ok receipt →
    Z.journal receipt = Guest.main sha256 (Z.read env)

/-- How `prove_sync` takes the journal apart. -/
def decodeJournal (journal : Bytes) : Except ProverError JobOutput :=
  if journal.length < 64 then
    .error (.journalDecodeFailed
      s!"journal too short: {journal.length} bytes (expected >= 64)")
  else
    .ok {
      jobId := ⟨.ofBytes 32 (journal.take 32)⟩
      payloadHash := .ofBytes 32 ((journal.drop 32).take 32)
      result := journal.drop 64 }

/-- `prove_sync`. -/
def proveSync (Z : Zkvm) (jobId : JobId) (data : Bytes) : Except ProverError ProofBundle := do
  let env ← (Z.buildEnv { jobId, data }).mapError .envBuildFailed
  let receipt ← (Z.prove env).mapError .provingFailed
  let output ← decodeJournal (Z.journal receipt)
  let receiptBytes ← (Z.encode receipt).mapError .serializationFailed
  return { jobId, output, receiptBytes, imageId := Z.guestId }

end Prover

/-! ## The parts of the guest's journal -/

namespace Guest

variable (sha256 : Bytes → FixedBytes 32) (input : JobInput)

theorem take_main : (main sha256 input).take 32 = input.jobId.bytes.val := by
  unfold main
  rw [List.append_assoc, FixedBytes.take_append]

theorem drop_main :
    (main sha256 input).drop 32 = (sha256 input.data).val ++ result input.data := by
  unfold main
  rw [List.append_assoc, FixedBytes.drop_append]

theorem take_drop_main : ((main sha256 input).drop 32).take 32 = (sha256 input.data).val := by
  rw [drop_main, FixedBytes.take_append]

theorem drop_drop_main : (main sha256 input).drop 64 = result input.data := by
  have hdrop : (main sha256 input).drop 64 = ((main sha256 input).drop 32).drop 32 := by
    rw [List.drop_drop]
  rw [hdrop, drop_main, FixedBytes.drop_append]

theorem length_main : 64 ≤ (main sha256 input).length := by
  have hid := input.jobId.bytes.length_eq
  have hhash := (sha256 input.data).length_eq
  simp only [main, List.length_append, hid, hhash]
  omega

theorem decodeJournal_main :
    Prover.decodeJournal (main sha256 input) =
      .ok ⟨input.jobId, sha256 input.data, result input.data⟩ := by
  have hid : FixedBytes.ofBytes 32 input.jobId.bytes.val = input.jobId.bytes :=
    FixedBytes.ext (FixedBytes.ofBytes_val input.jobId.bytes.length_eq)
  have hhash : FixedBytes.ofBytes 32 (sha256 input.data).val = sha256 input.data :=
    FixedBytes.ext (FixedBytes.ofBytes_val (sha256 input.data).length_eq)
  unfold Prover.decodeJournal
  rw [if_neg (Nat.not_lt.2 (length_main sha256 input)), take_main, take_drop_main, drop_drop_main,
    hid, hhash]

end Guest

namespace Prover

open Registry (Deployment World Msg Observes)

variable {D : Deployment} {w : World}

/-- `prove_sync` gets the parts of the guest's journal back. -/
theorem proveSync_eq {Z : Zkvm} (hZ : Z.Faithful D.sha256) {jobId : JobId} {data : Bytes}
    {env : Z.Env} {receipt : Z.Receipt} (henv : Z.buildEnv { jobId, data } = .ok env)
    (hprove : Z.prove env = .ok receipt) :
    proveSync Z jobId data =
      ((Z.encode receipt).mapError .serializationFailed).map fun receiptBytes =>
        { jobId, output := ⟨jobId, D.sha256 data, Guest.result data⟩, receiptBytes,
          imageId := Z.guestId } := by
  have hjournal := hZ.journal_prove env receipt hprove
  rw [hZ.read_buildEnv _ env henv] at hjournal
  simp only [proveSync, henv, Except.mapError, bind, Except.bind, hprove, hjournal,
    Guest.decodeJournal_main]
  cases Z.encode receipt <;> rfl

/-! ## On chain -/

/-- The journal passes the checks that `submitProof` makes of it for the job, and the result in the
event is `result`. -/
structure AcceptedFor (D : Deployment) (w : World) (jobId : JobId) (journal result : Bytes) :
    Prop where
  checks : ∀ msg sealBytes e, Registry.submitProof D msg jobId journal sealBytes w = .revert e →
    e ≠ .invalidJournal ∧ e ≠ .jobIdMismatch ∧ e ≠ .payloadMismatch
  emits : ∀ msg sealBytes, msg.value = 0 → w.isOpen jobId = true →
    msg.timestamp ≤ (w.jobs jobId).deadline →
    msg.verify sealBytes D.imageId (D.sha256 journal) = true →
      Registry.submitProof D msg jobId journal sealBytes w =
        (w.complete jobId).transferThenEmit (Registry.proofPayout msg jobId journal sealBytes w)
          (.jobCompleted jobId msg.sender result)

/-- The journal is rejected for the job; by its job id or its hash, if the call gets that far. -/
structure RejectedFor (D : Deployment) (w : World) (jobId : JobId) (journal : Bytes) : Prop where
  reverts : ∀ msg sealBytes, ∃ e,
    Registry.submitProof D msg jobId journal sealBytes w = .revert e
  mismatch : ∀ msg sealBytes, msg.value = 0 → w.isOpen jobId = true →
    msg.timestamp ≤ (w.jobs jobId).deadline →
      Registry.submitProof D msg jobId journal sealBytes w = .revert .jobIdMismatch ∨
        Registry.submitProof D msg jobId journal sealBytes w = .revert .payloadMismatch

theorem acceptedFor_main {jobId : JobId} {payload : Bytes}
    (hpayload : (w.jobs jobId).payload = payload) :
    AcceptedFor D w jobId (Guest.main D.sha256 ⟨jobId, payload⟩) (Guest.result payload) := by
  have hlong := Guest.length_main D.sha256 ⟨jobId, payload⟩
  have hid := Guest.take_main D.sha256 ⟨jobId, payload⟩
  have hhash := Guest.take_drop_main D.sha256 ⟨jobId, payload⟩
  refine ⟨?_, ?_⟩
  · intro msg sealBytes e he
    have hid' := (Registry.ofBytes_eq_iff (by simp; omega)).2 hid
    have hhash' := (Registry.ofBytes_eq_iff (by simp; omega)).2 hhash
    simp only [Registry.submitProof, if_neg (Nat.not_lt.2 hlong), hid', hhash', hpayload, ne_eq,
      not_true_eq_false, if_false, World.transferThenEmit] at he
    split_ifs at he <;> cases he <;> decide
  · intro msg sealBytes hvalue hopen htime hverified
    obtain ⟨hfound, hnot⟩ : (w.jobs jobId).exists = true ∧ w.completed jobId = false := by
      simpa [World.isOpen] using hopen
    have ha : Registry.ProofAccepted D msg jobId (Guest.main D.sha256 ⟨jobId, payload⟩) sealBytes
        w :=
      ⟨hvalue, hfound, hnot, htime, hlong, hid, by rw [hpayload]; exact hhash, hverified⟩
    rw [Registry.submitProof_accepted ha]
    simp only [Registry.Payout.event, Registry.proofPayout, Guest.drop_drop_main]

theorem rejectedFor_main {jobId k : JobId} {payload : Bytes}
    (hother : k ≠ jobId ∨ D.sha256 (w.jobs k).payload ≠ D.sha256 payload) :
    RejectedFor D w k (Guest.main D.sha256 ⟨jobId, payload⟩) := by
  have hlong := Guest.length_main D.sha256 ⟨jobId, payload⟩
  have hid := Guest.take_main D.sha256 ⟨jobId, payload⟩
  have hhash := Guest.take_drop_main D.sha256 ⟨jobId, payload⟩
  refine ⟨?_, ?_⟩
  · intro msg sealBytes
    apply Registry.submitProof_rejected
    intro ha
    rcases hother with hk | hpayload
    · have hbytes : k.bytes = jobId.bytes := FixedBytes.ext (ha.jobIdMatches.symm.trans hid)
      exact hk (by cases k; cases jobId; exact congrArg JobId.mk hbytes)
    · exact hpayload (FixedBytes.ext (ha.payloadMatches.symm.trans hhash))
  · intro msg sealBytes hvalue hopen htime
    obtain ⟨hfound, hnot⟩ : (w.jobs k).exists = true ∧ w.completed k = false := by
      simpa [World.isOpen] using hopen
    have hid' : FixedBytes.ofBytes 32 ((Guest.main D.sha256 ⟨jobId, payload⟩).take 32) =
        jobId.bytes :=
      (Registry.ofBytes_eq_iff (by simp; omega)).2 hid
    have hhash' : FixedBytes.ofBytes 32
        (((Guest.main D.sha256 ⟨jobId, payload⟩).drop 32).take 32) = D.sha256 payload :=
      (Registry.ofBytes_eq_iff (by simp; omega)).2 hhash
    simp only [Registry.submitProof, hvalue, hfound, hnot, Nat.not_lt.2 htime, Nat.not_lt.2 hlong,
      hid', hhash']
    by_cases hk : k = jobId
    · subst hk
      have hpayload := (hother.resolve_left (fun h => h rfl)).symm
      right
      simp [hpayload]
    · left
      have hbytes : jobId.bytes ≠ k.bytes := fun h =>
        hk (by cases k; cases jobId; exact congrArg JobId.mk h.symm)
      simp [hbytes]

theorem payload_of_submitJob (D : Deployment) {msg : Msg} {jobId : JobId} {payload : Bytes}
    {deadline : Nat} {w₀ w₁ : World}
    (h : Registry.submitJob msg jobId payload deadline w₀ = .done w₁) (hle : w₁.Le w) :
    (w.jobs jobId).payload = payload := by
  have hop : (Registry.machine D).op (msg, .submitJob jobId payload deadline) w₀ = .done w₁ := h
  obtain ⟨s, hs, -, -, -, rfl⟩ := Registry.op_done hop
  cases hs
  have hjob : (w₀.submit s).jobs s.jobId = s.job := Function.update_self ..
  rw [hle.jobs s.jobId (by rw [hjob]; rfl), hjob]
  rfl

/-- **One journal.** For every job that `create_job` makes, the journal of its proof is decoded by
`prove_sync`, accepted on chain for the job, and rejected for all others. -/
theorem journal_agreement (D : Deployment) (Z : Zkvm) (hZ : Z.Faithful D.sha256)
    (req : Coordinator.CreateJobRequest) (nonce : FixedBytes 8) (now defaultDeadlineSecs : UInt64) :
    let job := req.job D.sha256 nonce now defaultDeadlineSecs
    let journal := Guest.main D.sha256 ⟨job.id, job.payload⟩
    (∀ env receipt, Z.buildEnv ⟨job.id, job.payload⟩ = .ok env → Z.prove env = .ok receipt →
      Z.journal receipt = journal ∧
        proveSync Z job.id job.payload =
          ((Z.encode receipt).mapError .serializationFailed).map fun receiptBytes =>
            ⟨job.id, ⟨job.id, D.sha256 job.payload, Guest.result job.payload⟩, receiptBytes,
              Z.guestId⟩) ∧
    (∀ msg w₀ w₁ txs w,
      Registry.submitJob msg job.id job.payload job.deadline.toNat w₀ = .done w₁ →
        Observes D w₁ txs w → AcceptedFor D w job.id journal (Guest.result job.payload)) ∧
    ∀ w k, k ≠ job.id ∨ D.sha256 (w.jobs k).payload ≠ D.sha256 job.payload →
      RejectedFor D w k journal := by
  intro job journal
  refine ⟨?_, ?_, ?_⟩
  · intro env receipt henv hprove
    refine ⟨?_, proveSync_eq hZ henv hprove⟩
    rw [hZ.journal_prove env receipt hprove, hZ.read_buildEnv _ env henv]
  · intro msg w₀ w₁ txs w hsubmit hobs
    exact acceptedFor_main (payload_of_submitJob D hsubmit ((Registry.grows D).observes hobs))
  · intro w k hother
    exact rejectedFor_main hother

/-! ## The tenth Fibonacci number -/

open Sample

/-- A zkVM that runs the guest and proves nothing. -/
def devMode : Zkvm where
  Env := JobInput
  Receipt := Bytes
  buildEnv := .ok
  read := id
  prove input := .ok (Guest.main sha256 input)
  journal := id
  encode := .ok
  guestId := .replicate 8 0

theorem journal_agreement_ten :
    Sample.job.id = jobId ∧
      proveSync devMode jobId payload =
        .ok ⟨jobId, ⟨jobId, payloadHash, [55, 0, 0, 0, 0, 0, 0, 0]⟩, Sample.journal,
          .replicate 8 0⟩ ∧
      ∀ w k, k ≠ jobId → RejectedFor deployment w k Sample.journal := by
  have hfaithful : devMode.Faithful deployment.sha256 :=
    ⟨fun _ _ h => (Except.ok.inj h).symm, fun _ _ h => (Except.ok.inj h).symm⟩
  have hid : Sample.job.id = jobId := by decide +kernel
  have hmain : Guest.main sha256 ⟨Sample.job.id, Sample.job.payload⟩ = Sample.journal := by
    decide +kernel
  obtain ⟨hdecode, -, hreject⟩ :=
    journal_agreement deployment devMode hfaithful request nonce 1000 300
  refine ⟨hid, ?_, ?_⟩
  · have hprove := (hdecode _ _ rfl rfl).2
    rw [show (request.job deployment.sha256 nonce 1000 300).id = jobId from hid] at hprove
    rw [show payload = (request.job deployment.sha256 nonce 1000 300).payload from rfl, hprove]
    decide +kernel
  · intro w k hk
    rw [← hmain]
    exact hreject w k (.inl fun h => hk (h.trans hid))

end Prover

end ProofMarket
