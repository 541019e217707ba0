import ProofMarket.Prover.Fibonacci
import ProofMarket.Prover.Journal
import ProofMarket.Registry.Binding

/-!
# The results on chain are right

The registry never computes anything: it compares hashes and asks a verifier. That the result it
announces is the one that the guest computes takes three things: a proof that the verifier accepts
is about a journal of the guest, no two of the byte strings that are hashed have the same hash, and
the journal names the payload by its hash.

**Theorem (`results_right`).** Under the first two, whoever submits proofs and whatever the
recipients of rewards do: the result in every `JobCompleted` is the Fibonacci number of the payload
that the job was submitted with.

`Known` are the byte strings that are hashed in a run: payloads, journals, and the inputs of the
guest. `Backed` is what a caller has to get past the verifier.
-/

namespace ProofMarket

namespace Prover

open Registry (Deployment World Msg Call Payout Submission Act Observes)

/-- The journal is one that the guest commits on some input, up to its hash. -/
def Committed (sha256 : Bytes → FixedBytes 32) (known : Set Bytes) (journal : Bytes) : Prop :=
  ∃ input : JobInput, Guest.main sha256 input ∈ known ∧ input.data ∈ known ∧
    sha256 (Guest.main sha256 input) = sha256 journal

/-- What is hashed in a call is known, and a proof that the verifier accepts in it is about a
journal of the guest. -/
def Backed (D : Deployment) (known : Set Bytes) : Msg × Call → Prop
  | (_, .submitJob _ payload _) => payload ∈ known
  | (msg, .submitProof _ journal sealBytes) =>
    journal ∈ known ∧
      (msg.verify sealBytes D.imageId (D.sha256 journal) = true →
        Committed D.sha256 known journal)
  | (_, .expireJob _) => True

/-- The result of a job with this payload. -/
def fibonacciOf (payload : Bytes) : Bytes :=
  LittleEndian.toLe 8 (Nat.fib (LittleEndian.ofLe (payload.take 8)) % 2 ^ 64)

/-- What is known of the payloads and the paid journals of a registry. -/
structure Traced (D : Deployment) (known : Set Bytes) (w : World) : Prop where
  payloads : ∀ s ∈ w.submissions, s.payload ∈ known
  journals : ∀ p ∈ w.payouts, ∀ journal sealBytes, p.reason = .proof journal sealBytes →
    journal ∈ known ∧ Committed D.sha256 known journal

variable {D : Deployment} {known : Set Bytes} {w : World}

theorem traced_sound (D : Deployment) (known : Set Bytes) :
    (Registry.machine D).SoundOn (Backed D known) fun (_ : Unit) w => Traced D known w where
  poke _ _ _ h := ⟨h.payloads, h.journals⟩
  done := by
    intro _ i w w' hi h hop
    obtain ⟨s, rfl, -, -, -, rfl⟩ := Registry.op_done hop
    refine ⟨?_, h.journals⟩
    intro s' hs'
    rcases List.mem_append.1 hs' with hs' | hs'
    · exact h.payloads s' hs'
    · obtain rfl := List.mem_singleton.1 hs'
      exact hi
  yield := by
    intro _ i w outer inner k hi h hop
    obtain ⟨p, hpay, -, rfl, hsent, hfailed⟩ := Registry.op_yield hop
    have hpaid : Traced D known ((w.complete p.jobId).send p) := by
      refine ⟨h.payloads, ?_⟩
      intro q hq journal sealBytes hr
      rcases List.mem_append.1 hq with hq | hq
      · exact h.journals q hq journal sealBytes hr
      · obtain rfl := List.mem_singleton.1 hq
        cases hpay with
        | proof ha =>
          cases hr
          exact ⟨hi.1, hi.2 ha.verified⟩
        | expiry => cases hr
    refine ⟨⟨(), hpaid, ?_⟩, ?_⟩
    · intro t t' ht hk
      rw [hsent t t' hk]
      exact ⟨ht.payloads, ht.journals⟩
    · intro t' hk
      rw [hfailed] at hk
      cases hk

/-- **A journal of the guest that names the hash of a payload** ends in the payload's result. -/
theorem result_of_committed (hfree : Set.InjOn D.sha256 known) {payload journal : Bytes}
    (hpayload : payload ∈ known) (hjournal : journal ∈ known)
    (hcommitted : Committed D.sha256 known journal)
    (hhash : (journal.drop 32).take 32 = (D.sha256 payload).val) :
    journal.drop 64 = fibonacciOf payload := by
  obtain ⟨input, hmain, hdata, heq⟩ := hcommitted
  obtain rfl : Guest.main D.sha256 input = journal := hfree hmain hjournal heq
  rw [Guest.take_drop_main] at hhash
  have hsame : input.data = payload := hfree hdata hpayload (FixedBytes.ext hhash)
  rw [Guest.drop_drop_main, Guest.result_fib, hsame]
  rfl

/-- **The results on chain are right**, in every state that foreign code can observe. -/
theorem results_right (D : Deployment) (known : Set Bytes) (hfree : Set.InjOn D.sha256 known)
    (prefunded : Nat) (txs : List Act)
    (hbacked : CallTree.Act.AllIn (Backed D known) txs) (w : World)
    (hw : Observes D (World.deployed prefunded) txs w) (j : JobId) (worker : Address)
    (result : Bytes) (hlog : .jobCompleted j worker result ∈ w.log) :
    ∃ s ∈ w.submissions, s.jobId = j ∧ result = fibonacciOf s.payload := by
  have hstart : Traced D known (World.deployed prefunded) :=
    ⟨fun _ hs => absurd hs List.not_mem_nil, fun _ hp => absurd hp List.not_mem_nil⟩
  obtain ⟨-, htraced⟩ := (traced_sound D known).observes (p := ()) hw hstart hbacked
  obtain ⟨owed, hinv⟩ := Registry.inv_observes hw
  obtain ⟨p, hp, journal, hjournal, rfl, -, rfl⟩ := hinv.bound.emitted j worker result hlog
  obtain ⟨sealBytes, hr⟩ := Registry.Payout.journal_eq_some.1 hjournal
  obtain ⟨s, hs, hproof⟩ := hinv.proofOf hp hr
  obtain ⟨hknown, hcommitted⟩ := htraced.journals p hp journal sealBytes hr
  exact ⟨s, hs, hproof.sameJob,
    result_of_committed hfree (htraced.payloads s hs) hknown hcommitted hproof.payloadHash⟩

open Sample

/-- The byte strings hashed in the run below. -/
def sampleKnown : Set Bytes := {payload, Sample.journal}

theorem injOn_sampleKnown : Set.InjOn deployment.sha256 sampleKnown := by
  have hne : deployment.sha256 payload ≠ deployment.sha256 Sample.journal := by decide +kernel
  intro x hx y hy h
  rcases hx with rfl | rfl <;> rcases hy with rfl | rfl
  · rfl
  · exact absurd h hne
  · exact absurd h.symm hne
  · rfl

/-- The job of the tenth number is submitted and proved. -/
theorem results_right_ten :
    ∃ w, Observes deployment (World.deployed 0) [submitJob.2, submitProof.2] w ∧
      .jobCompleted jobId ⟨.fill 20 2⟩ [55, 0, 0, 0, 0, 0, 0, 0] ∈ w.log ∧
      ∃ s ∈ w.submissions, s.jobId = jobId ∧
        [55, 0, 0, 0, 0, 0, 0, 0] = fibonacciOf s.payload := by
  have hmain : Guest.main deployment.sha256 ⟨jobId, payload⟩ = Sample.journal := by
    decide +kernel
  have hcommitted : Committed deployment.sha256 sampleKnown Sample.journal := by
    refine ⟨⟨jobId, payload⟩, ?_, .inl rfl, ?_⟩
    · rw [hmain]
      exact .inr rfl
    · rw [hmain]
  have hbacked : CallTree.Act.AllIn (Backed deployment sampleKnown)
      [submitJob.2, submitProof.2] := by
    simp only [submitJob, submitProof, Sample.call, CallTree.Act.all_call, CallTree.Act.AllIn,
      and_true]
    exact ⟨.inl rfl, .inr rfl, fun _ => hcommitted⟩
  have hw : Observes deployment (World.deployed 0) [submitJob.2, submitProof.2] _ :=
    .next (.next .here)
  have hlog : Registry.Event.jobCompleted jobId ⟨.fill 20 2⟩ [55, 0, 0, 0, 0, 0, 0, 0] ∈
      (Registry.run deployment [submitJob.2, submitProof.2] (World.deployed 0)).log := by
    decide +kernel
  exact ⟨_, hw, hlog, results_right deployment sampleKnown injOn_sampleKnown 0 _ hbacked _ hw _ _ _
    hlog⟩

end Prover

end ProofMarket
