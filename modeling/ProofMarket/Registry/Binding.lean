import ProofMarket.Registry.Lifecycle

/-!
# Rewards are bound to proofs

**Theorem (`proof_binding`).** A reward sent through `submitProof` was sent in a call in which the
verifier accepted the journal, and the journal names the job and the hash of the payload the job
was submitted with. The id sits in the journal and an id is paid once, so a journal is paid once.
-/

namespace ProofMarket.Registry

/-- The journal a payout was sent for. -/
def Payout.journal (p : Payout) : Option Bytes :=
  match p.reason with
  | .proof journal _ => some journal
  | .expiry => none

theorem Payout.journal_eq_some {p : Payout} {journal : Bytes} :
    p.journal = some journal ↔ ∃ sealBytes, p.reason = .proof journal sealBytes := by
  unfold Payout.journal
  cases p.reason <;> simp

/-- The payout `p` was sent for `journal`, in a call that proved the job of submission `s`. -/
structure ProofOf (D : Deployment) (s : Submission) (p : Payout) (journal sealBytes : Bytes) :
    Prop where
  sameJob : s.jobId = p.jobId
  verified : p.msg.verify sealBytes D.imageId (D.sha256 journal) = true
  long : 64 ≤ journal.length
  jobId : journal.take 32 = p.jobId.bytes.val
  payloadHash : (journal.drop 32).take 32 = (D.sha256 s.payload).val
  event : p.event = .jobCompleted p.jobId p.msg.sender (journal.drop 64)

/-- What the payouts of a registry say about proofs. -/
structure Bound (D : Deployment) (w : World) : Prop where
  proved : ∀ p ∈ w.payouts, ∀ journal sealBytes, p.reason = .proof journal sealBytes →
    ∃ s ∈ w.submissions, ProofOf D s p journal sealBytes
  emitted : ∀ j worker result, .jobCompleted j worker result ∈ w.log →
    ∃ p ∈ w.payouts, ∃ journal, p.journal = some journal ∧ p.jobId = j ∧ p.recipient = worker ∧
      result = journal.drop 64
  paidOnce : ∀ journal, (w.payouts.filter fun p => p.journal = some journal).length ≤ 1
  otherPayload : ∀ s ∈ w.submissions, ∀ journal payload,
    (journal.drop 32).take 32 = (D.sha256 payload).val → D.sha256 payload ≠ D.sha256 s.payload →
      ∀ p ∈ w.payouts, p.jobId = s.jobId → p.journal ≠ some journal

section Bound

variable {D : Deployment} {owed : List Payout} {w : World}

theorem Inv.proofOf (h : Inv D owed w) {p : Payout} (hp : p ∈ w.payouts)
    {journal sealBytes : Bytes} (hr : p.reason = .proof journal sealBytes) :
    ∃ s ∈ w.submissions, ProofOf D s p journal sealBytes := by
  have hdue := h.due p hp
  obtain ⟨s, hs, hid⟩ := List.mem_map.1 ((h.exists_iff p.jobId).1 hdue.found)
  have hb := hdue.proof journal sealBytes hr
  have hjob : w.jobs p.jobId = s.job := hid ▸ h.stored s hs
  rw [hjob] at hb
  refine ⟨s, hs, hid, hb.verified, hb.long, hb.jobIdMatches, hb.payloadMatches, ?_⟩
  rw [Payout.event, hr, hb.recipient]

theorem ProofOf.jobId_eq {s s' : Submission} {p q : Payout} {journal a b : Bytes}
    (hp : ProofOf D s p journal a) (hq : ProofOf D s' q journal b) : p.jobId = q.jobId := by
  have hval := hp.jobId.symm.trans hq.jobId
  cases hpj : p.jobId
  cases hqj : q.jobId
  rw [hpj, hqj] at hval
  exact congrArg JobId.mk (FixedBytes.ext hval)

theorem Inv.journal_paidOnce (h : Inv D owed w) (journal : Bytes) :
    (w.payouts.filter fun p => p.journal = some journal).length ≤ 1 := by
  cases hpaid : w.payouts.filter fun p => p.journal = some journal with
  | nil => exact Nat.zero_le _
  | cons p rest =>
    have hmem : ∀ q ∈ p :: rest, q ∈ w.payouts ∧ q.journal = some journal := fun q hq => by
      rw [← hpaid, List.mem_filter] at hq
      exact ⟨hq.1, by simpa using hq.2⟩
    have hsame : ∀ q ∈ p :: rest, q.jobId = p.jobId := fun q hq => by
      obtain ⟨hqm, hqj⟩ := hmem q hq
      obtain ⟨hpm, hpj⟩ := hmem p (List.mem_cons_self ..)
      obtain ⟨a, ha⟩ := Payout.journal_eq_some.1 hqj
      obtain ⟨b, hb⟩ := Payout.journal_eq_some.1 hpj
      obtain ⟨s, -, hqs⟩ := h.proofOf hqm ha
      obtain ⟨s', -, hps⟩ := h.proofOf hpm hb
      exact hqs.jobId_eq hps
    have hsub : List.Sublist (p :: rest) w.payouts := hpaid ▸ List.filter_sublist
    have hnodup := (hsub.map Payout.jobId).nodup h.payouts_nodup
    cases rest with
    | nil => exact Nat.le_refl _
    | cons q rest =>
      have hq := hsame q (by simp)
      simp [hq] at hnodup

theorem Inv.bound (h : Inv D owed w) : Bound D w where
  proved p hp _ _ hr := h.proofOf hp hr
  emitted j worker result hlog := by
    have hmem : Event.jobCompleted j worker result ∈ w.payouts.map Payout.event :=
      h.closed.mem_iff.1 (List.mem_append_left _ (List.mem_filter.2 ⟨hlog, rfl⟩))
    obtain ⟨p, hp, he⟩ := List.mem_map.1 hmem
    cases hr : p.reason with
    | proof journal sealBytes =>
      rw [Payout.event, hr] at he
      cases he
      exact ⟨p, hp, journal, Payout.journal_eq_some.2 ⟨_, hr⟩, rfl, rfl, rfl⟩
    | expiry =>
      rw [Payout.event, hr] at he
      cases he
  paidOnce := h.journal_paidOnce
  otherPayload s hs journal payload hhash hne p hp hid hj := by
    obtain ⟨sealBytes, hr⟩ := Payout.journal_eq_some.1 hj
    have hb := (h.due p hp).proof journal sealBytes hr
    have hjob : w.jobs p.jobId = s.job := hid ▸ h.stored s hs
    rw [hjob] at hb
    exact hne (FixedBytes.ext (hhash.symm.trans hb.payloadMatches))

end Bound

/-- **Rewards are bound to proofs**, in every state foreign code can observe; between transactions
each of them has its event in the log. -/
theorem proof_binding (D : Deployment) (prefunded : Nat) (txs : List Act) :
    (∀ w, Observes D (World.deployed prefunded) txs w → Bound D w) ∧
      ∀ p ∈ (run D txs (World.deployed prefunded)).payouts,
        p.event ∈ (run D txs (World.deployed prefunded)).log := by
  refine ⟨fun w hw => ?_, fun p hp => ?_⟩
  · obtain ⟨owed, hinv⟩ := inv_observes hw
    exact hinv.bound
  · have hinv := inv_run D prefunded txs
    have hmem := hinv.closed.mem_iff.2 (List.mem_map_of_mem hp)
    simp only [List.map_nil, List.append_nil] at hmem
    exact (List.mem_filter.1 hmem).1

end ProofMarket.Registry
