import ProofMarket.Registry.Contract
import Mathlib.Data.List.Nodup
import Mathlib.Data.List.Perm.Basic

/-!
# The registry's invariant

`Inv D owed w` ties the registry's two mappings and its event log to the history of submissions
and payouts. Between transactions nothing is owed. While the recipient of a reward has control,
`owed` lists the payouts whose events the suspended calls have yet to emit: the flag
`completed[j]` and the transfer come before the event.

* `Inv.sound` — every operation keeps the invariant, so every run does, and foreign code sees no
  other state.
* `World.Le` — the order in which a registry grows; no operation ever moves down in it.
-/

namespace ProofMarket.Registry

/-- What `submitProof` had checked when it sent `p` for `journal`, with the job as it was stored. -/
structure ProofBound (D : Deployment) (job : Job) (p : Payout) (journal sealBytes : Bytes) :
    Prop where
  recipient : p.recipient = p.msg.sender
  inTime : p.msg.timestamp ≤ job.deadline
  long : 64 ≤ journal.length
  jobIdMatches : journal.take 32 = p.jobId.bytes.val
  payloadMatches : (journal.drop 32).take 32 = (D.sha256 job.payload).val
  verified : p.msg.verify sealBytes D.imageId (D.sha256 journal) = true

/-- What `expireJob` had checked when it sent `p`. -/
structure ExpiryBound (job : Job) (p : Payout) : Prop where
  recipient : p.recipient = job.owner
  late : job.deadline < p.msg.timestamp

/-- A payout was due for `job`. -/
structure Payout.Due (D : Deployment) (job : Job) (p : Payout) : Prop where
  found : job.exists = true
  amount : p.amount = job.reward
  proof : ∀ journal sealBytes, p.reason = .proof journal sealBytes →
    ProofBound D job p journal sealBytes
  expiry : p.reason = .expiry → ExpiryBound job p

theorem Payable.due {D : Deployment} {w : World} {i : Msg × Call} {p : Payout}
    (h : Payable D w i p) : p.Due D (w.jobs p.jobId) where
  found := h.found
  amount := h.amount
  proof := by
    intro journal sealBytes hr
    cases h with
    | proof h =>
      cases hr
      exact ⟨rfl, h.inTime, h.long, h.jobIdMatches, h.payloadMatches, h.verified⟩
    | expiry h => cases hr
  expiry := by
    intro hr
    cases h with
    | proof h => cases hr
    | expiry h => exact ⟨rfl, h.late⟩

structure Inv (D : Deployment) (owed : List Payout) (w : World) : Prop where
  stored : ∀ s ∈ w.submissions, w.jobs s.jobId = s.job
  funded : ∀ s ∈ w.submissions, 0 < s.msg.value ∧ s.msg.timestamp < s.deadline
  exists_iff : ∀ j, (w.jobs j).exists = true ↔ j ∈ w.submissions.map Submission.jobId
  submissions_nodup : (w.submissions.map Submission.jobId).Nodup
  due : ∀ p ∈ w.payouts, p.Due D (w.jobs p.jobId)
  completed_iff : ∀ j, w.completed j = true ↔ j ∈ w.payouts.map Payout.jobId
  payouts_nodup : (w.payouts.map Payout.jobId).Nodup
  opened : (w.log.filter fun e => !e.closes) = w.submissions.map Submission.event
  closed : (w.log.filter Event.closes ++ owed.map Payout.event).Perm (w.payouts.map Payout.event)

theorem inv_deployed (D : Deployment) (prefunded : Nat) : Inv D [] (World.deployed prefunded) := by
  constructor <;> simp [World.deployed]

section Step

variable {D : Deployment} {owed : List Payout} {w : World}

theorem Inv.completed_exists (h : Inv D owed w) {j : JobId} (hj : w.completed j = true) :
    (w.jobs j).exists = true := by
  obtain ⟨p, hp, rfl⟩ := List.mem_map.1 ((h.completed_iff j).1 hj)
  exact (h.due p hp).found

theorem Inv.force (h : Inv D owed w) (amount : Nat) : Inv D owed (w.force amount) :=
  ⟨h.stored, h.funded, h.exists_iff, h.submissions_nodup, h.due, h.completed_iff, h.payouts_nodup,
    h.opened, h.closed⟩

theorem Inv.submit (h : Inv D owed w) {s : Submission} (hfresh : (w.jobs s.jobId).exists = false)
    (hvalue : 0 < s.msg.value) (htime : s.msg.timestamp < s.deadline) :
    Inv D owed (w.submit s) := by
  have hnew : s.jobId ∉ w.submissions.map Submission.jobId := by
    rw [← h.exists_iff, hfresh]
    decide
  have hold : ∀ r ∈ w.submissions, r.jobId ≠ s.jobId := fun r hr heq =>
    hnew (heq ▸ List.mem_map_of_mem hr)
  have hpaid : ∀ p ∈ w.payouts, p.jobId ≠ s.jobId := fun p hp heq => by
    have := (h.due p hp).found
    rw [heq, hfresh] at this
    cases this
  exact {
    stored := by
      intro r hr
      rcases List.mem_append.1 hr with hr | hr
      · exact (Function.update_of_ne (hold r hr) _ _).trans (h.stored r hr)
      · rw [List.mem_singleton.1 hr]
        exact Function.update_self ..
    funded := by
      intro r hr
      rcases List.mem_append.1 hr with hr | hr
      · exact h.funded r hr
      · rw [List.mem_singleton.1 hr]
        exact ⟨hvalue, htime⟩
    exists_iff := by
      intro j
      simp only [World.submit, List.map_append, List.map_singleton, List.mem_append,
        List.mem_singleton]
      by_cases hj : j = s.jobId
      · subst hj
        simp [Submission.job]
      · rw [Function.update_of_ne hj, h.exists_iff]
        simp [hj]
    submissions_nodup := by
      simp only [World.submit, List.map_append, List.map_singleton]
      exact List.Nodup.append h.submissions_nodup (List.nodup_singleton _)
        (by simpa using hnew)
    due := by
      intro p hp
      have hjob : (w.submit s).jobs p.jobId = w.jobs p.jobId :=
        Function.update_of_ne (hpaid p hp) _ _
      rw [hjob]
      exact h.due p hp
    completed_iff := h.completed_iff
    payouts_nodup := h.payouts_nodup
    opened := by
      simp [World.submit, List.filter_append, h.opened]
    closed := by
      simpa [World.submit, List.filter_append] using h.closed }

/-- The flag and the transfer are ahead of the event, which is owed from now on. -/
theorem Inv.pay (h : Inv D owed w) {i : Msg × Call} {p : Payout} (hp : Payable D w i p) :
    Inv D (p :: owed) ((w.complete p.jobId).send p) := by
  have hnew : p.jobId ∉ w.payouts.map Payout.jobId := by
    rw [← h.completed_iff, hp.notCompleted]
    decide
  exact {
    stored := h.stored
    funded := h.funded
    exists_iff := h.exists_iff
    submissions_nodup := h.submissions_nodup
    due := by
      intro q hq
      rcases List.mem_append.1 hq with hq | hq
      · exact h.due q hq
      · rw [List.mem_singleton.1 hq]
        exact hp.due
    completed_iff := by
      intro j
      simp only [World.send, World.complete, List.map_append, List.map_singleton, List.mem_append,
        List.mem_singleton]
      by_cases hj : j = p.jobId
      · subst hj
        simp
      · rw [Function.update_of_ne hj, h.completed_iff]
        simp [hj]
    payouts_nodup := by
      simp only [World.send, World.complete, List.map_append, List.map_singleton]
      exact List.Nodup.append h.payouts_nodup (List.nodup_singleton _) (by simpa using hnew)
    opened := h.opened
    closed := by
      simp only [World.send, World.complete, List.map_append, List.map_cons, List.map_nil]
      have hmove : (w.log.filter Event.closes ++ p.event :: owed.map Payout.event).Perm
          (p.event :: (w.log.filter Event.closes ++ owed.map Payout.event)) := List.perm_middle
      exact hmove.trans ((h.closed.cons _).trans (List.perm_append_singleton _ _).symm) }

theorem Inv.emit {p : Payout} (h : Inv D (p :: owed) w) : Inv D owed (w.emit p.event) :=
  { h with
    opened := by simp [World.emit, List.filter_append, h.opened]
    closed := by simpa [World.emit, List.filter_append] using h.closed }

end Step

/-- **Every operation keeps the invariant.** -/
theorem Inv.sound (D : Deployment) : (machine D).Sound (Inv D) where
  poke _ amount _ hw := hw.force amount
  done owed i w w' _ hw hop := by
    obtain ⟨s, -, hfresh, hvalue, htime, rfl⟩ := op_done hop
    exact hw.submit hfresh hvalue htime
  yield owed i w outer inner k _ hw hop := by
    obtain ⟨p, hp, -, rfl, hok, hfail⟩ := op_yield hop
    refine ⟨⟨p :: owed, hw.pay hp, fun t t' ht hk => ?_⟩, fun t' hk => ?_⟩
    · rw [hok t t' hk]
      exact ht.emit
    · rw [hfail] at hk
      cases hk

theorem inv_run (D : Deployment) (prefunded : Nat) (txs : List Act) :
    Inv D [] (run D txs (World.deployed prefunded)) :=
  CallTree.Machine.Sound.execAll (Inv.sound D) (inv_deployed D prefunded) txs

theorem inv_observes {D : Deployment} {prefunded : Nat} {txs : List Act} {w : World}
    (h : Observes D (World.deployed prefunded) txs w) : ∃ owed, Inv D owed w :=
  CallTree.Machine.Sound.observes (Inv.sound D) h (inv_deployed D prefunded)

/-! ## Growth -/

/-- A registry only grows: stored jobs keep their data, completed ones stay completed, and nothing
is taken from its history. -/
structure World.Le (w w' : World) : Prop where
  jobs : ∀ j, (w.jobs j).exists = true → w'.jobs j = w.jobs j
  completed : ∀ j, w.completed j = true → w'.completed j = true
  log : w.log <+: w'.log
  submissions : w.submissions <+: w'.submissions
  payouts : w.payouts <+: w'.payouts
  forced : w.forced ≤ w'.forced

theorem World.Le.refl (w : World) : w.Le w :=
  ⟨fun _ _ => rfl, fun _ h => h, List.prefix_rfl, List.prefix_rfl, List.prefix_rfl, Nat.le_refl _⟩

theorem World.Le.trans {u v w : World} (h : u.Le v) (h' : v.Le w) : u.Le w where
  jobs j hj := (h'.jobs j (by rwa [h.jobs j hj])).trans (h.jobs j hj)
  completed j hj := h'.completed j (h.completed j hj)
  log := h.log.trans h'.log
  submissions := h.submissions.trans h'.submissions
  payouts := h.payouts.trans h'.payouts
  forced := Nat.le_trans h.forced h'.forced

theorem World.le_emit (w : World) (e : Event) : w.Le (w.emit e) :=
  { World.Le.refl w with log := List.prefix_append _ _ }

theorem World.le_submit {w : World} {s : Submission} (hfresh : (w.jobs s.jobId).exists = false) :
    w.Le (w.submit s) where
  jobs j hj := Function.update_of_ne (by rintro rfl; simp [hfresh] at hj) _ _
  completed _ hj := hj
  log := List.prefix_append _ _
  submissions := List.prefix_append _ _
  payouts := List.prefix_rfl
  forced := Nat.le_refl _

theorem World.le_pay (w : World) (p : Payout) : w.Le ((w.complete p.jobId).send p) where
  jobs _ _ := rfl
  completed j hj := by
    simp only [World.send, World.complete, Function.update_apply]
    split_ifs
    · rfl
    · exact hj
  log := List.prefix_rfl
  submissions := List.prefix_rfl
  payouts := List.prefix_append _ _
  forced := Nat.le_refl _

/-- **No operation moves a registry down.** -/
theorem grows (D : Deployment) : (machine D).Grows World.Le where
  refl := World.Le.refl
  trans := World.Le.trans
  poke amount w := { World.Le.refl w with forced := Nat.le_add_right _ _ }
  done i w w' hop := by
    obtain ⟨s, -, hfresh, -, -, rfl⟩ := op_done hop
    exact World.le_submit hfresh
  yield i w outer inner k hop := by
    obtain ⟨p, -, -, rfl, hok, hfail⟩ := op_yield hop
    refine ⟨w.le_pay p, fun t t' _ hk => ?_, fun t' hk => ?_⟩
    · rw [hok t t' hk]
      exact t.le_emit _
    · rw [hfail] at hk
      cases hk

end ProofMarket.Registry
