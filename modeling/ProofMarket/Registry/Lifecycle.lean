import ProofMarket.Registry.Invariant
import Mathlib.Data.List.Count

/-!
# The life of a job on chain

**Theorem (`lifecycle`).** In every run, with any callers and any code behind the accounts that
receive rewards, a job id goes from absent to open to closed and never back. Its data is fixed by
the one `submitJob` that used the id, calls about other ids leave it alone, it is closed by exactly
one event, and its reward leaves the registry exactly once, to the account the event names.

What holds between transactions is `Settled`, read off the invariant with nothing owed. What holds
along a run is `Advances`, read off the order in which registries grow.
-/

namespace ProofMarket.Registry

/-- Where a job id is in its life. -/
inductive Phase where
  | absent
  | opened
  | closed
  deriving DecidableEq

/-- `absent < opened < closed`. -/
def Phase.rank : Phase → Nat
  | .absent => 0
  | .opened => 1
  | .closed => 2

/-- The event is `JobCompleted(j)`. -/
def Event.completes (j : JobId) : Event → Bool
  | .jobCompleted k _ _ => k = j
  | _ => false

/-- The event is `JobExpired(j)`. -/
def Event.expires (j : JobId) : Event → Bool
  | .jobExpired k => k = j
  | _ => false

theorem Event.closes_of_completes {j : JobId} {e : Event} (h : e.completes j = true) :
    e.closes = true := by
  cases e <;> simp_all [Event.completes, Event.closes]

theorem Event.jobId_of_completes {j : JobId} {e : Event} (h : e.completes j = true) :
    e.jobId = j := by
  cases e <;> simp_all [Event.completes, Event.jobId]

theorem Event.closes_of_expires {j : JobId} {e : Event} (h : e.expires j = true) :
    e.closes = true := by
  cases e <;> simp_all [Event.expires, Event.closes]

theorem Event.jobId_of_expires {j : JobId} {e : Event} (h : e.expires j = true) :
    e.jobId = j := by
  cases e <;> simp_all [Event.expires, Event.jobId]

theorem Event.not_completes_of_expires {j k : JobId} {e : Event} (h : e.expires j = true) :
    ¬ e.completes k = true := by
  cases e <;> simp_all [Event.expires, Event.completes]

namespace World

def phase (w : World) (j : JobId) : Phase :=
  if (w.jobs j).exists then if w.completed j then .closed else .opened else .absent

/-- How many `JobCompleted(j)` the log holds. -/
def completions (w : World) (j : JobId) : Nat := w.log.countP (Event.completes j)

/-- How many `JobExpired(j)` the log holds. -/
def expirations (w : World) (j : JobId) : Nat := w.log.countP (Event.expires j)

/-- The rewards sent for a job. -/
def payoutsFor (w : World) (j : JobId) : List Payout := w.payouts.filter fun p => p.jobId = j

/-- The executed `submitJob`s of an id. -/
def submissionsOf (w : World) (j : JobId) : List Submission :=
  w.submissions.filter fun s => s.jobId = j

/-- Everything the registry holds about an id. -/
def about (w : World) (j : JobId) :
    Job × Bool × List Event × List Submission × List Payout :=
  (w.jobs j, w.completed j, w.log.filter fun e => e.jobId = j, w.submissionsOf j, w.payoutsFor j)

end World

/-! ## Between transactions -/

/-- The reward of a closed job went out once: to the caller of a `submitProof` in time, or to the
owner through a late `expireJob`. -/
structure PaidOnce (w : World) (s : Submission) (p : Payout) : Prop where
  only : w.payoutsFor s.jobId = [p]
  amount : p.amount = s.msg.value
  logged : p.event ∈ w.log
  recipient :
    (∃ journal sealBytes, p.reason = .proof journal sealBytes ∧ p.recipient = p.msg.sender ∧
      p.msg.timestamp ≤ s.deadline) ∨
    (p.reason = .expiry ∧ p.recipient = s.msg.sender ∧ s.deadline < p.msg.timestamp)

/-- What holds about a job id between transactions. -/
structure Settled (w : World) (j : JobId) : Prop where
  absent : w.phase j = .absent → w.submissionsOf j = [] ∧ w.payoutsFor j = []
  submitted : w.phase j ≠ .absent → ∃ s, w.submissionsOf j = [s] ∧ w.jobs j = s.job
  unpaid : w.phase j = .opened → w.payoutsFor j = []
  paid : w.phase j = .closed → ∃ s p, w.submissionsOf j = [s] ∧ PaidOnce w s p
  completed_exists : w.completed j = true → (w.jobs j).exists = true
  closings : w.completions j + w.expirations j = if w.completed j then 1 else 0

theorem filter_key_eq_nil {α : Type} (key : α → JobId) (l : List α) (j : JobId)
    (h : j ∉ l.map key) : (l.filter fun a => key a = j) = [] := by
  rw [List.filter_eq_nil_iff]
  intro a ha hk
  exact h (List.mem_map.2 ⟨a, ha, by simpa using hk⟩)

theorem filter_key_eq_singleton {α : Type} {key : α → JobId} {l : List α} {a : α}
    (hl : (l.map key).Nodup) (ha : a ∈ l) : (l.filter fun b => key b = key a) = [a] := by
  induction l with
  | nil => cases ha
  | cons b l ih =>
    rw [List.map_cons, List.nodup_cons] at hl
    rcases List.mem_cons.1 ha with rfl | ha
    · rw [List.filter_cons_of_pos (by simp), filter_key_eq_nil key l _ hl.1]
    · have hne : key b ≠ key a := fun h => hl.1 (h ▸ List.mem_map_of_mem ha)
      rw [List.filter_cons_of_neg (by simpa using hne), ih hl.2 ha]

theorem completions_add_expirations (w : World) (j : JobId) :
    w.completions j + w.expirations j =
      (w.log.filter Event.closes).countP fun e => e.jobId = j := by
  unfold World.completions World.expirations
  rw [List.countP_filter]
  induction w.log with
  | nil => rfl
  | cons e l ih =>
    rw [List.countP_cons, List.countP_cons, List.countP_cons, ← ih]
    cases e with
    | jobSubmitted k owner reward deadline =>
      simp [Event.completes, Event.expires, Event.closes]
    | jobCompleted k worker result | jobExpired k =>
      by_cases hk : k = j
      · simp only [Event.completes, Event.expires, Event.closes, Event.jobId, hk, decide_true,
          Bool.and_self, reduceIte, Bool.false_eq_true]
        omega
      · simp [Event.completes, Event.expires, Event.jobId, hk]

section Settled

variable {D : Deployment} {w : World}

theorem Inv.closings (h : Inv D [] w) (j : JobId) :
    w.completions j + w.expirations j = if w.completed j then 1 else 0 := by
  have hperm : (w.log.filter Event.closes).Perm (w.payouts.map Payout.event) := by
    simpa using h.closed
  have hcount : (w.payouts.map Payout.event).countP (fun e => e.jobId = j) =
      (w.payouts.map Payout.jobId).count j := by
    rw [List.countP_map, List.count, List.countP_map]
    congr 1
    funext p
    simp [BEq.beq]
  rw [completions_add_expirations, hperm.countP_eq, hcount]
  split_ifs with hj
  · exact List.count_eq_one_of_mem h.payouts_nodup ((h.completed_iff j).1 hj)
  · exact List.count_eq_zero_of_not_mem fun hmem => hj ((h.completed_iff j).2 hmem)

theorem World.phase_eq_absent {j : JobId} : w.phase j = .absent ↔ (w.jobs j).exists = false := by
  unfold World.phase
  split_ifs <;> simp_all

theorem World.phase_eq_opened {j : JobId} :
    w.phase j = .opened ↔ (w.jobs j).exists = true ∧ w.completed j = false := by
  unfold World.phase
  split_ifs <;> simp_all

theorem World.phase_eq_closed {j : JobId} :
    w.phase j = .closed ↔ (w.jobs j).exists = true ∧ w.completed j = true := by
  unfold World.phase
  split_ifs <;> simp_all

theorem Inv.submissionsOf (h : Inv D [] w) {j : JobId} (hj : (w.jobs j).exists = true) :
    ∃ s, w.submissionsOf j = [s] ∧ w.jobs j = s.job ∧ s ∈ w.submissions ∧ s.jobId = j := by
  obtain ⟨s, hs, rfl⟩ := List.mem_map.1 ((h.exists_iff j).1 hj)
  exact ⟨s, filter_key_eq_singleton h.submissions_nodup hs, h.stored s hs, hs, rfl⟩

theorem Inv.not_paid (h : Inv D [] w) {j : JobId} (hj : w.completed j = false) :
    w.payoutsFor j = [] := by
  refine filter_key_eq_nil _ _ _ fun hmem => ?_
  rw [(h.completed_iff j).2 hmem] at hj
  cases hj

theorem Inv.paidOnce (h : Inv D [] w) {s : Submission} (hs : s ∈ w.submissions)
    (hj : w.completed s.jobId = true) : ∃ p, PaidOnce w s p := by
  obtain ⟨p, hp, hid⟩ := List.mem_map.1 ((h.completed_iff s.jobId).1 hj)
  have hdue := h.due p hp
  rw [hid, h.stored s hs] at hdue
  refine ⟨p, ?_, hdue.amount, ?_, ?_⟩
  · rw [← hid]
    exact filter_key_eq_singleton h.payouts_nodup hp
  · have hmem : p.event ∈ w.log.filter Event.closes ++ ([] : List Payout).map Payout.event :=
      h.closed.mem_iff.2 (List.mem_map_of_mem hp)
    simp only [List.map_nil, List.append_nil] at hmem
    exact (List.mem_filter.1 hmem).1
  · cases hr : p.reason with
    | proof journal sealBytes =>
      have hb := hdue.proof journal sealBytes hr
      exact .inl ⟨journal, sealBytes, rfl, hb.recipient, hb.inTime⟩
    | expiry =>
      have hb := hdue.expiry hr
      exact .inr ⟨rfl, hb.recipient, hb.late⟩

theorem Inv.settled (h : Inv D [] w) (j : JobId) : Settled w j where
  absent hj := by
    have hex := World.phase_eq_absent.1 hj
    have hno : w.completed j = false := by
      by_contra hc
      have := h.completed_exists (by simpa using hc)
      rw [hex] at this
      cases this
    refine ⟨filter_key_eq_nil _ _ _ fun hmem => ?_, h.not_paid hno⟩
    rw [(h.exists_iff j).2 hmem] at hex
    cases hex
  submitted hj := by
    have hex : (w.jobs j).exists = true := by
      by_contra hc
      exact hj (World.phase_eq_absent.2 (by simpa using hc))
    obtain ⟨s, hs, hjob, -⟩ := h.submissionsOf hex
    exact ⟨s, hs, hjob⟩
  unpaid hj := h.not_paid (World.phase_eq_opened.1 hj).2
  paid hj := by
    obtain ⟨hex, hc⟩ := World.phase_eq_closed.1 hj
    obtain ⟨s, hs, -, hmem, rfl⟩ := h.submissionsOf hex
    obtain ⟨p, hp⟩ := h.paidOnce hmem hc
    exact ⟨s, p, hs, hp⟩
  completed_exists := h.completed_exists
  closings := h.closings j

end Settled

/-! ## Along a run -/

/-- How an id moves from one state to a later one, which may lie in the middle of a call. -/
structure Advances (w w' : World) (j : JobId) : Prop where
  phase : (w.phase j).rank ≤ (w'.phase j).rank
  job : (w.jobs j).exists = true → w'.jobs j = w.jobs j
  completed_exists : w'.completed j = true → (w'.jobs j).exists = true

theorem World.Le.phase {w w' : World} (h : w.Le w') (j : JobId) :
    (w.phase j).rank ≤ (w'.phase j).rank := by
  cases hex : (w.jobs j).exists with
  | false => simp [World.phase, hex, Phase.rank]
  | true =>
    have hjob := h.jobs j hex
    cases hc : w.completed j with
    | false =>
      have hopen : w.phase j = .opened := World.phase_eq_opened.2 ⟨hex, hc⟩
      have hstay : w'.phase j ≠ .absent := by
        rw [Ne, World.phase_eq_absent, hjob, hex]
        decide
      rw [hopen]
      cases hw : w'.phase j <;> simp_all [Phase.rank]
    | true => simp [World.phase, hjob, hex, hc, h.completed j hc]

theorem about_sound (D : Deployment) (j : JobId) :
    (machine D).SoundOn (fun i => i.2.jobId ≠ j) fun v w => w.about j = v where
  poke _ _ _ hw := hw
  done v i w w' hi hw hop := by
    obtain ⟨s, rfl, -, -, -, rfl⟩ := op_done hop
    have hne : s.jobId ≠ j := hi
    rw [← hw]
    simp [World.about, World.submit, World.submissionsOf, World.payoutsFor, Submission.event,
      Event.jobId, hne, Function.update_of_ne hne.symm]
  yield v i w outer inner k hi hw hop := by
    obtain ⟨p, hp, -, rfl, hok, hfail⟩ := op_yield hop
    have hne : p.jobId ≠ j := hp.jobId ▸ hi
    refine ⟨⟨v, ?_, fun t t' ht hk => ?_⟩, fun t' hk => ?_⟩
    · rw [← hw]
      simp [World.about, World.send, World.complete, World.submissionsOf, World.payoutsFor, hne,
        Function.update_of_ne hne.symm]
    · rw [hok t t' hk, ← ht]
      simp [World.about, World.emit, World.submissionsOf, World.payoutsFor, hne]
    · rw [hfail] at hk
      cases hk

/-- **The life of a job.** After any transactions `txs`, each id is settled; and from there on, in
every state that any further transactions `more` show to foreign code, it has only moved forward.
Transactions that make no call about the id leave all of it as it was. -/
theorem lifecycle (D : Deployment) (prefunded : Nat) (txs more : List Act) (j : JobId) :
    Settled (run D txs (World.deployed prefunded)) j ∧
      (∀ w', Observes D (run D txs (World.deployed prefunded)) more w' →
        Advances (run D txs (World.deployed prefunded)) w' j) ∧
      (CallTree.Act.AllIn (fun i => i.2.jobId ≠ j) more →
        (run D more (run D txs (World.deployed prefunded))).about j =
          (run D txs (World.deployed prefunded)).about j) := by
  have hinv := inv_run D prefunded txs
  refine ⟨hinv.settled j, fun w' hw' => ?_, fun hmore => ?_⟩
  · have hle := (grows D).observes hw'
    obtain ⟨owed, hinv'⟩ := CallTree.Machine.Sound.observes (Inv.sound D) hw' hinv
    exact ⟨hle.phase j, hle.jobs j, hinv'.completed_exists⟩
  · exact (about_sound D j).execAll rfl more hmore

end ProofMarket.Registry
