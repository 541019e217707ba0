import ProofMarket.Registry.Escrow

/-!
# Reading the registry off its events

An indexer sees no storage, only the events of the transactions that succeeded. Reading them in
order, it can keep a ledger of its own: who offers how much for which job until when, and how the
job has ended.

**Theorem (`log_tells`).** Between transactions the ledger says of each job what `getJob` answers,
and who has been paid for it. While the recipient of a reward has control, it is behind at most on
the jobs whose rewards are being sent: these are completed, and their events are yet to come.

`Told` is the invariant, indexed like that of the registry by the payouts whose events are owed.
-/

namespace ProofMarket.Registry

/-! ## The ledger -/

/-- How a job has ended, as its event says. -/
inductive Ending where
  | completed (worker : Address) (result : Bytes)
  | expired
  deriving DecidableEq

structure Entry where
  owner : Address
  reward : Nat
  deadline : Nat
  ending : Option Ending
  deriving DecidableEq

abbrev Ledger := JobId → Option Entry

/-- An event is read. -/
def Ledger.read (ledger : Ledger) : Event → Ledger
  | .jobSubmitted jobId owner reward deadline =>
    Function.update ledger jobId (some ⟨owner, reward, deadline, none⟩)
  | .jobCompleted jobId worker result =>
    Function.update ledger jobId
      ((ledger jobId).map fun e => { e with ending := some (.completed worker result) })
  | .jobExpired jobId =>
    Function.update ledger jobId ((ledger jobId).map fun e => { e with ending := some .expired })

/-- A log is read from its beginning. -/
def replay (log : List Event) : Ledger := log.foldl Ledger.read fun _ => none

/-- The account to which the entry says the reward has gone. -/
def Entry.paid (e : Entry) : Option Address :=
  e.ending.map fun
    | .completed worker _ => worker
    | .expired => e.owner

/-! ## What there is to tell -/

/-- What `getJob` answers. -/
structure JobView where
  owner : Address
  payload : Bytes
  reward : Nat
  deadline : Nat
  «exists» : Bool
  isCompleted : Bool
  deriving DecidableEq

/-- `getJob`. -/
def World.getJob (w : World) (jobId : JobId) : JobView :=
  let job := w.jobs jobId
  ⟨job.owner, job.payload, job.reward, job.deadline, job.exists, w.completed jobId⟩

/-- The entry has the terms of the job, knows whether it has ended, and whom its reward has been
sent to. -/
structure Entry.Describes (e : Entry) (w : World) (jobId : JobId) : Prop where
  found : (w.getJob jobId).exists = true
  owner : (w.getJob jobId).owner = e.owner
  reward : (w.getJob jobId).reward = e.reward
  deadline : (w.getJob jobId).deadline = e.deadline
  completed : (w.getJob jobId).isCompleted = e.ending.isSome
  paid : ∀ account, e.paid = some account ↔
    ∃ p ∈ w.payouts, p.jobId = jobId ∧ p.recipient = account ∧ p.amount = e.reward

/-- What a ledger says of the job is so. -/
def World.Agrees (w : World) (jobId : JobId) : Option Entry → Prop
  | none => (w.getJob jobId).exists = false
  | some e => e.Describes w jobId

/-- The job has ended, and its event is yet to come. -/
def World.Settling (w : World) (jobId : JobId) (entry : Option Entry) : Prop :=
  ∃ e ending, entry = some e ∧ e.ending = none ∧
    Entry.Describes { e with ending := some ending } w jobId

/-! ## The ledger keeps up -/

/-- What the event of a payout says. -/
def Payout.ending (p : Payout) : Ending :=
  match p.reason with
  | .proof journal _ => .completed p.recipient (journal.drop 64)
  | .expiry => .expired

/-- The terms of a job and how its reward was sent. -/
def World.entry (w : World) (jobId : JobId) : Option Entry :=
  let job := w.jobs jobId
  if job.exists then
    some ⟨job.owner, job.reward, job.deadline,
      (w.payouts.find? fun p => p.jobId = jobId).map Payout.ending⟩
  else none

/-- The entry before the job ended. -/
def Entry.unended (e : Entry) : Entry := { e with ending := none }

/-- What the log can tell while the events of the payouts `owed` are to come. -/
def World.told (w : World) (owed : List Payout) (jobId : JobId) : Option Entry :=
  if jobId ∈ owed.map Payout.jobId then (w.entry jobId).map Entry.unended else w.entry jobId

structure Told (D : Deployment) (owed : List Payout) (w : World) : Prop where
  inv : Inv D owed w
  replayed : replay w.log = w.told owed

section Step

variable {D : Deployment} {owed : List Payout} {w : World} {p q : Payout} {j : JobId}

theorem replay_append (log : List Event) (e : Event) :
    replay (log ++ [e]) = (replay log).read e := by
  simp [replay]

theorem Ledger.read_payout (ledger : Ledger) (p : Payout) :
    ledger.read p.event = Function.update ledger p.jobId
      ((ledger p.jobId).map fun e => { e with ending := some p.ending }) := by
  unfold Payout.event Payout.ending
  cases p.reason <;> rfl

theorem Payout.ending_eq (h : q.event = p.event) : q.ending = p.ending := by
  obtain ⟨msg, k, account, amount, reason⟩ := p
  obtain ⟨msg', k', account', amount', reason'⟩ := q
  cases reason <;> cases reason' <;> simp_all [Payout.event, Payout.ending]

/-! ### The payout of a job -/

theorem find?_payouts_eq_none (h : j ∉ w.payouts.map Payout.jobId) :
    (w.payouts.find? fun p => p.jobId = j) = none := by
  rw [List.find?_eq_none]
  intro p hp hj
  exact h (List.mem_map.2 ⟨p, hp, of_decide_eq_true hj⟩)

theorem Inv.find?_payouts (h : Inv D owed w) (hp : p ∈ w.payouts) :
    (w.payouts.find? fun q => q.jobId = p.jobId) = some p := by
  cases hfind : w.payouts.find? fun q => q.jobId = p.jobId with
  | none => exact absurd (List.find?_eq_none.1 hfind p hp) (by simp)
  | some q =>
    have hid : q.jobId = p.jobId := by simpa using List.find?_some hfind
    have hq := List.mem_of_find?_eq_some hfind
    exact congrArg some (List.inj_on_of_nodup_map h.payouts_nodup hq hp hid)

theorem Inv.owed_payouts (h : Inv D owed w) :
    (owed.map Payout.jobId).Nodup ∧ owed.map Payout.jobId ⊆ w.payouts.map Payout.jobId := by
  have hids := h.closed.map Event.jobId
  rw [List.map_append, List.map_map, List.map_map] at hids
  have hevent : Event.jobId ∘ Payout.event = Payout.jobId := funext Payout.jobId_event
  rw [hevent] at hids
  have hnodup := hids.nodup_iff.2 h.payouts_nodup
  refine ⟨(List.nodup_append'.1 hnodup).2.1, ?_⟩
  intro k hk
  exact hids.subset (List.mem_append_right _ hk)

theorem Inv.find?_owed (h : Inv D (p :: owed) w) :
    (w.payouts.find? fun q => q.jobId = p.jobId).map Payout.ending = some p.ending := by
  have hevent : p.event ∈ w.payouts.map Payout.event :=
    h.closed.subset (List.mem_append_right _ List.mem_cons_self)
  obtain ⟨q, hq, heq⟩ := List.mem_map.1 hevent
  have hid : q.jobId = p.jobId := by
    rw [← Payout.jobId_event, heq, Payout.jobId_event]
  rw [← hid, h.find?_payouts hq]
  exact congrArg some (Payout.ending_eq heq)

theorem Payout.Due.paid {job : Job} (h : p.Due D job) :
    Entry.paid ⟨job.owner, job.reward, job.deadline, some p.ending⟩ = some p.recipient := by
  unfold Entry.paid Payout.ending
  cases hr : p.reason with
  | proof journal sealBytes => rfl
  | expiry =>
    rw [(h.expiry hr).recipient]
    rfl

theorem Inv.describes (h : Inv D owed w) {e : Entry} (he : w.entry j = some e) :
    e.Describes w j := by
  simp only [World.entry] at he
  split_ifs at he with hex
  cases he
  cases hfind : w.payouts.find? fun p => p.jobId = j with
  | none =>
    have hunpaid : ∀ p ∈ w.payouts, p.jobId ≠ j := by
      simpa using List.find?_eq_none.1 hfind
    refine ⟨hex, rfl, rfl, rfl, ?_, ?_⟩
    · show w.completed j = false
      rw [← Bool.not_eq_true, h.completed_iff]
      intro hj
      obtain ⟨p, hp, hid⟩ := List.mem_map.1 hj
      exact hunpaid p hp hid
    · intro account
      constructor
      · intro hpaid
        cases hpaid
      · rintro ⟨p, hp, hid, -⟩
        exact absurd hid (hunpaid p hp)
  | some p =>
    have hp := List.mem_of_find?_eq_some hfind
    obtain rfl : p.jobId = j := by simpa using List.find?_some hfind
    have hdue := h.due p hp
    refine ⟨hex, rfl, rfl, rfl, (h.completed_iff _).2 (List.mem_map_of_mem hp), ?_⟩
    intro account
    rw [Option.map_some, hdue.paid]
    constructor
    · intro haccount
      exact ⟨p, hp, rfl, Option.some.inj haccount, hdue.amount⟩
    · rintro ⟨q, hq, hid, rfl, -⟩
      rw [List.inj_on_of_nodup_map h.payouts_nodup hq hp hid]

theorem Inv.agrees (h : Inv D owed w) (j : JobId) : w.Agrees j (w.entry j) := by
  cases he : w.entry j with
  | none => simpa [World.entry, World.Agrees, World.getJob] using he
  | some e => exact h.describes he

/-! ### What an operation writes -/

theorem Told.submit (h : Told D owed w) {s : Submission} (hfresh : (w.jobs s.jobId).exists = false)
    (hvalue : 0 < s.msg.value) (htime : s.msg.timestamp < s.deadline) :
    Told D owed (w.submit s) where
  inv := h.inv.submit hfresh hvalue htime
  replayed := by
    have hunpaid : s.jobId ∉ w.payouts.map Payout.jobId := by
      rw [← h.inv.completed_iff]
      intro hc
      rw [h.inv.completed_exists hc] at hfresh
      cases hfresh
    have hnew : (w.submit s).told owed s.jobId =
        some ⟨s.msg.sender, s.msg.value, s.deadline, none⟩ := by
      have howed : s.jobId ∉ owed.map Payout.jobId := fun hj => hunpaid (h.inv.owed_payouts.2 hj)
      simp [World.told, howed, World.entry, World.submit, Submission.job,
        find?_payouts_eq_none hunpaid]
    have hold : ∀ k, k ≠ s.jobId → (w.submit s).told owed k = w.told owed k := by
      intro k hk
      simp [World.told, World.entry, World.submit, Function.update_of_ne hk]
    show replay (w.log ++ [s.event]) = _
    rw [replay_append, h.replayed]
    funext k
    by_cases hk : k = s.jobId
    · rw [hk, hnew]
      exact Function.update_self _ _ _
    · rw [hold k hk]
      exact Function.update_of_ne hk _ _

theorem Told.pay (h : Told D owed w) {i : Msg × Call} (hp : Payable D w i p) :
    Told D (p :: owed) ((w.complete p.jobId).send p) where
  inv := h.inv.pay hp
  replayed := by
    have hunpaid : p.jobId ∉ w.payouts.map Payout.jobId := by
      rw [← h.inv.completed_iff, hp.notCompleted]
      decide
    have howed : p.jobId ∉ owed.map Payout.jobId := fun hj => hunpaid (h.inv.owed_payouts.2 hj)
    show replay w.log = _
    rw [h.replayed]
    funext k
    by_cases hk : k = p.jobId
    · subst hk
      simp [World.told, howed, World.entry, World.send, World.complete, hp.found,
        find?_payouts_eq_none hunpaid, Entry.unended]
    · have hfind : ((w.payouts ++ [p]).find? fun q => q.jobId = k) =
          w.payouts.find? fun q => q.jobId = k := by
        simp [List.find?_append, Ne.symm hk]
      simp [World.told, hk, World.entry, World.send, World.complete, hfind]

theorem Told.emit (h : Told D (p :: owed) w) : Told D owed (w.emit p.event) where
  inv := h.inv.emit
  replayed := by
    have hnodup := h.inv.owed_payouts.1
    rw [List.map_cons, List.nodup_cons] at hnodup
    show replay (w.log ++ [p.event]) = _
    rw [replay_append, Ledger.read_payout, h.replayed]
    funext k
    by_cases hk : k = p.jobId
    · subst hk
      have hending := h.inv.find?_owed
      rw [Function.update_self]
      cases hex : (w.jobs p.jobId).exists with
      | false => simp [World.told, World.entry, World.emit, hex]
      | true =>
        simp [World.told, hnodup.1, World.entry, World.emit, hex, Entry.unended, hending]
    · have hentry : (w.emit p.event).entry k = w.entry k := rfl
      rw [Function.update_of_ne hk]
      simp [World.told, hk, hentry]

end Step

/-- **Every operation keeps the ledger up.** -/
theorem told_sound (D : Deployment) : (machine D).Sound (Told D) where
  poke _ amount _ hw := ⟨hw.inv.force amount, hw.replayed⟩
  done owed i w w' _ hw hop := by
    obtain ⟨s, -, hfresh, hvalue, htime, rfl⟩ := op_done hop
    exact hw.submit hfresh hvalue htime
  yield owed i w outer inner k _ hw hop := by
    obtain ⟨p, hp, -, rfl, hok, hfail⟩ := op_yield hop
    refine ⟨⟨p :: owed, hw.pay hp, fun t t' ht hk => ?_⟩, fun t' hk => ?_⟩
    · rw [hok t t' hk]
      exact ht.emit
    · rw [hfail] at hk
      cases hk

theorem told_deployed (D : Deployment) (prefunded : Nat) :
    Told D [] (World.deployed prefunded) where
  inv := inv_deployed D prefunded
  replayed := by
    funext k
    rfl

/-- What the ledger says while some events are owed. -/
theorem Told.settling {D : Deployment} {owed : List Payout} {w : World} (h : Told D owed w)
    {j : JobId} (hj : j ∈ owed.map Payout.jobId) : w.Settling j (replay w.log j) := by
  have hpaid := h.inv.owed_payouts.2 hj
  obtain ⟨p, hp, rfl⟩ := List.mem_map.1 hpaid
  have hentry : w.entry p.jobId = some ⟨(w.jobs p.jobId).owner, (w.jobs p.jobId).reward,
      (w.jobs p.jobId).deadline, some p.ending⟩ := by
    simp [World.entry, (h.inv.due p hp).found, h.inv.find?_payouts hp]
  refine ⟨⟨(w.jobs p.jobId).owner, (w.jobs p.jobId).reward, (w.jobs p.jobId).deadline, none⟩,
    p.ending, ?_, rfl, h.inv.describes hentry⟩
  rw [h.replayed, World.told, if_pos hj, hentry]
  rfl

/-- **The events tell it all.** -/
theorem log_tells (D : Deployment) (prefunded : Nat) (txs : List Act) :
    (∀ j, (run D txs (World.deployed prefunded)).Agrees j
      (replay (run D txs (World.deployed prefunded)).log j)) ∧
    ∀ w, Observes D (World.deployed prefunded) txs w →
      ∀ j, w.Agrees j (replay w.log j) ∨ w.Settling j (replay w.log j) := by
  have hstart := told_deployed D prefunded
  refine ⟨fun j => ?_, fun w hw j => ?_⟩
  · have htold : Told D [] (run D txs (World.deployed prefunded)) :=
      (told_sound D).execAll hstart txs
    rw [htold.replayed]
    exact htold.inv.agrees j
  · obtain ⟨owed, htold⟩ := (told_sound D).observes hw hstart
    by_cases hj : j ∈ owed.map Payout.jobId
    · exact .inr (htold.settling hj)
    · left
      rw [htold.replayed, World.told, if_neg hj]
      exact htold.inv.agrees j

end ProofMarket.Registry
