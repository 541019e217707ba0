import ProofMarket.Network.Parties

/-!
# Speaking in another's name

The signed origin of an envelope and the names in its payload are never compared. What a worker and
the coordinator go by is therefore the word of a party of the protocol, or of a peer that is none.

* `workers_obey` — **a worker works on a job only if the coordinator has assigned it to that
  worker**, or a peer outside the protocol has signed the acceptance.
* `workers_obey_fails` — such a peer offers a job and accepts the claim in the coordinator's stead.
* `assignments_claimed` — **a job is assigned to an honest worker only if that worker has claimed
  it**, or another key has signed the claim.
* `assignments_claimed_fails` — a peer claims a job in the name of an idle worker.
-/

namespace ProofMarket

open Registry (Deployment)

namespace Parties

variable {D : Deployment} {K : Keys} {s s' : Parties} {l : Label}

/-! ## Acceptances -/

section Accept

/-- The coordinator's map has held the job as assigned to `w`. -/
def Held (past : List Parties) (j : JobId) (w : PeerId) : Prop :=
  ∃ u ∈ past, ∃ t, u.backend.jobs.status j = some (.assigned w t)

theorem Held.cons {past : List Parties} {j : JobId} {w : PeerId} (h : Held past j w) :
    Held (s :: past) j w := by
  obtain ⟨u, hu, hst⟩ := h
  exact ⟨u, List.mem_cons_of_mem _ hu, hst⟩

/-- The coordinator accepts what it assigns, and the worker `k` works on what it has heard to be
accepted. -/
structure Obedient (K : Keys) (k : PeerId) (past : List Parties) (s : Parties) : Prop where
  signed : s.Signed K
  matched : (s.workers k).TasksMatch
  replied : ∀ key j w, s.nodes.Said key (.claimAccepted j w) → Held past j w
  tasks : ∀ t ∈ (s.workers k).tasks, s.Heard k (.claimAccepted t.jobId (s.workers k).peerId)
  working : ∀ j, (s.workers k).status.isWorking j = true →
    s.Heard k (.claimAccepted j (s.workers k).peerId)

/-- Nobody but the coordinator accepts a claim, and it assigns the job. -/
theorem Step.replied (hstep : Step D K s l s') {key : PeerId} {j : JobId} {w : PeerId}
    (h : s'.nodes.Said key (.claimAccepted j w)) :
    s.nodes.Said key (.claimAccepted j w) ∨
      ∃ t, s'.backend.jobs.status j = some (.assigned w t) := by
  rcases hstep.said_cases h with hold | ⟨k, ms, hb, hm⟩ | ⟨k, w', ms, hw, hm⟩
  · exact .inl hold
  · rcases hb.sends hm with ⟨i, v, now, reachable, -, ⟨heq, -, hst⟩ | ⟨reason, heq, -⟩⟩ |
      ⟨job, heq, -⟩
    · cases heq
      exact .inr ⟨now, hst⟩
    · cases heq
    · cases heq
  · rcases hw.sends hm with ⟨job, now, -, heq, -⟩ | ⟨job, x, -, heq⟩
    · cases heq
    · cases heq

theorem Obedient.step {k : PeerId} {past : List Parties} (h : Obedient K k past s)
    (hstep : Step D K s l s') (hsound : s.Sound K l) : Obedient K k (s' :: past) s' := by
  have hreplied : ∀ key j w, s'.nodes.Said key (.claimAccepted j w) → Held (s' :: past) j w := by
    intro key j w hsaid
    rcases hstep.replied hsaid with hold | hassigned
    · exact (h.replied key j w hold).cons
    · exact ⟨s', List.mem_cons_self, hassigned⟩
  have hsigned := h.signed.step hstep hsound
  have hheard : ∀ m, s.Heard k m → s'.Heard k m := fun m => hstep.heard
  cases hstep with
  | gossip | coordinator =>
    exact ⟨hsigned, h.matched, hreplied, fun t ht => hheard _ (h.tasks t ht),
      fun j hj => hheard _ (h.working j hj)⟩
  | @worker key l heard posts w ms nodes hw hpayload hdelivered hspoken =>
    by_cases hk : key = k
    · subst hk
      have hworker : Function.update s.workers key w key = w := Function.update_self ..
      refine ⟨hsigned, ?_, hreplied, ?_, ?_⟩
      · simpa only [hworker] using hw.tasksMatch h.matched
      · simp only [hworker, hw.peerId]
        intro t ht
        rcases hw.task_cases h.matched ht with ⟨old, hold, hid⟩ | ⟨now, rfl⟩
        · rw [← hid]
          exact hheard _ (h.tasks old hold)
        · exact hheard _ (heard_of_handles hpayload hdelivered)
      · simp only [hworker, hw.peerId]
        intro j hj
        rcases hw.working_cases h.matched hj with hold | ⟨t, ht, rfl⟩ | ⟨now, rfl⟩
        · exact hheard _ (h.working j hold)
        · exact hheard _ (h.tasks t ht)
        · exact hheard _ (heard_of_handles hpayload hdelivered)
    · have hworker : Function.update s.workers key w k = s.workers k :=
        Function.update_of_ne (Ne.symm hk) _ _
      refine ⟨hsigned, ?_, hreplied, ?_, ?_⟩
      · simpa only [hworker] using h.matched
      · simpa only [hworker] using fun t ht => hheard _ (h.tasks t ht)
      · simpa only [hworker] using fun j hj => hheard _ (h.working j hj)

theorem obedient_start (config : PeerId → GossipConfig) (ids : PeerId → PeerId) (chain : Chain)
    (contract : Bool) (defaultDeadlineSecs : UInt64) (startBlock : Nat) (k : PeerId)
    (past : List Parties) :
    Obedient K k past (start config ids chain contract defaultDeadlineSecs startBlock) := by
  refine ⟨signed_start .., ?_, ?_, ?_, ?_⟩
  · intro j job hmem
    cases hmem
  · rintro key j w ⟨b, hb, -⟩
    cases hb
  · intro t ht
    cases ht
  · intro j hj
    cases hj

/-- **A worker works on a job only if the coordinator has assigned it to that worker**, or a peer
outside the protocol has signed the acceptance. -/
theorem workers_obey (D : Deployment) (K : Keys) (config : PeerId → GossipConfig)
    (ids : PeerId → PeerId) (chain : Chain) (contract : Bool) (defaultDeadlineSecs : UInt64)
    (startBlock : Nat) {past : List Parties} {s : Parties}
    (hrun : Transition.Path (step D K) (fun u l => u.Sound K l)
      (start config ids chain contract defaultDeadlineSecs startBlock) past s)
    (k : PeerId) (j : JobId) (hj : (s.workers k).status.isWorking j = true) :
    (∃ u ∈ past, ∃ t, u.backend.jobs.status j = some (.assigned (s.workers k).peerId t)) ∨
      ∃ e ∈ (s.nodes k).delivered, e.payload = .claimAccepted j (s.workers k).peerId ∧
        e.verify K.verifier = true ∧ K.honest e.origin = false := by
  have h : Obedient K k past s := by
    refine hrun.invariant ?_ (obedient_start ..)
    intro past u l v hu hok hnext
    exact hu.step (.of_step hnext) hok
  obtain ⟨e, he, hm⟩ := h.working j hj
  cases hhonest : K.honest e.origin with
  | true =>
    have hsaid := h.signed.said he hhonest
    rw [hm] at hsaid
    exact .inl (h.replied _ j _ hsaid)
  | false => exact .inr ⟨e, he, hm, h.signed.verified k e he, hhonest⟩

end Accept

/-! ## Claims -/

section Claim

/-- Workers claim under their own ids, and the coordinator assigns what it has heard to be
claimed. -/
structure Claimed (K : Keys) (s : Parties) : Prop where
  signed : s.Signed K
  creating : s.backend.CreatingPending
  own : ∀ key j w, s.nodes.Said key (.claimJob j w) → w = (s.workers key).peerId
  claimed : ∀ j w t, s.backend.jobs.status j = some (.assigned w t) →
    s.Heard K.hub (.claimJob j w)

theorem Step.peerId (hstep : Step D K s l s') (key : PeerId) :
    (s'.workers key).peerId = (s.workers key).peerId := by
  cases hstep with
  | gossip | coordinator => rfl
  | @worker k l heard posts w ms nodes hw =>
    show (Function.update s.workers k w key).peerId = _
    by_cases hk : key = k
    · subst hk
      rw [Function.update_self, hw.peerId]
    · rw [Function.update_of_ne hk]

theorem Step.own (hstep : Step D K s l s') {key : PeerId} {j : JobId} {w : PeerId}
    (h : s'.nodes.Said key (.claimJob j w)) :
    s.nodes.Said key (.claimJob j w) ∨ w = (s.workers key).peerId := by
  rcases hstep.said_cases h with hold | ⟨k, ms, hb, hm⟩ | ⟨k, w', ms, hw, hm⟩
  · exact .inl hold
  · rcases hb.sends hm with ⟨i, v, now, reachable, -, ⟨heq, -, -⟩ | ⟨reason, heq, -⟩⟩ |
      ⟨job, heq, -⟩
    · cases heq
    · cases heq
    · cases heq
  · rcases hw.sends hm with ⟨job, now, -, heq, -⟩ | ⟨job, x, -, heq⟩
    · cases heq
      exact .inr rfl
    · cases heq

theorem Claimed.step (h : Claimed K s) (hstep : Step D K s l s') (hsound : s.Sound K l) :
    Claimed K s' := by
  have hown : ∀ key j w, s'.nodes.Said key (.claimJob j w) → w = (s'.workers key).peerId := by
    intro key j w hsaid
    rw [hstep.peerId]
    rcases hstep.own hsaid with hold | hnew
    · exact h.own key j w hold
    · exact hnew
  have hsigned := h.signed.step hstep hsound
  have hheard : ∀ m, s.Heard K.hub m → s'.Heard K.hub m := fun m => hstep.heard
  cases hstep with
  | gossip | worker =>
    exact ⟨hsigned, h.creating, hown, fun j w t hj => hheard _ (h.claimed j w t hj)⟩
  | coordinator hb hpayload hdelivered =>
    refine ⟨hsigned, hb.creatingPending h.creating, hown, ?_⟩
    intro j w t hj
    refine hheard _ ?_
    obtain ⟨st', hst', hchange⟩ := hb.status j
    rw [hst'] at hj
    cases hchange with
    | keep => exact h.claimed j w t hj
    | assigned =>
      cases hj
      exact heard_of_handles hpayload hdelivered
    | inserted hmem =>
      rw [h.creating _ hmem] at hj
      cases hj
    | _ => cases hj

theorem claimed_start (config : PeerId → GossipConfig) (ids : PeerId → PeerId) (chain : Chain)
    (contract : Bool) (defaultDeadlineSecs : UInt64) (startBlock : Nat) :
    Claimed K (start config ids chain contract defaultDeadlineSecs startBlock) := by
  refine ⟨signed_start .., ?_, ?_, ?_⟩
  · intro job hjob
    cases hjob
  · rintro key j w ⟨b, hb, -⟩
    cases hb
  · intro j w t hj
    simp [start, Backend.start, JobMap.status] at hj

/-- **A job is assigned to an honest worker only if that worker has claimed it**, or another key has
signed the claim: that of a peer outside the protocol, or of a worker with the same id. -/
theorem assignments_claimed (D : Deployment) (K : Keys) (config : PeerId → GossipConfig)
    (ids : PeerId → PeerId) (chain : Chain) (contract : Bool) (defaultDeadlineSecs : UInt64)
    (startBlock : Nat) {s : Parties}
    (hrun : Steps D K (fun u l => u.Sound K l)
      (start config ids chain contract defaultDeadlineSecs startBlock) s)
    (k : PeerId) (hhonest : K.honest k = true) (j : JobId) (t : UInt64)
    (hj : s.backend.jobs.status j = some (.assigned (s.workers k).peerId t)) :
    s.nodes.Said k (.claimJob j (s.workers k).peerId) ∨
      ∃ e ∈ (s.nodes K.hub).delivered, e.payload = .claimJob j (s.workers k).peerId ∧
        e.verify K.verifier = true ∧ e.origin ≠ k ∧
        (K.honest e.origin = true → (s.workers e.origin).peerId = (s.workers k).peerId) := by
  have h : Claimed K s := by
    refine hrun.invariant ?_ (claimed_start ..)
    intro u l v hu hok hnext
    exact hu.step (.of_step hnext) hok
  obtain ⟨e, he, hm⟩ := h.claimed j _ t hj
  have hsaid : K.honest e.origin = true → s.nodes.Said e.origin e.payload := h.signed.said he
  rw [hm] at hsaid
  by_cases horigin : e.origin = k
  · left
    rw [horigin] at hsaid
    exact hsaid hhonest
  · right
    refine ⟨e, he, hm, h.signed.verified _ e he, horigin, ?_⟩
    intro hother
    exact (h.own _ j _ (hsaid hother)).symm

end Claim

/-! ## A job won, and a job nobody has given away -/

open Sample

def hub : PeerId := ⟨.fill 32 0⟩

def workerKey : PeerId := ⟨.fill 32 1⟩

/-- The id that the worker has drawn. -/
def workerId : PeerId := ⟨.fill 32 8⟩

def ids (key : PeerId) : PeerId := if key = workerKey then workerId else key

/-- A peer that follows no protocol. -/
def rogue : PeerId := ⟨.fill 32 2⟩

/-- A signature that shows whose it is. -/
def sign (key : PeerId) : FixedBytes 64 where
  val := key.bytes.val ++ key.bytes.val
  length_eq := by rw [List.length_append, key.bytes.length_eq]

def keys : Keys where
  verifier key _ signature := signature = sign key
  honest key := key = hub || key = workerKey
  hub := hub
  hub_honest := rfl

def fresh : Parties :=
  start (fun _ => .new) ids (Chain.genesis 0) true 300 0

def envelope (origin : PeerId) (n : UInt8) (m : GossipMessage) : GossipEnvelope :=
  ⟨⟨.fill 32 n⟩, origin, 3, m, sign origin⟩

/-- A message that is read back from its frame has a length. -/
def sized (m : GossipMessage)
    (h : GossipEnvelope.ofFrame (Wire.envelope.encode (envelope hub 0 m)) =
      some (envelope hub 0 m)) : SizedMessage :=
  ⟨m, GossipEnvelope.payload_fits_of_ofFrame h⟩

def offer : SizedMessage := sized (.jobAvailable job) (by decide +kernel)

def claim : SizedMessage := sized (.claimJob jobId workerId) (by decide +kernel)

def acceptance : SizedMessage := sized (.claimAccepted jobId workerId) (by decide +kernel)

def post (key : PeerId) (n : UInt8) (m : SizedMessage) : Post :=
  ⟨m, .trivial, ⟨.fill 32 n⟩, sign key⟩

/-- The node of the key reads a frame. -/
def hears (key : PeerId) (e : GossipEnvelope) : Label :=
  .gossip key (.frame (Wire.envelope.encode e) .trivial 0)

def accepted (origin : PeerId) : GossipEnvelope := envelope origin 3 acceptance.1

/-- The job is created and stored. -/
def created : List Label :=
  [.coordinator (.create request nonce 1000) none [], .coordinator (.mine [submitJob]) none [],
    .coordinator (.insert job) none []]

/-- The job is offered, claimed and won. -/
def won : List Label :=
  created ++
  [.coordinator (.announce job) none [post hub 1 offer],
    hears workerKey (envelope hub 1 offer.1),
    .worker workerKey (.recv (.jobAvailable job) 1001) (some (envelope hub 1 offer.1))
      [post workerKey 2 claim],
    hears hub (envelope workerKey 2 claim.1),
    .coordinator (.recv (.claimJob jobId workerId) 1002 true) (some (envelope workerKey 2 claim.1))
      [post hub 3 acceptance],
    hears workerKey (accepted hub),
    .worker workerKey (.recv (.claimAccepted jobId workerId) 1003) (some (accepted hub)) []]

/-- The rogue peer offers a job and accepts the claim of the worker. -/
def usurped : List Label :=
  [hears workerKey (envelope rogue 1 offer.1),
    .worker workerKey (.recv (.jobAvailable job) 1001) (some (envelope rogue 1 offer.1))
      [post workerKey 2 claim],
    hears workerKey (accepted rogue),
    .worker workerKey (.recv (.claimAccepted jobId workerId) 1003) (some (accepted rogue)) []]

/-- The rogue peer claims the job in the name of the worker. -/
def borrowed : List Label :=
  created ++
  [hears hub (envelope rogue 2 claim.1),
    .coordinator (.recv (.claimJob jobId workerId) 1002 true) (some (envelope rogue 2 claim.1))
      [post hub 3 acceptance]]

theorem workers_obey_won :
    ∃ past s, Transition.Path (step deployment keys) (fun u l => u.Sound keys l) fresh past s ∧
      (s.workers workerKey).status = .proving job ∧
      ((∃ u ∈ past, ∃ t, u.backend.jobs.status jobId =
          some (.assigned (s.workers workerKey).peerId t)) ∨
        ∃ e ∈ (s.nodes workerKey).delivered,
          e.payload = .claimAccepted jobId (s.workers workerKey).peerId ∧
            e.verify keys.verifier = true ∧ keys.honest e.origin = false) := by
  have hrun : (Transition.run (Transition.checked (step deployment keys) fun u l => u.Sound keys l)
      won fresh).map (fun s => (s.workers workerKey).status) = some (.proving job) := by
    decide +kernel
  obtain ⟨s, hs, hst⟩ := Transition.exists_of_checked hrun
  obtain ⟨past, hpast⟩ := hs.exists_path
  have hworking : (s.workers workerKey).status.isWorking jobId = true := by
    rw [hst]
    decide +kernel
  exact ⟨past, s, hpast, hst, workers_obey deployment keys (fun _ => .new) ids (Chain.genesis 0)
    true 300 0 hpast workerKey jobId hworking⟩

/-- The step is not one of the coordinator. -/
def Silent : Label → Prop
  | .coordinator _ _ _ => False
  | _ => True

theorem backend_of_silent {ok : Parties → Label → Prop} {past : List Parties} {s : Parties}
    (hrun : Transition.Path (step deployment keys) (fun u l => ok u l ∧ Silent l) fresh past s) :
    ∀ u ∈ past, u.backend = fresh.backend := by
  have h : s.backend = fresh.backend ∧ ∀ u ∈ past, u.backend = fresh.backend := by
    refine hrun.invariant
      (I := fun past s => s.backend = fresh.backend ∧ ∀ u ∈ past, u.backend = fresh.backend) ?_
      (by simp)
    intro past u l v hu hok hnext
    have hv : v.backend = fresh.backend := by
      cases Step.of_step hnext with
      | coordinator => exact hok.2.elim
      | gossip | worker => exact hu.1
    refine ⟨hv, ?_⟩
    intro x hx
    rcases List.mem_cons.1 hx with rfl | hx
    · exact hv
    · exact hu.2 x hx
  exact h.2

/-- **A worker proves a job that the coordinator has never heard of.** -/
theorem workers_obey_fails : ¬ ∀ past s,
    Transition.Path (step deployment keys) (fun u l => u.Sound keys l) fresh past s →
      ∀ k j, (s.workers k).status.isWorking j = true →
        ∃ u ∈ past, ∃ t, u.backend.jobs.status j = some (.assigned (s.workers k).peerId t) := by
  intro hall
  have hsilent : ∀ l ∈ usurped, ∀ _ : Parties, Silent l := by
    simp [usurped, hears, Silent]
  have hrun : (Transition.run (Transition.checked (step deployment keys) fun u l => u.Sound keys l)
      usurped fresh).map (fun s => (s.workers workerKey).status) = some (.proving job) := by
    decide +kernel
  obtain ⟨s, hs, hst⟩ := Transition.exists_of_checked_and hsilent hrun
  obtain ⟨past, hpast⟩ := hs.exists_path
  obtain ⟨u, hu, t, hj⟩ := hall past s (hpast.mono fun _ _ h => h.1) workerKey jobId
    (by rw [hst]; decide +kernel)
  rw [backend_of_silent hpast u hu] at hj
  cases hj

theorem assignments_claimed_won :
    ∃ s, Steps deployment keys (fun u l => u.Sound keys l) fresh s ∧
      s.backend.jobs.status jobId = some (.assigned (s.workers workerKey).peerId 1002) ∧
      (s.nodes.Said workerKey (.claimJob jobId (s.workers workerKey).peerId) ∨
        ∃ e ∈ (s.nodes hub).delivered,
          e.payload = .claimJob jobId (s.workers workerKey).peerId ∧
            e.verify keys.verifier = true ∧ e.origin ≠ workerKey ∧
            (keys.honest e.origin = true →
              (s.workers e.origin).peerId = (s.workers workerKey).peerId)) := by
  have hrun : (Transition.run (Transition.checked (step deployment keys) fun u l => u.Sound keys l)
      won fresh).map (fun s => decide (s.backend.jobs.status jobId =
        some (.assigned (s.workers workerKey).peerId 1002))) = some true := by
    decide +kernel
  obtain ⟨s, hs, hst⟩ := Transition.exists_of_checked hrun
  have hj := of_decide_eq_true hst
  exact ⟨s, hs, hj, assignments_claimed deployment keys (fun _ => .new) ids
    (Chain.genesis 0) true 300 0 hs workerKey rfl jobId 1002 hj⟩

/-- **A job is assigned to a worker that has said nothing.** -/
theorem assignments_claimed_fails : ¬ ∀ s,
    Steps deployment keys (fun u l => u.Sound keys l) fresh s →
      ∀ k, keys.honest k = true → ∀ j t,
        s.backend.jobs.status j = some (.assigned (s.workers k).peerId t) →
          s.nodes.Said k (.claimJob j (s.workers k).peerId) := by
  intro hall
  have hrun : (Transition.run (Transition.checked (step deployment keys) fun u l => u.Sound keys l)
      borrowed fresh).map (fun s => (s.backend.jobs.status jobId, (s.workers workerKey).peerId,
        decide (s.nodes.Said workerKey (.claimJob jobId workerId)))) =
          some (some (.assigned workerId 1002), workerId, false) := by
    decide +kernel
  obtain ⟨s, hs, hst⟩ := Transition.exists_of_checked hrun
  obtain ⟨hj, hrest⟩ := Prod.mk.inj hst
  obtain ⟨hid, hsilent⟩ := Prod.mk.inj hrest
  have hsaid := hall s hs workerKey rfl jobId 1002 (by rw [hid, hj])
  rw [hid] at hsaid
  exact of_decide_eq_false hsilent hsaid

end Parties

end ProofMarket
