import ProofMarket.Network.Origins
import ProofMarket.Network.Refinement

/-!
# Coordinator and workers on the wire

The coordinator and the workers of a deployment, each with a node, and the nodes with everything
between them: run loops, broadcast calls, bounded queues, connections, and streams that deliver
bytes in pieces and break at any time (`Fabric`). A party handles envelopes that its node has
delivered: those that its loop receives (`LoopingParties`) are among them.

**Theorem (`refines_system`).** Whatever the schedule is, they do what coordinator and workers do
over a network that loses, delays, reorders and duplicates messages and invents none. Nothing is
assumed of signatures: all nodes run this code.
-/

namespace ProofMarket

open Registry (Deployment)

/-- What the parties run on: the frames, the signature scheme, how their nodes are connected, and
the key of the coordinator. -/
structure Site (κ : Type) where
  format : FrameFormat
  verifier : Verifier
  cabling : Cabling κ PeerId
  hub : PeerId

/-- No node is left out. -/
def Site.keys {κ : Type} (N : Site κ) : Keys := ⟨N.verifier, everyone, N.hub, rfl⟩

/-- A party handles an envelope that its node has delivered, if the step handles one, and its node
broadcasts what the step says. -/
def Fabric.act {κ : Type} [DecidableEq κ] (N : Site κ) (s : Fabric κ PeerId) (key : PeerId)
    (handles : Option GossipMessage) (heard : Option GossipEnvelope) (ms : List GossipMessage)
    (posts : List Post) : Option (Fabric κ PeerId) :=
  if heard.map GossipEnvelope.payload = handles ∧ (∀ e ∈ heard, e ∈ (s.nodes key).delivered) ∧
      posts.map (fun p => p.message.1) = ms then
    s.speak N.format N.verifier N.cabling key posts
  else none

/-- The nodes, the coordinator at the key `hub`, and a worker at each key. -/
structure Cluster (κ : Type) where
  fabric : Fabric κ PeerId
  backend : Backend
  workers : PeerId → Worker

namespace Cluster

variable {κ : Type}

inductive Label (κ : Type) where
  | network (l : Fabric.Label κ PeerId)
  | coordinator (l : Backend.Label) (heard : Option GossipEnvelope) (posts : List Post)
  | worker (key : PeerId) (l : Worker.Label) (heard : Option GossipEnvelope) (posts : List Post)

/-- The step of the coordinator or a worker, which goes by its id. -/
def Label.system (ids : PeerId → PeerId) : Label κ → Option System.Label
  | .network _ => none
  | .coordinator l _ _ => some (.coordinator l)
  | .worker key l _ _ => some (.worker (ids key) l)

/-- Connected nodes that have heard nothing, a coordinator with an empty map, and idle workers that
have drawn the ids `ids`. -/
def start (config : PeerId → GossipConfig) (degree : PeerId → Nat) (ids : PeerId → PeerId)
    (chain : Chain) (contract : Bool) (defaultDeadlineSecs : UInt64) (startBlock : Nat) :
    Cluster κ where
  fabric := .connected (fun key => key) config degree
  backend := .start chain contract defaultDeadlineSecs ∅ startBlock
  workers key := .start (ids key)

variable [DecidableEq κ]

def step (D : Deployment) (N : Site κ) (s : Cluster κ) : Label κ → Option (Cluster κ)
  | .network l =>
    if l.speaks then none
    else (s.fabric.step N.format N.verifier N.cabling l).map fun fabric => { s with fabric }
  | .coordinator l heard posts => do
    let (backend, ms) ← s.backend.step D l
    let fabric ← s.fabric.act N N.hub (System.Label.coordinator l).handles heard ms posts
    return { s with fabric, backend }
  | .worker key l heard posts => do
    let (worker, ms) ← (s.workers key).step l
    let fabric ← s.fabric.act N key (System.Label.worker key l).handles heard ms posts
    return { s with fabric, workers := Function.update s.workers key worker }

/-- Runs whose every step satisfies `ok`. -/
abbrev Steps (D : Deployment) (N : Site κ) (ok : Cluster κ → Label κ → Prop) :
    Cluster κ → Cluster κ → Prop :=
  Transition.Steps (step D N) ok

omit [DecidableEq κ] in
/-- `create_job` chooses fresh ids. -/
def Fresh (D : Deployment) (s : Cluster κ) : Label κ → Prop
  | .coordinator l _ _ => s.backend.ChoosesFresh D l
  | .network _ | .worker _ _ _ _ => True

instance (D : Deployment) (s : Cluster κ) (l : Label κ) : Decidable (s.Fresh D l) :=
  match l with
  | .coordinator bl _ _ => inferInstanceAs (Decidable (s.backend.ChoosesFresh D bl))
  | .network _ | .worker _ _ _ _ => isTrue trivial

/-! ## The parties on the wire are parties among arbitrary peers -/

/-- The parties that do the same over nodes among arbitrary peers. -/
structure Stands (N : Site κ) (s : Cluster κ) (p : Parties) : Prop where
  backend : p.backend = s.backend
  workers : p.workers = s.workers
  nodes : s.fabric.Carries N.format N.cabling p.nodes

variable {D : Deployment} {N : Site κ} {ids : PeerId → PeerId} {s s' : Cluster κ}
  {p : Parties} {l : Label κ}

theorem nodes_of_act {fabric fabric' : Fabric κ PeerId} {nodes : Nodes} {key : PeerId}
    {handles : Option GossipMessage} {heard : Option GossipEnvelope} {ms : List GossipMessage}
    {posts : List Post} (h : fabric.Carries N.format N.cabling nodes)
    (hst : fabric.act N key handles heard ms posts = some fabric') :
    ∃ nodes', nodes.act N.verifier key handles heard ms posts = some nodes' ∧
      fabric'.Carries N.format N.cabling nodes' := by
  unfold Fabric.act at hst
  split_ifs at hst with hheard
  obtain ⟨nodes', hnodes', hcarries⟩ := Fabric.nodes_of_speak h hst
  refine ⟨nodes', ?_, hcarries⟩
  rw [← h.delivered] at hheard
  rw [Nodes.act, if_pos hheard]
  exact hnodes'

/-- **Every step on the wire is one among arbitrary peers** that forge no signature, or leaves them
as they are. Everybody listens to nodes that run this code. -/
theorem Stands.step (h : Stands N s p) (ids : PeerId → PeerId) (hfresh : s.Fresh D l)
    (hst : s.step D N l = some s') :
    Stands N s' p ∧ l.system ids = none ∨
      ∃ k p', k.system ids = l.system ids ∧ p.Insiders D N.keys k ∧
        p.step D N.keys k = some p' ∧ Stands N s' p' := by
  have hlistens : ∀ k, Parties.ListensToHonest N.keys k := fun _ _ _ => rfl
  cases l with
  | network l =>
    simp only [Cluster.step] at hst
    split at hst
    · cases hst
    · rename_i hquiet
      obtain ⟨fabric, hfabric, rfl⟩ := Option.map_eq_some_iff.1 hst
      rcases Fabric.nodes_of_step h.nodes (by simpa using hquiet) hfabric with
        hsame | ⟨key, a, nodes, ha, hsound, hnodes, hcarries⟩
      · exact .inl ⟨⟨h.backend, h.workers, hsame⟩, rfl⟩
      · refine .inr ⟨.gossip key a, { p with nodes }, rfl, ⟨hsound, hlistens _, trivial⟩, ?_,
          h.backend, h.workers, hcarries⟩
        have hsame : Nodes.step N.keys.verifier p.nodes (key, a) = some nodes := hnodes
        simp [Parties.step, ha, hsame]
  | coordinator l heard posts =>
    obtain ⟨⟨backend, ms⟩, hbackend, hst⟩ := Option.bind_eq_some_iff.1 hst
    obtain ⟨fabric, hfabric, hst⟩ := Option.bind_eq_some_iff.1 hst
    cases hst
    obtain ⟨nodes, hnodes, hcarries⟩ := nodes_of_act h.nodes hfabric
    have hfresh' : p.backend.ChoosesFresh D l := by
      rw [h.backend]
      exact hfresh
    refine .inr ⟨.coordinator l heard posts, { p with nodes, backend }, rfl,
      ⟨trivial, hlistens _, hfresh'⟩, ?_, rfl, h.workers, hcarries⟩
    have hsame : p.nodes.act N.keys.verifier N.keys.hub _ heard ms posts = some nodes := hnodes
    simp [Parties.step, h.backend, hbackend, hsame]
  | worker key l heard posts =>
    obtain ⟨⟨worker, ms⟩, hworker, hst⟩ := Option.bind_eq_some_iff.1 hst
    obtain ⟨fabric, hfabric, hst⟩ := Option.bind_eq_some_iff.1 hst
    cases hst
    obtain ⟨nodes, hnodes, hcarries⟩ := nodes_of_act h.nodes hfabric
    refine .inr ⟨.worker key l heard posts,
      { p with nodes, workers := Function.update p.workers key worker }, rfl,
      ⟨trivial, hlistens _, trivial⟩, ?_, h.backend, ?_, hcarries⟩
    · have hsame : p.nodes.act N.keys.verifier key _ heard ms posts = some nodes := hnodes
      simp [Parties.step, h.workers, hworker, hsame]
    · rw [h.workers]

/-! ## The lossy network on top -/

omit [DecidableEq κ] in
/-- The system that stands for the parties on the wire. -/
def Abstracts (N : Site κ) (ids : PeerId → PeerId) (s : Cluster κ) (t : System) : Prop :=
  ∃ p, Stands N s p ∧ p.Signed N.keys ∧ p.Abstracts ids t

variable {t : System}

omit [DecidableEq κ] in
theorem Abstracts.backend (h : Abstracts N ids s t) : t.backend = s.backend := by
  obtain ⟨p, hstands, -, habstracts⟩ := h
  rw [habstracts.backend, hstands.backend]

omit [DecidableEq κ] in
theorem Abstracts.workers (h : Abstracts N ids s t) (key : PeerId) :
    t.workers (ids key) = s.workers key := by
  obtain ⟨p, hstands, -, habstracts⟩ := h
  rw [habstracts.workers, hstands.workers]

omit [DecidableEq κ] in
theorem Abstracts.sent (h : Abstracts N ids s t) {key : PeerId} {e : GossipEnvelope}
    (he : e ∈ (s.fabric.nodes key).delivered) : e.payload ∈ t.sent := by
  obtain ⟨p, hstands, hsigned, habstracts⟩ := h
  rw [← hstands.nodes.delivered] at he
  exact habstracts.sent e.origin _ (hsigned.said he rfl)

/-- **Every step on the wire** is one over the lossy network, or is not seen there. -/
theorem Abstracts.step (h : Abstracts N ids s t) (members : List PeerId)
    (hids : Function.Injective ids) (hfresh : s.Fresh D l)
    (hst : s.step D N l = some s') :
    l.system ids = none ∧ Abstracts N ids s' t ∨
      ∃ k t', l.system ids = some k ∧ (t.Lossy k ∧ t.Fresh D k) ∧
        t.step D members k = some t' ∧ Abstracts N ids s' t' := by
  obtain ⟨p, hstands, hsigned, habstracts⟩ := h
  rcases hstands.step ids hfresh hst with
    ⟨hstands', hnone⟩ | ⟨k, p', hk, hinsiders, hp', hstands'⟩
  · exact .inl ⟨hnone, p, hstands', hsigned, habstracts⟩
  · have hsigned' : p'.Signed N.keys := hsigned.step (.of_step hp') hinsiders.sound
    rw [← hk]
    exact (habstracts.step hids hsigned hinsiders hp').imp
      (fun ⟨hnone, hsame⟩ => ⟨hnone, p', hstands', hsigned', hsame⟩)
      fun ⟨l, t', hl, hok, ht', hnext⟩ => ⟨l, t', hl, hok, ht', p', hstands', hsigned', hnext⟩

section Runs

variable {config : PeerId → GossipConfig} {degree : PeerId → Nat} {chain : Chain} {contract : Bool}
  {defaultDeadlineSecs : UInt64} {startBlock : Nat}

omit [DecidableEq κ] in
theorem abstracts_start (N : Site κ) (config : PeerId → GossipConfig) (degree : PeerId → Nat)
    (ids : PeerId → PeerId) (chain : Chain) (contract : Bool) (defaultDeadlineSecs : UInt64)
    (startBlock : Nat) :
    Abstracts N ids (start config degree ids chain contract defaultDeadlineSecs startBlock)
      (System.start chain contract defaultDeadlineSecs startBlock) := by
  let silent : Parties :=
    { nodes := fun key => ⟨(Tasks.connected key (config key) (degree key)).node, [], []⟩
      backend := .start chain contract defaultDeadlineSecs ∅ startBlock
      workers := fun key => .start (ids key) }
  have hcarries : (Fabric.meshOf (fun key => key) config degree).Carries silent.nodes :=
    ⟨fun _ => rfl, fun _ => rfl, fun _ => Tasks.peerId_connected .., fun q hq =>
      absurd hq (Multiset.notMem_zero q)⟩
  refine ⟨silent, ⟨rfl, rfl, _, Fabric.abstracts_connected .., hcarries⟩, ⟨⟨?_, ?_⟩, ?_⟩,
    ⟨rfl, fun _ => rfl, ?_⟩⟩
  · intro key b hb
    cases hb
  · intro key e he
    cases he
  · intro key e he
    cases he
  · rintro key m ⟨b, hb, -⟩
    cases hb

/-- A forward simulation: what happens on the wire, the lossy network can do. -/
theorem simulates (members : List PeerId) (hids : Function.Injective ids) (u : Cluster κ)
    (l : Label κ) (v : Cluster κ) (t : System) (hu : Abstracts N ids u t) (hl : u.Fresh D l)
    (hst : u.step D N l = some v) :
    ∃ t', System.Steps D members (fun u l => u.Lossy l ∧ u.Fresh D l) t t' ∧
      Abstracts N ids v t' := by
  rcases hu.step members hids hl hst with ⟨-, hv⟩ | ⟨k, t', -, hok, hstep, hv⟩
  · exact ⟨t, .refl, hv⟩
  · exact ⟨t', .single ⟨k, hok, hstep⟩, hv⟩

/-- **Coordinator and workers on the wire** are coordinator and workers over a lossy network: the
state of each is the same, and whatever a node delivers was sent. -/
theorem refines_system (members : List PeerId) (hids : Function.Injective ids)
    (h : Steps D N (Fresh D)
      (start config degree ids chain contract defaultDeadlineSecs startBlock) s) :
    ∃ t, System.Steps D members (fun u l => u.Lossy l ∧ u.Fresh D l)
        (System.start chain contract defaultDeadlineSecs startBlock) t ∧
      t.backend = s.backend ∧ (∀ key, t.workers (ids key) = s.workers key) ∧
      ∀ key, ∀ e ∈ (s.fabric.nodes key).delivered, e.payload ∈ t.sent := by
  obtain ⟨t, ht, habstracts⟩ := h.simulate (simulates members hids)
    (abstracts_start N config degree ids chain contract defaultDeadlineSecs startBlock)
  exact ⟨t, ht, habstracts.backend, habstracts.workers, fun _ _ => habstracts.sent⟩

end Runs

/-! ## A job is won on the wire -/

open Sample
open Parties (workerKey workerId hub keys offer claim acceptance envelope post accepted ownIds
  ownIds_injective)

/-- One connection, from the node of the coordinator to that of the worker. -/
def cable : Cabling Unit PeerId where
  place x := (if x.2 then workerKey else hub, 0)
  endAt key c :=
    if c = 0 then
      if key = workerKey then some ((), true) else if key = hub then some ((), false) else none
    else none
  endAt_eq_some := by
    rintro key c ⟨⟨⟩, b⟩
    have hne : hub ≠ workerKey := by decide
    cases b <;> by_cases hc : c = 0 <;> by_cases hw : key = workerKey <;>
      by_cases hh : key = hub <;> simp_all [eq_comm]

def site : Site Unit := ⟨Streams.codecNew, keys.verifier, cable, hub⟩

/-- The two nodes have their connection. -/
def joined : Cluster Unit :=
  start (fun _ => .new) (fun key => if key = hub ∨ key = workerKey then 1 else 0) ownIds
    (Chain.genesis 0) true 300 0

/-- What the `i`-th broadcast of a node queues goes over the connection, in two pieces. -/
def travels (x : Unit × Bool) (i : Nat) (e : SizedEnvelope) : List (Label Unit) :=
  let y := Streams.other x
  [.network (.post (cable.place x).1 i), .network (.write x e), .network (.arrive y 100),
    .network (.arrive y 1000), .network (.read y), .network (.enqueue y),
    .network (.receive (cable.place y).1 .trivial e.1 0)]

/-- The job is created, offered, claimed and won. -/
def won : List (Label Unit) :=
  [.coordinator (.create request nonce 1000) none [], .coordinator (.mine [submitJob]) none [],
    .coordinator (.insert job) none [], .coordinator (.announce job) none [post hub 1 offer]] ++
  travels ((), false) 0 ⟨envelope hub 1 offer.1, offer.2⟩ ++
  [.worker workerKey (.recv (.jobAvailable job) 1001) (some (envelope hub 1 offer.1))
    [post workerKey 2 claim]] ++
  travels ((), true) 0 ⟨envelope workerKey 2 claim.1, claim.2⟩ ++
  [.coordinator (.recv (.claimJob jobId workerId) 1002 true) (some (envelope workerKey 2 claim.1))
    [post hub 3 acceptance]] ++
  travels ((), false) 1 ⟨accepted hub, acceptance.2⟩ ++
  [.worker workerKey (.recv (.claimAccepted jobId workerId) 1003) (some (accepted hub)) []]

theorem exists_won : ∃ s, Steps deployment site (Fresh deployment) joined s ∧
    (s.workers workerKey).status = .proving job := by
  have hrun : (Transition.run (Transition.checked (step deployment site) (Fresh deployment)) won
      joined).map (fun s => (s.workers workerKey).status) = some (.proving job) := by
    decide +kernel
  exact Transition.exists_of_checked hrun

theorem refines_system_won : ∃ (s : Cluster Unit) (t : System),
    System.Steps deployment [workerId] (fun u l => u.Lossy l ∧ u.Fresh deployment l)
      (System.start (Chain.genesis 0) true 300 0) t ∧
      (t.workers workerId).status = .proving job ∧ t.backend = s.backend := by
  obtain ⟨s, hs, hst⟩ := exists_won
  obtain ⟨t, ht, hbackend, hworkers, -⟩ := refines_system [workerId] ownIds_injective hs
  have hid : ownIds workerKey = workerId := Equiv.swap_apply_left _ _
  refine ⟨s, t, ht, ?_, hbackend⟩
  rw [← hid, hworkers, hst]

end Cluster

end ProofMarket
