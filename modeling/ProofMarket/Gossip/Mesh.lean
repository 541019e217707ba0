import Mathlib.Data.List.FinRange
import Mathlib.Data.Multiset.AddSub
import ProofMarket.Gossip.Incoming
import ProofMarket.Lib.Transition

/-!
# A network of gossip nodes

Any number of nodes, joined by connections in any way. An envelope is in flight from the moment it
is queued until the node at the other end processes it; those in flight arrive in any order.
-/

namespace ProofMarket

/-- The other end of a connection of a node, if it is one of the nodes. -/
abbrev Wiring (ν : Type) := ν → ConnectionId → Option (ν × ConnectionId)

/-- An envelope on its way, with the connection on which the receiver gets it. `root` is no part of
the message: it names what the envelope goes back to. -/
structure Packet (ν ι : Type) where
  dest : ν
  source : ConnectionId
  envelope : GossipEnvelope
  root : ι
  deriving DecidableEq

structure Mesh (ν ι : Type) where
  nodes : ν → GossipNode
  /-- What each node has handed to its subscribers, the latest first. -/
  delivered : ν → List GossipEnvelope
  flight : Multiset (Packet ν ι)

namespace Mesh

section Route

variable {ν ι : Type} {wiring : Wiring ν}

/-- What a node has queued, on its way to the other ends. -/
def route (wiring : Wiring ν) (v : ν) (root : ι) (sent : List (ConnectionId × GossipEnvelope)) :
    List (Packet ν ι) :=
  sent.filterMap fun x => (wiring v x.1).map fun peer => ⟨peer.1, peer.2, x.2, root⟩

theorem length_route_le (v : ν) (root : ι) (sent : List (ConnectionId × GossipEnvelope)) :
    (route wiring v root sent).length ≤ sent.length :=
  List.length_filterMap_le _ _

theorem mem_route {v : ν} {root : ι} {sent : List (ConnectionId × GossipEnvelope)}
    {q : Packet ν ι} :
    q ∈ route wiring v root sent ↔
      ∃ c, (c, q.envelope) ∈ sent ∧ wiring v c = some (q.dest, q.source) ∧ q.root = root := by
  unfold route
  rw [List.mem_filterMap]
  constructor
  · rintro ⟨⟨c, e⟩, hmem, hq⟩
    obtain ⟨peer, hpeer, rfl⟩ := Option.map_eq_some_iff.1 hq
    exact ⟨c, hmem, hpeer, rfl⟩
  · rintro ⟨c, hmem, hpeer, rfl⟩
    exact ⟨(c, q.envelope), hmem, by simp [hpeer]⟩

end Route

variable {ν ι : Type} [DecidableEq ν] [DecidableEq ι]

/-- One node goes on to `node`; what it has queued leaves. -/
def update (wiring : Wiring ν) (s : Mesh ν ι) (v : ν) (node : GossipNode) (root : ι) :
    Mesh ν ι where
  nodes := Function.update s.nodes v node
  delivered := s.delivered
  flight := ↑(route wiring v root ((s.nodes v).sent node)) + s.flight

/-- A node processes an envelope that has arrived. -/
def receive (verifier : Verifier) (wiring : Wiring ν) (s : Mesh ν ι) (p : Packet ν ι)
    (rng : Shuffle) : Mesh ν ι :=
  let outcome := (s.nodes p.dest).processIncoming verifier rng p.envelope p.source
  { s with
    delivered := Function.update s.delivered p.dest (outcome.2.toList ++ s.delivered p.dest)
    flight := s.flight.erase p }.update wiring p.dest outcome.1 p.root

/-- A node broadcasts. -/
def broadcast (wiring : Wiring ν) (s : Mesh ν ι) (v : ν) (rng : Shuffle) (m : GossipMessage)
    (id : MessageId) (sig : FixedBytes 64) (root : ι) : Mesh ν ι :=
  s.update wiring v ((s.nodes v).broadcast rng m id sig) root

inductive Label (ν ι : Type) where
  | receive (p : Packet ν ι) (rng : Shuffle)
  | broadcast (v : ν) (rng : Shuffle) (m : GossipMessage) (id : MessageId) (sig : FixedBytes 64)
      (root : ι)

/-- Only what is in flight can be received. -/
def step (verifier : Verifier) (wiring : Wiring ν) (s : Mesh ν ι) : Label ν ι → Option (Mesh ν ι)
  | .receive p rng => if p ∈ s.flight then some (s.receive verifier wiring p rng) else none
  | .broadcast v rng m id sig root => some (s.broadcast wiring v rng m id sig root)

variable {verifier : Verifier} {wiring : Wiring ν} {s t : Mesh ν ι} {p : Packet ν ι} {rng : Shuffle}

theorem step_receive (h : step verifier wiring s (.receive p rng) = some t) :
    p ∈ s.flight ∧ t = s.receive verifier wiring p rng := by
  simp only [step] at h
  split_ifs at h with hp
  exact ⟨hp, (Option.some.inj h).symm⟩

/-- What a receipt puts in flight. -/
def spread (verifier : Verifier) (wiring : Wiring ν) (s : Mesh ν ι) (p : Packet ν ι)
    (rng : Shuffle) : List (Packet ν ι) :=
  route wiring p.dest p.root ((s.nodes p.dest).sent
    ((s.nodes p.dest).processIncoming verifier rng p.envelope p.source).1)

theorem flight_receive :
    (s.receive verifier wiring p rng).flight =
      ↑(spread verifier wiring s p rng) + s.flight.erase p :=
  rfl

theorem nodes_receive :
    (s.receive verifier wiring p rng).nodes =
      Function.update s.nodes p.dest
        ((s.nodes p.dest).processIncoming verifier rng p.envelope p.source).1 :=
  rfl

omit [DecidableEq ι] in
theorem config_update (s : Mesh ν ι) {u : ν} {node : GossipNode}
    (hnode : node.config = (s.nodes u).config) (v : ν) :
    (Function.update s.nodes u node v).config = (s.nodes v).config := by
  by_cases hv : v = u
  · subst hv
    rw [Function.update_self, hnode]
  · rw [Function.update_of_ne hv]

theorem config_step {l : Label ν ι} (h : step verifier wiring s l = some t) (v : ν) :
    (t.nodes v).config = (s.nodes v).config := by
  cases l with
  | receive p rng =>
    obtain ⟨-, rfl⟩ := step_receive h
    exact s.config_update GossipNode.config_processIncoming v
  | broadcast u rng m id sig root =>
    cases h
    apply s.config_update
    rfl

/-! ## Nodes on a graph -/

/-- Fresh nodes, one for each vertex; the connection to a neighbour has the neighbour's number. -/
def onGraph {n : ℕ} (adj : Fin n → Fin n → Bool) (config : GossipConfig) : Mesh (Fin n) Unit where
  nodes v :=
    { peerId := ⟨.fill 32 (.ofNat v)⟩
      config := config
      connections := ((List.finRange n).filter fun w => adj v w).map fun w => ⟨w.val, []⟩
      seen := []
      distinct := by
        rw [List.map_map]
        exact ((List.nodup_finRange n).filter _).map fun _ _ h => Fin.val_injective h }
  delivered _ := []
  flight := 0

def graphWiring {n : ℕ} (adj : Fin n → Fin n → Bool) : Wiring (Fin n) := fun v c =>
  if h : c < n then if adj v ⟨c, h⟩ then some (⟨c, h⟩, v) else none else none

end Mesh

end ProofMarket
