import Mathlib.Data.List.Nodup
import ProofMarket.Core

/-!
# A gossip node sends

`gossip/src/gossip/mod.rs`: how an envelope gets from `broadcast` into the outgoing queues of a
node's connections. A node with more connections than its fanout shuffles them and keeps the first
ones; the random choice is a parameter.
-/

namespace ProofMarket

structure MessageId where
  bytes : FixedBytes 32
  deriving DecidableEq

structure GossipEnvelope where
  id : MessageId
  origin : PeerId
  ttl : UInt8
  payload : GossipMessage
  signature : FixedBytes 64
  deriving DecidableEq

structure GossipConfig where
  fanout : Nat
  maxTtl : UInt8
  seenCacheSize : Nat

/-- `GossipConfig::new`, which every node of the repository is made with. -/
def GossipConfig.new : GossipConfig := ⟨3, 3, 10000⟩

abbrev ConnectionId := Nat

/-- A `ConnectionHandle`, with everything that has been queued on it. -/
structure ConnectionHandle where
  id : ConnectionId
  outgoing : List GossipEnvelope
  deriving DecidableEq

/-- What `SliceRandom::shuffle` may do: any rearrangement. -/
structure Shuffle where
  shuffle : List ConnectionId → List ConnectionId
  perm : ∀ ids, (shuffle ids).Perm ids

namespace Shuffle

/-- The shuffle that happens to change nothing. -/
def trivial : Shuffle := ⟨fun ids => ids, fun _ => .refl _⟩

/-- A shuffle that happens to put `c` last. -/
def last (c : ConnectionId) : Shuffle where
  shuffle ids := ids.erase c ++ if c ∈ ids then [c] else []
  perm ids := by
    split_ifs with hc
    · exact List.perm_append_comm.trans (List.perm_cons_erase hc).symm
    · simp [List.erase_of_not_mem hc]

end Shuffle

structure GossipNode where
  peerId : PeerId
  config : GossipConfig
  connections : List ConnectionHandle
  seen : List MessageId
  /-- `connections` is a `HashMap`. -/
  distinct : (connections.map ConnectionHandle.id).Nodup

namespace GossipNode

/-- `LruCache::put` for a cache without values, the most recent key first. -/
def putSeen (capacity : Nat) (id : MessageId) (seen : List MessageId) : List MessageId :=
  (id :: seen.erase id).take capacity

/-- The connections `send_to_peers` picks. -/
def pickPeers (node : GossipNode) (rng : Shuffle) (exclude : Option ConnectionId) :
    List ConnectionId :=
  let eligible := (node.connections.map ConnectionHandle.id).filter fun id => some id ≠ exclude
  if node.config.fanout < eligible.length then (rng.shuffle eligible).take node.config.fanout
  else eligible

/-- `tx.send(envelope)` on each of the connections. -/
def queueOn (node : GossipNode) (envelope : GossipEnvelope) (ids : List ConnectionId) :
    GossipNode where
  peerId := node.peerId
  config := node.config
  connections := node.connections.map fun h =>
    if h.id ∈ ids then { h with outgoing := h.outgoing ++ [envelope] } else h
  seen := node.seen
  distinct := by
    have hids : (fun h : ConnectionHandle => ConnectionHandle.id
        (if h.id ∈ ids then { h with outgoing := h.outgoing ++ [envelope] } else h)) =
          ConnectionHandle.id := by
      funext h
      split_ifs <;> rfl
    rw [List.map_map, Function.comp_def, hids]
    exact node.distinct

/-- `send_to_peers`. -/
def sendToPeers (node : GossipNode) (rng : Shuffle) (envelope : GossipEnvelope)
    (exclude : Option ConnectionId) : GossipNode :=
  node.queueOn envelope (node.pickPeers rng exclude)

/-- The envelope that `broadcast` makes; `id` and `signature` come from `generate_message_id` and
`sign`. -/
def envelope (node : GossipNode) (message : GossipMessage) (id : MessageId)
    (signature : FixedBytes 64) : GossipEnvelope where
  id := id
  origin := node.peerId
  ttl := node.config.maxTtl
  payload := message
  signature := signature

/-- `broadcast`. -/
def broadcast (node : GossipNode) (rng : Shuffle) (message : GossipMessage) (id : MessageId)
    (signature : FixedBytes 64) : GossipNode :=
  let envelope := node.envelope message id signature
  { node with seen := putSeen node.config.seenCacheSize id node.seen }.sendToPeers rng envelope none

/-- The ids of the connections. -/
abbrev ids (node : GossipNode) : List ConnectionId := node.connections.map ConnectionHandle.id

/-- `GossipNode::new`: nobody is connected yet. -/
def new (peerId : PeerId) (config : GossipConfig) : GossipNode :=
  ⟨peerId, config, [], [], List.nodup_nil⟩

theorem lt_of_mem_ids_new (peerId : PeerId) (config : GossipConfig) :
    ∀ c ∈ (new peerId config).ids, c < 0 := by
  intro c hc
  cases hc

/-- `connections.insert` of a connection with a new id. -/
def insertConnection (node : GossipNode) (c : ConnectionId) (h : c ∉ node.ids) : GossipNode where
  peerId := node.peerId
  config := node.config
  connections := node.connections ++ [⟨c, []⟩]
  seen := node.seen
  distinct := by
    rw [List.map_append]
    refine List.nodup_append'.2 ⟨node.distinct, List.nodup_singleton _, ?_⟩
    intro k hk hc
    rw [List.map_singleton, List.mem_singleton] at hc
    obtain rfl : k = c := hc
    exact h hk

/-- What has been queued on a connection. -/
def queue (node : GossipNode) (c : ConnectionId) : List GossipEnvelope :=
  ((node.connections.find? fun h => h.id = c).map ConnectionHandle.outgoing).getD []

/-! ## Who gets a broadcast -/

variable {node : GossipNode} {rng : Shuffle}

theorem ids_insertConnection {c : ConnectionId} (h : c ∉ node.ids) :
    (node.insertConnection c h).ids = node.ids ++ [c] :=
  List.map_append

@[simp] theorem ids_queueOn (node : GossipNode) (e : GossipEnvelope) (picked : List ConnectionId) :
    (node.queueOn e picked).ids = node.ids := by
  show (node.connections.map _).map ConnectionHandle.id = _
  rw [List.map_map]
  refine List.map_congr_left fun h _ => ?_
  simp only [Function.comp]
  split_ifs <;> rfl

theorem queue_queueOn (node : GossipNode) {e : GossipEnvelope} {picked : List ConnectionId}
    {c : ConnectionId} (hc : c ∈ node.ids) :
    (node.queueOn e picked).queue c =
      if c ∈ picked then node.queue c ++ [e] else node.queue c := by
  unfold queue queueOn
  have hfind : ∀ hs : List ConnectionHandle, c ∈ hs.map ConnectionHandle.id →
      (((hs.map fun h =>
          if h.id ∈ picked then { h with outgoing := h.outgoing ++ [e] } else h).find?
        fun h => h.id = c).map ConnectionHandle.outgoing).getD [] =
      if c ∈ picked then ((hs.find? fun h => h.id = c).map ConnectionHandle.outgoing).getD [] ++ [e]
      else ((hs.find? fun h => h.id = c).map ConnectionHandle.outgoing).getD [] := by
    intro hs
    induction hs with
    | nil => simp
    | cons h hs ih =>
      intro hmem
      by_cases hid : h.id = c
      · by_cases hp : c ∈ picked <;> simp [hid, hp]
      · have hrest : c ∈ hs.map ConnectionHandle.id := by
          simpa [Ne.symm hid] using hmem
        have hkeep : (if h.id ∈ picked then { h with outgoing := h.outgoing ++ [e] } else h).id ≠
            c := by
          split_ifs <;> exact hid
        simpa [hid, hkeep] using ih hrest
  exact hfind node.connections hc

theorem pickPeers_none (node : GossipNode) (rng : Shuffle) :
    node.pickPeers rng none =
      if node.config.fanout < node.ids.length then (rng.shuffle node.ids).take node.config.fanout
      else node.ids := by
  unfold pickPeers
  simp

theorem pickPeers_nodup : (node.pickPeers rng none).Nodup := by
  rw [pickPeers_none]
  split_ifs
  · exact ((rng.perm _).nodup_iff.2 node.distinct).sublist (List.take_sublist _ _)
  · exact node.distinct

theorem pickPeers_subset : node.pickPeers rng none ⊆ node.ids := by
  rw [pickPeers_none]
  split_ifs
  · exact fun c hc => (rng.perm _).mem_iff.1 (List.mem_of_mem_take hc)
  · exact fun c hc => hc

theorem pickPeers_length :
    (node.pickPeers rng none).length = min node.config.fanout node.ids.length := by
  rw [pickPeers_none]
  split_ifs with hlt
  · rw [List.length_take, (rng.perm _).length_eq]
  · rw [Nat.min_eq_right (Nat.not_lt.1 hlt)]

end GossipNode

end ProofMarket
