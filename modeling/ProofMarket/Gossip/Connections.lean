import Mathlib.Data.Finset.Card
import ProofMarket.Gossip.Star

/-!
# Connections come and go

Every connection has a task, started by `spawn_connection`, that moves envelopes between its stream
and the queues. The task ends when the remote closes the stream, when a frame does not decode, and
when a write fails. Nothing takes the connection out of the map then: `send_to_peers` still picks
it, and `let _ = tx.send(..)` drops the error.

**Theorem (`fanout_on_live_iff`).** After any history, every broadcast reaches as many live peers as
the fanout allows exactly when no connection has ended so far, or no more than `fanout` connections
were ever opened. Otherwise a broadcast can spend a part of its fanout on the dead ones.
-/

namespace ProofMarket

namespace Shuffle

/-- A shuffle that happens to put `c` first. -/
def first (c : ConnectionId) : Shuffle where
  shuffle ids := (if c ∈ ids then [c] else []) ++ ids.erase c
  perm ids := List.perm_append_comm.trans ((last c).perm ids)

/-- One shuffle after another. -/
def andThen (rng rng' : Shuffle) : Shuffle where
  shuffle ids := rng'.shuffle (rng.shuffle ids)
  perm ids := (rng'.perm _).trans (rng.perm ids)

end Shuffle

/-- A node and the tasks of its connections. -/
structure RunningNode where
  node : GossipNode
  nextConnectionId : ConnectionId
  /-- The connections whose task is in its loop. -/
  live : Finset ConnectionId
  fresh : ∀ c ∈ node.ids, c < nextConnectionId
  live_subset : live ⊆ node.ids.toFinset

namespace GossipNode

variable {node : GossipNode} {rng : Shuffle}

theorem exists_pickPeers (hfanout : 0 < node.config.fanout)
    (hlong : node.config.fanout < node.ids.length) {d l : ConnectionId} (hd : d ∈ node.ids)
    (hl : l ∈ node.ids) (hne : d ≠ l) :
    ∃ rng, d ∈ node.pickPeers rng none ∧ l ∉ node.pickPeers rng none := by
  let rng := (Shuffle.first d).andThen (.last l)
  have hmem : l ∈ node.ids.erase d := (List.mem_erase_of_ne hne.symm).2 hl
  have hshuffle : rng.shuffle node.ids = d :: (node.ids.erase d).erase l ++ [l] := by
    have hcons : l ∈ d :: node.ids.erase d := List.mem_cons_of_mem _ hmem
    simp only [rng, Shuffle.andThen, Shuffle.first, Shuffle.last, if_pos hd, List.singleton_append,
      if_pos hcons, List.erase_cons, beq_eq_false_iff_ne.2 hne]
    rfl
  have hlength : ((node.ids.erase d).erase l).length = node.ids.length - 2 := by
    rw [List.length_erase_of_mem hmem, List.length_erase_of_mem hd]
    omega
  have hpicks : node.pickPeers rng none =
      (d :: (node.ids.erase d).erase l).take node.config.fanout := by
    rw [pickPeers_none, if_pos hlong, hshuffle, List.take_append_of_le_length]
    rw [List.length_cons]
    omega
  refine ⟨rng, ?_, ?_⟩
  · rw [hpicks]
    obtain ⟨k, hk⟩ := Nat.exists_eq_succ_of_ne_zero (Nat.pos_iff_ne_zero.1 hfanout)
    rw [hk, List.take_succ_cons]
    exact List.mem_cons_self
  · rw [hpicks]
    intro hpicked
    rcases List.mem_cons.1 (List.mem_of_mem_take hpicked) with rfl | hrest
    · exact hne rfl
    · exact (node.distinct.erase d).not_mem_erase hrest

theorem length_ids (node : GossipNode) : node.ids.toFinset.card = node.ids.length :=
  List.toFinset_card_of_nodup node.distinct

end GossipNode

namespace RunningNode

/-- `GossipNode::new`. -/
def new (peerId : PeerId) (config : GossipConfig) : RunningNode where
  node := .new peerId config
  nextConnectionId := 0
  live := ∅
  fresh := GossipNode.lt_of_mem_ids_new peerId config
  live_subset := by simp

/-- `spawn_connection`, for a stream that `run` accepted or that `connect` opened. -/
def spawnConnection (s : RunningNode) : RunningNode where
  node := s.node.insertConnection s.nextConnectionId fun h => Nat.lt_irrefl _ (s.fresh _ h)
  nextConnectionId := s.nextConnectionId + 1
  live := insert s.nextConnectionId s.live
  fresh := by
    rw [GossipNode.ids_insertConnection]
    intro c hc
    rcases List.mem_append.1 hc with hc | hc
    · exact Nat.lt_succ_of_lt (s.fresh c hc)
    · exact List.mem_singleton.1 hc ▸ Nat.lt_succ_self _
  live_subset := by
    rw [GossipNode.ids_insertConnection, List.toFinset_append]
    intro c hc
    rcases Finset.mem_insert.1 hc with rfl | hc
    · simp
    · exact Finset.mem_union_left _ (s.live_subset hc)

/-- The task of a connection breaks out of its loop. Both ends of its channels are dropped, its
handle stays in the map. -/
def closed (s : RunningNode) (c : ConnectionId) : RunningNode where
  node := s.node
  nextConnectionId := s.nextConnectionId
  live := s.live.erase c
  fresh := s.fresh
  live_subset := (Finset.erase_subset c s.live).trans s.live_subset

/-- `send_to_peers`: on a connection whose task has ended, `tx.send` fails. -/
def sendToPeers (s : RunningNode) (rng : Shuffle) (envelope : GossipEnvelope)
    (exclude : Option ConnectionId) : RunningNode where
  node := s.node.queueOn envelope ((s.node.pickPeers rng exclude).filter fun c => c ∈ s.live)
  nextConnectionId := s.nextConnectionId
  live := s.live
  fresh := by
    rw [GossipNode.ids_queueOn]
    exact s.fresh
  live_subset := by
    rw [GossipNode.ids_queueOn]
    exact s.live_subset

/-- `broadcast`. -/
def broadcast (s : RunningNode) (rng : Shuffle) (message : GossipMessage) (id : MessageId)
    (signature : FixedBytes 64) : RunningNode :=
  { s with
    node := { s.node with seen := GossipNode.putSeen s.node.config.seenCacheSize id s.node.seen }
    }.sendToPeers rng (s.node.envelope message id signature) none

/-- While every task runs, this is the node that never loses a connection. -/
theorem broadcast_node_of_live (s : RunningNode) (h : s.live = s.node.ids.toFinset) (rng : Shuffle)
    (m : GossipMessage) (id : MessageId) (sig : FixedBytes 64) :
    (s.broadcast rng m id sig).node = s.node.broadcast rng m id sig := by
  have hall : (s.node.pickPeers rng none).filter (fun c => c ∈ s.live) =
      s.node.pickPeers rng none := by
    refine List.filter_eq_self.2 fun c hc => ?_
    simpa [h] using GossipNode.pickPeers_subset hc
  show GossipNode.queueOn _ _ _ = GossipNode.queueOn _ _ _
  exact congrArg _ hall

/-- What happens to a node's connections. The forwards of `process_incoming` and the calls of
`send` are `sent`. -/
inductive Event where
  | opened
  | closed (c : ConnectionId)
  | broadcast (rng : Shuffle) (m : GossipMessage) (id : MessageId) (sig : FixedBytes 64)
  | sent (rng : Shuffle) (envelope : GossipEnvelope) (exclude : Option ConnectionId)

def step (s : RunningNode) : Event → RunningNode
  | .opened => s.spawnConnection
  | .closed c => s.closed c
  | .broadcast rng m id sig => s.broadcast rng m id sig
  | .sent rng envelope exclude => s.sendToPeers rng envelope exclude

/-- The node after a history. -/
def after (peerId : PeerId) (config : GossipConfig) (history : List Event) : RunningNode :=
  history.foldl step (new peerId config)

/-- The connections opened in a history. -/
def opened (history : List Event) : Nat :=
  history.countP fun | .opened => true | _ => false

/-! ## Every connection stays in the map -/

theorem length_ids_step (s : RunningNode) (e : Event) :
    (s.step e).node.ids.length = s.node.ids.length + opened [e] := by
  cases e with
  | opened =>
    have hids : s.spawnConnection.node.ids = s.node.ids ++ [s.nextConnectionId] :=
      GossipNode.ids_insertConnection fun h => Nat.lt_irrefl _ (s.fresh _ h)
    show s.spawnConnection.node.ids.length = _
    rw [hids, List.length_append]
    rfl
  | closed c => rfl
  | broadcast rng m id sig =>
    show (GossipNode.queueOn _ _ _).ids.length = _
    rw [GossipNode.ids_queueOn]
    rfl
  | sent rng envelope exclude =>
    show (GossipNode.queueOn _ _ _).ids.length = _
    rw [GossipNode.ids_queueOn]
    rfl

theorem config_step (s : RunningNode) (e : Event) : (s.step e).node.config = s.node.config := by
  cases e <;> rfl

/-- **Nothing leaves the map.** -/
theorem length_ids_foldl (history : List Event) (s : RunningNode) :
    (history.foldl step s).node.ids.length = s.node.ids.length + opened history := by
  induction history generalizing s with
  | nil => rfl
  | cons e history ih =>
    have hcons : opened (e :: history) = opened [e] + opened history := by
      rw [← List.singleton_append]
      exact List.countP_append
    rw [List.foldl_cons, ih, length_ids_step, hcons, Nat.add_assoc]

theorem config_foldl (history : List Event) (s : RunningNode) :
    (history.foldl step s).node.config = s.node.config := by
  induction history generalizing s with
  | nil => rfl
  | cons e history ih => rw [List.foldl_cons, ih, config_step]

/-! ## Whom a broadcast reaches -/

section Reached

variable {s : RunningNode} {rng : Shuffle}

/-- The live connections on which `broadcast` queues its envelope. -/
def reached (s : RunningNode) (rng : Shuffle) (m : GossipMessage) (id : MessageId)
    (sig : FixedBytes 64) : Finset ConnectionId :=
  s.live.filter fun c =>
    (s.broadcast rng m id sig).node.queue c = s.node.queue c ++ [s.node.envelope m id sig]

theorem mem_ids_of_live {c : ConnectionId} (hc : c ∈ s.live) : c ∈ s.node.ids :=
  List.mem_toFinset.1 (s.live_subset hc)

theorem card_live_le (s : RunningNode) : s.live.card ≤ s.node.ids.length :=
  (Finset.card_le_card s.live_subset).trans_eq s.node.length_ids

theorem live_eq_of_card (h : s.live.card = s.node.ids.length) : s.live = s.node.ids.toFinset :=
  Finset.eq_of_subset_of_card_le s.live_subset (by rw [GossipNode.length_ids, h])

theorem queue_broadcast {m : GossipMessage} {id : MessageId} {sig : FixedBytes 64}
    {c : ConnectionId} (hc : c ∈ s.node.ids) :
    (s.broadcast rng m id sig).node.queue c =
      if c ∈ (s.node.pickPeers rng none).filter (fun c => c ∈ s.live) then
        s.node.queue c ++ [s.node.envelope m id sig]
      else s.node.queue c :=
  GossipNode.queue_queueOn
    { s.node with seen := GossipNode.putSeen s.node.config.seenCacheSize id s.node.seen } hc

theorem reached_eq (s : RunningNode) (rng : Shuffle) (m : GossipMessage) (id : MessageId)
    (sig : FixedBytes 64) :
    s.reached rng m id sig = s.live.filter fun c => c ∈ s.node.pickPeers rng none := by
  refine Finset.filter_congr fun c hc => ?_
  rw [queue_broadcast (mem_ids_of_live hc)]
  by_cases hp : c ∈ s.node.pickPeers rng none <;> simp [hp, hc]

theorem card_reached_of_all (h : s.live.card = s.node.ids.length) (m : GossipMessage)
    (id : MessageId) (sig : FixedBytes 64) :
    (s.reached rng m id sig).card = min s.node.config.fanout s.live.card := by
  have hpicks : s.reached rng m id sig = (s.node.pickPeers rng none).toFinset := by
    rw [reached_eq, live_eq_of_card h]
    ext c
    rw [Finset.mem_filter, List.mem_toFinset, List.mem_toFinset]
    exact ⟨And.right, fun hc => ⟨GossipNode.pickPeers_subset hc, hc⟩⟩
  rw [hpicks, List.toFinset_card_of_nodup GossipNode.pickPeers_nodup,
    GossipNode.pickPeers_length, h]

theorem reached_of_le (h : s.node.ids.length ≤ s.node.config.fanout) (m : GossipMessage)
    (id : MessageId) (sig : FixedBytes 64) : s.reached rng m id sig = s.live := by
  rw [reached_eq, GossipNode.pickPeers_of_le h]
  exact Finset.filter_true_of_mem fun c hc => mem_ids_of_live hc

/-- A shuffle that puts a dead connection first and a live one last loses one pick and one peer. -/
theorem exists_card_reached_lt (hfanout : 0 < s.node.config.fanout)
    (hlong : s.node.config.fanout < s.node.ids.length) (hlive : s.live.Nonempty)
    (hdead : s.live.card < s.node.ids.length) (m : GossipMessage) (id : MessageId)
    (sig : FixedBytes 64) :
    ∃ rng, (s.reached rng m id sig).card < min s.node.config.fanout s.live.card := by
  obtain ⟨l, hl⟩ := hlive
  have hsmall : s.live.card < s.node.ids.toFinset.card := by
    rw [GossipNode.length_ids]
    exact hdead
  obtain ⟨d, hd, hdl⟩ := Finset.exists_mem_notMem_of_card_lt_card hsmall
  obtain ⟨rng, hfirst, hlast⟩ := GossipNode.exists_pickPeers hfanout hlong (List.mem_toFinset.1 hd)
    (mem_ids_of_live hl) (fun h => hdl (h ▸ hl))
  refine ⟨rng, lt_min ?_ ?_⟩
  · have hpicks : s.reached rng m id sig ⊂ (s.node.pickPeers rng none).toFinset := by
      rw [reached_eq]
      refine Finset.ssubset_iff_of_subset ?_ |>.2 ⟨d, List.mem_toFinset.2 hfirst, ?_⟩
      · exact fun c hc => List.mem_toFinset.2 (Finset.mem_filter.1 hc).2
      · exact fun h => hdl (Finset.mem_filter.1 h).1
    calc (s.reached rng m id sig).card
        < (s.node.pickPeers rng none).toFinset.card := Finset.card_lt_card hpicks
      _ = (s.node.pickPeers rng none).length :=
          List.toFinset_card_of_nodup GossipNode.pickPeers_nodup
      _ = min s.node.config.fanout s.node.ids.length := GossipNode.pickPeers_length
      _ ≤ s.node.config.fanout := Nat.min_le_left _ _
  · rw [reached_eq]
    refine Finset.card_lt_card ((Finset.ssubset_iff_of_subset (Finset.filter_subset _ _)).2 ?_)
    exact ⟨l, hl, fun h => hlast (Finset.mem_filter.1 h).2⟩

end Reached

/-- **Fanout on live peers.** What a broadcast after the history reaches, for every random choice
and whatever is broadcast. -/
theorem fanout_on_live_iff (peerId : PeerId) (config : GossipConfig) (history : List Event) :
    let s := after peerId config history
    (∀ rng m id sig, (s.reached rng m id sig).card = min config.fanout s.live.card) ↔
      config.fanout = 0 ∨ s.live = ∅ ∨ s.live.card = opened history ∨
        opened history ≤ config.fanout := by
  intro s
  have hopened : s.node.ids.length = opened history :=
    (length_ids_foldl history (new peerId config)).trans (Nat.zero_add _)
  have hconfig : s.node.config = config := config_foldl history (new peerId config)
  rw [← hopened]
  constructor
  · intro hall
    by_contra hnot
    obtain ⟨hfanout, hlive, hdead, hlong⟩ : config.fanout ≠ 0 ∧ s.live ≠ ∅ ∧
        s.live.card ≠ s.node.ids.length ∧ ¬ s.node.ids.length ≤ config.fanout := by tauto
    rw [← hconfig] at hfanout hlong hall
    have hlt : s.live.card < s.node.ids.length := by
      have hle := s.card_live_le
      omega
    obtain ⟨rng, hrng⟩ := exists_card_reached_lt (by omega) (by omega)
      (Finset.nonempty_iff_ne_empty.2 hlive) hlt (.claimRejected ⟨.fill 32 0⟩ "") ⟨.fill 32 0⟩
      (.fill 64 0)
    have hrest := hall rng (.claimRejected ⟨.fill 32 0⟩ "") ⟨.fill 32 0⟩ (.fill 64 0)
    omega
  · intro hcond rng m id sig
    rw [← hconfig] at hcond ⊢
    rcases hcond with hzero | hempty | hall | hle
    · have hpicks : (s.node.pickPeers rng none).length = 0 := by
        rw [GossipNode.pickPeers_length, hzero, Nat.zero_min]
      rw [reached_eq, List.length_eq_zero_iff.1 hpicks]
      simp [hzero]
    · simp [reached, hempty]
    · exact card_reached_of_all hall m id sig
    · rw [reached_of_le hle]
      have hcard := s.card_live_le
      omega

/-- A worker reconnects: connections 0, 1 and 2 are opened, 0 is closed and comes back as 3. -/
def reconnect : List Event := [.opened, .opened, .opened, .closed 0, .opened]

/-- With the repository's fanout of three, a broadcast misses one of the three live peers. -/
theorem reconnect_misses :
    let s := after ⟨.fill 32 9⟩ .new reconnect
    ¬ ∀ rng m id sig, (s.reached rng m id sig).card = min GossipConfig.new.fanout s.live.card := by
  intro s hall
  have hcount := hall .trivial (.claimRejected ⟨.fill 32 0⟩ "") ⟨.fill 32 0⟩ (.fill 64 0)
  revert hcount
  decide +kernel

end RunningNode

end ProofMarket
