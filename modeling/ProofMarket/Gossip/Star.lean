import ProofMarket.Coordinator.Handlers
import ProofMarket.Gossip.Node

/-!
# Replies in the star

`Worker::start` connects a worker to the coordinator and to nobody else, so the coordinator's node
has one connection for each worker, and no other node can relay a reply to the claimant.

**Theorem (`claim_reply_queued`).** Up to the fanout every worker gets the reply to a claim. Beyond
it exactly `fanout` of them do, and the claimant can be left out.
-/

namespace ProofMarket.GossipNode

variable {node : GossipNode} {rng : Shuffle}

theorem queue_broadcast {m : GossipMessage} {id : MessageId} {sig : FixedBytes 64}
    {c : ConnectionId} (hc : c ∈ node.ids) :
    (node.broadcast rng m id sig).queue c =
      if c ∈ node.pickPeers rng none then node.queue c ++ [node.envelope m id sig]
      else node.queue c :=
  queue_queueOn { node with seen := putSeen node.config.seenCacheSize id node.seen } hc

theorem pickPeers_of_le (h : node.ids.length ≤ node.config.fanout) :
    node.pickPeers rng none = node.ids := by
  rw [pickPeers_none, if_neg (Nat.not_lt.2 h)]

theorem not_mem_pickPeers_last (h : node.config.fanout < node.ids.length) {c : ConnectionId}
    (hc : c ∈ node.ids) : c ∉ node.pickPeers (.last c) none := by
  rw [pickPeers_none, if_pos h]
  have herase : (node.ids.erase c).length = node.ids.length - 1 := List.length_erase_of_mem hc
  simp only [Shuffle.last, if_pos hc]
  rw [List.take_append_of_le_length (by omega)]
  intro hmem
  exact node.distinct.not_mem_erase (List.mem_of_mem_take hmem)

theorem filter_queue_broadcast (node : GossipNode) (rng : Shuffle) (m : GossipMessage)
    (id : MessageId) (sig : FixedBytes 64) :
    (node.ids.filter fun k =>
        (node.broadcast rng m id sig).queue k = node.queue k ++ [node.envelope m id sig]).Perm
      (node.pickPeers rng none) := by
  refine (List.perm_ext_iff_of_nodup (node.distinct.filter _) pickPeers_nodup).2 ?_
  intro k
  rw [List.mem_filter, decide_eq_true_eq]
  constructor
  · rintro ⟨hk, hq⟩
    rw [queue_broadcast hk] at hq
    by_contra hnot
    simp [hnot] at hq
  · intro hk
    have hmem := pickPeers_subset hk
    exact ⟨hmem, by rw [queue_broadcast hmem, if_pos hk]⟩

/-- **Who gets the reply to a claim.** -/
theorem claim_reply_queued (node : GossipNode) (jobs : JobMap) (now : UInt64) (j : JobId)
    (w : PeerId) (id : MessageId) (sig : FixedBytes 64) (c : ConnectionId) (hc : c ∈ node.ids) :
    let reply := (Coordinator.handleClaim now jobs j w).2
    let queued := fun (rng : Shuffle) (k : ConnectionId) =>
      (node.broadcast rng reply id sig).queue k = node.queue k ++ [node.envelope reply id sig]
    (node.ids.length ≤ node.config.fanout → ∀ rng, queued rng c) ∧
    (node.config.fanout < node.ids.length →
      (∀ rng, (node.ids.filter fun k => queued rng k).length = node.config.fanout) ∧
        ∃ rng, (node.broadcast rng reply id sig).queue c = node.queue c) := by
  intro reply queued
  refine ⟨?_, ?_⟩
  · intro hle rng
    show (node.broadcast rng reply id sig).queue c = _
    rw [queue_broadcast hc, pickPeers_of_le hle, if_pos hc]
  · intro hlt
    refine ⟨?_, .last c, ?_⟩
    · intro rng
      rw [(filter_queue_broadcast node rng reply id sig).length_eq, pickPeers_length]
      exact Nat.min_eq_left (Nat.le_of_lt hlt)
    · rw [queue_broadcast hc, if_neg (not_mem_pickPeers_last hlt hc)]

/-! ## Four workers -/

/-- The coordinator's node with one idle connection for each of `n` workers. -/
def withWorkers (n : Nat) : GossipNode where
  peerId := ⟨.fill 32 9⟩
  config := .new
  connections := (List.range n).map fun i => ⟨i, []⟩
  seen := []
  distinct := by
    rw [List.map_map]
    exact List.nodup_range.map fun _ _ h => h

/-- A map with one pending job. -/
def pendingJobs : JobMap :=
  Finmap.insert ⟨.fill 32 7⟩ ⟨⟨.fill 32 7⟩, .pending, Address.zero, [], 100, 1000, 1300⟩ ∅

theorem claim_reply_queued_four :
    let reply := (Coordinator.handleClaim 1001 pendingJobs ⟨.fill 32 7⟩ ⟨.fill 32 1⟩).2
    let node := withWorkers 4
    ∀ rng, (node.ids.filter fun k =>
      (node.broadcast rng reply ⟨.fill 32 5⟩ (.fill 64 0)).queue k =
        node.queue k ++ [node.envelope reply ⟨.fill 32 5⟩ (.fill 64 0)]).length = 3 :=
  ((claim_reply_queued (withWorkers 4) pendingJobs 1001 ⟨.fill 32 7⟩ ⟨.fill 32 1⟩ ⟨.fill 32 5⟩
    (.fill 64 0) 2 (by decide)).2 (by decide)).1

/-- The claim on connection 2 is accepted, and the acceptance goes to the other three. -/
theorem claim_reply_withheld :
    (Coordinator.handleClaim 1001 pendingJobs ⟨.fill 32 7⟩ ⟨.fill 32 1⟩).2 =
        .claimAccepted ⟨.fill 32 7⟩ ⟨.fill 32 1⟩ ∧
      ¬ ∀ rng, (withWorkers 4).envelope (.claimAccepted ⟨.fill 32 7⟩ ⟨.fill 32 1⟩) ⟨.fill 32 5⟩
          (.fill 64 0) ∈
        ((withWorkers 4).broadcast rng (.claimAccepted ⟨.fill 32 7⟩ ⟨.fill 32 1⟩) ⟨.fill 32 5⟩
          (.fill 64 0)).queue 2 := by
  refine ⟨by decide +kernel, fun h => ?_⟩
  have hqueued := h (.last 2)
  revert hqueued
  decide +kernel

end ProofMarket.GossipNode
