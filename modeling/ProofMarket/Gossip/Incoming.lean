import Mathlib.Data.List.Perm.Subperm
import ProofMarket.Gossip.Wire

/-!
# A gossip node receives

`process_incoming`: an envelope with a valid signature and an id that the cache does not hold is
handed to the subscribers and passed on to other peers with a smaller ttl. The signature scheme is
a parameter.
-/

namespace ProofMarket

/-- `VerifyingKey::from_bytes` and `verify`: whether the bytes are signed under the key. -/
abbrev Verifier := PeerId → Bytes → FixedBytes 64 → Bool

/-- `GossipEnvelope::verify`. -/
def GossipEnvelope.verify (verifier : Verifier) (e : GossipEnvelope) : Bool :=
  verifier e.origin e.signableBytes e.signature

/-- `forwarded.ttl -= 1`. -/
def GossipEnvelope.countDown (e : GossipEnvelope) : GossipEnvelope := { e with ttl := e.ttl - 1 }

/-- The signature does not cover the ttl. -/
@[simp] theorem GossipEnvelope.verify_countDown (verifier : Verifier) (e : GossipEnvelope) :
    e.countDown.verify verifier = e.verify verifier :=
  rfl

theorem GossipEnvelope.ttl_countDown {e : GossipEnvelope} (h : 1 < e.ttl) :
    e.countDown.ttl.toNat + 1 = e.ttl.toNat := by
  have hle : (1 : UInt8) ≤ e.ttl := UInt8.le_of_lt h
  have hlt : 1 < e.ttl.toNat := h
  show (e.ttl - 1).toNat + 1 = _
  rw [UInt8.toNat_sub_of_le _ _ hle]
  show e.ttl.toNat - 1 + 1 = _
  omega

namespace GossipNode

/-- `LruCache::get` of a key that is there makes it the most recent one. -/
def touchSeen (id : MessageId) (seen : List MessageId) : List MessageId := id :: seen.erase id

/-- `process_incoming`, with what it hands to the subscribers. -/
def processIncoming (verifier : Verifier) (node : GossipNode) (rng : Shuffle)
    (envelope : GossipEnvelope) (source : ConnectionId) : GossipNode × Option GossipEnvelope :=
  if !envelope.verify verifier then (node, none)
  else if envelope.id ∈ node.seen then
    ({ node with seen := touchSeen envelope.id node.seen }, none)
  else
    let node := { node with seen := putSeen node.config.seenCacheSize envelope.id node.seen }
    if 1 < envelope.ttl then
      (node.sendToPeers rng envelope.countDown (some source), some envelope)
    else (node, some envelope)

theorem mem_touchSeen {id x : MessageId} {seen : List MessageId} (h : id ∈ seen) :
    x ∈ touchSeen id seen ↔ x ∈ seen :=
  (List.perm_cons_erase h).mem_iff.symm

/-- A cache with room for one more key keeps the ones it has. -/
theorem mem_putSeen {capacity : Nat} {id x : MessageId} {seen : List MessageId}
    (h : seen.length < capacity) : x ∈ putSeen capacity id seen ↔ x = id ∨ x ∈ seen := by
  have hfits : (id :: seen.erase id).length ≤ capacity := by
    rw [List.length_cons]
    exact (Nat.succ_le_succ List.length_erase_le).trans h
  unfold putSeen
  rw [List.take_of_length_le hfits, List.mem_cons]
  by_cases hx : x = id
  · simp [hx]
  · simp [hx, List.mem_erase_of_ne hx]

/-- What a call has queued: the tail that the queue of each connection has grown by. -/
def sent (before after : GossipNode) : List (ConnectionId × GossipEnvelope) :=
  before.ids.flatMap fun c => ((after.queue c).drop (before.queue c).length).map fun e => (c, e)

variable {verifier : Verifier} {node : GossipNode} {rng : Shuffle} {e : GossipEnvelope}
  {source : ConnectionId}

/-! ## What an envelope does -/

theorem processIncoming_invalid (h : e.verify verifier = false) :
    node.processIncoming verifier rng e source = (node, none) := by
  simp [processIncoming, h]

theorem processIncoming_seen (hv : e.verify verifier = true) (hs : e.id ∈ node.seen) :
    node.processIncoming verifier rng e source =
      ({ node with seen := touchSeen e.id node.seen }, none) := by
  simp [processIncoming, hv, hs]

/-- The node after a new envelope: its id is in the cache. -/
def remember (node : GossipNode) (id : MessageId) : GossipNode :=
  { node with seen := putSeen node.config.seenCacheSize id node.seen }

theorem processIncoming_last (hv : e.verify verifier = true) (hs : e.id ∉ node.seen)
    (ht : ¬ 1 < e.ttl) :
    node.processIncoming verifier rng e source = (node.remember e.id, some e) := by
  simp [processIncoming, remember, hv, hs, ht]

theorem processIncoming_forward (hv : e.verify verifier = true) (hs : e.id ∉ node.seen)
    (ht : 1 < e.ttl) :
    node.processIncoming verifier rng e source =
      ((node.remember e.id).sendToPeers rng e.countDown (some source), some e) := by
  simp [processIncoming, remember, hv, hs, ht]

/-- The peers an envelope with this ttl is passed on to. -/
def relays (node : GossipNode) (rng : Shuffle) (e : GossipEnvelope) (source : ConnectionId) :
    List ConnectionId :=
  if 1 < e.ttl then node.pickPeers rng (some source) else []

theorem processIncoming_new (hv : e.verify verifier = true) (hs : e.id ∉ node.seen) :
    (node.processIncoming verifier rng e source).2 = some e ∧
      (node.processIncoming verifier rng e source).1.seen =
        putSeen node.config.seenCacheSize e.id node.seen := by
  by_cases ht : 1 < e.ttl
  · rw [processIncoming_forward hv hs ht]
    exact ⟨rfl, rfl⟩
  · rw [processIncoming_last hv hs ht]
    exact ⟨rfl, rfl⟩

/-- **What is delivered** has a valid signature and an id that the cache did not hold. -/
theorem delivered_iff {d : GossipEnvelope} :
    (node.processIncoming verifier rng e source).2 = some d ↔
      e = d ∧ e.verify verifier = true ∧ e.id ∉ node.seen := by
  cases hv : e.verify verifier with
  | false => simp [processIncoming_invalid hv]
  | true =>
    by_cases hs : e.id ∈ node.seen
    · simp [processIncoming_seen hv hs, hs]
    · have hnew : (node.processIncoming verifier rng e source).2 = some e :=
        (processIncoming_new hv hs).1
      simp [hnew, hs]

@[simp] theorem config_processIncoming :
    (node.processIncoming verifier rng e source).1.config = node.config := by
  unfold processIncoming
  split_ifs <;> rfl

@[simp] theorem peerId_processIncoming :
    (node.processIncoming verifier rng e source).1.peerId = node.peerId := by
  unfold processIncoming
  split_ifs <;> rfl

@[simp] theorem ids_processIncoming :
    (node.processIncoming verifier rng e source).1.ids = node.ids := by
  unfold processIncoming
  split_ifs
  · rfl
  · rfl
  · exact ids_queueOn _ _ _
  · rfl

/-! ## What a call queues -/

theorem sent_self (node : GossipNode) : node.sent node = [] := by
  simp [sent]

theorem sent_queueOn (node : GossipNode) (e : GossipEnvelope) (picked : List ConnectionId) :
    node.sent (node.queueOn e picked) =
      (node.ids.filter fun c => c ∈ picked).map fun c => (c, e) := by
  have hone : ∀ c ∈ node.ids,
      (((node.queueOn e picked).queue c).drop (node.queue c).length).map (fun e => (c, e)) =
        if c ∈ picked then [(c, e)] else [] := by
    intro c hc
    rw [queue_queueOn node hc]
    split_ifs <;> simp
  have hall : ∀ cs : List ConnectionId, cs ⊆ node.ids →
      cs.flatMap (fun c =>
          (((node.queueOn e picked).queue c).drop (node.queue c).length).map fun e => (c, e)) =
        (cs.filter fun c => c ∈ picked).map fun c => (c, e) := by
    intro cs
    induction cs with
    | nil => simp
    | cons c cs ih =>
      intro hsub
      have hc : c ∈ node.ids := hsub List.mem_cons_self
      have hcs : cs ⊆ node.ids := fun x hx => hsub (List.mem_cons_of_mem _ hx)
      rw [List.flatMap_cons, hone c hc, ih hcs]
      by_cases hp : c ∈ picked <;> simp [hp]
  exact hall node.ids (fun c hc => hc)

theorem sent_processIncoming_new (hv : e.verify verifier = true) (hs : e.id ∉ node.seen) :
    node.sent (node.processIncoming verifier rng e source).1 =
      (node.ids.filter fun c => c ∈ node.relays rng e source).map fun c => (c, e.countDown) := by
  unfold relays
  by_cases ht : 1 < e.ttl
  · rw [processIncoming_forward hv hs ht, if_pos ht]
    exact sent_queueOn node e.countDown (node.pickPeers rng (some source))
  · rw [processIncoming_last hv hs ht, if_neg ht]
    simp only [List.not_mem_nil, decide_false, List.filter_false, List.map_nil]
    exact node.sent_self

theorem sent_processIncoming_old (h : ¬ (e.verify verifier = true ∧ e.id ∉ node.seen)) :
    node.sent (node.processIncoming verifier rng e source).1 = [] := by
  cases hv : e.verify verifier with
  | false =>
    rw [processIncoming_invalid hv]
    exact node.sent_self
  | true =>
    have hs : e.id ∈ node.seen := by
      by_contra hs
      exact h ⟨hv, hs⟩
    rw [processIncoming_seen hv hs]
    exact node.sent_self

/-- **What is passed on** is the envelope with a smaller ttl. -/
theorem eq_of_mem_sent {x : ConnectionId × GossipEnvelope}
    (h : x ∈ node.sent (node.processIncoming verifier rng e source).1) :
    1 < e.ttl ∧ x.2 = e.countDown := by
  by_cases hnew : e.verify verifier = true ∧ e.id ∉ node.seen
  · rw [sent_processIncoming_new hnew.1 hnew.2] at h
    obtain ⟨k, hk, rfl⟩ := List.mem_map.1 h
    have hrelay := of_decide_eq_true (List.mem_filter.1 hk).2
    unfold relays at hrelay
    split_ifs at hrelay with httl
    · exact ⟨httl, rfl⟩
    · cases hrelay
  · rw [sent_processIncoming_old hnew] at h
    cases h

theorem sent_broadcast (m : GossipMessage) (id : MessageId) (sig : FixedBytes 64) :
    node.sent (node.broadcast rng m id sig) =
      (node.ids.filter fun c => c ∈ node.pickPeers rng none).map
        fun c => (c, node.envelope m id sig) :=
  sent_queueOn node (node.envelope m id sig) (node.pickPeers rng none)

theorem mem_pickPeers_of_le (h : node.ids.length ≤ node.config.fanout)
    {exclude : Option ConnectionId} {c : ConnectionId} :
    c ∈ node.pickPeers rng exclude ↔ c ∈ node.ids ∧ some c ≠ exclude := by
  have hle : (node.ids.filter fun id => some id ≠ exclude).length ≤ node.config.fanout :=
    List.length_filter_le _ _ |>.trans h
  unfold pickPeers
  dsimp only
  rw [if_neg (Nat.not_lt.2 hle), List.mem_filter, decide_eq_true_eq]

theorem length_pickPeers_le (node : GossipNode) (rng : Shuffle) (exclude : Option ConnectionId) :
    (node.pickPeers rng exclude).length ≤ node.config.fanout := by
  unfold pickPeers
  dsimp only
  split_ifs with h
  · exact List.length_take_le _ _
  · exact Nat.not_lt.1 h

theorem length_filter_le_of_subset {picked : List ConnectionId} (node : GossipNode) :
    (node.ids.filter fun c => c ∈ picked).length ≤ picked.length := by
  refine (List.subperm_of_subset (node.distinct.filter _) fun c hc => ?_).length_le
  simpa using (List.mem_filter.1 hc).2

end GossipNode

end ProofMarket
