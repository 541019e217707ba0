import ProofMarket.Gossip.Traffic
import ProofMarket.Gossip.Transit

/-!
# From queues and bytes to envelopes in flight

**Theorem (`refines_mesh`).** A run of nodes with their tasks, queues and streams is a run of the
`Mesh`, in which envelopes are in flight from the moment they are queued until they are processed:
the same nodes process the same envelopes and broadcast the same messages, in the same order, and
deliver the same.

**Theorem (`transit_bounded`).** So the traffic is bounded here, too, in every run, by what the
fanout and the ttl allow for each broadcast.

What is in transit along a connection is what the mesh has in flight for it, and less only where
the task that was to write it is over (`Abstracts`). What is lost below stays in flight above, and
is never received.
-/

namespace ProofMarket

open Streams (other)

/-! ## Envelopes in flight -/

namespace Mesh

variable {κ ν ι : Type} [DecidableEq ν] {K : Cabling κ ν}

/-- What is in flight to a connection of a node. -/
def toward (flight : Multiset (Packet ν ι)) (p : ν × ConnectionId) : Multiset GossipEnvelope :=
  (flight.filter fun q => (q.dest, q.source) = p).map Packet.envelope

theorem toward_add (a b : Multiset (Packet ν ι)) (p : ν × ConnectionId) :
    toward (a + b) p = toward a p + toward b p := by
  simp [toward]

theorem toward_cons (q : Packet ν ι) (a : Multiset (Packet ν ι)) (p : ν × ConnectionId) :
    toward (q ::ₘ a) p = (if (q.dest, q.source) = p then {q.envelope} else 0) + toward a p := by
  unfold toward
  by_cases hq : (q.dest, q.source) = p <;> simp [hq]

theorem toward_route (K : Cabling κ ν) (v : ν) (root : ι)
    (sent : List (ConnectionId × GossipEnvelope)) (x : κ × Bool) :
    toward (route K.wiring v root sent : Multiset (Packet ν ι)) (K.place (other x)) =
      if (K.place x).1 = v then along (K.place x).2 sent else 0 := by
  induction sent with
  | nil => simp [route, toward]
  | cons y sent ih =>
    have hthere : K.wiring v y.1 = some (K.place (other x)) ↔
        (K.place x).1 = v ∧ y.1 = (K.place x).2 := by
      rw [K.wiring_eq_some, Prod.ext_iff]
      exact and_congr_right fun _ => eq_comm
    rw [along_cons]
    cases hy : K.wiring v y.1 with
    | none =>
      have hroute : route K.wiring v root (y :: sent) = route K.wiring v root sent := by
        simp [route, hy]
      rw [hy] at hthere
      rw [hroute, ih]
      split_ifs with hv hc
      · exact absurd (hthere.2 ⟨hv, hc⟩) nofun
      · rw [zero_add]
      · rfl
    | some peer =>
      have hroute : route K.wiring v root (y :: sent) =
          ⟨peer.1, peer.2, y.2, root⟩ :: route K.wiring v root sent := by
        simp [route, hy]
      rw [hy, Option.some.injEq] at hthere
      rw [hroute, ← Multiset.cons_coe, toward_cons, ih]
      show (if peer = K.place (other x) then _ else _) + _ = _
      by_cases hv : (K.place x).1 = v
      · simp [hthere, hv]
      · simp [hthere, hv]

end Mesh

namespace GossipNode

variable {verifier : Verifier} {node : GossipNode} {rng : Shuffle} {e : GossipEnvelope}
  {source : ConnectionId}

theorem pickPeers_subset_ids (node : GossipNode) (rng : Shuffle) (exclude : Option ConnectionId) :
    node.pickPeers rng exclude ⊆ node.ids := by
  unfold pickPeers
  dsimp only
  split_ifs
  · intro c hc
    exact (List.mem_filter.1 ((rng.perm _).mem_iff.1 (List.mem_of_mem_take hc))).1
  · exact fun c hc => (List.mem_filter.1 hc).1

theorem along_filter (node : GossipNode) {picked : List ConnectionId} (hnodup : picked.Nodup)
    (hsub : picked ⊆ node.ids) (c : ConnectionId) (e : GossipEnvelope) :
    along c ((node.ids.filter fun d => d ∈ picked).map fun d => (d, e)) =
      along c (picked.map fun d => (d, e)) := by
  rw [along_map (node.distinct.filter _), along_map hnodup]
  by_cases hc : c ∈ picked
  · simp [hc, hsub hc]
  · simp [hc]

theorem along_broadcast (node : GossipNode) (rng : Shuffle) (m : GossipMessage) (id : MessageId)
    (sig : FixedBytes 64) (c : ConnectionId) :
    along c (node.sent (node.broadcast rng m id sig)) =
      along c ((node.pickPeers rng none).map fun d => (d, node.envelope m id sig)) := by
  rw [sent_broadcast]
  exact node.along_filter pickPeers_nodup pickPeers_subset c _

theorem along_processIncoming (verifier : Verifier) (node : GossipNode) (rng : Shuffle)
    (e : GossipEnvelope) (source : ConnectionId) (c : ConnectionId) :
    along c (node.sent (node.processIncoming verifier rng e source).1) =
      along c (Tasks.sends node rng source (node.processIncoming verifier rng e source).2) := by
  by_cases hnew : e.verify verifier = true ∧ e.id ∉ node.seen
  · have hsub : node.relays rng e source ⊆ node.ids := by
      unfold relays
      split_ifs
      · exact node.pickPeers_subset_ids rng (some source)
      · exact List.nil_subset _
    rw [sent_processIncoming_new hnew.1 hnew.2, (processIncoming_new hnew.1 hnew.2).1]
    exact node.along_filter Tasks.nodup_relays hsub c _
  · have hnone : (node.processIncoming verifier rng e source).2 = none := by
      cases hsome : (node.processIncoming verifier rng e source).2 with
      | none => rfl
      | some d => exact absurd (delivered_iff.1 hsome).2 hnew
    rw [sent_processIncoming_old hnew, hnone]
    rfl

end GossipNode

/-! ## The refinement -/

namespace Fabric

variable {κ ν : Type} [DecidableEq κ] [DecidableEq ν] {format : FrameFormat} {verifier : Verifier}
  {K : Cabling κ ν} {s s' : Fabric κ ν} {t : Mesh ν Unit} {v : ν} {rng : Shuffle}

/-- How a mesh stands for nodes with their queues and streams. -/
structure Abstracts (format : FrameFormat) (K : Cabling κ ν) (s : Fabric κ ν) (t : Mesh ν Unit) :
    Prop where
  nodes : ∀ v, t.nodes v = (s.nodes v).tasks.node
  delivered : ∀ v, t.delivered v = (s.nodes v).delivered
  /-- What is in flight is in transit, unless the task that was to write it is over. -/
  flight : ∀ x, Remains (s.Over K x) (s.transit K x) (Mesh.toward t.flight (K.place (other x)))
  wired : ∀ q ∈ t.flight, ∃ x, K.place (other x) = (q.dest, q.source)
  /-- Nothing comes in from nowhere. -/
  unwired : ∀ v c, K.endAt v c = none → (s.nodes v).tasks.inbound c = 0
  streams : Orderly format K s.streams

omit [DecidableEq κ] in
theorem Abstracts.drift (h : Abstracts format K s t) (hdrifts : Drifts K s s')
    (hstreams : Orderly format K s'.streams) : Abstracts format K s' t where
  nodes v := (h.nodes v).trans (hdrifts.node v).symm
  delivered v := (h.delivered v).trans (hdrifts.delivered v).symm
  flight x := (hdrifts.transit x).trans ((h.flight x).mono (hdrifts.ended x))
  wired := h.wired
  unwired v c hc := (hdrifts.unwired v c hc).trans (h.unwired v c hc)
  streams := hstreams

omit [DecidableEq κ] in
/-- One node goes on: it takes `a` out of its queues, the mesh takes it out of flight, and what the
node sends is in flight then. -/
theorem Abstracts.update (h : Abstracts format K s t) {n : BusyNode} {u : Mesh ν Unit}
    (a : κ × Bool → Multiset GossipEnvelope) (hnodes : u.nodes = t.nodes)
    (hsub : u.flight ⊆ t.flight) (htask : n.tasks.task = (s.nodes v).tasks.task)
    (hdelivered : ∀ w, u.delivered w = (Function.update s.nodes v n w).delivered)
    (hout : ∀ c, n.outbound c =
      (s.nodes v).outbound c + along c ((s.nodes v).tasks.node.sent n.tasks.node))
    (hin : ∀ x, (K.place (other x)).1 = v → n.tasks.inbound (K.place (other x)).2 + a x =
      (s.nodes v).tasks.inbound (K.place (other x)).2)
    (hnone : ∀ x, (K.place (other x)).1 ≠ v → a x = 0)
    (hunwired : ∀ c, K.endAt v c = none → n.tasks.inbound c ≤ (s.nodes v).tasks.inbound c)
    (hflight : ∀ x, Mesh.toward u.flight (K.place (other x)) + a x =
      Mesh.toward t.flight (K.place (other x))) :
    Abstracts format K (s.update v n) (u.update K.wiring v n.tasks.node ()) := by
  have hv : u.nodes v = (s.nodes v).tasks.node := by rw [hnodes, h.nodes]
  constructor
  · intro w
    show Function.update u.nodes v n.tasks.node w = (Function.update s.nodes v n w).tasks.node
    by_cases hw : w = v
    · subst hw
      rw [Function.update_self, Function.update_self]
    · rw [Function.update_of_ne hw, Function.update_of_ne hw, hnodes, h.nodes]
  · exact hdelivered
  · intro x
    let new := if (K.place x).1 = v then
      along (K.place x).2 ((s.nodes v).tasks.node.sent n.tasks.node) else 0
    have hsend : ((s.update v n).nodes (K.place x).1).outbound (K.place x).2 =
        (s.nodes (K.place x).1).outbound (K.place x).2 + new := by
      show (Function.update s.nodes v n (K.place x).1).outbound _ = _
      by_cases hx : (K.place x).1 = v
      · simp only [new, if_pos hx]
        rw [hx, Function.update_self]
        exact hout _
      · simp only [new, if_neg hx]
        rw [Function.update_of_ne hx, add_zero]
    have hreceive : ((s.update v n).nodes (K.place (other x)).1).tasks.inbound
        (K.place (other x)).2 + a x =
          (s.nodes (K.place (other x)).1).tasks.inbound (K.place (other x)).2 := by
      show (Function.update s.nodes v n (K.place (other x)).1).tasks.inbound _ + _ = _
      by_cases hx : (K.place (other x)).1 = v
      · rw [hx, Function.update_self]
        exact hin x hx
      · rw [Function.update_of_ne hx, hnone x hx, add_zero]
    have htoward : Mesh.toward (u.update K.wiring v n.tasks.node ()).flight (K.place (other x)) =
        new + Mesh.toward u.flight (K.place (other x)) := by
      show Mesh.toward (_ + u.flight) _ = _
      rw [Mesh.toward_add, Mesh.toward_route, hv]
    have hover : s.Over K x → (s.update v n).Over K x := by
      intro hx
      show (Function.update s.nodes v n (K.place x).1).tasks.task _ = _
      by_cases hxv : (K.place x).1 = v
      · rw [hxv, Function.update_self, htask, ← hxv]
        exact hx
      · rw [Function.update_of_ne hxv]
        exact hx
    have hbelow : (s.update v n).transit K x + a x = new + s.transit K x := by
      calc (s.update v n).transit K x + a x
          = new + ((s.nodes (K.place x).1).outbound (K.place x).2 + s.streams.between x +
              (((s.update v n).nodes (K.place (other x)).1).tasks.inbound (K.place (other x)).2 +
                a x)) := by
            rw [Fabric.transit, hsend]
            show _ + _ + s.streams.between x + _ + _ = _
            ac_rfl
        _ = new + s.transit K x := by rw [hreceive, Fabric.transit]
    refine .of_add (c := a x) ?_
    rw [hbelow, htoward, add_assoc, hflight]
    exact (Remains.of_eq rfl).add ((h.flight x).mono hover)
  · intro q hq
    rcases Multiset.mem_add.1 hq with hnew | hold
    · obtain ⟨c, -, hwire, -⟩ := Mesh.mem_route.1 (Multiset.mem_coe.1 hnew)
      obtain ⟨x, -, hx⟩ := Option.map_eq_some_iff.1 hwire
      exact ⟨x, hx⟩
    · exact h.wired q (hsub hold)
  · intro w c hc
    show (Function.update s.nodes v n w).tasks.inbound c = 0
    by_cases hw : w = v
    · subst hw
      rw [Function.update_self]
      have hle := hunwired c hc
      rw [h.unwired w c hc] at hle
      exact Multiset.le_zero.1 hle
    · rw [Function.update_of_ne hw]
      exact h.unwired w c hc
  · exact h.streams

omit [DecidableEq κ] in
theorem Abstracts.broadcast (h : Abstracts format K s t) (v : ν) (rng : Shuffle) (m : GossipMessage)
    (id : MessageId) (sig : FixedBytes 64) :
    Abstracts format K (s.update v ((s.nodes v).broadcast rng m id sig))
      (t.broadcast K.wiring v rng m id sig ()) := by
  unfold Mesh.broadcast
  rw [h.nodes v]
  refine h.update (n := (s.nodes v).broadcast rng m id sig) (fun _ => 0) rfl
    (Multiset.Subset.refl _) rfl ?_ ?_
    (fun x _ => add_zero _) (fun _ _ => rfl) (fun c _ => le_rfl) fun x => add_zero _
  · intro w
    rw [h.delivered]
    by_cases hw : w = v
    · subst hw
      rw [Function.update_self]
      rfl
    · rw [Function.update_of_ne hw]
  · intro c
    show (s.nodes v).tasks.outbound c + along c ((s.nodes v).calls ++ [_]).flatten =
      (s.nodes v).tasks.outbound c + along c (s.nodes v).calls.flatten +
        along c ((s.nodes v).tasks.node.sent ((s.nodes v).tasks.node.broadcast rng m id sig))
    rw [List.flatten_append, along_append, List.flatten_singleton, GossipNode.along_broadcast,
      add_assoc]

omit [DecidableEq κ] in
theorem Abstracts.receive (h : Abstracts format K s t) {e : GossipEnvelope} {source : ConnectionId}
    {n : BusyNode} (hn : (s.nodes v).receive verifier rng e source = some n) :
    ∃ p : Packet ν Unit, p ∈ t.flight ∧ p.dest = v ∧ p.source = source ∧ p.envelope = e ∧
      Abstracts format K (s.update v n) (t.receive verifier K.wiring p rng) := by
  unfold BusyNode.receive at hn
  split_ifs at hn with hhead
  obtain ⟨tasks, htasks, rfl⟩ := Option.map_eq_some_iff.1 hn
  have hreceived := Tasks.of_step_receive hhead htasks
  have hin : ∀ c, tasks.inbound c + (if c = source then {e} else 0) =
      (s.nodes v).tasks.inbound c := by
    intro c
    unfold Tasks.inbound
    rw [hreceived.task, hreceived.incoming, List.map_cons, along_cons]
    simp only [Prod.swap_prod_mk, eq_comm (a := c)]
    ac_rfl
  -- What has come in on a connection is in flight to it.
  obtain ⟨x, hx⟩ : ∃ x, K.endAt v source = some x := by
    cases hend : K.endAt v source with
    | some x => exact ⟨x, rfl⟩
    | none =>
      have hnothing := h.unwired v source hend
      rw [← hin source, if_pos rfl] at hnothing
      simp at hnothing
  have hplace : K.place x = (v, source) := (K.endAt_eq_some _ _ _).1 hx
  have hflight : e ∈ Mesh.toward t.flight (v, source) := by
    have hle := (h.flight (other x)).le
    rw [Streams.other_other, hplace] at hle
    refine Multiset.mem_of_le hle (Multiset.mem_add.2 (.inr ?_))
    rw [Streams.other_other, hplace, ← hin source, if_pos rfl]
    exact Multiset.mem_add.2 (.inr (Multiset.mem_singleton_self e))
  obtain ⟨p, hp, rfl⟩ := Multiset.mem_map.1 hflight
  obtain ⟨hmem, hdest⟩ := Multiset.mem_filter.1 hp
  obtain ⟨rfl, rfl⟩ := Prod.mk.inj hdest
  refine ⟨p, hmem, rfl, rfl, rfl, ?_⟩
  unfold Mesh.receive
  dsimp only
  rw [h.nodes p.dest, ← hreceived.node]
  refine h.update (n := { s.nodes p.dest with tasks, delivered := _ })
    (fun x => if K.place (other x) = (p.dest, p.source) then {p.envelope} else 0)
    rfl (Multiset.erase_subset _ _) hreceived.task ?_ ?_ ?_ ?_ ?_ ?_
  · intro w
    dsimp only
    by_cases hw : w = p.dest
    · subst hw
      rw [Function.update_self, Function.update_self, h.delivered]
    · rw [Function.update_of_ne hw, Function.update_of_ne hw, h.delivered]
  · intro c
    show along c tasks.pending + _ + _ = along c (s.nodes p.dest).tasks.pending + _ + _ + along c _
    rw [hreceived.node, GossipNode.along_processIncoming, hreceived.pending, hreceived.idle,
      hreceived.task, along_nil]
    ac_rfl
  · intro x hv
    rw [← hin]
    congr 1
    simp [Prod.ext_iff, hv]
  · intro x hv
    refine if_neg fun heq => hv ?_
    rw [heq]
  · intro c _
    rw [← hin c]
    exact Multiset.le_add_right _ _
  · intro x
    show Mesh.toward (t.flight.erase p) _ + _ = _
    conv_rhs => rw [← Multiset.cons_erase hmem]
    rw [Mesh.toward_cons, add_comm]
    simp only [eq_comm (a := K.place (other x))]

/-! ## Runs -/

end Fabric

/-- What is seen of a step of the mesh. -/
def Mesh.Label.seen {ν : Type} : Mesh.Label ν Unit → Fabric.Seen ν
  | .receive p rng => .processed p.dest rng p.envelope p.source
  | .broadcast v rng m id sig _ => .broadcast v rng m id sig

namespace Tasks

/-- A node whose connections have been opened, and that has heard nothing. -/
def connected (peerId : PeerId) (config : GossipConfig) : Nat → Tasks
  | 0 => .new peerId config
  | n + 1 => (connected peerId config n).spawnConnection

theorem quiet_connected (peerId : PeerId) (config : GossipConfig) (n : Nat) :
    (connected peerId config n).pending = [] ∧ (connected peerId config n).incoming.items = [] ∧
      ∀ c, ((connected peerId config n).task c).queued = [] ∧
        ((connected peerId config n).task c).held = [] := by
  induction n with
  | zero => exact ⟨rfl, rfl, fun _ => ⟨rfl, rfl⟩⟩
  | succ n ih =>
    refine ⟨ih.1, ih.2.1, fun c => ?_⟩
    have htask : (connected peerId config (n + 1)).task =
        Function.update (connected peerId config n).task
          (connected peerId config n).nextConnectionId (.selecting .empty) := rfl
    rw [htask]
    by_cases hc : c = (connected peerId config n).nextConnectionId
    · rw [hc, Function.update_self]
      exact ⟨rfl, rfl⟩
    · rw [Function.update_of_ne hc]
      exact ih.2.2 c

theorem config_connected (peerId : PeerId) (config : GossipConfig) (n : Nat) :
    (connected peerId config n).node.config = config := by
  induction n with
  | zero => rfl
  | succ n ih => exact ih

theorem peerId_connected (peerId : PeerId) (config : GossipConfig) (n : Nat) :
    (connected peerId config n).node.peerId = peerId := by
  induction n with
  | zero => rfl
  | succ n ih => exact ih

end Tasks

namespace Fabric

variable {κ ν : Type} [DecidableEq κ] [DecidableEq ν] {format : FrameFormat} {verifier : Verifier}
  {K : Cabling κ ν} {s s' : Fabric κ ν} {t : Mesh ν Unit}

/-- **Every step is a step of the mesh**, or one that it does not see. -/
theorem Abstracts.step (h : Abstracts format K s t) {l : Label κ ν}
    (hst : Fabric.step format verifier K s l = some s') :
    l.seen = none ∧ Abstracts format K s' t ∨
      ∃ b t', l.seen = some b.seen ∧ Mesh.step verifier K.wiring t b = some t' ∧
        Abstracts format K s' t' := by
  cases l with
  | broadcast v rng m id sig =>
    cases hst
    exact .inr ⟨.broadcast v rng m.1 id sig (), _, rfl, rfl, h.broadcast v rng m.1 id sig⟩
  | receive v rng e source =>
    obtain ⟨n, hn, rfl⟩ := Option.map_eq_some_iff.1 hst
    obtain ⟨p, hp, rfl, rfl, rfl, habstracts⟩ := h.receive hn
    exact .inr ⟨.receive p rng, _, rfl, if_pos hp, habstracts⟩
  | post v i =>
    obtain ⟨hdrifts, hstreams⟩ := drifts_post hst
    exact .inl ⟨rfl, h.drift hdrifts (by rw [hstreams]; exact h.streams)⟩
  | send v =>
    obtain ⟨hdrifts, hstreams⟩ := drifts_send hst
    exact .inl ⟨rfl, h.drift hdrifts (by rw [hstreams]; exact h.streams)⟩
  | enqueue x =>
    obtain ⟨hdrifts, hstreams⟩ := drifts_enqueue hst
    exact .inl ⟨rfl, h.drift hdrifts (by rw [hstreams]; exact h.streams)⟩
  | write x e =>
    obtain ⟨hdrifts, hstreams⟩ := drifts_write h.streams hst
    exact .inl ⟨rfl, h.drift hdrifts hstreams⟩
  | arrive x n =>
    obtain ⟨hdrifts, hstreams⟩ := drifts_arrive h.streams hst
    exact .inl ⟨rfl, h.drift hdrifts hstreams⟩
  | read x =>
    obtain ⟨hdrifts, hstreams⟩ := drifts_read h.streams hst
    exact .inl ⟨rfl, h.drift hdrifts hstreams⟩
  | lost x =>
    obtain ⟨hdrifts, hstreams⟩ := drifts_lost h.streams hst
    exact .inl ⟨rfl, h.drift hdrifts hstreams⟩

theorem simulates (format : FrameFormat) (verifier : Verifier) (K : Cabling κ ν) (s : Fabric κ ν)
    (l : Label κ ν) (s' : Fabric κ ν) (t : Mesh ν Unit) (h : Abstracts format K s t)
    (hst : s.step format verifier K l = some s') :
    ∃ bs t', Transition.run (Mesh.step verifier K.wiring) bs t = some t' ∧
      bs.filterMap (fun b => some b.seen) = l.seen.toList ∧ Abstracts format K s' t' := by
  rcases h.step hst with ⟨hseen, hs'⟩ | ⟨b, t', hseen, ht', hs'⟩
  · exact ⟨[], t, rfl, by rw [hseen]; rfl, hs'⟩
  · refine ⟨[b], t', ?_, by rw [hseen]; rfl, hs'⟩
    rw [Transition.run, ht']
    rfl

/-- The nodes, connected with each other. -/
def connected (key : ν → PeerId) (config : ν → GossipConfig) (degree : ν → Nat) : Fabric κ ν :=
  start fun v => .connected (key v) (config v) (degree v)

/-- The mesh of these nodes. -/
def meshOf (key : ν → PeerId) (config : ν → GossipConfig) (degree : ν → Nat) : Mesh ν Unit :=
  ⟨fun v => (Tasks.connected (key v) (config v) (degree v)).node, fun _ => [], 0⟩

omit [DecidableEq κ] in
theorem abstracts_connected (format : FrameFormat) (K : Cabling κ ν) (key : ν → PeerId)
    (config : ν → GossipConfig) (degree : ν → Nat) :
    Abstracts format K (connected key config degree) (meshOf key config degree) where
  nodes _ := rfl
  delivered _ := rfl
  flight x := by
    have hnothing : (connected key config degree).transit K x = 0 := by
      obtain ⟨hpending, -, htask⟩ := Tasks.quiet_connected (key (K.place x).1)
        (config (K.place x).1) (degree (K.place x).1)
      obtain ⟨-, hincoming, htask'⟩ := Tasks.quiet_connected (key (K.place (other x)).1)
        (config (K.place (other x)).1) (degree (K.place (other x)).1)
      simp [Fabric.transit, connected, start, BusyNode.outbound, Tasks.outbound, Tasks.inbound,
        Streams.between, Streams.start, StreamTask.start, hpending, htask, hincoming, htask']
    rw [hnothing]
    exact .of_eq rfl
  wired q hq := absurd hq (Multiset.notMem_zero q)
  unwired v c _ := by
    obtain ⟨-, hincoming, htask⟩ := Tasks.quiet_connected (key v) (config v) (degree v)
    simp [connected, start, Tasks.inbound, hincoming, htask]
  streams := .start

/-- **What happens below is what happens in the mesh**: the same envelopes are processed and the
same messages broadcast by the same nodes in the same order, and what is underway is in flight. -/
theorem refines_mesh (format : FrameFormat) (verifier : Verifier) (K : Cabling κ ν)
    (key : ν → PeerId) (config : ν → GossipConfig) (degree : ν → Nat) {ls : List (Label κ ν)}
    (h : Transition.run (step format verifier K) ls (connected key config degree) = some s) :
    ∃ bs t, Transition.run (Mesh.step verifier K.wiring) bs (meshOf key config degree) = some t ∧
      bs.map Mesh.Label.seen = ls.filterMap Label.seen ∧ Abstracts format K s t := by
  obtain ⟨bs, t, hrun, hseen, habstracts⟩ := Transition.run_simulate (simulates format verifier K)
    (abstracts_connected format K key config degree) h
  refine ⟨bs, t, hrun, ?_, habstracts⟩
  rw [← hseen, List.filterMap_eq_map']

/-! ### A claim goes from node to node -/

/-- One connection between two nodes. -/
def oneCable : Cabling Unit Bool where
  place x := (x.2, 0)
  endAt v c := if c = 0 then some ((), v) else none
  endAt_eq_some := by
    intro v c x
    by_cases hc : c = 0
    · simp [hc, Prod.ext_iff, eq_comm]
    · simp [hc, Ne.symm hc]

/-- Worker 1 and another node. -/
def pair : Fabric Unit Bool :=
  connected (fun v => ⟨.fill 32 (if v then 2 else 1)⟩) (fun _ => .new) fun _ => 1

theorem fits_honestClaim : Endpoint.honestClaim.payload.Fits :=
  Nodes.claimMessage.2

/-- The frame comes in in two pieces. -/
def claimInPieces : List (Label Unit Bool) :=
  [.broadcast false .trivial Nodes.claimMessage ⟨.fill 32 5⟩ (.fill 64 0), .post false 0,
    .write ((), false) ⟨Endpoint.honestClaim, fits_honestClaim⟩, .arrive ((), true) 3,
    .arrive ((), true) 300, .read ((), true), .enqueue ((), true),
    .receive true .trivial Endpoint.honestClaim 0]

theorem exists_claimInPieces : ∃ s : Fabric Unit Bool,
    Transition.run (step Streams.codecNew (fun _ _ _ => true) oneCable) claimInPieces pair =
      some s ∧ (s.nodes true).delivered = [Endpoint.honestClaim] := by
  have hrun : (Transition.run (step Streams.codecNew (fun _ _ _ => true) oneCable) claimInPieces
      pair).map (fun s => (s.nodes true).delivered) = some [Endpoint.honestClaim] := by
    decide +kernel
  exact Option.map_eq_some_iff.1 hrun

theorem refines_mesh_claim : ∃ (s : Fabric Unit Bool) (bs : List (Mesh.Label Bool Unit))
    (t : Mesh Bool Unit), (s.nodes true).delivered = [Endpoint.honestClaim] ∧
      bs.map Mesh.Label.seen = claimInPieces.filterMap Label.seen ∧
      Abstracts Streams.codecNew oneCable s t := by
  obtain ⟨s, hs, hdelivered⟩ := exists_claimInPieces
  obtain ⟨bs, t, -, hseen, habstracts⟩ := refines_mesh Streams.codecNew (fun _ _ _ => true) oneCable
    (fun v => ⟨.fill 32 (if v then 2 else 1)⟩) (fun _ => .new) (fun _ => 1) hs
  exact ⟨s, bs, t, hdelivered, hseen, habstracts⟩

end Fabric

/-! ## Traffic -/

namespace Mesh

variable {κ ν : Type} [DecidableEq ν] {verifier : Verifier} {wiring : Wiring ν} {s t : Mesh ν Unit}

theorem worth_broadcast_le {f : ℕ} {v : ν} {rng : Shuffle} {m : GossipMessage} {id : MessageId}
    {sig : FixedBytes 64} (hf : (s.nodes v).config.fanout ≤ f) :
    Branching.worth f hops (s.broadcast wiring v rng m id sig ()).flight ≤
      Branching.worth f hops s.flight +
        f * Branching.cost f ((s.nodes v).config.maxTtl.toNat - 1) := by
  -- As if nothing else were in flight.
  let alone : Mesh ν Unit := { s with flight := 0 }
  have halone : Branching.budget f hops Packet.root ()
      (alone.broadcast wiring v rng m id sig ()).flight ≤ _ :=
    budget_broadcast hf fun _ hp => absurd hp (Multiset.notMem_zero _)
  unfold Branching.budget at halone
  rw [Multiset.filter_eq_self.2 fun _ _ => rfl] at halone
  unfold broadcast update at halone ⊢
  rw [Branching.worth_add] at halone ⊢
  rw [Branching.worth_zero, Nat.add_zero] at halone
  simp only [alone] at halone
  omega

/-- **In every run**, what has been processed and what is in flight was paid for by broadcasts. -/
theorem processed_add_worth_le {f B : ℕ} : ∀ {bs : List (Label ν Unit)} {s t : Mesh ν Unit},
    (∀ v, (s.nodes v).config.fanout ≤ f) →
    (∀ v, f * Branching.cost f ((s.nodes v).config.maxTtl.toNat - 1) ≤ B) →
    Transition.run (step verifier wiring) bs s = some t →
      Fabric.processed (bs.map Label.seen) + Branching.worth f hops t.flight ≤
        Branching.worth f hops s.flight + Fabric.broadcasts (bs.map Label.seen) * B
  | [], s, t, _, _, h => by
    cases h
    simp [Fabric.processed]
  | b :: bs, s, t, hf, hB, h => by
    obtain ⟨u, hu, hrest⟩ := Option.bind_eq_some_iff.1 h
    have ih := processed_add_worth_le (s := u) (fun v => by rw [config_step hu]; exact hf v)
      (fun v => by rw [config_step hu]; exact hB v) hrest
    cases b with
    | receive p rng =>
      have hless := (branches (hf p.dest) hu).worth_lt
      show Fabric.processed _ + 1 + _ ≤ _ + Fabric.broadcasts (bs.map Label.seen) * B
      omega
    | broadcast v rng m id sig root =>
      cases hu
      have hmore : Branching.worth f hops (s.broadcast wiring v rng m id sig root).flight ≤ _ :=
        worth_broadcast_le (hf v)
      have hbound := hB v
      show Fabric.processed (bs.map Label.seen) + _ ≤ _ + (Fabric.broadcasts _ + 1) * B
      rw [Nat.add_mul, Nat.one_mul]
      omega

/-- An end is the other end of one end only. -/
theorem sum_toward_le (K : Cabling κ ν) (flight : Multiset (Packet ν Unit))
    (ends : Finset (κ × Bool)) :
    ∑ x ∈ ends, (toward flight (K.place (other x))).card ≤ flight.card := by
  induction flight using Multiset.induction with
  | empty => simp [toward]
  | cons q flight ih =>
    have hone : ∑ x ∈ ends, (if (q.dest, q.source) = K.place (other x) then 1 else 0) ≤ 1 := by
      rw [← Finset.card_filter]
      refine Finset.card_le_one.2 fun x hx y hy => ?_
      have hplace : K.place (other x) = K.place (other y) :=
        (Finset.mem_filter.1 hx).2.symm.trans (Finset.mem_filter.1 hy).2
      rw [← Streams.other_other x, K.place_injective hplace, Streams.other_other]
    have hcard : ∀ x, (toward (q ::ₘ flight) (K.place (other x))).card =
        (if (q.dest, q.source) = K.place (other x) then 1 else 0) +
          (toward flight (K.place (other x))).card := by
      intro x
      rw [toward_cons, Multiset.card_add]
      split_ifs <;> rfl
    simp only [hcard, Finset.sum_add_distrib, Multiset.card_cons]
    omega

end Mesh

namespace Fabric

variable {κ ν : Type} [DecidableEq κ] [DecidableEq ν] {s : Fabric κ ν}

/-- **Traffic is bounded, down to the bytes.** In every run, the envelopes that have been processed
and those that are underway at any ends are no more than what the fanout and the ttl allow for each
broadcast. -/
theorem transit_bounded (format : FrameFormat) (verifier : Verifier) (K : Cabling κ ν)
    (key : ν → PeerId) (config : ν → GossipConfig) (degree : ν → Nat) (f maxTtl : ℕ)
    (hf : ∀ v, (config v).fanout ≤ f) (httl : ∀ v, (config v).maxTtl.toNat ≤ maxTtl)
    {ls : List (Label κ ν)}
    (h : Transition.run (step format verifier K) ls (connected key config degree) = some s)
    (ends : Finset (κ × Bool)) :
    processed (ls.filterMap Label.seen) + ∑ x ∈ ends, (s.transit K x).card ≤
      broadcasts (ls.filterMap Label.seen) *
        ∑ k ∈ Finset.range (max maxTtl 1), f ^ (k + 1) := by
  obtain ⟨bs, t, hbs, hseen, habstracts⟩ := Transition.run_simulate
    (simulates format verifier K) (abstracts_connected format K key config degree) h
  rw [List.filterMap_eq_map'] at hseen
  have hconfig : ∀ v, ((meshOf key config degree).nodes v).config = config v :=
    fun v => Tasks.config_connected ..
  have hpaid := Mesh.processed_add_worth_le (f := f)
    (B := ∑ k ∈ Finset.range (max maxTtl 1), f ^ (k + 1))
    (fun v => by rw [hconfig]; exact hf v) (fun v => ?_) hbs
  · have hunderway : ∑ x ∈ ends, (s.transit K x).card ≤ t.flight.card :=
      (Finset.sum_le_sum fun x _ => Multiset.card_le_card (habstracts.flight x).le).trans
        (Mesh.sum_toward_le K t.flight ends)
    have hworth : t.flight.card ≤ Branching.worth f Mesh.hops t.flight :=
      Branching.card_le_worth _
    have hnothing : Branching.worth f Mesh.hops (meshOf key config degree).flight = 0 :=
      Branching.worth_zero
    rw [← hseen]
    rw [hnothing] at hpaid
    omega
  · rw [hconfig, ← Mesh.mul_cost]
    refine Nat.mul_le_mul_left _ (Branching.cost_mono f ?_)
    have hv := httl v
    omega

theorem transit_bounded_claim : ∃ s : Fabric Unit Bool,
    (s.nodes true).delivered = [Endpoint.honestClaim] ∧
      1 + ∑ x ∈ {((), false), ((), true)}, (s.transit oneCable x).card ≤ 39 := by
  obtain ⟨s, hs, hdelivered⟩ := exists_claimInPieces
  refine ⟨s, hdelivered, ?_⟩
  have hbound := transit_bounded Streams.codecNew (fun _ _ _ => true) oneCable
    (fun v => ⟨.fill 32 (if v then 2 else 1)⟩) (fun _ => .new) (fun _ => 1) 3 3 (fun _ => le_rfl)
    (fun _ => le_rfl) hs {((), false), ((), true)}
  have hprocessed : processed (claimInPieces.filterMap Label.seen) = 1 := rfl
  have hbroadcasts : broadcasts (claimInPieces.filterMap Label.seen) = 1 := rfl
  rw [hprocessed, hbroadcasts] at hbound
  simpa [Finset.sum_range_succ] using hbound

end Fabric

end ProofMarket
