import ProofMarket.Gossip.Coverage
import ProofMarket.Gossip.Levels

/-!
# Who gets a broadcast, over queues and bytes

**Theorem (`coverage_on_wire`).** Queues, tasks and streams neither duplicate a broadcast nor lose
it while no task is over: whatever breaks, nobody delivers it twice; and when no task is over and no
copy is in transit any more, it is covered who gets it as in the mesh.

A run below in which no other message takes the id is such a run of the mesh (`Abstracts.calm`), and
what is in flight there has nowhere to be but in transit.
-/

namespace ProofMarket

open Streams (other)
open Transition (Steps)

/-! ## An id that nobody has met -/

namespace Mesh

variable {ν ι : Type} [DecidableEq ν] [DecidableEq ι] {verifier : Verifier} {wiring : Wiring ν}
  {s t : Mesh ν ι} {x : MessageId}

/-- **An id stays unused** until a broadcast takes it. -/
theorem Unused.step {l : Label ν ι} (hs : Unused x s) (hj : Joined wiring s) (hroom : Roomy s)
    (hl : l.Elsewhere x) (h : Mesh.step verifier wiring s l = some t) : Unused x t := by
  cases l with
  | receive p rng =>
    obtain ⟨hp, rfl⟩ := step_receive h
    have hne : p.envelope.id ≠ x := hs.flight p hp
    constructor
    · intro v
      rw [seen_receive hroom]
      rintro (hv | ⟨-, -, rfl⟩)
      · exact hs.seen v hv
      · exact hne rfl
    · intro q hq
      rcases mem_flight_receive.1 hq with hq | hq
      · obtain ⟨-, henv, -⟩ := envelope_of_mem_spread hq
        rw [henv]
        exact hne
      · exact hs.flight q (Multiset.mem_of_mem_erase hq)
    · intro v e he
      rw [delivered_receive] at he
      split_ifs at he
      · rcases List.mem_cons.1 he with rfl | he
        · exact hne
        · exact hs.delivered v e he
      · exact hs.delivered v e he
  | broadcast v rng m id sig root =>
    cases h
    have hne : id ≠ x := hl
    constructor
    · intro w
      rw [seen_broadcast hroom]
      rintro (hw | ⟨-, rfl⟩)
      · exact hs.seen w hw
      · exact hne rfl
    · intro q hq
      rw [flight_broadcast, Multiset.mem_add, Multiset.mem_coe] at hq
      rcases hq with hq | hq
      · obtain ⟨henv, -⟩ := hj.mem_route_iff.1 hq
        rw [henv]
        exact hne
      · exact hs.flight q hq
    · exact hs.delivered

theorem Unused.run (hj : Joined wiring s) (hs : Unused x s)
    (h : Steps (Mesh.step verifier wiring) (Calm x) s t) : Joined wiring t ∧ Unused x t := by
  refine h.invariant (I := fun s => Joined wiring s ∧ Unused x s) ?_ ⟨hj, hs⟩
  rintro s l t ⟨hj, hs⟩ ⟨hroom, hl⟩ hst
  exact ⟨hj.step hst, hs.step hj hroom hl hst⟩

end Mesh

/-! ## Calm runs -/

def ConnectionTask.isOver : ConnectionTask → Bool
  | .ended => true
  | .selecting _ | .holding .. => false

theorem ConnectionTask.isOver_iff {task : ConnectionTask} : task.isOver = true ↔ task = .ended := by
  cases task <;> simp [isOver]

namespace Fabric

/-- What is seen has nothing to do with the id, or is a receipt. -/
def Seen.Elsewhere {ν : Type} (x : MessageId) : Seen ν → Prop
  | .processed .. => True
  | .broadcast _ _ _ id _ => id ≠ x

variable {κ ν : Type}

/-- No cache evicts anything when one more id is put into it. -/
def Roomy (s : Fabric κ ν) : Prop :=
  ∀ v, (s.nodes v).tasks.node.seen.length < (s.nodes v).tasks.node.config.seenCacheSize

/-- What a run that only broadcasts other messages and never overflows a cache may do. -/
def Calm (x : MessageId) (s : Fabric κ ν) (l : Label κ ν) : Prop :=
  Roomy s ∧ ∀ a ∈ l.seen, a.Elsewhere x

/-- How often a node has delivered the message with the id. -/
def deliveries (s : Fabric κ ν) (x : MessageId) (v : ν) : ℕ :=
  (s.nodes v).delivered.countP fun e => e.id = x

/-- The copy that the node delivered was on its last hop. -/
def Spent (s : Fabric κ ν) (x : MessageId) (v : ν) : Prop :=
  ∃ e ∈ (s.nodes v).delivered, e.id = x ∧ e.ttl ≤ 1

variable [DecidableEq ν] {format : FrameFormat} {verifier : Verifier} {K : Cabling κ ν}
  {s s' : Fabric κ ν} {t : Mesh ν Unit} {x : MessageId}

theorem Abstracts.roomy (h : Abstracts format K s t) : Mesh.Roomy t ↔ s.Roomy := by
  unfold Mesh.Roomy Fabric.Roomy
  simp [h.nodes]

theorem Abstracts.deliveries (h : Abstracts format K s t) (v : ν) :
    Mesh.deliveries t x v = s.deliveries x v := by
  unfold Mesh.deliveries Fabric.deliveries
  rw [h.delivered]

theorem Abstracts.spent (h : Abstracts format K s t) {v : ν} :
    Mesh.Spent t x v ↔ s.Spent x v := by
  unfold Mesh.Spent Fabric.Spent
  rw [h.delivered]

theorem Abstracts.arrived (h : Abstracts format K s t) (hwhole : ∀ y, ¬ s.Over K y)
    (hdone : ∀ y, ∀ e ∈ s.transit K y, e.id ≠ x) : ∀ p ∈ t.flight, p.envelope.id ≠ x := by
  intro p hp
  obtain ⟨y, hy⟩ := h.wired p hp
  refine hdone y p.envelope ?_
  rw [(h.flight y).eq (hwhole y), hy]
  exact Multiset.mem_map_of_mem _ (Multiset.mem_filter.2 ⟨hp, rfl⟩)

variable [DecidableEq κ]

/-- **A calm run is a calm run of the mesh.** -/
theorem Abstracts.calm (h : Abstracts format K s t)
    (hrun : Steps (Fabric.step format verifier K) (Calm x) s s') :
    ∃ t', Steps (Mesh.step verifier K.wiring) (Mesh.Calm x) t t' ∧ Abstracts format K s' t' := by
  refine hrun.simulate (R := Abstracts format K) ?_ h
  rintro s l s' t hs ⟨hroom, hl⟩ hst
  rcases hs.step hst with ⟨-, hs'⟩ | ⟨b, t', hseen, ht', hs'⟩
  · exact ⟨t, .refl, hs'⟩
  · have helsewhere : b.seen.Elsewhere x := hl b.seen hseen
    have hb : b.Elsewhere x := by
      cases b with
      | receive p rng => exact trivial
      | broadcast v rng m id sig root => exact helsewhere
    exact ⟨t', .single ⟨b, ⟨hs.roomy.2 hroom, hb⟩, ht'⟩, hs'⟩

end Fabric

/-! ## Connected nodes -/

namespace Tasks

theorem ids_spawnConnection (s : Tasks) :
    s.spawnConnection.node.ids = s.node.ids ++ [s.nextConnectionId] :=
  GossipNode.ids_insertConnection fun h => Nat.lt_irrefl _ (s.fresh _ h)

theorem ids_connected (peerId : PeerId) (config : GossipConfig) (n : Nat) :
    (connected peerId config n).nextConnectionId = n ∧
      (connected peerId config n).node.ids = List.range n := by
  induction n with
  | zero => exact ⟨rfl, rfl⟩
  | succ n ih =>
    refine ⟨congrArg (· + 1) ih.1, ?_⟩
    calc (connected peerId config (n + 1)).node.ids
        = (connected peerId config n).node.ids ++ [(connected peerId config n).nextConnectionId] :=
          ids_spawnConnection _
      _ = List.range (n + 1) := by rw [ih.1, ih.2, List.range_succ]

theorem seen_connected (peerId : PeerId) (config : GossipConfig) (n : Nat) :
    (connected peerId config n).node.seen = [] := by
  induction n with
  | zero => rfl
  | succ n ih => exact ih

end Tasks

namespace Fabric

variable {κ ν : Type} [DecidableEq ν] {K : Cabling κ ν} {key : ν → PeerId}
  {config : ν → GossipConfig} {degree : ν → Nat}

omit [DecidableEq ν] in
theorem joined_meshOf (hends : ∀ v c, (K.endAt v c).isSome ↔ c < degree v)
    (hfanout : ∀ v, degree v ≤ (config v).fanout) :
    Mesh.Joined K.wiring (meshOf key config degree) := by
  have hids : ∀ v, ((meshOf key config degree).nodes v).ids = List.range (degree v) :=
    fun v => (Tasks.ids_connected ..).2
  refine ⟨?_, ?_, ?_⟩
  · intro v c w d hwire
    obtain ⟨x, hx, hplace⟩ := Option.map_eq_some_iff.1 hwire
    have hback := K.wiring_eq_some.2 hplace
    rwa [Streams.other_other, (K.endAt_eq_some v c x).1 hx] at hback
  · intro v c
    rw [hids, List.mem_range, ← hends]
    unfold Cabling.wiring
    rw [Option.isSome_map]
  · intro v
    rw [hids, List.length_range]
    exact (hfanout v).trans_eq (congrArg _ (Tasks.config_connected ..).symm)

omit [DecidableEq ν] in
theorem unused_meshOf (x : MessageId) : Mesh.Unused x (meshOf key config degree) where
  seen v := by
    show x ∉ (Tasks.connected ..).node.seen
    rw [Tasks.seen_connected]
    exact List.not_mem_nil
  flight p hp := absurd hp (Multiset.notMem_zero p)
  delivered v e he := absurd he List.not_mem_nil

/-! ## Coverage -/

variable [DecidableEq κ] {s₁ s : Fabric κ ν}

/-- **Who gets a broadcast**, whatever the queues and streams between the nodes do: nobody gets it
twice, and while no task is over it gets on along every path until it is spent. -/
theorem coverage_on_wire (format : FrameFormat) (verifier : Verifier) (K : Cabling κ ν)
    (key : ν → PeerId) (config : ν → GossipConfig) (degree : ν → Nat) (u : ν) (rng : Shuffle)
    (m : SizedMessage) (id : MessageId) (sig : FixedBytes 64)
    (hends : ∀ v c, (K.endAt v c).isSome ↔ c < degree v)
    (hfanout : ∀ v, degree v ≤ (config v).fanout)
    (hconn : (Mesh.topology K.wiring).Connected)
    (hbefore : Steps (step format verifier K) (Calm id) (connected key config degree) s₁)
    (hroom : Roomy s₁)
    (hsig : ((s₁.nodes u).tasks.node.envelope m.1 id sig).verify verifier = true)
    (hafter : Steps (step format verifier K) (Calm id)
      (s₁.update u ((s₁.nodes u).broadcast rng m.1 id sig)) s) :
    (∀ v, s.deliveries id v ≤ 1 ∧ ∀ e ∈ (s.nodes v).delivered, e.id = id → e.payload = m.1) ∧
    s.deliveries id u = 0 ∧
    ((∀ x, ¬ s.Over K x) → (∀ x, ∀ e ∈ s.transit K x, e.id ≠ id) →
      ∀ w, w ≠ u → s.deliveries id w = 1 ∨
        ∀ walk : (Mesh.topology K.wiring).Walk u w,
          ∃ v ∈ walk.support, v ≠ u ∧ v ≠ w ∧ s.Spent id v) := by
  obtain ⟨t₁, hrun₁, hs₁⟩ := (abstracts_connected format K key config degree).calm hbefore
  obtain ⟨hj₁, hunused⟩ := (unused_meshOf id).run (joined_meshOf hends hfanout) hrun₁
  obtain ⟨t, hrun, hs⟩ := (hs₁.broadcast u rng m.1 id sig).calm hafter
  have hnode : t₁.nodes u = (s₁.nodes u).tasks.node := hs₁.nodes u
  have hfirst : Mesh.step verifier K.wiring t₁ (.broadcast u rng m.1 id sig ()) =
      some (t₁.broadcast K.wiring u rng m.1 id sig ()) := rfl
  obtain ⟨hj, hspread⟩ := (hunused.spreading hj₁ hconn (hs₁.roomy.2 hroom)).run (hj₁.step hfirst)
    hconn (by rw [hnode]; exact hsig) hrun
  rw [hnode] at hspread
  refine ⟨?_, (hs.deliveries u).symm.trans hspread.never, ?_⟩
  · intro v
    refine ⟨(hs.deliveries v).symm.trans_le (hspread.deliveries_le v), ?_⟩
    intro e he hid
    rw [← hs.delivered] at he
    rw [(hspread.kept v e he hid).1]
    rfl
  · intro hwhole hdone w hw
    rw [or_iff_not_imp_right]
    intro hsome
    push Not at hsome
    obtain ⟨walk, hfree⟩ := hsome
    have hone := hspread.along hj (hs.arrived hwhole hdone) hw walk hw.symm (.inl rfl)
      fun v hv hvu hvw => hs.spent.not.2 (hfree v hv hvu hvw)
    exact (hs.deliveries w).symm.trans hone

/-! ### A claim has arrived -/

section Decide

variable {κ ν : Type}

instance [Fintype ν] (s : Fabric κ ν) : Decidable (Roomy s) :=
  inferInstanceAs (Decidable (∀ _, _ < _))

instance (x : MessageId) : ∀ a : Seen ν, Decidable (a.Elsewhere x)
  | .processed .. => .isTrue trivial
  | .broadcast _ _ _ id _ => inferInstanceAs (Decidable (id ≠ x))

instance [Fintype ν] (x : MessageId) (s : Fabric κ ν) (l : Label κ ν) : Decidable (Calm x s l) :=
  inferInstanceAs (Decidable (_ ∧ _))

instance (K : Cabling κ ν) (s : Fabric κ ν) (x : κ × Bool) : Decidable (s.Over K x) :=
  decidable_of_iff _ ConnectionTask.isOver_iff

end Decide

/-- The claim is queued for the other node. -/
def pairBroadcast : Fabric Unit Bool :=
  pair.update false
    ((pair.nodes false).broadcast .trivial Nodes.claimMessage.1 ⟨.fill 32 5⟩ (.fill 64 0))

/-- The tasks are there, and nothing is underway. -/
def Rests (s : Fabric Unit Bool) : Prop :=
  ∀ x, ¬ s.Over oneCable x ∧ s.transit oneCable x = 0

instance (s : Fabric Unit Bool) : Decidable (Rests s) :=
  inferInstanceAs (Decidable (∀ _, _ ∧ _))

theorem exists_rests : ∃ s : Fabric Unit Bool,
    Steps (step Streams.codecNew (fun _ _ _ => true) oneCable) (Calm ⟨.fill 32 5⟩) pairBroadcast s ∧
      Rests s := by
  have hrun : (Transition.run (Transition.checked
      (step Streams.codecNew (fun _ _ _ => true) oneCable) (Calm ⟨.fill 32 5⟩))
      (claimInPieces.drop 1) pairBroadcast).map (fun s => decide (Rests s)) = some true := by
    decide +kernel
  obtain ⟨s, hs, hrests⟩ := Transition.exists_of_checked hrun
  exact ⟨s, hs, of_decide_eq_true hrests⟩

theorem pair_adj : (Mesh.topology oneCable.wiring).Adj false true :=
  ⟨by decide, .inl ⟨0, 0, rfl⟩⟩

theorem pair_connected : (Mesh.topology oneCable.wiring).Connected where
  preconnected v w := by
    cases v <;> cases w
    · rfl
    · exact pair_adj.reachable
    · exact pair_adj.reachable.symm
    · rfl
  nonempty := ⟨false⟩

theorem pair_ends (v : Bool) (c : ConnectionId) : (oneCable.endAt v c).isSome ↔ c < 1 := by
  show (if c = 0 then some ((), v) else none).isSome ↔ _
  by_cases hc : c = 0
  · simp [hc]
  · simp [hc]

theorem coverage_on_wire_claim : ∃ s : Fabric Unit Bool,
    Rests s ∧ s.deliveries ⟨.fill 32 5⟩ false = 0 ∧ s.deliveries ⟨.fill 32 5⟩ true = 1 := by
  obtain ⟨s, hs, hrests⟩ := exists_rests
  obtain ⟨-, hnever, hcover⟩ := coverage_on_wire Streams.codecNew (fun _ _ _ => true) oneCable
    (fun v => ⟨.fill 32 (if v then 2 else 1)⟩) (fun _ => .new) (fun _ => 1) false .trivial
    Nodes.claimMessage ⟨.fill 32 5⟩ (.fill 64 0) pair_ends (fun _ => by decide) pair_connected
    .refl (by decide) rfl hs
  refine ⟨s, hrests, hnever, ?_⟩
  refine (hcover (fun x => (hrests x).1) (fun x => by simp [(hrests x).2]) true
    (by decide)).resolve_right fun hall => ?_
  -- Nobody is on the way.
  obtain ⟨v, -, hfirst, hlast, -⟩ := hall (.cons pair_adj .nil)
  cases v
  · exact hfirst rfl
  · exact hlast rfl

end Fabric

end ProofMarket
