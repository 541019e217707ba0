import ProofMarket.Gossip.Traffic

/-!
# How far a message travels

`max_ttl` is what `broadcast` starts with. `process_incoming` counts the ttl of an envelope down,
whatever it is on arrival, and the signature does not cover it. So a peer that does as it likes can
give any ttl to a message, its own or one that it got from a node.

**Theorem (`hops_bounded`).** A message goes through no more nodes in a row than its ttl said when
it was put on its way by a peer or by a node, and through one node if that was 0. Every node on the
way passes it on with a ttl that is one less than on arrival. For the broadcast of a node the first
ttl is its `max_ttl`; for a message of a peer it is any byte.

The invariant (`Tracked`) follows each envelope in flight back to where it was put on its way: its
ttl and the number of nodes that have passed it on since add up to its first ttl.
-/

namespace ProofMarket

/-- Who put a message on its way: a peer, or a node that called `broadcast` or `send`. -/
inductive Birth (ν : Type) where
  | peer
  | broadcast (v : ν)
  | send (v : ν)
  deriving DecidableEq

/-- Where an envelope comes from: what was put on its way, and the nodes that have passed it on
since, one after the other. A peer in between begins a new trail. -/
structure Trail (ν : Type) where
  birth : Birth ν
  first : GossipEnvelope
  passed : List ν
  deriving DecidableEq

/-- One more node has passed it on. -/
def Trail.pass {ν : Type} (r : Trail ν) (v : ν) : Trail ν := { r with passed := r.passed ++ [v] }

/-- A network of nodes with peers among them. -/
abbrev Exposed (ν : Type) := Mesh ν (Trail ν)

namespace Exposed

inductive Label (ν : Type) where
  /-- A peer sends what it likes to a node. -/
  | inject (v : ν) (source : ConnectionId) (envelope : GossipEnvelope)
  | receive (p : Packet ν (Trail ν)) (rng : Shuffle)
  | broadcast (v : ν) (rng : Shuffle) (m : GossipMessage) (id : MessageId) (sig : FixedBytes 64)
  | send (v : ν) (rng : Shuffle) (envelope : GossipEnvelope)
  | connections (v : ν) (handles : List ConnectionHandle)
      (distinct : (handles.map ConnectionHandle.id).Nodup)

variable {ν : Type} [DecidableEq ν]

/-- Nodes without traffic. -/
def quiet (nodes : ν → GossipNode) : Exposed ν := ⟨nodes, fun _ => [], 0⟩

def step (verifier : Verifier) (wiring : Wiring ν) (s : Exposed ν) : Label ν → Option (Exposed ν)
  | .inject v source e =>
    some { s with flight := {⟨v, source, e, ⟨.peer, e, []⟩⟩} + s.flight }
  | .receive p rng =>
    if p ∈ s.flight then
      let outcome := (s.nodes p.dest).processIncoming verifier rng p.envelope p.source
      some (Mesh.update wiring
        { s with
          delivered :=
            Function.update s.delivered p.dest (outcome.2.toList ++ s.delivered p.dest)
          flight := s.flight.erase p }
        p.dest outcome.1 (p.root.pass p.dest))
    else none
  | .broadcast v rng m id sig =>
    some (s.broadcast wiring v rng m id sig ⟨.broadcast v, (s.nodes v).envelope m id sig, []⟩)
  | .send v rng e =>
    some (s.update wiring v ((s.nodes v).sendToPeers rng e none) ⟨.send v, e, []⟩)
  | .connections v handles distinct =>
    some { s with
      nodes := Function.update s.nodes v
        { s.nodes v with connections := handles, distinct := distinct } }

/-- Runs of any steps. -/
abbrev Steps (verifier : Verifier) (wiring : Wiring ν) : Exposed ν → Exposed ν → Prop :=
  Transition.Steps (step verifier wiring) Transition.Any

variable {verifier : Verifier} {wiring : Wiring ν} {s t : Exposed ν} {l : Label ν}
  {p q : Packet ν (Trail ν)}

/-! ## What a step puts in flight -/

theorem config_step (h : step verifier wiring s l = some t) (v : ν) :
    (t.nodes v).config = (s.nodes v).config := by
  cases l with
  | inject =>
    cases h
    rfl
  | receive p rng =>
    simp only [step] at h
    split_ifs at h
    cases h
    exact s.config_update GossipNode.config_processIncoming v
  | broadcast | send | connections =>
    cases h
    apply s.config_update
    rfl

/-- How an envelope comes to be in flight. -/
inductive Arises (s : Exposed ν) (q : Packet ν (Trail ν)) : Prop where
  | kept (hmem : q ∈ s.flight)
  | born (hfirst : q.root.first = q.envelope) (hpassed : q.root.passed = [])
      (hown : ∀ v, q.root.birth = .broadcast v → q.envelope.ttl = (s.nodes v).config.maxTtl)
  | passed (p : Packet ν (Trail ν)) (hmem : p ∈ s.flight) (httl : 1 < p.envelope.ttl)
      (henv : q.envelope = p.envelope.countDown) (hroot : q.root = p.root.pass p.dest)

omit [DecidableEq ν] in
theorem arises_route {v : ν} {e : GossipEnvelope} {birth : Birth ν} {picked : List ConnectionId}
    (hown : ∀ w, birth = .broadcast w → e.ttl = (s.nodes w).config.maxTtl)
    (hq : q ∈ Mesh.route wiring v ⟨birth, e, []⟩ (picked.map fun c => (c, e))) : Arises s q := by
  obtain ⟨c, hsent, -, hroot⟩ := Mesh.mem_route.1 hq
  obtain ⟨k, -, heq⟩ := List.mem_map.1 hsent
  have henv : e = q.envelope := congrArg Prod.snd heq
  refine .born ?_ ?_ ?_
  · rw [hroot, ← henv]
  · rw [hroot]
  · intro w hw
    rw [hroot] at hw
    rw [← henv]
    exact hown w hw

/-- **Every envelope in flight after a step** was there before, or begins a trail, or has been
passed on. -/
theorem arises_step (h : step verifier wiring s l = some t) (hq : q ∈ t.flight) : Arises s q := by
  cases l with
  | inject v source e =>
    cases h
    rcases Multiset.mem_add.1 hq with hq | hq
    · obtain rfl := Multiset.mem_singleton.1 hq
      exact .born rfl rfl fun w hw => by cases hw
    · exact .kept hq
  | receive p rng =>
    simp only [step] at h
    split_ifs at h with hp
    cases h
    rcases Multiset.mem_add.1 hq with hq | hq
    · obtain ⟨c, hsent, -, hroot⟩ := Mesh.mem_route.1 (Multiset.mem_coe.1 hq)
      obtain ⟨httl, henv⟩ := GossipNode.eq_of_mem_sent hsent
      exact .passed p hp httl henv hroot
    · exact .kept (Multiset.mem_of_mem_erase hq)
  | broadcast v rng m id sig =>
    cases h
    rcases Multiset.mem_add.1 hq with hq | hq
    · rw [GossipNode.sent_broadcast, Multiset.mem_coe] at hq
      refine arises_route (fun w hw => ?_) hq
      cases hw
      rfl
    · exact .kept hq
  | send v rng e =>
    cases h
    rcases Multiset.mem_add.1 hq with hq | hq
    · rw [GossipNode.sendToPeers, GossipNode.sent_queueOn, Multiset.mem_coe] at hq
      exact arises_route (fun w hw => by cases hw) hq
    · exact .kept hq
  | connections =>
    cases h
    exact .kept hq

/-! ## The invariant -/

/-- The envelope is what began its trail, with a ttl that is smaller by the nodes passed. -/
structure Tracked (s : Exposed ν) (p : Packet ν (Trail ν)) : Prop where
  same : p.envelope = { p.root.first with ttl := p.envelope.ttl }
  counted : p.envelope.ttl.toNat + p.root.passed.length = p.root.first.ttl.toNat
  positive : p.root.passed ≠ [] → 0 < p.envelope.ttl.toNat
  own : ∀ v, p.root.birth = .broadcast v → p.root.first.ttl = (s.nodes v).config.maxTtl

omit [DecidableEq ν] in
theorem Tracked.passed (h : Tracked s p) (httl : 1 < p.envelope.ttl)
    (henv : q.envelope = p.envelope.countDown) (hroot : q.root = p.root.pass p.dest) :
    Tracked s q := by
  have hdown := GossipEnvelope.ttl_countDown httl
  have hone : 1 < p.envelope.ttl.toNat := httl
  have hcounted := h.counted
  constructor
  · rw [henv, hroot]
    exact congrArg GossipEnvelope.countDown h.same
  · rw [henv, hroot]
    simp only [Trail.pass, List.length_append, List.length_singleton]
    omega
  · intro _
    rw [henv]
    omega
  · intro v hv
    rw [hroot] at hv ⊢
    exact h.own v hv

/-- **Every step keeps it.** -/
theorem tracked_step (hs : ∀ p ∈ s.flight, Tracked s p)
    (h : step verifier wiring s l = some t) : ∀ q ∈ t.flight, Tracked t q := by
  intro q hq
  have hbefore : Tracked s q := by
    cases arises_step h hq with
    | kept hmem => exact hs q hmem
    | born hfirst hpassed hown =>
      refine ⟨?_, ?_, fun hne => absurd hpassed hne, fun v hv => ?_⟩
      · rw [hfirst]
      · rw [hfirst, hpassed]
        rfl
      · rw [hfirst]
        exact hown v hv
    | passed p hmem httl henv hroot => exact (hs p hmem).passed httl henv hroot
  exact ⟨hbefore.same, hbefore.counted, hbefore.positive, fun v hv => by
    rw [config_step h v]
    exact hbefore.own v hv⟩

/-- **How far a message travels.** An envelope in flight is what somebody put on its way, but for
the ttl. The nodes that have passed it on since, with the one that it goes to, are no more than the
ttl that it had then, or one. What a node passes on has a ttl that is one less than on arrival. And
`max_ttl` is the first ttl of what nodes broadcast. -/
theorem hops_bounded (verifier : Verifier) (wiring : Wiring ν) (nodes : ν → GossipNode)
    (s : Exposed ν) (h : Steps verifier wiring (quiet nodes) s) (p : Packet ν (Trail ν))
    (hp : p ∈ s.flight) :
    p.envelope = { p.root.first with ttl := p.envelope.ttl } ∧
      p.root.passed.length + 1 ≤ max p.root.first.ttl.toNat 1 ∧
      (∀ v, p.root.birth = .broadcast v → p.root.first.ttl = (nodes v).config.maxTtl) ∧
      ∀ rng, ∀ x ∈ (s.nodes p.dest).sent
          ((s.nodes p.dest).processIncoming verifier rng p.envelope p.source).1,
        x.2.ttl.toNat + 1 = p.envelope.ttl.toNat := by
  have hinv : (∀ q ∈ s.flight, Tracked s q) ∧ ∀ v, (s.nodes v).config = (nodes v).config := by
    refine Transition.Steps.invariant
      (I := fun u : Exposed ν => (∀ q ∈ u.flight, Tracked u q) ∧
        ∀ v, (u.nodes v).config = (nodes v).config) ?_ h ⟨?_, fun _ => rfl⟩
    · intro u l v hu _ hstep
      obtain ⟨hu, hconfig⟩ := hu
      exact ⟨tracked_step hu hstep, fun w => (config_step hstep w).trans (hconfig w)⟩
    · intro q hq
      cases Multiset.notMem_zero q hq
  have htracked := hinv.1 p hp
  refine ⟨htracked.same, ?_, fun v hv => ?_, fun rng x hx => ?_⟩
  · have hcounted := htracked.counted
    cases hpassed : p.root.passed with
    | nil => exact le_max_right _ _
    | cons v rest =>
      have hpos := htracked.positive (by simp [hpassed])
      rw [hpassed] at hcounted
      exact le_max_of_le_left (by omega)
  · rw [htracked.own v hv, hinv.2]
  · obtain ⟨httl, henv⟩ := GossipNode.eq_of_mem_sent hx
    rw [henv]
    exact GossipEnvelope.ttl_countDown httl

/-! ## A peer in a ring -/

/-- A ring of six, of which the last is a peer and the others are nodes. -/
def ring (v w : Fin 6) : Bool := (v.val + 1) % 6 = w.val || (w.val + 1) % 6 = v.val

def ringNodes : Fin 6 → GossipNode := (Mesh.onGraph ring .new).nodes

def ringWiring : Wiring (Fin 6) := fun v c =>
  if v.val = 5 || c = 5 then none else Mesh.graphWiring ring v c

/-- The message of the peer. -/
def farMessage : GossipEnvelope :=
  ⟨⟨.fill 32 5⟩, ⟨.fill 32 6⟩, 255, .claimRejected ⟨.fill 32 7⟩ "", .fill 64 0⟩

/-- The message on its way to a node, by all the nodes before it. -/
def onTheWay (v : Fin 6) : Packet (Fin 6) (Trail (Fin 6)) where
  dest := v
  source := (v.val + 5) % 6
  envelope := { farMessage with ttl := .ofNat (255 - v.val) }
  root := ⟨.peer, farMessage, (List.finRange 6).take v.val⟩

/-- The peer sends it to the first node, and four nodes receive it one after the other. -/
def aroundTheRing : List (Label (Fin 6)) :=
  .inject ⟨0, by decide⟩ 5 farMessage ::
    ((List.finRange 6).take 4).map fun v => .receive (onTheWay v) .trivial

/-- The peer has signed its message and nothing else. -/
def peerSigned : Verifier := fun key bytes _ =>
  key = ⟨.fill 32 6⟩ && bytes = farMessage.signableBytes

def fifth : Fin 6 := ⟨4, by decide⟩

theorem exists_onTheWay :
    ∃ s, Steps peerSigned ringWiring (quiet ringNodes) s ∧ onTheWay fifth ∈ s.flight ∧
      ∀ v, (s.nodes v).config.maxTtl = 3 := by
  have hrun : (Transition.run (step peerSigned ringWiring) aroundTheRing
      (quiet ringNodes)).map (fun s => decide (onTheWay fifth ∈ s.flight ∧
        ∀ v, (s.nodes v).config.maxTtl = 3)) = some true := by
    decide +kernel
  obtain ⟨s, hs, hst⟩ := Transition.exists_of_run (fun _ _ _ => trivial) hrun
  exact ⟨s, hs, of_decide_eq_true hst⟩

theorem hops_bounded_ring :
    ∃ s, Steps peerSigned ringWiring (quiet ringNodes) s ∧ onTheWay fifth ∈ s.flight ∧
      (onTheWay fifth).root.passed.length + 1 ≤ max farMessage.ttl.toNat 1 := by
  obtain ⟨s, hs, hmem, -⟩ := exists_onTheWay
  have hbounded := hops_bounded peerSigned ringWiring ringNodes s hs (onTheWay fifth) hmem
  exact ⟨s, hs, hmem, hbounded.2.1⟩

/-- The fourth node has passed on a ttl of 251, and the message is on its way to a fifth in a
row. -/
theorem hops_exceed_maxTtl :
    ∃ s, Steps peerSigned ringWiring (quiet ringNodes) s ∧
      (∀ v, (s.nodes v).config.maxTtl = 3) ∧ ∃ p ∈ s.flight, p.root.birth = .peer ∧
        p.root.passed.length = 4 ∧ p.envelope.ttl = 251 := by
  obtain ⟨s, hs, hmem, hconfig⟩ := exists_onTheWay
  exact ⟨s, hs, hconfig, onTheWay fifth, hmem, rfl, by decide, by decide⟩

end Exposed

end ProofMarket
