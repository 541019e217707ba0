import ProofMarket.Gossip.Levels
import ProofMarket.Network.Parties

/-!
# What is in flight goes back to its origin

Nodes by their keys, connected with each other and with nobody else. An envelope on its way between
them was signed by its origin, whatever the signature scheme is: nobody else writes envelopes, and
the nodes that pass one on change nothing but the ttl.

So nodes that are connected with each other do what nodes among arbitrary peers do, in runs in which
no signature is forged (`Fabric.nodes_of_step`, `Fabric.nodes_of_speak`).
-/

namespace ProofMarket

/-- Every key is that of a node that runs this code. -/
abbrev everyone (_ : PeerId) : Bool := true

namespace Mesh

/-- The nodes among arbitrary peers that do the same. What is in flight between the nodes has been
signed by its origin. -/
structure Carries (t : Mesh PeerId Unit) (p : Nodes) : Prop where
  node : ∀ key, (p key).node = t.nodes key
  delivered : ∀ key, (p key).delivered = t.delivered key
  own : ∀ key, (t.nodes key).peerId = key
  signed : ∀ q ∈ t.flight, q.envelope.payload.Fits ∧
    ∃ b ∈ (p q.envelope.origin).broadcasts, b.signableBytes = q.envelope.signableBytes

variable {t : Mesh PeerId Unit} {p : Nodes} {q : Packet PeerId Unit}

theorem signed_update {key : PeerId} {endpoint : Endpoint} {e : GossipEnvelope}
    (hmore : (p key).broadcasts ⊆ endpoint.broadcasts)
    (h : ∃ b ∈ (p e.origin).broadcasts, b.signableBytes = e.signableBytes) :
    ∃ b ∈ (Function.update p key endpoint e.origin).broadcasts,
      b.signableBytes = e.signableBytes := by
  obtain ⟨b, hb, hbytes⟩ := h
  refine ⟨b, ?_, hbytes⟩
  by_cases horigin : e.origin = key
  · rw [horigin, Function.update_self]
    rw [horigin] at hb
    exact hmore hb
  · rw [Function.update_of_ne horigin]
    exact hb

theorem Carries.update (h : t.Carries p) {u : Mesh PeerId Unit} {key : PeerId} {endpoint : Endpoint}
    (hnodes : u.nodes = Function.update t.nodes key endpoint.node)
    (hdelivered : u.delivered = Function.update t.delivered key endpoint.delivered)
    (hown : endpoint.node.peerId = key) (hmore : (p key).broadcasts ⊆ endpoint.broadcasts)
    (hflight : ∀ q ∈ u.flight, q ∈ t.flight ∨ q.envelope.payload.Fits ∧
      ∃ b ∈ (Function.update p key endpoint q.envelope.origin).broadcasts,
        b.signableBytes = q.envelope.signableBytes) :
    u.Carries (Function.update p key endpoint) where
  node k := by
    rw [hnodes]
    by_cases hk : k = key
    · subst hk
      rw [Function.update_self, Function.update_self]
    · rw [Function.update_of_ne hk, Function.update_of_ne hk, h.node]
  delivered k := by
    rw [hdelivered]
    by_cases hk : k = key
    · subst hk
      rw [Function.update_self, Function.update_self]
    · rw [Function.update_of_ne hk, Function.update_of_ne hk, h.delivered]
  own k := by
    rw [hnodes]
    by_cases hk : k = key
    · subst hk
      rw [Function.update_self, hown]
    · rw [Function.update_of_ne hk, h.own]
  signed q hq := by
    rcases hflight q hq with hold | hnew
    · exact ⟨(h.signed q hold).1, signed_update hmore (h.signed q hold).2⟩
    · exact hnew

theorem Carries.unforgeable (h : t.Carries p) (verifier : Verifier) (rng : Shuffle)
    (hq : q ∈ t.flight) :
    Nodes.Unforgeable verifier everyone p
      (q.dest, .frame (Wire.envelope.encode q.envelope) rng q.source) := by
  obtain ⟨hfits, hsigned⟩ := h.signed q hq
  intro e he _ _
  rw [GossipEnvelope.ofFrame_encode hfits] at he
  cases he
  exact hsigned

theorem Carries.receive (h : t.Carries p) (verifier : Verifier) (wiring : Wiring PeerId)
    (rng : Shuffle) (hq : q ∈ t.flight) :
    ∃ p', Nodes.step verifier p
        (q.dest, .frame (Wire.envelope.encode q.envelope) rng q.source) = some p' ∧
      (t.receive verifier wiring q rng).Carries p' := by
  obtain ⟨hfits, hsigned⟩ := h.signed q hq
  let outcome := (p q.dest).node.processIncoming verifier rng q.envelope q.source
  let endpoint : Endpoint :=
    { p q.dest with node := outcome.1, delivered := outcome.2.toList ++ (p q.dest).delivered }
  have hbroadcasts : (p q.dest).broadcasts ⊆ endpoint.broadcasts := List.Subset.refl _
  refine ⟨Function.update p q.dest endpoint, ?_, h.update ?_ ?_ ?_ hbroadcasts ?_⟩
  · simp [Nodes.step, Nodes.Action.event, GossipEnvelope.ofFrame_encode hfits, Endpoint.step,
      endpoint, outcome]
  · rw [nodes_receive, ← h.node]
  · show Function.update t.delivered q.dest _ = _
    rw [← h.node, ← h.delivered]
  · rw [GossipNode.peerId_processIncoming, h.node, h.own]
  · intro r hr
    rw [flight_receive, Multiset.mem_add] at hr
    rcases hr with hr | hr
    · -- The ttl is not signed.
      obtain ⟨-, henvelope, -⟩ := envelope_of_mem_spread (Multiset.mem_coe.1 hr)
      rw [henvelope]
      exact .inr ⟨hfits, signed_update (e := q.envelope.countDown) hbroadcasts hsigned⟩
    · exact .inl (Multiset.mem_of_mem_erase hr)

theorem Carries.broadcast (h : t.Carries p) (verifier : Verifier) (wiring : Wiring PeerId)
    (key : PeerId) (rng : Shuffle) (m : SizedMessage) (id : MessageId) (sig : FixedBytes 64) :
    ∃ p', Nodes.step verifier p (key, .broadcast m rng id sig) = some p' ∧
      (t.broadcast wiring key rng m.1 id sig ()).Carries p' := by
  let endpoint : Endpoint :=
    { p key with
      node := (p key).node.broadcast rng m.1 id sig
      broadcasts := (p key).node.envelope m.1 id sig :: (p key).broadcasts }
  refine ⟨Function.update p key endpoint, rfl, h.update ?_ ?_ ?_ (List.subset_cons_self _ _) ?_⟩
  · show Function.update t.nodes key _ = _
    rw [← h.node]
  · show t.delivered = Function.update t.delivered key (p key).delivered
    rw [h.delivered, Function.update_eq_self]
  · show (p key).node.peerId = key
    rw [h.node, h.own]
  · intro r hr
    rcases Multiset.mem_add.1 hr with hr | hr
    · obtain ⟨c, hsent, -, -⟩ := mem_route.1 (Multiset.mem_coe.1 hr)
      rw [GossipNode.sent_broadcast] at hsent
      obtain ⟨d, -, heq⟩ := List.mem_map.1 hsent
      obtain ⟨-, henvelope⟩ := Prod.mk.inj heq
      have horigin : r.envelope.origin = key := by
        rw [← henvelope]
        exact h.own key
      rw [horigin, Function.update_self, ← henvelope, ← h.node]
      exact .inr ⟨m.2, _, List.mem_cons_self, rfl⟩
    · exact .inl hr

end Mesh

/-! ## Down to the bytes -/

namespace Fabric

variable {κ : Type} [DecidableEq κ] {format : FrameFormat} {verifier : Verifier}
  {C : Cabling κ PeerId} {s s' : Fabric κ PeerId} {p : Nodes} {key : PeerId}

/-- The step begins a broadcast. -/
def Label.speaks {ν : Type} : Label κ ν → Bool
  | .broadcast .. => true
  | _ => false

/-- A node begins to broadcast the posts. -/
def speak (format : FrameFormat) (verifier : Verifier) (C : Cabling κ PeerId) (key : PeerId)
    (posts : List Post) (s : Fabric κ PeerId) : Option (Fabric κ PeerId) :=
  Transition.run (step format verifier C)
    (posts.map fun p => .broadcast key p.rng p.message p.id p.signature) s

/-- The nodes among arbitrary peers that do what the nodes on the wire do. -/
def Carries (format : FrameFormat) (C : Cabling κ PeerId) (s : Fabric κ PeerId) (p : Nodes) :
    Prop :=
  ∃ t : Mesh PeerId Unit, Abstracts format C s t ∧ t.Carries p

omit [DecidableEq κ] in
theorem Carries.delivered (h : Carries format C s p) (key : PeerId) :
    (p key).delivered = (s.nodes key).delivered := by
  obtain ⟨t, habstracts, hcarries⟩ := h
  rw [hcarries.delivered, habstracts.delivered]

/-- **What happens on the wire** happens among arbitrary peers that forge no signature, or is not
seen. -/
theorem nodes_of_step (h : Carries format C s p) {l : Label κ PeerId} (hquiet : l.speaks = false)
    (hst : s.step format verifier C l = some s') :
    Carries format C s' p ∨
      ∃ key a p', a.speaks = false ∧ Nodes.Unforgeable verifier everyone p (key, a) ∧
        Nodes.step verifier p (key, a) = some p' ∧ Carries format C s' p' := by
  obtain ⟨t, habstracts, hcarries⟩ := h
  rcases habstracts.step hst with ⟨-, hsame⟩ | ⟨b, t', hseen, ht', habstracts'⟩
  · exact .inl ⟨t, hsame, hcarries⟩
  · cases b with
    | broadcast =>
      -- Only a step that speaks is seen as a broadcast.
      cases l with
      | broadcast => cases hquiet
      | _ => cases hseen
    | receive q rng =>
      obtain ⟨hq, rfl⟩ := Mesh.step_receive ht'
      obtain ⟨p', hp', hcarries'⟩ := hcarries.receive verifier C.wiring rng hq
      exact .inr ⟨_, _, p', rfl, hcarries.unforgeable verifier rng hq, hp', _, habstracts',
        hcarries'⟩

/-- **What a node says on the wire**, it says among arbitrary peers. -/
theorem nodes_of_speak : ∀ {posts : List Post} {s : Fabric κ PeerId} {p : Nodes},
    Carries format C s p → s.speak format verifier C key posts = some s' →
      ∃ p', p.speak verifier key posts = some p' ∧ Carries format C s' p'
  | [], s, p, h, hst => by
    cases hst
    exact ⟨p, rfl, h⟩
  | post :: posts, s, p, h, hst => by
    obtain ⟨t, habstracts, hcarries⟩ := h
    have hbind : (step format verifier C s
        (.broadcast key post.rng post.message post.id post.signature)).bind
          (speak format verifier C key posts) = some s' := hst
    obtain ⟨u, hu, hrest⟩ := Option.bind_eq_some_iff.1 hbind
    cases hu
    obtain ⟨p₁, hp₁, hcarries₁⟩ := hcarries.broadcast verifier C.wiring key post.rng
      post.message post.id post.signature
    obtain ⟨p', hp', hcarries'⟩ := nodes_of_speak (p := p₁) ⟨_, habstracts.broadcast .., hcarries₁⟩
      hrest
    refine ⟨p', ?_, hcarries'⟩
    show (Nodes.step verifier p (key, .broadcast post.message post.rng post.id
      post.signature)).bind (Nodes.speak verifier key posts) = some p'
    rw [hp₁]
    exact hp'

end Fabric

end ProofMarket
