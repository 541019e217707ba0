import ProofMarket.Gossip.Authenticity
import ProofMarket.Network.System

/-!
# Coordinator and workers over signed gossip

Every party has a gossip node with a key of its own: it handles what its node has delivered, and its
node broadcasts what it says. Between the nodes anybody may put any frame, as long as it forges no
signature of an honest node (`Sound`): peers that follow no protocol sign what they like with keys
of their own.

`Worker::new` draws the `peer_id` of a worker at random, whatever the key of its gossip node is.
`process_message` and `handle_message` read the payload of an envelope and not its origin.
-/

namespace ProofMarket

open Registry (Deployment)

/-- A message as its node broadcasts it. -/
structure Post where
  message : SizedMessage
  rng : Shuffle
  id : MessageId
  signature : FixedBytes 64

/-- The signature scheme, the keys that only their nodes sign with, and that of the coordinator,
which is one of them. -/
structure Keys where
  verifier : Verifier
  honest : PeerId → Bool
  hub : PeerId
  hub_honest : honest hub = true

/-- The nodes by their keys, the coordinator at the key `hub`, and a worker at each key. -/
structure Parties where
  nodes : Nodes
  backend : Backend
  workers : PeerId → Worker

namespace Nodes

/-- The node of the key has broadcast the message. -/
def Said (nodes : Nodes) (key : PeerId) (m : GossipMessage) : Prop :=
  ∃ b ∈ (nodes key).broadcasts, b.payload = m

instance (nodes : Nodes) (key : PeerId) (m : GossipMessage) : Decidable (nodes.Said key m) :=
  inferInstanceAs (Decidable (∃ b ∈ (nodes key).broadcasts, b.payload = m))

/-- The node speaks for itself. -/
def Action.speaks : Action → Bool
  | .broadcast _ _ _ _ => true
  | _ => false

/-- A node broadcasts the posts, one after the other. -/
def speak (verifier : Verifier) (key : PeerId) (posts : List Post) (nodes : Nodes) :
    Option Nodes :=
  Transition.run (step verifier)
    (posts.map fun p => (key, .broadcast p.message p.rng p.id p.signature)) nodes

/-- A party handles an envelope that its node has delivered, if the step handles one, and its node
broadcasts what the step says. -/
def act (verifier : Verifier) (nodes : Nodes) (key : PeerId) (handles : Option GossipMessage)
    (heard : Option GossipEnvelope) (ms : List GossipMessage) (posts : List Post) :
    Option Nodes :=
  if heard.map GossipEnvelope.payload = handles ∧ (∀ e ∈ heard, e ∈ (nodes key).delivered) ∧
      posts.map (fun p => p.message.1) = ms then
    nodes.speak verifier key posts
  else none

/-- What is left of a step of a party for the others to see. -/
structure Spoken (honest : PeerId → Bool) (nodes : Nodes) (key : PeerId)
    (ms : List GossipMessage) (nodes' : Nodes) : Prop where
  said : ∀ k m, nodes'.Said k m ↔ nodes.Said k m ∨ k = key ∧ m ∈ ms
  delivered : ∀ k, (nodes' k).delivered = (nodes k).delivered
  authentic : Authentic honest nodes → Authentic honest nodes'

variable {verifier : Verifier} {honest : PeerId → Bool} {nodes nodes' : Nodes} {key : PeerId}

theorem said_update {endpoint : Endpoint} {b : GossipEnvelope}
    (h : endpoint.broadcasts = b :: (nodes key).broadcasts) (k : PeerId) (m : GossipMessage) :
    Said (Function.update nodes key endpoint) k m ↔ nodes.Said k m ∨ k = key ∧ m = b.payload := by
  unfold Said
  by_cases hk : k = key
  · subst hk
    simp only [Function.update_self, h, List.mem_cons, true_and]
    constructor
    · rintro ⟨d, rfl | hd, rfl⟩
      · exact .inr rfl
      · exact .inl ⟨d, hd, rfl⟩
    · rintro (⟨d, hd, rfl⟩ | rfl)
      · exact ⟨d, .inr hd, rfl⟩
      · exact ⟨b, .inl rfl, rfl⟩
  · simp [hk]

theorem delivered_broadcast {m : SizedMessage} {rng : Shuffle} {id : MessageId}
    {signature : FixedBytes 64}
    (h : step verifier nodes (key, .broadcast m rng id signature) = some nodes') (k : PeerId) :
    (nodes' k).delivered = (nodes k).delivered := by
  obtain ⟨event, endpoint, hevent, hstep, rfl⟩ := step_eq_some h
  cases hevent
  cases hstep
  by_cases hk : k = key
  · subst hk
    rw [Function.update_self]
  · rw [Function.update_of_ne hk]

theorem delivered_step {a : Action} (h : step verifier nodes (key, a) = some nodes') (k : PeerId) :
    ∃ new, (nodes' k).delivered = new ++ (nodes k).delivered ∧
      ∀ e ∈ new, e.verify verifier = true := by
  obtain ⟨event, endpoint, hevent, hstep, rfl⟩ := step_eq_some h
  by_cases hk : k = key
  · subst hk
    rw [Function.update_self]
    cases a with
    | frame bytes rng source =>
      obtain ⟨e, -, rfl⟩ := Option.map_eq_some_iff.1 hevent
      cases hstep
      refine ⟨_, rfl, ?_⟩
      intro d hd
      obtain ⟨rfl, hv, -⟩ := GossipNode.delivered_iff.1 (Option.mem_toList.1 hd)
      exact hv
    | broadcast | send | connections =>
      cases hevent
      cases hstep
      exact ⟨[], rfl, by simp⟩
  · rw [Function.update_of_ne hk]
    exact ⟨[], rfl, by simp⟩

/-- **What a node broadcasts** is what its party says. -/
theorem spoken_of_speak : ∀ {posts : List Post} {nodes : Nodes},
    nodes.speak verifier key posts = some nodes' →
      Spoken honest nodes key (posts.map fun p => p.message.1) nodes'
  | [], nodes, h => by
    cases h
    exact ⟨by simp, fun k => rfl, fun ha => ha⟩
  | p :: posts, nodes, h => by
    have hbind : (step verifier nodes
        (key, .broadcast p.message p.rng p.id p.signature)).bind (speak verifier key posts) =
          some nodes' := h
    obtain ⟨mid, hmid, hrest⟩ := Option.bind_eq_some_iff.1 hbind
    have ih : Spoken honest mid key (posts.map fun p => p.message.1) nodes' :=
      spoken_of_speak hrest
    have hown : Unforgeable verifier honest nodes
        (key, .broadcast p.message p.rng p.id p.signature) := trivial
    refine ⟨?_, ?_, fun ha => ih.authentic (ha.step hown hmid)⟩
    · intro k m
      obtain ⟨event, endpoint, hevent, hstep, rfl⟩ := step_eq_some hmid
      cases hevent
      cases hstep
      rw [ih.said, said_update rfl]
      simp only [List.map_cons, List.mem_cons, or_assoc, GossipNode.envelope]
      refine or_congr_right ?_
      rw [← and_or_left]
    · intro k
      rw [ih.delivered, delivered_broadcast hmid]

theorem of_act {handles : Option GossipMessage} {heard : Option GossipEnvelope}
    {ms : List GossipMessage} {posts : List Post}
    (h : nodes.act verifier key handles heard ms posts = some nodes') :
    heard.map GossipEnvelope.payload = handles ∧ (∀ e ∈ heard, e ∈ (nodes key).delivered) ∧
      Spoken honest nodes key ms nodes' := by
  unfold act at h
  split_ifs at h with hheard
  obtain ⟨hpayload, hdelivered, rfl⟩ := hheard
  exact ⟨hpayload, hdelivered, spoken_of_speak h⟩

theorem said_step {a : Action} (hquiet : a.speaks = false)
    (h : step verifier nodes (key, a) = some nodes') (k : PeerId) (m : GossipMessage) :
    nodes'.Said k m ↔ nodes.Said k m := by
  obtain ⟨event, endpoint, hevent, hstep, rfl⟩ := step_eq_some h
  have hsame : endpoint.broadcasts = (nodes key).broadcasts := by
    cases a with
    | frame bytes rng source =>
      obtain ⟨e, -, rfl⟩ := Option.map_eq_some_iff.1 hevent
      cases hstep
      rfl
    | broadcast => cases hquiet
    | send | connections =>
      cases hevent
      cases hstep
      rfl
  unfold Said
  by_cases hk : k = key
  · subst hk
    rw [Function.update_self, hsame]
  · rw [Function.update_of_ne hk]

end Nodes

namespace Parties

inductive Label where
  | gossip (key : PeerId) (a : Nodes.Action)
  | coordinator (l : Backend.Label) (heard : Option GossipEnvelope) (posts : List Post)
  | worker (key : PeerId) (l : Worker.Label) (heard : Option GossipEnvelope) (posts : List Post)

/-- Fresh nodes, a coordinator with an empty map, and idle workers that have drawn the ids `ids`. -/
def start (config : PeerId → GossipConfig) (ids : PeerId → PeerId) (chain : Chain)
    (contract : Bool) (defaultDeadlineSecs : UInt64) (startBlock : Nat) : Parties where
  nodes := .start config
  backend := .start chain contract defaultDeadlineSecs ∅ startBlock
  workers key := .start (ids key)

def step (D : Deployment) (K : Keys) (s : Parties) : Label → Option Parties
  | .gossip key a =>
    if a.speaks then none
    else (Nodes.step K.verifier s.nodes (key, a)).map fun nodes => { s with nodes }
  | .coordinator l heard posts => do
    let (backend, ms) ← s.backend.step D l
    let nodes ← s.nodes.act K.verifier K.hub (System.Label.coordinator l).handles heard ms posts
    return { s with nodes, backend }
  | .worker key l heard posts => do
    let (worker, ms) ← (s.workers key).step l
    let nodes ← s.nodes.act K.verifier key (System.Label.worker key l).handles heard ms posts
    return { s with nodes, workers := Function.update s.workers key worker }

/-- Runs whose every step satisfies `ok`. -/
abbrev Steps (D : Deployment) (K : Keys) (ok : Parties → Label → Prop) :
    Parties → Parties → Prop :=
  Transition.Steps (step D K) ok

/-- Nobody forges a signature of an honest node. -/
def Sound (K : Keys) (s : Parties) : Label → Prop
  | .gossip key a => Nodes.Unforgeable K.verifier K.honest s.nodes (key, a)
  | _ => True

instance (K : Keys) (s : Parties) (l : Label) : Decidable (s.Sound K l) :=
  match l with
  | .gossip key a =>
    inferInstanceAs (Decidable (Nodes.Unforgeable K.verifier K.honest s.nodes (key, a)))
  | .coordinator _ _ _ | .worker _ _ _ _ => isTrue trivial

/-- The ways a step can go, with what each requires. -/
inductive Step (D : Deployment) (K : Keys) (s : Parties) : Label → Parties → Prop where
  | gossip {key : PeerId} {a : Nodes.Action} {nodes : Nodes} :
      a.speaks = false → Nodes.step K.verifier s.nodes (key, a) = some nodes →
      Step D K s (.gossip key a) { s with nodes }
  | coordinator {l : Backend.Label} {heard : Option GossipEnvelope} {posts : List Post}
      {backend : Backend} {ms : List GossipMessage} {nodes : Nodes} :
      s.backend.Step D l backend ms →
      heard.map GossipEnvelope.payload = (System.Label.coordinator l).handles →
      (∀ e ∈ heard, e ∈ (s.nodes K.hub).delivered) →
      Nodes.Spoken K.honest s.nodes K.hub ms nodes →
      Step D K s (.coordinator l heard posts) { s with nodes, backend }
  | worker {key : PeerId} {l : Worker.Label} {heard : Option GossipEnvelope} {posts : List Post}
      {worker : Worker} {ms : List GossipMessage} {nodes : Nodes} :
      (s.workers key).Step l worker ms →
      heard.map GossipEnvelope.payload = (System.Label.worker key l).handles →
      (∀ e ∈ heard, e ∈ (s.nodes key).delivered) →
      Nodes.Spoken K.honest s.nodes key ms nodes →
      Step D K s (.worker key l heard posts)
        { s with nodes, workers := Function.update s.workers key worker }

variable {D : Deployment} {K : Keys} {s s' : Parties} {l : Label}

/-- **Every step goes in one of these ways.** -/
theorem Step.of_step (h : s.step D K l = some s') : Step D K s l s' := by
  cases l with
  | gossip key a =>
    simp only [step] at h
    split at h
    · cases h
    · rename_i hquiet
      obtain ⟨nodes, hnodes, rfl⟩ := Option.map_eq_some_iff.1 h
      exact .gossip (by simpa using hquiet) hnodes
  | coordinator l heard posts =>
    obtain ⟨⟨backend, ms⟩, hbackend, h⟩ := Option.bind_eq_some_iff.1 h
    obtain ⟨nodes, hnodes, h⟩ := Option.bind_eq_some_iff.1 h
    cases h
    obtain ⟨hpayload, hdelivered, hspoken⟩ := Nodes.of_act hnodes
    exact .coordinator (.of_step hbackend) hpayload hdelivered hspoken
  | worker key l heard posts =>
    obtain ⟨⟨worker, ms⟩, hworker, h⟩ := Option.bind_eq_some_iff.1 h
    obtain ⟨nodes, hnodes, h⟩ := Option.bind_eq_some_iff.1 h
    cases h
    obtain ⟨hpayload, hdelivered, hspoken⟩ := Nodes.of_act hnodes
    exact .worker (.of_step hworker) hpayload hdelivered hspoken

theorem Step.said (hstep : Step D K s l s') {k : PeerId} {m : GossipMessage}
    (h : s.nodes.Said k m) : s'.nodes.Said k m := by
  cases hstep with
  | gossip hquiet hnodes => exact (Nodes.said_step hquiet hnodes k m).2 h
  | coordinator _ _ _ hspoken | worker _ _ _ hspoken => exact (hspoken.said k m).2 (.inl h)

theorem Step.said_cases (hstep : Step D K s l s') {key : PeerId} {m : GossipMessage}
    (h : s'.nodes.Said key m) :
    s.nodes.Said key m ∨
      (∃ k ms, s.backend.Step D k s'.backend ms ∧ m ∈ ms) ∨
      ∃ k w ms, (s.workers key).Step k w ms ∧ m ∈ ms := by
  cases hstep with
  | gossip hquiet hnodes => exact .inl ((Nodes.said_step hquiet hnodes _ _).1 h)
  | coordinator hb _ _ hspoken =>
    rcases (hspoken.said _ _).1 h with hold | ⟨-, hm⟩
    · exact .inl hold
    · exact .inr (.inl ⟨_, _, hb, hm⟩)
  | worker hw _ _ hspoken =>
    rcases (hspoken.said _ _).1 h with hold | ⟨rfl, hm⟩
    · exact .inl hold
    · exact .inr (.inr ⟨_, _, _, hw, hm⟩)

theorem Step.delivered (hstep : Step D K s l s') (k : PeerId) :
    ∃ new, (s'.nodes k).delivered = new ++ (s.nodes k).delivered ∧
      ∀ e ∈ new, e.verify K.verifier = true := by
  cases hstep with
  | gossip _ hnodes => exact Nodes.delivered_step hnodes k
  | coordinator _ _ _ hspoken | worker _ _ _ hspoken =>
    exact ⟨[], hspoken.delivered k, by simp⟩

theorem Step.authentic (hstep : Step D K s l s') (hsound : s.Sound K l)
    (h : s.nodes.Authentic K.honest) : s'.nodes.Authentic K.honest := by
  cases hstep with
  | gossip _ hnodes => exact h.step hsound hnodes
  | coordinator _ _ _ hspoken | worker _ _ _ hspoken => exact hspoken.authentic h

/-- What signatures mean in every run: what is delivered is signed, and what is signed with the key
of an honest node has been said by it. -/
structure Signed (K : Keys) (s : Parties) : Prop where
  authentic : s.nodes.Authentic K.honest
  verified : ∀ key, ∀ e ∈ (s.nodes key).delivered, e.verify K.verifier = true

theorem signed_start (config : PeerId → GossipConfig) (ids : PeerId → PeerId) (chain : Chain)
    (contract : Bool) (defaultDeadlineSecs : UInt64) (startBlock : Nat) :
    Signed K (start config ids chain contract defaultDeadlineSecs startBlock) where
  authentic := .start K.honest config
  verified key e he := by cases he

theorem Signed.step (h : Signed K s) (hstep : Step D K s l s') (hsound : s.Sound K l) :
    Signed K s' := by
  constructor
  · exact hstep.authentic hsound h.authentic
  · intro key e he
    obtain ⟨new, hnew, hverified⟩ := hstep.delivered key
    rw [hnew] at he
    rcases List.mem_append.1 he with he | he
    · exact hverified e he
    · exact h.verified key e he

theorem Signed.said (h : Signed K s) {key : PeerId} {e : GossipEnvelope}
    (he : e ∈ (s.nodes key).delivered) (hhonest : K.honest e.origin = true) :
    s.nodes.Said e.origin e.payload := by
  obtain ⟨b, hb, -, -, hpayload⟩ := h.authentic.genuine key e he hhonest
  exact ⟨b, hb, hpayload⟩

/-- The node of the key has delivered the message. -/
def Heard (s : Parties) (key : PeerId) (m : GossipMessage) : Prop :=
  ∃ e ∈ (s.nodes key).delivered, e.payload = m

theorem Step.heard (hstep : Step D K s l s') {key : PeerId} {m : GossipMessage}
    (h : s.Heard key m) : s'.Heard key m := by
  obtain ⟨e, he, hm⟩ := h
  obtain ⟨new, hnew, -⟩ := hstep.delivered key
  refine ⟨e, ?_, hm⟩
  rw [hnew]
  exact List.mem_append_right _ he

theorem heard_of_handles {key : PeerId} {m : GossipMessage} {heard : Option GossipEnvelope}
    (hpayload : heard.map GossipEnvelope.payload = some m)
    (hdelivered : ∀ e ∈ heard, e ∈ (s.nodes key).delivered) : s.Heard key m := by
  obtain ⟨e, rfl, hm⟩ := Option.map_eq_some_iff.1 hpayload
  exact ⟨e, hdelivered e rfl, hm⟩

end Parties

end ProofMarket
