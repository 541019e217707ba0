import ProofMarket.Gossip.Incoming
import ProofMarket.Lib.Transition

/-!
# What the cache takes for a duplicate

`generate_message_id` hashes the origin and the message into the id, but the id travels in the
envelope and nobody who receives it checks it: `process_incoming` takes every envelope under an id
it has seen for a duplicate, also one with another content or from another origin.

**Theorem (`discards_duplicates`).** When no id stands for two contents among what comes in
correctly signed and what the node broadcasts, everything that the node discards as seen is a
message that it delivered or broadcast before.
-/

namespace ProofMarket

/-- A node with what it has handed to its subscribers and what it has broadcast, the latest
first. -/
structure Endpoint where
  node : GossipNode
  delivered : List GossipEnvelope
  broadcasts : List GossipEnvelope

namespace Endpoint

/-- `GossipNode::new`. -/
def new (peerId : PeerId) (config : GossipConfig) : Endpoint where
  node := .new peerId config
  delivered := []
  broadcasts := []

/-- What happens to a node. Its connections come and go as they like. -/
inductive Event where
  | incoming (envelope : GossipEnvelope) (rng : Shuffle) (source : ConnectionId)
  | broadcast (message : GossipMessage) (rng : Shuffle) (id : MessageId)
      (signature : FixedBytes 64)
  | send (envelope : GossipEnvelope) (rng : Shuffle)
  | connections (handles : List ConnectionHandle)
      (distinct : (handles.map ConnectionHandle.id).Nodup)

def step (verifier : Verifier) (s : Endpoint) : Event → Option Endpoint
  | .incoming envelope rng source =>
    let outcome := s.node.processIncoming verifier rng envelope source
    some { s with node := outcome.1, delivered := outcome.2.toList ++ s.delivered }
  | .broadcast message rng id signature =>
    some { s with
      node := s.node.broadcast rng message id signature
      broadcasts := s.node.envelope message id signature :: s.broadcasts }
  | .send envelope rng => some { s with node := s.node.sendToPeers rng envelope none }
  | .connections handles distinct =>
    some { s with node := { s.node with connections := handles, distinct := distinct } }

/-- What the node has accepted so far. -/
def accepted (s : Endpoint) : List GossipEnvelope := s.delivered ++ s.broadcasts

variable {verifier : Verifier} {s t : Endpoint}

/-- Every id in the cache is the id of something the node accepted. -/
def Remembers (s : Endpoint) : Prop := ∀ id ∈ s.node.seen, ∃ d ∈ s.accepted, d.id = id

theorem mem_of_mem_putSeen {capacity : Nat} {id x : MessageId} {seen : List MessageId}
    (h : x ∈ GossipNode.putSeen capacity id seen) : x = id ∨ x ∈ seen := by
  rcases List.mem_cons.1 (List.mem_of_mem_take h) with rfl | hx
  · exact .inl rfl
  · exact .inr (List.mem_of_mem_erase hx)

theorem accepted_step {l : Event} (h : step verifier s l = some t) {d : GossipEnvelope}
    (hd : d ∈ s.accepted) : d ∈ t.accepted := by
  have hold := List.mem_append.1 hd
  cases l with
  | incoming e rng source =>
    cases h
    refine List.mem_append.2 (hold.imp_left fun hd => ?_)
    exact List.mem_append_right _ hd
  | broadcast m rng id sig =>
    cases h
    refine List.mem_append.2 (hold.imp_right fun hd => ?_)
    exact List.mem_cons_of_mem _ hd
  | send e rng =>
    cases h
    exact hd
  | connections handles distinct =>
    cases h
    exact hd

theorem seen_step {l : Event} (h : step verifier s l = some t) {x : MessageId}
    (hx : x ∈ t.node.seen) : x ∈ s.node.seen ∨ ∃ d ∈ t.accepted, d.id = x := by
  cases l with
  | incoming e rng source =>
    cases h
    cases hv : e.verify verifier with
    | false =>
      left
      simpa [GossipNode.processIncoming_invalid hv] using hx
    | true =>
      by_cases hseen : e.id ∈ s.node.seen
      · left
        simp only [GossipNode.processIncoming_seen hv hseen] at hx
        exact (GossipNode.mem_touchSeen hseen).1 hx
      · have hdelivered : (s.node.processIncoming verifier rng e source).2 = some e :=
          (GossipNode.processIncoming_new hv hseen).1
        have hcache : (s.node.processIncoming verifier rng e source).1.seen =
            GossipNode.putSeen s.node.config.seenCacheSize e.id s.node.seen :=
          (GossipNode.processIncoming_new hv hseen).2
        simp only [hcache] at hx
        rcases mem_of_mem_putSeen hx with rfl | hx
        · right
          refine ⟨e, List.mem_append_left _ ?_, rfl⟩
          simp [hdelivered]
        · exact .inl hx
  | broadcast m rng id sig =>
    cases h
    rcases mem_of_mem_putSeen hx with rfl | hx
    · exact .inr ⟨_, List.mem_append_right _ List.mem_cons_self, rfl⟩
    · exact .inl hx
  | send e rng =>
    cases h
    exact .inl hx
  | connections handles distinct =>
    cases h
    exact .inl hx

/-- **Every event keeps the cache justified.** -/
theorem Remembers.step {l : Event} (hs : s.Remembers) (h : Endpoint.step verifier s l = some t) :
    t.Remembers := by
  intro x hx
  rcases seen_step h hx with hold | hnew
  · obtain ⟨d, hd, hid⟩ := hs x hold
    exact ⟨d, accepted_step h hd, hid⟩
  · exact hnew

/-! ## What the ids stand for -/

/-- What an id is used for. -/
abbrev Content := MessageId × PeerId × GossipMessage

def content (e : GossipEnvelope) : Content := (e.id, e.origin, e.payload)

/-- The content that comes in, if it is correctly signed, or is broadcast by the node `peerId`. -/
def Event.content (verifier : Verifier) (peerId : PeerId) : Event → Option Content
  | .incoming e _ _ => if e.verify verifier = true then some (Endpoint.content e) else none
  | .broadcast m _ id _ => some (id, peerId, m)
  | .send .. | .connections .. => none

/-- No id stands for two contents in what happens to the node. -/
def OneContent (verifier : Verifier) (peerId : PeerId) (events : List Event) : Prop :=
  ∀ x ∈ events.filterMap (Event.content verifier peerId),
    ∀ y ∈ events.filterMap (Event.content verifier peerId), x.1 = y.1 → x = y

theorem content_step {l : Event} (h : step verifier s l = some t) :
    t.node.peerId = s.node.peerId ∧
      ∀ d ∈ t.accepted, d ∈ s.accepted ∨ l.content verifier s.node.peerId = some (content d) := by
  cases l with
  | incoming e rng source =>
    cases h
    refine ⟨GossipNode.peerId_processIncoming, fun d hd => ?_⟩
    rcases List.mem_append.1 hd with hd | hd
    · rcases List.mem_append.1 hd with hnew | hold
      · obtain ⟨rfl, hv, -⟩ := GossipNode.delivered_iff.1 (Option.mem_toList.1 hnew)
        exact .inr (if_pos hv)
      · exact .inl (List.mem_append_left _ hold)
    · exact .inl (List.mem_append_right _ hd)
  | broadcast m rng id sig =>
    cases h
    refine ⟨rfl, fun d hd => ?_⟩
    rcases List.mem_append.1 hd with hd | hd
    · exact .inl (List.mem_append_left _ hd)
    · rcases List.mem_cons.1 hd with rfl | hd
      · exact .inr rfl
      · exact .inl (List.mem_append_right _ hd)
  | send e rng =>
    cases h
    exact ⟨rfl, fun d => .inl⟩
  | connections handles distinct =>
    cases h
    exact ⟨rfl, fun d => .inl⟩

theorem content_of_run {peerId : PeerId} : ∀ {events : List Event} {s : Endpoint},
    s.node.peerId = peerId → Transition.run (step verifier) events s = some t →
      ∀ d ∈ t.accepted,
        d ∈ s.accepted ∨ content d ∈ events.filterMap (Event.content verifier peerId)
  | [], s, _, h, d, hd => by
    cases h
    exact .inl hd
  | l :: events, s, hpeer, h, d, hd => by
    obtain ⟨u, hu, hrest⟩ := Option.bind_eq_some_iff.1 h
    obtain ⟨hsame, hnew⟩ := content_step hu
    rcases content_of_run (hsame.trans hpeer) hrest d hd with hfirst | hlater
    · refine (hnew d hfirst).imp_right fun hcontent => ?_
      rw [hpeer] at hcontent
      exact List.mem_filterMap.2 ⟨l, List.mem_cons_self, hcontent⟩
    · obtain ⟨k, hk, hcontent⟩ := List.mem_filterMap.1 hlater
      exact .inr (List.mem_filterMap.2 ⟨k, List.mem_cons_of_mem _ hk, hcontent⟩)

theorem remembers_of_run {events : List Event} {peerId : PeerId} {config : GossipConfig}
    (h : Transition.run (step verifier) events (new peerId config) = some s) : s.Remembers := by
  have hsteps : Transition.Steps (step verifier) Transition.Any (new peerId config) s :=
    Transition.steps_of_run (fun _ _ _ => trivial) h
  refine hsteps.invariant (fun s l t hs _ h => hs.step h) ?_
  intro id hid
  cases hid

/-- **Only duplicates are discarded** when no id stands for two contents, in the whole run up to the
envelope that is discarded. -/
theorem discards_duplicates (verifier : Verifier) (peerId : PeerId) (config : GossipConfig)
    {events : List Event} {s : Endpoint}
    (hrun : Transition.run (step verifier) events (new peerId config) = some s)
    (e : GossipEnvelope) (rng : Shuffle) (source : ConnectionId)
    (hone : OneContent verifier peerId (events ++ [.incoming e rng source]))
    (hv : e.verify verifier = true)
    (hdiscard : (s.node.processIncoming verifier rng e source).2 = none) :
    ∃ d ∈ s.accepted, d.origin = e.origin ∧ d.payload = e.payload := by
  have hseen : e.id ∈ s.node.seen := by
    by_contra hseen
    rw [(GossipNode.processIncoming_new hv hseen).1] at hdiscard
    cases hdiscard
  obtain ⟨d, hd, hid⟩ := remembers_of_run hrun e.id hseen
  have hbefore : content d ∈ events.filterMap (Event.content verifier peerId) := by
    rcases content_of_run rfl hrun d hd with hnone | hmem
    · cases hnone
    · exact hmem
  have harrives : Event.content verifier peerId (.incoming e rng source) = some (content e) :=
    if_pos hv
  have heq : content d = content e := by
    refine hone _ ?_ _ ?_ hid
    · rw [List.filterMap_append]
      exact List.mem_append_left _ hbefore
    · rw [List.filterMap_append]
      exact List.mem_append_right _ (List.mem_filterMap.2 ⟨_, List.mem_cons_self, harrives⟩)
  exact ⟨d, hd, congrArg (fun x => x.2.1) heq, congrArg (fun x => x.2.2) heq⟩

/-! ## Another content under the same id -/

/-- The claim of a worker, as its node broadcasts it. -/
def honestClaim : GossipEnvelope :=
  ⟨⟨.fill 32 5⟩, ⟨.fill 32 1⟩, 3, .claimJob ⟨.fill 32 7⟩ ⟨.fill 32 1⟩, .fill 64 0⟩

/-- Another peer's message under the id of the claim. -/
def squatter : GossipEnvelope :=
  ⟨⟨.fill 32 5⟩, ⟨.fill 32 2⟩, 3, .claimRejected ⟨.fill 32 9⟩ "", .fill 64 0⟩

/-- A fresh node that has heard one envelope. -/
def heard (e : GossipEnvelope) : Endpoint :=
  let outcome := (new ⟨.fill 32 9⟩ .new).node.processIncoming (fun _ _ _ => true) .trivial e 0
  ⟨outcome.1, outcome.2.toList ++ [], []⟩

theorem run_heard (e : GossipEnvelope) :
    Transition.run (step fun _ _ _ => true) [.incoming e .trivial 0] (new ⟨.fill 32 9⟩ .new) =
      some (heard e) :=
  rfl

/-- The claim arrives a second time, over another connection. -/
theorem discards_duplicates_again : ∃ d ∈ (heard honestClaim).accepted,
    d.origin = honestClaim.origin ∧ d.payload = honestClaim.payload := by
  refine discards_duplicates (fun _ _ _ => true) ⟨.fill 32 9⟩ .new (run_heard honestClaim)
    honestClaim .trivial 1 ?_ rfl (by decide +kernel)
  intro x hx y hy _
  have htwice : [Event.incoming honestClaim .trivial 0, .incoming honestClaim .trivial 1].filterMap
      (Event.content (fun _ _ _ => true) ⟨.fill 32 9⟩) =
        [content honestClaim, content honestClaim] := rfl
  rw [List.singleton_append, htwice] at hx hy
  have hx' : x = content honestClaim := by simpa using hx
  have hy' : y = content honestClaim := by simpa using hy
  rw [hx', hy']

/-- **The claim is dropped**, and nothing like it was delivered. -/
theorem claim_suppressed :
    ¬ ∀ s, Transition.Steps (step fun _ _ _ => true) Transition.Any (new ⟨.fill 32 9⟩ .new) s →
      ∀ e rng source, e.verify (fun _ _ _ => true) = true →
        (s.node.processIncoming (fun _ _ _ => true) rng e source).2 = none →
        ∃ d ∈ s.accepted, d.origin = e.origin ∧ d.payload = e.payload := by
  intro hall
  have hclaim := hall (heard squatter)
    (Transition.steps_of_run (fun _ _ _ => trivial) (run_heard squatter)) honestClaim .trivial 1 rfl
    (by decide +kernel)
  revert hclaim
  decide +kernel

end Endpoint

end ProofMarket
