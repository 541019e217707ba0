import ProofMarket.Gossip.Suppression

/-!
# Who wrote a message

Any number of honest nodes among peers that send what they like. A frame that arrives can be any
byte string: what another node sent, a replay, a copy with another ttl, or something made up.

**Theorem (`gossip_authentic`).** What an honest node delivers in the name of an honest node has
been broadcast by that node, under the same id and with the same payload.

A delivered envelope has a valid signature, so the signer has signed its bytes, and the signed bytes
determine the id, the origin and the payload (`signableBytes_inj`). The ttl is not signed and can be
anything.
-/

namespace ProofMarket

/-- A message that a `GossipMessage` can be: its strings have a length. -/
abbrev SizedMessage := { m : GossipMessage // m.Fits }

/-- Nodes that run this code, by their public keys. -/
abbrev Nodes := PeerId → Endpoint

namespace Nodes

/-- Fresh nodes. -/
def start (config : PeerId → GossipConfig) : Nodes := fun key => .new key (config key)

/-- What happens at a node. -/
inductive Action where
  /-- A frame arrives on one of its connections. -/
  | frame (bytes : Bytes) (rng : Shuffle) (source : ConnectionId)
  | broadcast (message : SizedMessage) (rng : Shuffle) (id : MessageId) (signature : FixedBytes 64)
  | send (envelope : GossipEnvelope) (rng : Shuffle)
  | connections (handles : List ConnectionHandle)
      (distinct : (handles.map ConnectionHandle.id).Nodup)

/-- The task of a connection decodes what it reads. -/
def Action.event : Action → Option Endpoint.Event
  | .frame bytes rng source => (GossipEnvelope.ofFrame bytes).map fun e => .incoming e rng source
  | .broadcast message rng id signature => some (.broadcast message.1 rng id signature)
  | .send envelope rng => some (.send envelope rng)
  | .connections handles distinct => some (.connections handles distinct)

def step (verifier : Verifier) (s : Nodes) (l : PeerId × Action) : Option Nodes := do
  let event ← l.2.event
  let endpoint ← (s l.1).step verifier event
  return Function.update s l.1 endpoint

/-- Ed25519 is unforgeable: a signature that is valid under the key of an honest node is on bytes
which that node has signed. -/
def Unforgeable (verifier : Verifier) (honest : PeerId → Bool) (s : Nodes) :
    PeerId × Action → Prop
  | (_, .frame bytes _ _) => ∀ e, GossipEnvelope.ofFrame bytes = some e → honest e.origin = true →
      e.verify verifier = true → ∃ b ∈ (s e.origin).broadcasts, b.signableBytes = e.signableBytes
  | _ => True

instance (verifier : Verifier) (honest : PeerId → Bool) (s : Nodes) (l : PeerId × Action) :
    Decidable (Unforgeable verifier honest s l) :=
  match l with
  | (_, .frame bytes _ _) =>
    inferInstanceAs (Decidable (∀ e ∈ GossipEnvelope.ofFrame bytes, honest e.origin = true →
      e.verify verifier = true → ∃ b ∈ (s e.origin).broadcasts, b.signableBytes = e.signableBytes))
  | (_, .broadcast _ _ _ _) | (_, .send _ _) | (_, .connections _ _) => isTrue trivial

/-- The origin of the envelope has broadcast it, up to the ttl and the signature. -/
def Genuine (s : Nodes) (e : GossipEnvelope) : Prop :=
  ∃ b ∈ (s e.origin).broadcasts, b.id = e.id ∧ b.origin = e.origin ∧ b.payload = e.payload

/-- What holds in every run. -/
structure Authentic (honest : PeerId → Bool) (s : Nodes) : Prop where
  sized : ∀ key, ∀ b ∈ (s key).broadcasts, b.payload.Fits
  genuine : ∀ key, ∀ e ∈ (s key).delivered, honest e.origin = true → s.Genuine e

variable {verifier : Verifier} {honest : PeerId → Bool} {s t : Nodes} {key : PeerId}

theorem step_eq_some {a : Action} (h : step verifier s (key, a) = some t) :
    ∃ event endpoint, a.event = some event ∧ (s key).step verifier event = some endpoint ∧
      t = Function.update s key endpoint := by
  obtain ⟨event, hevent, h⟩ := Option.bind_eq_some_iff.1 h
  obtain ⟨endpoint, hendpoint, h⟩ := Option.bind_eq_some_iff.1 h
  cases h
  exact ⟨event, endpoint, hevent, hendpoint, rfl⟩

theorem Genuine.update {endpoint : Endpoint} {e : GossipEnvelope} (h : s.Genuine e)
    (hmore : (s key).broadcasts ⊆ endpoint.broadcasts) :
    Genuine (Function.update s key endpoint) e := by
  obtain ⟨b, hb, hsame⟩ := h
  refine ⟨b, ?_, hsame⟩
  by_cases hkey : e.origin = key
  · subst hkey
    rw [Function.update_self]
    exact hmore hb
  · rw [Function.update_of_ne hkey]
    exact hb

theorem Authentic.update {endpoint : Endpoint} (hs : Authentic honest s)
    (hmore : (s key).broadcasts ⊆ endpoint.broadcasts)
    (hsized : ∀ b ∈ endpoint.broadcasts, b ∉ (s key).broadcasts → b.payload.Fits)
    (hgenuine : ∀ e ∈ endpoint.delivered, e ∉ (s key).delivered → honest e.origin = true →
      s.Genuine e) :
    Authentic honest (Function.update s key endpoint) := by
  constructor
  · intro k b hb
    by_cases hk : k = key
    · subst hk
      rw [Function.update_self] at hb
      by_cases hold : b ∈ (s k).broadcasts
      · exact hs.sized k b hold
      · exact hsized b hb hold
    · rw [Function.update_of_ne hk] at hb
      exact hs.sized k b hb
  · intro k e he horigin
    refine Genuine.update ?_ hmore
    by_cases hk : k = key
    · subst hk
      rw [Function.update_self] at he
      by_cases hold : e ∈ (s k).delivered
      · exact hs.genuine k e hold horigin
      · exact hgenuine e he hold horigin
    · rw [Function.update_of_ne hk] at he
      exact hs.genuine k e he horigin

/-- **A frame with a valid signature of an honest node** carries what that node signed. -/
theorem Authentic.genuine_of_verify (hs : Authentic honest s) {bytes : Bytes} {rng : Shuffle}
    {source : ConnectionId} {e : GossipEnvelope}
    (hok : Unforgeable verifier honest s (key, .frame bytes rng source))
    (he : GossipEnvelope.ofFrame bytes = some e) (hv : e.verify verifier = true)
    (horigin : honest e.origin = true) : s.Genuine e := by
  obtain ⟨b, hb, hsigned⟩ := hok e he horigin hv
  exact ⟨b, hb, GossipEnvelope.signableBytes_inj (hs.sized _ b hb)
    (GossipEnvelope.payload_fits_of_ofFrame he) hsigned⟩

/-- **Every step keeps it.** -/
theorem Authentic.step {l : PeerId × Action} (hs : Authentic honest s)
    (hok : Unforgeable verifier honest s l) (h : Nodes.step verifier s l = some t) :
    Authentic honest t := by
  obtain ⟨key, a⟩ := l
  obtain ⟨event, endpoint, hevent, hstep, rfl⟩ := step_eq_some h
  cases a with
  | frame bytes rng source =>
    simp only [Action.event] at hevent
    obtain ⟨e, he, rfl⟩ := Option.map_eq_some_iff.1 hevent
    cases hstep
    refine hs.update (List.Subset.refl _) (fun b hb hold => absurd hb hold) ?_
    intro d hd hold horigin
    rcases List.mem_append.1 hd with hd | hd
    · obtain ⟨rfl, hv, -⟩ := GossipNode.delivered_iff.1 (Option.mem_toList.1 hd)
      exact hs.genuine_of_verify hok he hv horigin
    · exact absurd hd hold
  | broadcast m rng id sig =>
    cases hevent
    cases hstep
    refine hs.update (List.subset_cons_self _ _) ?_ (fun e he hold _ => absurd he hold)
    intro b hb hold
    rcases List.mem_cons.1 hb with rfl | hb
    · exact m.2
    · exact absurd hb hold
  | send envelope rng =>
    cases hevent
    cases hstep
    exact hs.update (List.Subset.refl _) (fun b hb hold => absurd hb hold)
      fun e he hold _ => absurd he hold
  | connections handles distinct =>
    cases hevent
    cases hstep
    exact hs.update (List.Subset.refl _) (fun b hb hold => absurd hb hold)
      fun e he hold _ => absurd he hold

theorem Authentic.start (honest : PeerId → Bool) (config : PeerId → GossipConfig) :
    Authentic honest (Nodes.start config) := by
  constructor
  · intro key b hb
    cases hb
  · intro key e he
    cases he

/-- **Who wrote a message.** -/
theorem gossip_authentic (verifier : Verifier) (honest : PeerId → Bool)
    (config : PeerId → GossipConfig) {s : Nodes}
    (hrun : Transition.Steps (step verifier) (Unforgeable verifier honest) (start config) s)
    (key : PeerId) (e : GossipEnvelope) (he : e ∈ (s key).delivered)
    (horigin : honest e.origin = true) :
    ∃ b ∈ (s e.origin).broadcasts, b.id = e.id ∧ b.origin = e.origin ∧ b.payload = e.payload := by
  have hs : Authentic honest s :=
    hrun.invariant (fun _ _ _ hs hok h => hs.step hok h) (.start honest config)
  exact hs.genuine key e he horigin

/-! ## A claim with another ttl -/

/-- The claim after somebody raised its ttl. -/
def raisedClaim : GossipEnvelope := { Endpoint.honestClaim with ttl := 200 }

/-- Worker 1 has signed its claim and nothing else. -/
def claimSigned : Verifier := fun key bytes _ =>
  key = ⟨.fill 32 1⟩ && bytes = Endpoint.honestClaim.signableBytes

def claimMessage : SizedMessage where
  val := .claimJob ⟨.fill 32 7⟩ ⟨.fill 32 1⟩
  property := by
    have hindex : 1 < 256 ^ 4 := by decide
    exact ⟨hindex, GossipEnvelope.fits_fixedBytes _, GossipEnvelope.fits_fixedBytes _⟩

/-- The nodes after worker 1 has broadcast its claim. -/
def claimSent : Nodes :=
  let s := start fun _ => .new
  Function.update s ⟨.fill 32 1⟩
    { s ⟨.fill 32 1⟩ with
      node := (s ⟨.fill 32 1⟩).node.broadcast .trivial claimMessage.1 ⟨.fill 32 5⟩ (.fill 64 0)
      broadcasts := [Endpoint.honestClaim] }

/-- The nodes after the changed claim has reached node 2. -/
def claimHeard : Nodes :=
  let outcome := (claimSent ⟨.fill 32 2⟩).node.processIncoming claimSigned .trivial raisedClaim 0
  Function.update claimSent ⟨.fill 32 2⟩
    { claimSent ⟨.fill 32 2⟩ with
      node := outcome.1
      delivered := outcome.2.toList ++ (claimSent ⟨.fill 32 2⟩).delivered }

theorem steps_claimHeard :
    Transition.Steps (step claimSigned) (Unforgeable claimSigned fun _ => true)
      (start fun _ => .new) claimHeard := by
  have hframe : GossipEnvelope.ofFrame (Wire.envelope.encode raisedClaim) = some raisedClaim :=
    GossipEnvelope.ofFrame_encode claimMessage.2
  refine .cons (⟨.fill 32 1⟩, .broadcast claimMessage .trivial ⟨.fill 32 5⟩ (.fill 64 0)) trivial
    rfl (.cons (⟨.fill 32 2⟩, .frame (Wire.envelope.encode raisedClaim) .trivial 0) ?_ ?_ .refl)
  · intro e he _ _
    rw [hframe] at he
    cases he
    exact ⟨Endpoint.honestClaim, by decide +kernel, rfl⟩
  · simp only [step, Action.event, hframe]
    rfl

theorem gossip_authentic_raised :
    ∃ b ∈ (claimHeard ⟨.fill 32 1⟩).broadcasts, b.id = raisedClaim.id ∧
      b.origin = raisedClaim.origin ∧ b.payload = raisedClaim.payload :=
  gossip_authentic claimSigned (fun _ => true) (fun _ => .new) steps_claimHeard ⟨.fill 32 2⟩
    raisedClaim (by decide +kernel) rfl

end Nodes

end ProofMarket
