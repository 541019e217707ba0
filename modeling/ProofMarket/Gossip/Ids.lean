import ProofMarket.Gossip.Authenticity
import ProofMarket.Lib.LittleEndian

/-!
# Ids stand for messages

`broadcast` gives every message an id that is a hash: of the node's key, the message, the time and
eight random bytes (`generate_message_id`). Receivers go by the id alone.

**Theorem (`ids_identify`).** As long as SHA-256 has no collision among what honest nodes hash, and
no honest node draws the same time and random bytes twice for one message, an id belongs to one
broadcast of one honest node. So an envelope of an honest node is discarded only by a node that has
had it already, or has accepted an envelope under its id from somebody else.

The bytes hashed determine what they were put together from (`idPreimage_inj`), since the encoding
of a message says where it ends.
-/

namespace ProofMarket

/-- What `generate_message_id` draws: the nanoseconds of the clock, and random bytes. -/
structure Draw where
  nanos : BitVec 128
  random : FixedBytes 8
  deriving DecidableEq

/-- The bytes that `generate_message_id` hashes. -/
def idPreimage (ourPeerId : PeerId) (message : GossipMessage) (draw : Draw) : Bytes :=
  ourPeerId.bytes.val ++ (Wire.message.encode message ++
    (LittleEndian.toLe 16 draw.nanos.toNat ++ draw.random.val))

/-- `generate_message_id`. -/
def generateMessageId (sha256 : Bytes → FixedBytes 32) (ourPeerId : PeerId)
    (message : GossipMessage) (draw : Draw) : MessageId :=
  ⟨sha256 (idPreimage ourPeerId message draw)⟩

/-- **The bytes hashed say what they are made of.** -/
theorem idPreimage_inj {p q : PeerId} {m n : GossipMessage} {d e : Draw} (hm : m.Fits) (hn : n.Fits)
    (h : idPreimage p m d = idPreimage q n e) : p = q ∧ m = n ∧ d = e := by
  have hpeer : p.bytes.val = q.bytes.val := by
    have htake := congrArg (List.take 32) h
    rwa [idPreimage, idPreimage, FixedBytes.take_append, FixedBytes.take_append] at htake
  have hrest := congrArg (List.drop 32) h
  rw [idPreimage, idPreimage, FixedBytes.drop_append, FixedBytes.drop_append] at hrest
  obtain ⟨rfl, hdraw⟩ := Wire.message.eq_of_encode hm hn hrest
  have hlength : (LittleEndian.toLe 16 d.nanos.toNat).length =
      (LittleEndian.toLe 16 e.nanos.toNat).length := by
    rw [LittleEndian.length_toLe, LittleEndian.length_toLe]
  obtain ⟨hnanos, hrandom⟩ := List.append_inj hdraw hlength
  have hvalue := congrArg LittleEndian.ofLe hnanos
  rw [LittleEndian.ofLe_toLe_of_lt d.nanos.isLt, LittleEndian.ofLe_toLe_of_lt e.nanos.isLt]
    at hvalue
  obtain ⟨nanos, random⟩ := d
  obtain ⟨nanos', random'⟩ := e
  obtain ⟨p⟩ := p
  obtain ⟨q⟩ := q
  obtain rfl : p = q := FixedBytes.ext hpeer
  obtain rfl : nanos = nanos' := BitVec.eq_of_toNat_eq hvalue
  obtain rfl : random = random' := FixedBytes.ext hrandom
  exact ⟨rfl, rfl, rfl⟩

/-- A call of `generate_message_id`. -/
structure Naming where
  key : PeerId
  message : SizedMessage
  draw : Draw
  deriving DecidableEq

/-- The bytes that the call hashes. -/
def Naming.preimage (n : Naming) : Bytes := idPreimage n.key n.message.1 n.draw

/-- What the call is made for: the id, and what goes under it. -/
def Naming.named (sha256 : Bytes → FixedBytes 32) (n : Naming) :
    MessageId × PeerId × GossipMessage :=
  (generateMessageId sha256 n.key n.message.1 n.draw, n.key, n.message.1)

theorem Naming.preimage_injective : Function.Injective Naming.preimage := by
  intro a b h
  obtain ⟨key, message, draw⟩ := a
  obtain ⟨key', message', draw'⟩ := b
  obtain ⟨rfl, hmessage, rfl⟩ := idPreimage_inj message.2 message'.2 h
  obtain rfl := Subtype.ext hmessage
  rfl

/-- Nodes that name what they broadcast, and the names they have given, the latest first. -/
structure NamedNodes where
  nodes : Nodes
  given : List Naming

namespace NamedNodes

def start (config : PeerId → GossipConfig) : NamedNodes := ⟨Nodes.start config, []⟩

inductive Label where
  | broadcast (naming : Naming) (rng : Shuffle) (signature : FixedBytes 64)
  | frame (key : PeerId) (bytes : Bytes) (rng : Shuffle) (source : ConnectionId)
  | connections (key : PeerId) (handles : List ConnectionHandle)
      (distinct : (handles.map ConnectionHandle.id).Nodup)

/-- What happens at which node. -/
def Label.action (sha256 : Bytes → FixedBytes 32) : Label → PeerId × Nodes.Action
  | .broadcast n rng signature =>
    (n.key, .broadcast n.message rng (generateMessageId sha256 n.key n.message.1 n.draw) signature)
  | .frame key bytes rng source => (key, .frame bytes rng source)
  | .connections key handles distinct => (key, .connections handles distinct)

def Label.naming : Label → Option Naming
  | .broadcast n _ _ => some n
  | .frame _ _ _ _ | .connections _ _ _ => none

def step (verifier : Verifier) (sha256 : Bytes → FixedBytes 32) (s : NamedNodes) (l : Label) :
    Option NamedNodes :=
  (s.nodes.step verifier (l.action sha256)).map fun nodes => ⟨nodes, l.naming.toList ++ s.given⟩

abbrev Steps (verifier : Verifier) (sha256 : Bytes → FixedBytes 32)
    (ok : NamedNodes → Label → Prop) : NamedNodes → NamedNodes → Prop :=
  Transition.Steps (step verifier sha256) ok

/-- Nobody forges the signature of an honest node; an honest node draws afresh for each message, and
hashes what is `known`. -/
structure Allowed (verifier : Verifier) (honest : PeerId → Bool) (sha256 : Bytes → FixedBytes 32)
    (known : Set Bytes) (s : NamedNodes) (l : Label) : Prop where
  unforgeable : Nodes.Unforgeable verifier honest s.nodes (l.action sha256)
  fresh : ∀ n ∈ l.naming, honest n.key = true → n ∉ s.given
  known : ∀ n ∈ l.naming, honest n.key = true → n.preimage ∈ known

/-! ## What is known of the names -/

/-- The names given at an honest key are those of what its node has broadcast. -/
structure Inv (honest : PeerId → Bool) (sha256 : Bytes → FixedBytes 32) (known : Set Bytes)
    (s : NamedNodes) : Prop where
  authentic : Nodes.Authentic honest s.nodes
  peer : ∀ key, (s.nodes key).node.peerId = key
  remembers : ∀ key, (s.nodes key).Remembers
  origin : ∀ key, ∀ b ∈ (s.nodes key).broadcasts, b.origin = key
  named : ∀ key, (s.nodes key).broadcasts.map (fun b => (b.id, b.origin, b.payload)) =
    (s.given.filter fun n => n.key = key).map (Naming.named sha256)
  once : (s.given.filter fun n => honest n.key).Nodup
  known : ∀ n ∈ s.given, honest n.key = true → n.preimage ∈ known

section Step

variable {verifier : Verifier} {honest : PeerId → Bool} {sha256 : Bytes → FixedBytes 32}
  {known : Set Bytes} {s t : NamedNodes}

theorem inv_start (config : PeerId → GossipConfig) : Inv honest sha256 known (start config) where
  authentic := .start honest config
  peer _ := rfl
  remembers _ _ hid := by cases hid
  origin _ _ hb := by cases hb
  named _ := rfl
  once := List.nodup_nil
  known _ hn := by cases hn

theorem Inv.quiet (h : Inv honest sha256 known s) {key : PeerId} {endpoint : Endpoint}
    (hauthentic : Nodes.Authentic honest (Function.update s.nodes key endpoint))
    (hpeer : endpoint.node.peerId = key) (hremembers : endpoint.Remembers)
    (hbroadcasts : endpoint.broadcasts = (s.nodes key).broadcasts) :
    Inv honest sha256 known ⟨Function.update s.nodes key endpoint, s.given⟩ := by
  refine ⟨hauthentic, ?_, ?_, ?_, ?_, h.once, h.known⟩
  · exact (Function.forall_update_iff s.nodes fun k x => x.node.peerId = k).2
      ⟨hpeer, fun k _ => h.peer k⟩
  · exact (Function.forall_update_iff s.nodes fun _ x => x.Remembers).2
      ⟨hremembers, fun k _ => h.remembers k⟩
  · refine (Function.forall_update_iff s.nodes fun k x => ∀ b ∈ x.broadcasts, b.origin = k).2
      ⟨?_, fun k _ => h.origin k⟩
    rw [hbroadcasts]
    exact h.origin key
  · refine (Function.forall_update_iff s.nodes fun k x => x.broadcasts.map
      (fun b => (b.id, b.origin, b.payload)) = _).2 ⟨?_, fun k _ => h.named k⟩
    rw [hbroadcasts]
    exact h.named key

theorem Inv.broadcast (h : Inv honest sha256 known s) {n : Naming} {endpoint : Endpoint}
    {envelope : GossipEnvelope}
    (hauthentic : Nodes.Authentic honest (Function.update s.nodes n.key endpoint))
    (hpeer : endpoint.node.peerId = n.key) (hremembers : endpoint.Remembers)
    (hbroadcasts : endpoint.broadcasts = envelope :: (s.nodes n.key).broadcasts)
    (hnamed : (envelope.id, envelope.origin, envelope.payload) = n.named sha256)
    (hfresh : honest n.key = true → n ∉ s.given)
    (hknown : honest n.key = true → n.preimage ∈ known) :
    Inv honest sha256 known ⟨Function.update s.nodes n.key endpoint, n :: s.given⟩ := by
  refine ⟨hauthentic, ?_, ?_, ?_, ?_, ?_, ?_⟩
  · exact (Function.forall_update_iff s.nodes fun k x => x.node.peerId = k).2
      ⟨hpeer, fun k _ => h.peer k⟩
  · exact (Function.forall_update_iff s.nodes fun _ x => x.Remembers).2
      ⟨hremembers, fun k _ => h.remembers k⟩
  · refine (Function.forall_update_iff s.nodes fun k x => ∀ b ∈ x.broadcasts, b.origin = k).2
      ⟨?_, fun k _ => h.origin k⟩
    rw [hbroadcasts]
    exact List.forall_mem_cons.2 ⟨congrArg (fun x => x.2.1) hnamed, h.origin n.key⟩
  · refine (Function.forall_update_iff s.nodes fun k x => x.broadcasts.map
      (fun b => (b.id, b.origin, b.payload)) =
        ((n :: s.given).filter fun m => m.key = k).map (Naming.named sha256)).2
      ⟨?_, fun k hk => ?_⟩
    · rw [hbroadcasts, List.map_cons, hnamed, h.named, List.filter_cons_of_pos (by simp),
        List.map_cons]
    · rw [h.named, List.filter_cons_of_neg (by simpa using Ne.symm hk)]
  · show ((n :: s.given).filter fun m => honest m.key).Nodup
    rw [List.filter_cons]
    split_ifs with hhonest
    · exact List.nodup_cons.2 ⟨fun hn => hfresh hhonest (List.mem_filter.1 hn).1, h.once⟩
    · exact h.once
  · exact List.forall_mem_cons.2 ⟨hknown, h.known⟩

/-- **Every step keeps it.** -/
theorem Inv.step (h : Inv honest sha256 known s) {l : Label}
    (hok : Allowed verifier honest sha256 known s l)
    (hst : NamedNodes.step verifier sha256 s l = some t) : Inv honest sha256 known t := by
  obtain ⟨nodes, hnodes, rfl⟩ := Option.map_eq_some_iff.1 hst
  have hauthentic := h.authentic.step hok.unforgeable hnodes
  cases l with
  | broadcast n rng signature =>
    obtain ⟨event, endpoint, hevent, hstep, rfl⟩ := Nodes.step_eq_some hnodes
    have hremembers := (h.remembers n.key).step hstep
    cases hevent
    cases hstep
    refine h.broadcast hauthentic (h.peer n.key) hremembers rfl ?_ (hok.fresh n rfl)
      (hok.known n rfl)
    simp [Naming.named, GossipNode.envelope, h.peer]
  | frame key bytes rng source =>
    obtain ⟨event, endpoint, hevent, hstep, rfl⟩ := Nodes.step_eq_some hnodes
    have hremembers := (h.remembers key).step hstep
    obtain ⟨e, -, rfl⟩ := Option.map_eq_some_iff.1 hevent
    cases hstep
    exact h.quiet hauthentic (GossipNode.peerId_processIncoming.trans (h.peer key)) hremembers rfl
  | connections key handles distinct =>
    obtain ⟨event, endpoint, hevent, hstep, rfl⟩ := Nodes.step_eq_some hnodes
    have hremembers := (h.remembers key).step hstep
    cases hevent
    cases hstep
    exact h.quiet hauthentic (h.peer key) hremembers rfl

/-! ## What an id says -/

theorem Inv.naming (h : Inv honest sha256 known s) {key : PeerId} {b : GossipEnvelope}
    (hb : b ∈ (s.nodes key).broadcasts) :
    ∃ n ∈ s.given, n.key = key ∧ n.named sha256 = (b.id, b.origin, b.payload) := by
  have hmem := List.mem_map_of_mem (f := fun b : GossipEnvelope => (b.id, b.origin, b.payload)) hb
  rw [h.named] at hmem
  obtain ⟨n, hn, heq⟩ := List.mem_map.1 hmem
  exact ⟨n, (List.mem_filter.1 hn).1, by simpa using (List.mem_filter.1 hn).2, heq⟩

/-- Honest nodes never give an id twice. -/
theorem Inv.naming_inj (h : Inv honest sha256 known s) (hfree : Set.InjOn sha256 known)
    {m n : Naming} (hm : m ∈ s.given) (hn : n ∈ s.given) (hmh : honest m.key = true)
    (hnh : honest n.key = true) (hid : (m.named sha256).1 = (n.named sha256).1) : m = n := by
  have hhash : sha256 m.preimage = sha256 n.preimage := congrArg MessageId.bytes hid
  exact Naming.preimage_injective (hfree (h.known m hm hmh) (h.known n hn hnh) hhash)

theorem Inv.nodup_ids (h : Inv honest sha256 known s) (hfree : Set.InjOn sha256 known)
    {key : PeerId} (hkey : honest key = true) :
    ((s.nodes key).broadcasts.map GossipEnvelope.id).Nodup := by
  have hids : (s.nodes key).broadcasts.map GossipEnvelope.id =
      (s.given.filter fun n => n.key = key).map fun n => (n.named sha256).1 := by
    have hfirst := congrArg (List.map Prod.fst) (h.named key)
    rwa [List.map_map, List.map_map] at hfirst
  have hmine : ∀ n ∈ s.given.filter fun n => n.key = key,
      n ∈ s.given ∧ honest n.key = true := by
    intro n hn
    obtain ⟨hgiven, hnk⟩ := List.mem_filter.1 hn
    exact ⟨hgiven, of_decide_eq_true hnk ▸ hkey⟩
  have honce : (s.given.filter fun n => n.key = key).Nodup := by
    refine h.once.sublist (List.monotone_filter_right s.given ?_)
    intro n hn
    exact of_decide_eq_true hn ▸ hkey
  rw [hids]
  refine honce.map_on ?_
  intro m hm n hn hid
  exact h.naming_inj hfree (hmine m hm).1 (hmine n hn).1 (hmine m hm).2 (hmine n hn).2 hid

/-- Under an id there is one message of honest nodes. -/
theorem Inv.same_content (h : Inv honest sha256 known s) (hfree : Set.InjOn sha256 known)
    {d e : GossipEnvelope} (hd : s.nodes.Genuine d) (he : s.nodes.Genuine e)
    (hdh : honest d.origin = true) (heh : honest e.origin = true) (hid : d.id = e.id) :
    d.origin = e.origin ∧ d.payload = e.payload := by
  obtain ⟨b, hb, hbid, hborigin, hbpayload⟩ := hd
  obtain ⟨c, hc, hcid, hcorigin, hcpayload⟩ := he
  obtain ⟨m, hm, hmkey, hmnamed⟩ := h.naming hb
  obtain ⟨n, hn, hnkey, hnnamed⟩ := h.naming hc
  have hsame : m = n := by
    refine h.naming_inj hfree hm hn (hmkey ▸ hdh) (hnkey ▸ heh) ?_
    rw [hmnamed, hnnamed, hbid, hcid, hid]
  rw [hsame, hnnamed] at hmnamed
  simp only [Prod.mk.injEq] at hmnamed
  rw [← hborigin, ← hcorigin, ← hbpayload, ← hcpayload]
  exact ⟨hmnamed.2.1.symm, hmnamed.2.2.symm⟩

theorem Inv.genuine (h : Inv honest sha256 known s) {key : PeerId} {d : GossipEnvelope}
    (hd : d ∈ (s.nodes key).accepted) (hhonest : honest d.origin = true) : s.nodes.Genuine d := by
  rcases List.mem_append.1 hd with hd | hd
  · exact h.authentic.genuine key d hd hhonest
  · have horigin := h.origin key d hd
    subst horigin
    exact ⟨d, hd, rfl, rfl, rfl⟩

end Step

/-- What ids are good for. -/
structure Identified (verifier : Verifier) (honest : PeerId → Bool) (s : Nodes) : Prop where
  /-- An honest node never uses an id twice. -/
  own : ∀ key, honest key = true → ((s key).broadcasts.map GossipEnvelope.id).Nodup
  /-- Whoever accepts envelopes of honest nodes under one id, it is one message. -/
  accepted : ∀ key key', ∀ d ∈ (s key).accepted, ∀ e ∈ (s key').accepted,
    honest d.origin = true → honest e.origin = true → d.id = e.id →
      d.origin = e.origin ∧ d.payload = e.payload
  /-- An envelope of an honest node that is discarded has been accepted before, or another's under
  its id. -/
  discarded : ∀ key bytes rng source e, GossipEnvelope.ofFrame bytes = some e →
    Nodes.Unforgeable verifier honest s (key, .frame bytes rng source) →
    e.verify verifier = true → honest e.origin = true →
    ((s key).node.processIncoming verifier rng e source).2 = none →
    ∃ d ∈ (s key).accepted, d.id = e.id ∧
      (honest d.origin = true → d.origin = e.origin ∧ d.payload = e.payload)

/-- **An id is one message of one node.** -/
theorem ids_identify (verifier : Verifier) (honest : PeerId → Bool)
    (sha256 : Bytes → FixedBytes 32) (known : Set Bytes) (hfree : Set.InjOn sha256 known)
    (config : PeerId → GossipConfig) {s : NamedNodes}
    (h : Steps verifier sha256 (Allowed verifier honest sha256 known) (start config) s) :
    Identified verifier honest s.nodes := by
  have hinv : Inv honest sha256 known s :=
    h.invariant (fun _ _ _ hu hl hst => hu.step hl hst) (inv_start config)
  constructor
  · intro key hkey
    exact hinv.nodup_ids hfree hkey
  · intro key key' d hd e he hdh heh hid
    exact hinv.same_content hfree (hinv.genuine hd hdh) (hinv.genuine he heh) hdh heh hid
  · intro key bytes rng source e hframe hok hv heh hnone
    have hseen : e.id ∈ (s.nodes key).node.seen := by
      by_contra hseen
      rw [(GossipNode.processIncoming_new hv hseen).1] at hnone
      cases hnone
    obtain ⟨d, hd, hid⟩ := hinv.remembers key e.id hseen
    refine ⟨d, hd, hid, ?_⟩
    intro hdh
    have hgenuine := hinv.authentic.genuine_of_verify hok hframe hv heh
    exact hinv.same_content hfree (hinv.genuine hd hdh) hgenuine hdh heh hid

/-! ## A claim is made twice -/

open Nodes

/-- Worker 1 names its claim. -/
def claimNaming (nanos : BitVec 128) : Naming :=
  ⟨⟨.fill 32 1⟩, claimMessage, ⟨nanos, .fill 8 0⟩⟩

def firstHash : FixedBytes 32 := ⟨[90, 172, 83, 189, 172, 31, 194, 187, 104, 234, 0, 57, 68, 138,
  31, 63, 191, 96, 45, 154, 68, 149, 46, 128, 188, 98, 176, 51, 52, 45, 79, 136], rfl⟩

def secondHash : FixedBytes 32 := ⟨[66, 47, 162, 131, 147, 109, 75, 254, 173, 117, 112, 147, 187,
  64, 122, 143, 214, 78, 230, 183, 197, 164, 211, 212, 170, 23, 121, 251, 87, 182, 36, 124], rfl⟩

/-- SHA-256 at what the two claims hash. -/
def claimHash (b : Bytes) : FixedBytes 32 :=
  if b = (claimNaming 0).preimage then firstHash
  else if b = (claimNaming 1).preimage then secondHash
  else .fill 32 0

def claimPreimages : Set Bytes := {b | b = (claimNaming 0).preimage ∨ b = (claimNaming 1).preimage}

instance (b : Bytes) : Decidable (b ∈ claimPreimages) :=
  inferInstanceAs (Decidable (b = (claimNaming 0).preimage ∨ b = (claimNaming 1).preimage))

theorem claimHash_injOn : Set.InjOn claimHash claimPreimages := by
  have hfirst : claimHash (claimNaming 0).preimage = firstHash := by decide +kernel
  have hsecond : claimHash (claimNaming 1).preimage = secondHash := by decide +kernel
  have hne : firstHash ≠ secondHash := by decide
  rintro a (rfl | rfl) b (rfl | rfl) h
  · rfl
  · rw [hfirst, hsecond] at h
    exact absurd h hne
  · rw [hfirst, hsecond] at h
    exact absurd h.symm hne
  · rfl

def firstClaim : GossipEnvelope := { Endpoint.honestClaim with id := ⟨firstHash⟩ }

def secondClaim : GossipEnvelope := { Endpoint.honestClaim with id := ⟨secondHash⟩ }

/-- Worker 1 has signed its claims and nothing else. -/
def claimsSigned : Verifier := fun key bytes _ =>
  key = ⟨.fill 32 1⟩ && (bytes = firstClaim.signableBytes || bytes = secondClaim.signableBytes)

instance (s : NamedNodes) (l : Label) :
    Decidable (Allowed claimsSigned (fun _ => true) claimHash claimPreimages s l) :=
  decidable_of_iff
    (Nodes.Unforgeable claimsSigned (fun _ => true) s.nodes (l.action claimHash) ∧
      (∀ n ∈ l.naming, true = true → n ∉ s.given) ∧
      ∀ n ∈ l.naming, true = true → n.preimage ∈ claimPreimages)
    ⟨fun h => ⟨h.1, h.2.1, h.2.2⟩, fun h => ⟨h.unforgeable, h.fresh, h.known⟩⟩

/-- Worker 1 claims a job twice, a nanosecond apart, and node 2 hears both claims. -/
def claimedTwice : List Label :=
  [.broadcast (claimNaming 0) .trivial (.fill 64 0),
    .broadcast (claimNaming 1) .trivial (.fill 64 0),
    .frame ⟨.fill 32 2⟩ (Wire.envelope.encode firstClaim) .trivial 0,
    .frame ⟨.fill 32 2⟩ (Wire.envelope.encode secondClaim) .trivial 0]

theorem ids_identify_twice : ∃ s,
    Steps claimsSigned claimHash (Allowed claimsSigned (fun _ => true) claimHash claimPreimages)
      (start fun _ => .new) s ∧
    (s.nodes ⟨.fill 32 2⟩).delivered = [secondClaim, firstClaim] ∧
    Identified claimsSigned (fun _ => true) s.nodes := by
  have hrun : (Transition.run (Transition.checked (step claimsSigned claimHash)
      (Allowed claimsSigned (fun _ => true) claimHash claimPreimages)) claimedTwice
        (start fun _ => .new)).map (fun s => (s.nodes ⟨.fill 32 2⟩).delivered) =
          some [secondClaim, firstClaim] := by
    decide +kernel
  obtain ⟨s, hs, hdelivered⟩ := Transition.exists_of_checked hrun
  exact ⟨s, hs, hdelivered, ids_identify claimsSigned (fun _ => true) claimHash claimPreimages
    claimHash_injOn (fun _ => .new) hs⟩

end NamedNodes

end ProofMarket
