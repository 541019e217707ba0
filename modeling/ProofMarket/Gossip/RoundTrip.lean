import ProofMarket.Gossip.Authenticity

/-!
# Envelopes from node to node

An envelope is signed once and then written to frames and read back from them, hop after hop, while
the relays count down its ttl.

**Theorem (`wire_format`).** A frame says exactly which envelope it holds and where it ends, the
signed bytes say exactly what is signed, and a signature survives any number of hops.

`sig_bytes` writes a signature with `serialize_bytes` and reads it back as a `Vec<u8>`, which is a
sequence to serde; `sizedBytes_decode` says that the two agree on the wire.
-/

namespace ProofMarket

open Codec

namespace Wire

/-- `sig_bytes::deserialize`: `Vec::deserialize`, then `try_into`. -/
theorem sizedBytes_decode (n : Nat) (l : Bytes) :
    (sizedBytes n).decode l = do
      let (v, rest) ← (seq byte).decode l
      let b ← toFixed n v
      return (b, rest) := by
  rw [seq_byte.2]
  rfl

end Wire

/-- An envelope that there can be: its strings have a length. -/
abbrev SizedEnvelope := { e : GossipEnvelope // e.payload.Fits }

namespace GossipEnvelope

/-- `sign`, where `signer` is `SigningKey::sign`. -/
def sign (signer : Bytes → FixedBytes 64) (e : GossipEnvelope) : GossipEnvelope :=
  { e with signature := signer e.signableBytes }

/-- One hop: a frame is written and read, and a relay counts the ttl down. -/
def hop (relayed : Bool) (e : GossipEnvelope) : Option GossipEnvelope :=
  (ofFrame (Wire.envelope.encode e)).map fun e => if relayed then e.countDown else e

/-- Any number of hops. -/
def hops : List Bool → GossipEnvelope → Option GossipEnvelope
  | [], e => some e
  | relayed :: more, e => (e.hop relayed).bind (hops more)

theorem hop_eq {e : GossipEnvelope} (h : e.payload.Fits) (relayed : Bool) :
    e.hop relayed = some (if relayed then e.countDown else e) := by
  simp [hop, ofFrame_encode h]

/-- **A hop changes at most the ttl.** -/
theorem exists_hops {e : GossipEnvelope} (h : e.payload.Fits) (relays : List Bool) :
    ∃ ttl, e.hops relays = some { e with ttl } := by
  induction relays generalizing e with
  | nil => exact ⟨e.ttl, rfl⟩
  | cons relayed relays ih =>
    cases relayed with
    | false =>
      obtain ⟨ttl, hrest⟩ := ih h
      refine ⟨ttl, ?_⟩
      rw [hops, hop_eq h]
      exact hrest
    | true =>
      have hfits : e.countDown.payload.Fits := h
      obtain ⟨ttl, hrest⟩ := ih hfits
      refine ⟨ttl, ?_⟩
      rw [hops, hop_eq h]
      exact hrest

end GossipEnvelope

/-- `verify` accepts what `sign` produced. -/
def Signs (verifier : Verifier) (key : PeerId) (signer : Bytes → FixedBytes 64) : Prop :=
  ∀ bytes, verifier key bytes (signer bytes) = true

/-- The envelope that `broadcast` sends: made with an empty signature, and then signed. -/
def GossipNode.signed (node : GossipNode) (signer : Bytes → FixedBytes 64)
    (message : GossipMessage) (id : MessageId) : GossipEnvelope :=
  (node.envelope message id (.fill 64 0)).sign signer

structure WireFormat (verifier : Verifier) : Prop where
  roundTrip : ∀ (e : SizedEnvelope) (rest : Bytes),
    Wire.envelope.decode (Wire.envelope.encode e.1 ++ rest) = some (e.1, rest)
  injective : ∀ d e : SizedEnvelope, Wire.envelope.encode d.1 = Wire.envelope.encode e.1 → d = e
  prefixFree : ∀ d e : SizedEnvelope, Wire.envelope.encode d.1 <+: Wire.envelope.encode e.1 → d = e
  signs : ∀ d e : SizedEnvelope, d.1.signableBytes = e.1.signableBytes →
    d.1.id = e.1.id ∧ d.1.origin = e.1.origin ∧ d.1.payload = e.1.payload
  survives : ∀ (node : GossipNode) (signer : Bytes → FixedBytes 64) (m : SizedMessage)
    (id : MessageId), Signs verifier node.peerId signer → ∀ relays, ∃ e,
      (node.signed signer m.1 id).hops relays = some e ∧ e.verify verifier = true

/-- **What is written is what is read**, also behind a signature and over many hops. -/
theorem wire_format (verifier : Verifier) : WireFormat verifier where
  roundTrip e rest := Wire.envelope.decode_encode (GossipEnvelope.fits_envelope e.2) rest
  injective d e h := by
    have hfits := GossipEnvelope.fits_envelope d.2
    have hfits' := GossipEnvelope.fits_envelope e.2
    have hsame := Wire.envelope.eq_of_encode (r := []) (s := []) hfits hfits' (by rw [h])
    exact Subtype.ext hsame.1
  prefixFree d e h := by
    obtain ⟨rest, hrest⟩ := h
    have hfits := GossipEnvelope.fits_envelope d.2
    have hfits' := GossipEnvelope.fits_envelope e.2
    have hsame := Wire.envelope.eq_of_encode (s := []) hfits hfits' (by rw [hrest, List.append_nil])
    exact Subtype.ext hsame.1
  signs d e h := GossipEnvelope.signableBytes_inj d.2 e.2 h
  survives node signer m id hsigner relays := by
    have hfits : (node.signed signer m.1 id).payload.Fits := m.2
    obtain ⟨ttl, hhops⟩ := GossipEnvelope.exists_hops hfits relays
    exact ⟨_, hhops, hsigner _⟩

end ProofMarket
