import ProofMarket.Gossip.Node
import ProofMarket.Lib.Codec

/-!
# Envelopes on the wire

What `bincode` writes for an envelope and for the part of it that is signed: its standard
configuration, with fields and variants in the order the types declare them. Identifiers are raw
bytes; addresses and signatures are byte strings with a length.

`signableBytes_inj`: the signed bytes determine the id, the origin and the payload. The ttl is not
among them, so a relay can count it down.
-/

namespace ProofMarket

open Codec

namespace Wire

/-! ## Identifiers and strings -/

/-- `v.try_into()` for `[u8; n]`. -/
def toFixed (n : Nat) (l : Bytes) : Option (FixedBytes n) :=
  if h : l.length = n then some ⟨l, h⟩ else none

theorem toFixed_eq_some {n : Nat} (l : Bytes) (b : FixedBytes n) :
    toFixed n l = some b ↔ b.val = l := by
  unfold toFixed
  constructor
  · intro h
    split_ifs at h with hn
    cases h
    rfl
  · rintro rfl
    exact dif_pos b.length_eq

/-- `[u8; n]`. -/
def fixedBytes (n : Nat) : Codec (FixedBytes n) :=
  (raw n).through FixedBytes.val (toFixed n) toFixed_eq_some

/-- `serialize_bytes`, and reading back as `[u8; n]`. -/
def sizedBytes (n : Nat) : Codec (FixedBytes n) :=
  bytes.through FixedBytes.val (toFixed n) toFixed_eq_some

def string : Codec String :=
  bytes.through (fun s => s.toByteArray.data.toList) (fun l => String.fromUTF8? l.toByteArray) (by
    intro l s
    constructor
    · intro h
      unfold String.fromUTF8? at h
      split_ifs at h with hv
      cases h
      exact List.toList_data_toByteArray
    · rintro rfl
      have hbytes : s.toByteArray.data.toList.toByteArray = s.toByteArray := by
        apply ByteArray.ext
        rw [List.data_toByteArray, Array.toArray_toList]
      rw [hbytes]
      exact dif_pos s.isValidUTF8)

def jobId : Codec JobId := (fixedBytes 32).ofEquiv ⟨JobId.bytes, .mk, fun _ => rfl, fun _ => rfl⟩

def peerId : Codec PeerId :=
  (fixedBytes 32).ofEquiv ⟨PeerId.bytes, .mk, fun _ => rfl, fun _ => rfl⟩

def messageId : Codec MessageId :=
  (fixedBytes 32).ofEquiv ⟨MessageId.bytes, .mk, fun _ => rfl, fun _ => rfl⟩

def txHash : Codec TxHash :=
  (fixedBytes 32).ofEquiv ⟨TxHash.bytes, .mk, fun _ => rfl, fun _ => rfl⟩

def address : Codec Address :=
  (sizedBytes 20).ofEquiv ⟨Address.bytes, .mk, fun _ => rfl, fun _ => rfl⟩

/-! ## Jobs and messages -/

/-- The fields of each variant of `JobStatus`. -/
def StatusFields : Fin 6 → Type
  | 0 => Unit
  | 1 => PeerId × UInt64
  | 2 => Unit
  | 3 => TxHash
  | 4 => Bytes
  | 5 => Unit

def statusFields : ∀ i, Codec (StatusFields i)
  | 0 => unit
  | 1 => peerId.pair u64
  | 2 => unit
  | 3 => txHash
  | 4 => bytes
  | 5 => unit

def statusEquiv : JobStatus ≃ Σ i, StatusFields i where
  toFun
    | .pending => ⟨0, ()⟩
    | .assigned worker assignedAt => ⟨1, (worker, assignedAt)⟩
    | .proving => ⟨2, ()⟩
    | .completed txHash => ⟨3, txHash⟩
    | .failed reason => ⟨4, reason⟩
    | .expired => ⟨5, ()⟩
  invFun
    | ⟨0, _⟩ => .pending
    | ⟨1, (worker, assignedAt)⟩ => .assigned worker assignedAt
    | ⟨2, _⟩ => .proving
    | ⟨3, txHash⟩ => .completed txHash
    | ⟨4, reason⟩ => .failed reason
    | ⟨5, _⟩ => .expired
  left_inv s := by cases s <;> rfl
  right_inv
    | ⟨0, _⟩ | ⟨1, _⟩ | ⟨2, _⟩ | ⟨3, _⟩ | ⟨4, _⟩ | ⟨5, _⟩ => rfl

def jobStatus : Codec JobStatus := (sigma (index 6) statusFields).ofEquiv statusEquiv

def job : Codec Job :=
  (jobId.pair (jobStatus.pair (address.pair (bytes.pair (u128.pair (u64.pair u64)))))).ofEquiv
    { toFun := fun j => (j.id, j.jobStatus, j.owner, j.payload, j.reward, j.createdAt, j.deadline)
      invFun := fun (id, status, owner, payload, reward, createdAt, deadline) =>
        ⟨id, status, owner, payload, reward, createdAt, deadline⟩
      left_inv := fun _ => rfl
      right_inv := fun _ => rfl }

/-- The fields of each variant of `GossipMessage`. -/
def MessageFields : Fin 5 → Type
  | 0 => Job
  | 1 => JobId × PeerId
  | 2 => JobId × PeerId
  | 3 => JobId × String
  | 4 => JobId × TxHash

def messageFields : ∀ i, Codec (MessageFields i)
  | 0 => job
  | 1 => jobId.pair peerId
  | 2 => jobId.pair peerId
  | 3 => jobId.pair string
  | 4 => jobId.pair txHash

def messageEquiv : GossipMessage ≃ Σ i, MessageFields i where
  toFun
    | .jobAvailable job => ⟨0, job⟩
    | .claimJob jobId workerId => ⟨1, (jobId, workerId)⟩
    | .claimAccepted jobId workerId => ⟨2, (jobId, workerId)⟩
    | .claimRejected jobId reason => ⟨3, (jobId, reason)⟩
    | .jobCompleted jobId txHash => ⟨4, (jobId, txHash)⟩
  invFun
    | ⟨0, job⟩ => .jobAvailable job
    | ⟨1, (jobId, workerId)⟩ => .claimJob jobId workerId
    | ⟨2, (jobId, workerId)⟩ => .claimAccepted jobId workerId
    | ⟨3, (jobId, reason)⟩ => .claimRejected jobId reason
    | ⟨4, (jobId, txHash)⟩ => .jobCompleted jobId txHash
  left_inv m := by cases m <;> rfl
  right_inv
    | ⟨0, _⟩ | ⟨1, _⟩ | ⟨2, _⟩ | ⟨3, _⟩ | ⟨4, _⟩ => rfl

def message : Codec GossipMessage := (sigma (index 5) messageFields).ofEquiv messageEquiv

/-- `(&self.id, &self.origin, &self.payload)`. -/
def signed : Codec (MessageId × PeerId × GossipMessage) := messageId.pair (peerId.pair message)

def envelope : Codec GossipEnvelope :=
  (messageId.pair (peerId.pair (byte.pair (message.pair (sizedBytes 64))))).ofEquiv
    { toFun := fun e => (e.id, e.origin, e.ttl, e.payload, e.signature)
      invFun := fun (id, origin, ttl, payload, signature) => ⟨id, origin, ttl, payload, signature⟩
      left_inv := fun _ => rfl
      right_inv := fun _ => rfl }

end Wire

/-- A message whose strings are as long as a `Vec` or a `String` can be at most. -/
abbrev GossipMessage.Fits (m : GossipMessage) : Prop := Wire.message.Fits m

namespace GossipEnvelope

/-- `signable_bytes`. -/
def signableBytes (e : GossipEnvelope) : Bytes := Wire.signed.encode (e.id, e.origin, e.payload)

theorem fits_fixedBytes {n : Nat} (b : FixedBytes n) : (Wire.fixedBytes n).Fits b := b.length_eq

theorem fits_signed {id : MessageId} {origin : PeerId} {m : GossipMessage} (h : m.Fits) :
    Wire.signed.Fits (id, origin, m) :=
  ⟨fits_fixedBytes id.bytes, fits_fixedBytes origin.bytes, h⟩

/-- **The signed bytes say what is signed.** -/
theorem signableBytes_inj {d e : GossipEnvelope} (hd : d.payload.Fits) (he : e.payload.Fits)
    (h : d.signableBytes = e.signableBytes) :
    d.id = e.id ∧ d.origin = e.origin ∧ d.payload = e.payload := by
  have hsigned := Wire.signed.eq_of_encode (r := []) (s := []) (fits_signed hd) (fits_signed he)
    (by simpa [signableBytes] using h)
  simpa using hsigned

/-- `decode_from_slice` on a frame, as the task of a connection calls it: bytes that are left over
are ignored. -/
def ofFrame (frame : Bytes) : Option GossipEnvelope := (Wire.envelope.decode frame).map Prod.fst

theorem fits_envelope {e : GossipEnvelope} (h : e.payload.Fits) : Wire.envelope.Fits e :=
  ⟨fits_fixedBytes e.id.bytes, fits_fixedBytes e.origin.bytes, trivial, h, by
    show e.signature.val.length < 256 ^ 8 ∧ _
    rw [e.signature.length_eq]
    exact ⟨by decide, rfl⟩⟩

theorem ofFrame_encode {e : GossipEnvelope} (h : e.payload.Fits) :
    ofFrame (Wire.envelope.encode e) = some e := by
  have hread := Wire.envelope.decode_encode (fits_envelope h) []
  rw [List.append_nil] at hread
  simp [ofFrame, hread]

theorem payload_fits_of_ofFrame {frame : Bytes} {e : GossipEnvelope} (h : ofFrame frame = some e) :
    e.payload.Fits := by
  obtain ⟨⟨d, rest⟩, hdecode, rfl⟩ := Option.map_eq_some_iff.1 h
  exact (Wire.envelope.fits_of_decode hdecode).2.2.2.1

end GossipEnvelope

end ProofMarket
