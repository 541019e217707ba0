import Mathlib.Data.List.Basic

/-!
# Shared types

The types of `crates/core`: identifiers, jobs and gossip messages. Fixed-width integers keep their
width (`u64` is `UInt64`, `u128` is `BitVec 128`).
-/

namespace ProofMarket

/-- Byte strings: `bytes` in Solidity, `Vec<u8>` in Rust. -/
abbrev Bytes := List UInt8

/-- `n` raw bytes: `bytes32` in Solidity, `[u8; 32]` in Rust. -/
structure FixedBytes (n : Nat) where
  val : Bytes
  length_eq : val.length = n
  deriving DecidableEq

namespace FixedBytes

/-- `[b; n]`. -/
def fill (n : Nat) (b : UInt8) : FixedBytes n := ⟨List.replicate n b, List.length_replicate⟩

/-- The conversion of a byte string to fixed width: truncated, or padded with zeros on the right. -/
def ofBytes (n : Nat) (b : Bytes) : FixedBytes n :=
  ⟨(b ++ List.replicate n 0).take n, by simp⟩

theorem ext {n : Nat} {a b : FixedBytes n} (h : a.val = b.val) : a = b := by
  cases a
  cases b
  simp_all

theorem ofBytes_val {n : Nat} {b : Bytes} (h : b.length = n) : (ofBytes n b).val = b := by
  subst h
  simp [ofBytes]

theorem take_append {n : Nat} (a : FixedBytes n) (b : Bytes) : (a.val ++ b).take n = a.val :=
  List.take_left' a.length_eq

theorem drop_append {n : Nat} (a : FixedBytes n) (b : Bytes) : (a.val ++ b).drop n = b :=
  List.drop_left' a.length_eq

instance (n : Nat) : Inhabited (FixedBytes n) := ⟨fill n 0⟩

end FixedBytes

/-- A 20-byte account address. -/
structure Address where
  bytes : FixedBytes 20
  deriving DecidableEq, Inhabited

/-- `Address::ZERO`. -/
def Address.zero : Address := ⟨FixedBytes.fill 20 0⟩

structure JobId where
  bytes : FixedBytes 32
  deriving DecidableEq

structure PeerId where
  bytes : FixedBytes 32
  deriving DecidableEq

structure TxHash where
  bytes : FixedBytes 32
  deriving DecidableEq

inductive JobStatus where
  | pending
  | assigned (worker : PeerId) (assignedAt : UInt64)
  | proving
  | completed (txHash : TxHash)
  | failed (reason : Bytes)
  | expired
  deriving DecidableEq

/-- `matches!(status, JobStatus::Completed { .. })`. -/
def JobStatus.isCompleted : JobStatus → Bool
  | .completed _ => true
  | _ => false

structure Job where
  id : JobId
  jobStatus : JobStatus
  owner : Address
  payload : Bytes
  reward : BitVec 128
  createdAt : UInt64
  deadline : UInt64
  deriving DecidableEq

inductive GossipMessage where
  | jobAvailable (job : Job)
  | claimJob (jobId : JobId) (workerId : PeerId)
  | claimAccepted (jobId : JobId) (workerId : PeerId)
  | claimRejected (jobId : JobId) (reason : String)
  | jobCompleted (jobId : JobId) (txHash : TxHash)
  deriving DecidableEq

end ProofMarket
