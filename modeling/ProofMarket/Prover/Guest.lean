import ProofMarket.Core
import ProofMarket.Lib.LittleEndian

/-!
# The guest program

`methods/guest/src/main.rs`: what runs inside the zkVM. It reads a job, computes a Fibonacci number
of the first eight payload bytes, and commits its journal.
-/

namespace ProofMarket

structure JobInput where
  jobId : JobId
  data : Bytes
  deriving DecidableEq

namespace Guest

/-- `u64::from_le_bytes`. -/
def u64FromLeBytes (b : FixedBytes 8) : UInt64 := .ofNat (LittleEndian.ofLe b.val)

/-- `u64::to_le_bytes`. -/
def u64ToLeBytes (n : UInt64) : FixedBytes 8 :=
  ⟨LittleEndian.toLe 8 n.toNat, LittleEndian.length_toLe 8 _⟩

/-- The `n` of the input: its first eight bytes, or all of it padded with zeros. -/
def decode (data : Bytes) : UInt64 :=
  if 8 ≤ data.length then u64FromLeBytes (.ofBytes 8 (data.take 8))
  else u64FromLeBytes (.ofBytes 8 data)

/-- The body of the loop of `fibonacci`, performed `k` times; `u64::wrapping_add` is addition. -/
def fibonacciLoop : Nat → UInt64 → UInt64 → UInt64
  | 0, _, b => b
  | k + 1, a, b => fibonacciLoop k b (a + b)

/-- `fibonacci`. The range `2..=n` has `n - 1` elements. -/
def fibonacci (n : UInt64) : UInt64 :=
  if n = 0 then 0 else if n = 1 then 1 else fibonacciLoop (n.toNat - 1) 0 1

/-- The result of a job. -/
def result (data : Bytes) : Bytes := (u64ToLeBytes (fibonacci (decode data))).val

/-- `main`, from the input that `env::read` gives to the journal that the calls of
`env::commit_slice` make. -/
def main (sha256 : Bytes → FixedBytes 32) (input : JobInput) : Bytes :=
  input.jobId.bytes.val ++ (sha256 input.data).val ++ result input.data

end Guest

end ProofMarket
