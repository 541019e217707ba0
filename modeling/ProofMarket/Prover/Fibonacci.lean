import Mathlib.Data.Nat.Fib.Basic
import ProofMarket.Prover.Guest

/-!
# The guest computes Fibonacci numbers

`methods/guest/src/main.rs` once more, now with everything in it that could panic: the slices, the
conversion to an array, the copy into the buffer, and the range of the loop as the iterator that it
is.

**Theorem (`main_fib`).** The guest panics on no input, and what it commits after the job id and the
payload hash is `F(n)` modulo `2^64`, where `n` is the number that the first eight bytes stand for.

The loop invariant: before iteration `k` the two variables are `F(k)` and `F(k + 1)`, both modulo
`2^64` (`fibonacciLoop_fib`).
-/

namespace ProofMarket

namespace Guest

namespace Checked

/-! ## Slices -/

/-- `data[..k]`, which panics when there are fewer than `k` bytes. -/
def sliceTo (data : Bytes) (k : Nat) : Option Bytes :=
  if k ≤ data.length then some (data.take k) else none

/-- `slice.try_into().unwrap()` for `[u8; n]`. -/
def tryIntoUnwrap (n : Nat) (slice : Bytes) : Option (FixedBytes n) :=
  if h : slice.length = n then some ⟨slice, h⟩ else none

/-- `buf[..data.len()].copy_from_slice(&data)`. -/
def copyIntoPrefix {n : Nat} (buf : FixedBytes n) (data : Bytes) : Option (FixedBytes n) := do
  let dest ← sliceTo buf.val data.length
  if dest.length = data.length then
    tryIntoUnwrap n (data ++ buf.val.drop data.length)
  else none

/-- The decoding of `n` in `main`. -/
def decode (data : Bytes) : Option UInt64 :=
  if 8 ≤ data.length then do
    let slice ← sliceTo data 8
    let bytes ← tryIntoUnwrap 8 slice
    return u64FromLeBytes bytes
  else do
    let buf ← copyIntoPrefix (.fill 8 0) data
    return u64FromLeBytes buf

/-! ## The loop -/

/-- `RangeInclusive<u64>`. -/
structure RangeInclusive where
  start : UInt64
  last : UInt64
  exhausted : Bool

namespace RangeInclusive

/-- `RangeInclusive::next`. The last element exhausts the range; the start never moves past it. -/
def next (r : RangeInclusive) : Option (UInt64 × RangeInclusive) :=
  if r.exhausted || r.last < r.start then none
  else if r.start < r.last then some (r.start, { r with start := r.start + 1 })
  else some (r.start, { r with exhausted := true })

/-- How many elements are left. -/
def remaining (r : RangeInclusive) : Nat :=
  if r.exhausted then 0 else r.last.toNat + 1 - r.start.toNat

theorem remaining_of_next_eq_none {r : RangeInclusive} (h : r.next = none) : r.remaining = 0 := by
  unfold next at h
  unfold remaining
  split_ifs at h ⊢ with hdone
  · rfl
  · have hlt : r.last < r.start := by simp_all
    rw [UInt64.lt_iff_toNat_lt] at hlt
    omega

theorem remaining_of_next_eq_some {r r' : RangeInclusive} {x : UInt64}
    (h : r.next = some (x, r')) : r.remaining = r'.remaining + 1 := by
  unfold next at h
  split_ifs at h with hdone hlt
  · cases h
    have hleft : r.exhausted = false := by simp_all
    have hbound := r.last.toNat_lt
    rw [UInt64.lt_iff_toNat_lt] at hlt
    have hsucc : (r.start + 1).toNat = r.start.toNat + 1 := by
      rw [UInt64.toNat_add, UInt64.toNat_one, Nat.mod_eq_of_lt (by omega)]
    simp only [remaining, hleft, hsucc, Bool.false_eq_true, if_false]
    omega
  · cases h
    have hleft : r.exhausted = false ∧ ¬ r.last < r.start := by simp_all
    rw [UInt64.lt_iff_toNat_lt] at hlt
    rw [UInt64.lt_iff_toNat_lt] at hleft
    simp only [remaining, hleft.1, Bool.false_eq_true, if_false, if_true]
    omega

end RangeInclusive

/-- `for _ in range`, with the body of `fibonacci`. -/
def loop (range : RangeInclusive) (a b : UInt64) : UInt64 :=
  match h : range.next with
  | none => b
  | some (_, rest) =>
    have := RangeInclusive.remaining_of_next_eq_some h
    loop rest b (a + b)
termination_by range.remaining

/-- `fibonacci`. -/
def fibonacci (n : UInt64) : UInt64 :=
  if n = 0 then 0 else if n = 1 then 1 else loop ⟨2, n, false⟩ 0 1

/-- `main`; `none` is a panic. -/
def main (sha256 : Bytes → FixedBytes 32) (input : JobInput) : Option Bytes := do
  let n ← decode input.data
  let result := u64ToLeBytes (fibonacci n)
  let payloadHash := sha256 input.data
  return input.jobId.bytes.val ++ payloadHash.val ++ result.val

/-! ## No step panics -/

theorem copyIntoPrefix_zeros {n : Nat} {data : Bytes} (hlen : data.length ≤ n) :
    copyIntoPrefix (.fill n 0) data = some (.ofBytes n data) := by
  have hslice : sliceTo (FixedBytes.fill n 0).val data.length =
      some (List.replicate data.length 0) := by
    simp [sliceTo, FixedBytes.fill, hlen]
  have hwhole : (data ++ (FixedBytes.fill n 0).val.drop data.length).length = n := by
    simp [FixedBytes.fill, hlen]
  rw [copyIntoPrefix, hslice]
  simp only [Option.bind_eq_bind, Option.bind_some, List.length_replicate, if_true]
  rw [tryIntoUnwrap, dif_pos hwhole]
  refine congrArg some (FixedBytes.ext ?_)
  simp [FixedBytes.fill, FixedBytes.ofBytes, List.take_append, List.take_of_length_le hlen]

theorem decode_eq (data : Bytes) : decode data = some (Guest.decode data) := by
  unfold decode Guest.decode
  split_ifs with hlen
  · have htake : (data.take 8).length = 8 := by simp [hlen]
    have hbytes : tryIntoUnwrap 8 (data.take 8) = some (.ofBytes 8 (data.take 8)) := by
      rw [tryIntoUnwrap, dif_pos htake]
      exact congrArg some (FixedBytes.ext (FixedBytes.ofBytes_val htake).symm)
    simp only [sliceTo, if_pos hlen, Option.bind_eq_bind, Option.bind_some, hbytes]
    rfl
  · rw [copyIntoPrefix_zeros (by omega)]
    rfl

/-- **The `for` loop** runs its body once for every element of the range. -/
theorem loop_eq (range : RangeInclusive) (a b : UInt64) :
    loop range a b = fibonacciLoop range.remaining a b := by
  induction range, a, b using loop.induct with
  | case1 range a b hnext =>
    rw [RangeInclusive.remaining_of_next_eq_none hnext, loop, fibonacciLoop]
    split <;> simp_all
  | case2 range a b x rest hnext hless ih =>
    rw [RangeInclusive.remaining_of_next_eq_some hnext, fibonacciLoop, ← ih, loop]
    split <;> simp_all

theorem fibonacci_eq (n : UInt64) : fibonacci n = Guest.fibonacci n := by
  unfold fibonacci Guest.fibonacci
  split_ifs
  · rfl
  · rfl
  · rw [loop_eq]
    rfl

theorem main_eq (sha256 : Bytes → FixedBytes 32) (input : JobInput) :
    main sha256 input = some (Guest.main sha256 input) := by
  unfold main
  rw [decode_eq]
  simp only [Option.bind_eq_bind, Option.bind_some, fibonacci_eq]
  rfl

end Checked

/-! ## Fibonacci numbers modulo `2^64` -/

/-- **The loop invariant.** -/
theorem fibonacciLoop_fib (k m : Nat) :
    fibonacciLoop k (.ofNat (Nat.fib m)) (.ofNat (Nat.fib (m + 1))) =
      .ofNat (Nat.fib (m + k + 1)) := by
  induction k generalizing m with
  | zero => rfl
  | succ k ih =>
    have hnext : UInt64.ofNat (Nat.fib m) + .ofNat (Nat.fib (m + 1)) =
        .ofNat (Nat.fib (m + 1 + 1)) := by
      rw [Nat.fib_add_two, UInt64.ofNat_add]
    rw [fibonacciLoop, hnext, ih, Nat.add_right_comm m 1 k, Nat.add_assoc m k 1]

theorem fibonacci_fib (n : UInt64) : fibonacci n = .ofNat (Nat.fib n.toNat) := by
  unfold fibonacci
  split_ifs with hzero hone
  · rw [hzero]
    rfl
  · rw [hone]
    rfl
  · have hpos : n.toNat ≠ 0 := fun h => hzero (UInt64.toNat_inj.1 h)
    have hloop := fibonacciLoop_fib (n.toNat - 1) 0
    rw [show 0 + (n.toNat - 1) + 1 = n.toNat by omega] at hloop
    exact hloop

theorem ofLe_ofBytes {n : Nat} {data : Bytes} (hlen : data.length ≤ n) :
    LittleEndian.ofLe (FixedBytes.ofBytes n data).val = LittleEndian.ofLe data := by
  have hval : (FixedBytes.ofBytes n data).val = data ++ List.replicate (n - data.length) 0 := by
    simp [FixedBytes.ofBytes, List.take_append, List.take_of_length_le hlen]
  rw [hval, LittleEndian.ofLe_append_zeros]

theorem toNat_decode (data : Bytes) :
    (decode data).toNat = LittleEndian.ofLe (data.take 8) := by
  have hlen : (data.take 8).length ≤ 8 := by simp
  have hlt : LittleEndian.ofLe (data.take 8) < 2 ^ 64 := by
    calc LittleEndian.ofLe (data.take 8) < 256 ^ (data.take 8).length := LittleEndian.ofLe_lt _
      _ ≤ 256 ^ 8 := Nat.pow_le_pow_right (by decide) hlen
      _ = 2 ^ 64 := by norm_num
  have hdecode : decode data = u64FromLeBytes (.ofBytes 8 (data.take 8)) := by
    unfold decode
    split_ifs with hlong
    · rfl
    · rw [List.take_of_length_le (by omega)]
  rw [hdecode, u64FromLeBytes, ofLe_ofBytes hlen, UInt64.toNat_ofNat', Nat.mod_eq_of_lt hlt]

theorem result_fib (data : Bytes) :
    result data =
      LittleEndian.toLe 8 (Nat.fib (LittleEndian.ofLe (data.take 8)) % 2 ^ 64) := by
  have hbits : (fibonacci (decode data)).toNat =
      Nat.fib (LittleEndian.ofLe (data.take 8)) % 2 ^ 64 := by
    rw [fibonacci_fib, toNat_decode]
    exact UInt64.toNat_ofNat'
  exact congrArg (LittleEndian.toLe 8) hbits

/-- **The guest computes Fibonacci numbers** modulo `2^64`, of the number that the first eight bytes
of the payload stand for, and panics on no payload. The bytes after the eighth are only hashed. -/
theorem main_fib (sha256 : Bytes → FixedBytes 32) (jobId : JobId) (data : Bytes) :
    Checked.main sha256 ⟨jobId, data⟩ =
        some (jobId.bytes.val ++ (sha256 data).val ++
          LittleEndian.toLe 8 (Nat.fib (LittleEndian.ofLe (data.take 8)) % 2 ^ 64)) ∧
      ∀ (first : FixedBytes 8) (rest : Bytes),
        Checked.main sha256 ⟨jobId, first.val ++ rest⟩ =
          some (jobId.bytes.val ++ (sha256 (first.val ++ rest)).val ++
            LittleEndian.toLe 8 (Nat.fib (LittleEndian.ofLe first.val) % 2 ^ 64)) := by
  have hmain : ∀ data, Checked.main sha256 ⟨jobId, data⟩ =
      some (jobId.bytes.val ++ (sha256 data).val ++
        LittleEndian.toLe 8 (Nat.fib (LittleEndian.ofLe (data.take 8)) % 2 ^ 64)) := by
    intro data
    rw [Checked.main_eq, Guest.main, result_fib]
  refine ⟨hmain data, fun first rest => ?_⟩
  rw [hmain, FixedBytes.take_append]

/-- Four bytes are enough, and the loop wraps around: `F(100)` modulo `2^64`. -/
example : result [100, 0, 0, 0] = LittleEndian.toLe 8 3736710778780434371 := by decide

end Guest

end ProofMarket
