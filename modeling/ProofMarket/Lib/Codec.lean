import Mathlib.Data.Fin.Basic
import Mathlib.Logic.Equiv.Defs
import ProofMarket.Lib.LittleEndian

/-!
# Binary formats

A format writes values as bytes and reads one value off the front of a byte string. Formats are
put together from smaller ones, and each combinator carries both of its laws.

* `decode_encode` — what was written is read back, whatever follows it.
* `fits_of_decode` — what is read is something the format can write.

Not every value can be written: a length has 64 bits at most. `Fits` says which can.
-/

structure Codec (α : Type) where
  Fits : α → Prop
  encode : α → List UInt8
  decode : List UInt8 → Option (α × List UInt8)
  decode_encode : ∀ {a}, Fits a → ∀ rest, decode (encode a ++ rest) = some (a, rest)
  fits_of_decode : ∀ {bytes a rest}, decode bytes = some (a, rest) → Fits a

namespace Codec

variable {α β ι : Type}

/-- **Two values that are written the same are the same**, also when more follows. -/
theorem eq_of_encode (c : Codec α) {a b : α} {r s : List UInt8} (ha : c.Fits a) (hb : c.Fits b)
    (h : c.encode a ++ r = c.encode b ++ s) : a = b ∧ r = s := by
  have hread : some (a, r) = some (b, s) := by
    rw [← c.decode_encode ha, ← c.decode_encode hb, h]
  simpa using hread

/-- Nothing at all. -/
def unit : Codec Unit where
  Fits _ := True
  encode _ := []
  decode bytes := some ((), bytes)
  decode_encode _ _ := rfl
  fits_of_decode _ := trivial

def byte : Codec UInt8 where
  Fits _ := True
  encode b := [b]
  decode
    | [] => none
    | b :: bytes => some (b, bytes)
  decode_encode _ _ := rfl
  fits_of_decode _ := trivial

/-- `n` bytes as they are. -/
def raw (n : Nat) : Codec (List UInt8) where
  Fits l := l.length = n
  encode l := l
  decode bytes := if n ≤ bytes.length then some (bytes.take n, bytes.drop n) else none
  decode_encode := by
    rintro l rfl rest
    simp
  fits_of_decode := by
    intro bytes l rest h
    split_ifs at h with hn
    cases h
    simpa using hn

/-- One value after another. -/
def pair (c : Codec α) (d : Codec β) : Codec (α × β) where
  Fits p := c.Fits p.1 ∧ d.Fits p.2
  encode p := c.encode p.1 ++ d.encode p.2
  decode bytes := do
    let (a, bytes) ← c.decode bytes
    let (b, bytes) ← d.decode bytes
    return ((a, b), bytes)
  decode_encode := by
    rintro ⟨a, b⟩ ⟨ha, hb⟩ rest
    simp [c.decode_encode ha, d.decode_encode hb]
  fits_of_decode := by
    intro bytes p rest h
    obtain ⟨⟨a, as⟩, ha, h⟩ := Option.bind_eq_some_iff.1 h
    obtain ⟨⟨b, bs⟩, hb, h⟩ := Option.bind_eq_some_iff.1 h
    cases h
    exact ⟨c.fits_of_decode ha, d.fits_of_decode hb⟩

/-- The first value decides the format of the second. -/
def sigma {β : ι → Type} (c : Codec ι) (d : ∀ i, Codec (β i)) : Codec (Σ i, β i) where
  Fits p := c.Fits p.1 ∧ (d p.1).Fits p.2
  encode p := c.encode p.1 ++ (d p.1).encode p.2
  decode bytes := do
    let (i, bytes) ← c.decode bytes
    let (b, bytes) ← (d i).decode bytes
    return (⟨i, b⟩, bytes)
  decode_encode := by
    rintro ⟨i, b⟩ ⟨hi, hb⟩ rest
    simp [c.decode_encode hi, (d i).decode_encode hb]
  fits_of_decode := by
    intro bytes p rest h
    obtain ⟨⟨i, is⟩, hi, h⟩ := Option.bind_eq_some_iff.1 h
    obtain ⟨⟨b, bs⟩, hb, h⟩ := Option.bind_eq_some_iff.1 h
    cases h
    exact ⟨c.fits_of_decode hi, (d i).fits_of_decode hb⟩

/-- Values written through a representation that not everything read has to be one of. -/
def through (c : Codec α) (repr : β → α) (parse : α → Option β)
    (parse_eq : ∀ a b, parse a = some b ↔ repr b = a) : Codec β where
  Fits b := c.Fits (repr b)
  encode b := c.encode (repr b)
  decode bytes := do
    let (a, bytes) ← c.decode bytes
    let b ← parse a
    return (b, bytes)
  decode_encode := by
    intro b hb rest
    simp [c.decode_encode hb, (parse_eq (repr b) b).2 rfl]
  fits_of_decode := by
    intro bytes b rest h
    obtain ⟨⟨a, as⟩, ha, h⟩ := Option.bind_eq_some_iff.1 h
    obtain ⟨b', hb, h⟩ := Option.bind_eq_some_iff.1 h
    cases h
    rw [(parse_eq a b).1 hb]
    exact c.fits_of_decode ha

def ofEquiv (c : Codec α) (e : β ≃ α) : Codec β :=
  c.through e (fun a => some (e.symm a)) fun a b => by
    rw [Option.some_inj, Equiv.symm_apply_eq, eq_comm]

/-! ## Variable-length integers -/

section Varint

open LittleEndian

/-- How many bytes follow a marker. -/
def markerWidth (b : UInt8) : Option Nat :=
  if b = 251 then some 2 else if b = 252 then some 4 else if b = 253 then some 8
  else if b = 254 then some 16 else none

/-- Small numbers are one byte; for the others a marker says how wide they are. -/
def encodeVarint (n : Nat) : List UInt8 :=
  if n ≤ 250 then [UInt8.ofNat n]
  else if n < 256 ^ 2 then 251 :: toLe 2 n
  else if n < 256 ^ 4 then 252 :: toLe 4 n
  else if n < 256 ^ 8 then 253 :: toLe 8 n
  else 254 :: toLe 16 n

/-- Reads a number of at most `width` bytes; it need not be written in the shortest way. -/
def decodeVarint (width : Nat) : List UInt8 → Option (Nat × List UInt8)
  | [] => none
  | b :: bytes =>
    if b ≤ 250 then some (b.toNat, bytes)
    else do
      let k ← markerWidth b
      if k ≤ width ∧ k ≤ bytes.length then some (ofLe (bytes.take k), bytes.drop k) else none

theorem decodeVarint_lt {width n : Nat} {bytes rest : List UInt8} (hw : 0 < width)
    (h : decodeVarint width bytes = some (n, rest)) : n < 256 ^ width := by
  cases bytes with
  | nil => cases h
  | cons b bytes =>
    rw [decodeVarint] at h
    split_ifs at h with hsmall
    · cases h
      calc b.toNat < 256 := b.toNat_lt
        _ ≤ 256 ^ width := Nat.le_self_pow (by omega) 256
    · obtain ⟨k, -, h⟩ := Option.bind_eq_some_iff.1 h
      split_ifs at h with hk
      cases h
      calc ofLe (bytes.take k) < 256 ^ (bytes.take k).length := ofLe_lt _
        _ ≤ 256 ^ width := Nat.pow_le_pow_right (by decide) (by simp; omega)

theorem decodeVarint_marked {width k n : Nat} {b : UInt8} (hb : ¬ b ≤ 250)
    (hm : markerWidth b = some k) (hk : k ≤ width) (hn : n < 256 ^ k) (rest : List UInt8) :
    decodeVarint width (b :: toLe k n ++ rest) = some (n, rest) := by
  have htake : (toLe k n ++ rest).take k = toLe k n := List.take_left' (length_toLe k n)
  have hdrop : (toLe k n ++ rest).drop k = rest := List.drop_left' (length_toLe k n)
  rw [List.cons_append, decodeVarint, if_neg hb]
  simp [hm, hk, htake, hdrop, ofLe_toLe_of_lt hn]

/-- Reading back, for the widths that integer types have. -/
theorem decodeVarint_encodeVarint {width n : Nat} (hw : width = 4 ∨ width = 8 ∨ width = 16)
    (hn : n < 256 ^ width) (rest : List UInt8) :
    decodeVarint width (encodeVarint n ++ rest) = some (n, rest) := by
  -- A number that needs more than `k` bytes has a type wider than `k` bytes.
  have hwide : ∀ k, ¬ n < 256 ^ k → k < width := by
    intro k hk
    by_contra hle
    exact hk (hn.trans_le (Nat.pow_le_pow_right (by decide) (Nat.not_lt.1 hle)))
  unfold encodeVarint
  split_ifs with h1 h2 h4 h8
  · have hbyte : (UInt8.ofNat n).toNat = n := by
      rw [UInt8.toNat_ofNat']
      omega
    have hle : UInt8.ofNat n ≤ 250 := by
      rw [UInt8.le_iff_toNat_le, hbyte]
      exact h1
    rw [List.singleton_append, decodeVarint, if_pos hle, hbyte]
  · exact decodeVarint_marked (by decide) rfl (by omega) h2 rest
  · exact decodeVarint_marked (by decide) rfl (by omega) h4 rest
  · have hlt := hwide 4 h4
    exact decodeVarint_marked (by decide) rfl (by omega) h8 rest
  · have hlt := hwide 8 h8
    obtain rfl : width = 16 := by omega
    exact decodeVarint_marked (by decide) rfl le_rfl hn rest

/-- Integers of four, eight or sixteen bytes. -/
def varint (width : Nat) (hw : width = 4 ∨ width = 8 ∨ width = 16) : Codec Nat where
  Fits n := n < 256 ^ width
  encode := encodeVarint
  decode := decodeVarint width
  decode_encode hn rest := decodeVarint_encodeVarint hw hn rest
  fits_of_decode h := decodeVarint_lt (by omega) h

end Varint

def u64 : Codec UInt64 :=
  (varint 8 (by decide)).through UInt64.toNat
    (fun n => if n < 2 ^ 64 then some (UInt64.ofNat n) else none) (by
      intro n b
      constructor
      · intro h
        split_ifs at h with hn
        cases h
        exact UInt64.toNat_ofNat_of_lt' hn
      · rintro rfl
        rw [if_pos b.toNat_lt, UInt64.ofNat_toNat])

def u128 : Codec (BitVec 128) :=
  (varint 16 (by decide)).through BitVec.toNat
    (fun n => if n < 2 ^ 128 then some (BitVec.ofNat 128 n) else none) (by
      intro n b
      constructor
      · intro h
        split_ifs at h with hn
        cases h
        exact Nat.mod_eq_of_lt hn
      · rintro rfl
        rw [if_pos b.isLt, BitVec.ofNat_toNat, BitVec.setWidth_eq])

/-- The index of a variant, as a `u32`. -/
def index (n : Nat) : Codec (Fin n) :=
  (varint 4 (by decide)).through Fin.val (fun k => if h : k < n then some ⟨k, h⟩ else none) (by
    intro k i
    constructor
    · intro h
      split_ifs at h with hk
      cases h
      rfl
    · rintro rfl
      rw [dif_pos i.isLt])

/-- A byte string after its length. -/
def bytes : Codec (List UInt8) :=
  (sigma (varint 8 (by decide)) raw).through (fun l => ⟨l.length, l⟩)
    (fun p => if p.2.length = p.1 then some p.2 else none) (by
      rintro ⟨n, l⟩ l'
      constructor
      · intro h
        split_ifs at h with hn
        cases h
        obtain rfl : l.length = n := hn
        rfl
      · intro h
        cases h
        exact if_pos rfl)

/-! ## Sequences -/

section Seq

/-- Reads `n` values. -/
def readTimes (c : Codec α) : Nat → List UInt8 → Option (List α × List UInt8)
  | 0, bytes => some ([], bytes)
  | n + 1, bytes => do
    let (a, bytes) ← c.decode bytes
    let (as, bytes) ← readTimes c n bytes
    return (a :: as, bytes)

theorem readTimes_flatMap (c : Codec α) {l : List α} (hl : ∀ a ∈ l, c.Fits a)
    (rest : List UInt8) : readTimes c l.length (l.flatMap c.encode ++ rest) = some (l, rest) := by
  induction l with
  | nil => rfl
  | cons a l ih =>
    have htail := ih fun b hb => hl b (List.mem_cons_of_mem _ hb)
    rw [List.length_cons, readTimes, List.flatMap_cons, List.append_assoc,
      c.decode_encode (hl a List.mem_cons_self)]
    simp [htail]

theorem fits_of_readTimes (c : Codec α) {n : Nat} {bytes rest : List UInt8} {l : List α}
    (h : readTimes c n bytes = some (l, rest)) : l.length = n ∧ ∀ a ∈ l, c.Fits a := by
  induction n generalizing bytes l with
  | zero =>
    cases h
    exact ⟨rfl, fun a ha => by cases ha⟩
  | succ n ih =>
    obtain ⟨⟨a, as⟩, ha, h⟩ := Option.bind_eq_some_iff.1 h
    obtain ⟨⟨b, bs⟩, hb, h⟩ := Option.bind_eq_some_iff.1 h
    cases h
    obtain ⟨hlen, hfits⟩ := ih hb
    refine ⟨by simp [hlen], fun x hx => ?_⟩
    rcases List.mem_cons.1 hx with rfl | hx
    · exact c.fits_of_decode ha
    · exact hfits x hx

/-- `n` values one after the other. -/
def times (c : Codec α) (n : Nat) : Codec (List α) where
  Fits l := l.length = n ∧ ∀ a ∈ l, c.Fits a
  encode l := l.flatMap c.encode
  decode := readTimes c n
  decode_encode := by
    rintro l ⟨rfl, hl⟩ rest
    exact readTimes_flatMap c hl rest
  fits_of_decode h := fits_of_readTimes c h

/-- Any number of values, after their number. -/
def seq (c : Codec α) : Codec (List α) :=
  (sigma (varint 8 (by decide)) (times c)).through (fun l => ⟨l.length, l⟩)
    (fun p => if p.2.length = p.1 then some p.2 else none) (by
      rintro ⟨n, l⟩ l'
      constructor
      · intro h
        split_ifs at h with hn
        cases h
        obtain rfl : l.length = n := hn
        rfl
      · intro h
        cases h
        exact if_pos rfl)

theorem readTimes_byte (n : Nat) (l : List UInt8) : readTimes byte n l = (raw n).decode l := by
  induction n generalizing l with
  | zero => simp [readTimes, raw]
  | succ n ih =>
    cases l with
    | nil => rfl
    | cons b l =>
      have hread : readTimes byte (n + 1) (b :: l) =
          (readTimes byte n l).bind fun p => some (b :: p.1, p.2) := rfl
      rw [hread, ih]
      by_cases hn : n ≤ l.length <;> simp [raw, hn]

/-- **A byte string is a sequence of bytes**: written as one, it can be read as the other. -/
theorem seq_byte : (seq byte).encode = bytes.encode ∧ (seq byte).decode = bytes.decode := by
  have htimes : ∀ n, (times byte n).decode = (raw n).decode :=
    fun n => funext fun l => readTimes_byte n l
  have hflat : ∀ l : List UInt8, l.flatMap byte.encode = l := List.flatMap_singleton'
  constructor
  · funext l
    show encodeVarint l.length ++ l.flatMap byte.encode = encodeVarint l.length ++ l
    rw [hflat]
  · funext l
    simp only [seq, bytes, through, sigma, htimes]

end Seq

/-! ## Lengths -/

/-- **What was read is not written longer than it was.** It can be shorter: a number need not come
in the shortest way. -/
def Compact (c : Codec α) : Prop :=
  ∀ bytes a rest, c.decode bytes = some (a, rest) →
    (c.encode a).length + rest.length ≤ bytes.length

theorem compact_unit : unit.Compact := by
  intro bytes a rest h
  cases h
  exact (Nat.zero_add _).le

theorem compact_byte : byte.Compact := by
  intro bytes b rest h
  cases bytes with
  | nil => cases h
  | cons b' bytes =>
    cases h
    exact (Nat.add_comm 1 _).le

theorem compact_raw (n : Nat) : (raw n).Compact := by
  intro bytes l rest h
  simp only [raw, Option.ite_none_right_eq_some] at h
  obtain ⟨-, h⟩ := h
  cases h
  show (bytes.take n).length + _ ≤ _
  rw [← List.length_append, List.take_append_drop]

theorem Compact.pair {c : Codec α} {d : Codec β} (hc : c.Compact) (hd : d.Compact) :
    (c.pair d).Compact := by
  intro bytes p rest h
  obtain ⟨⟨a, as⟩, ha, h⟩ := Option.bind_eq_some_iff.1 h
  obtain ⟨⟨b, bs⟩, hb, h⟩ := Option.bind_eq_some_iff.1 h
  cases h
  have hfirst := hc _ _ _ ha
  have hsecond := hd _ _ _ hb
  show (c.encode a ++ d.encode b).length + _ ≤ _
  rw [List.length_append]
  omega

theorem Compact.sigma {β : ι → Type} {c : Codec ι} {d : ∀ i, Codec (β i)} (hc : c.Compact)
    (hd : ∀ i, (d i).Compact) : (c.sigma d).Compact := by
  intro bytes p rest h
  obtain ⟨⟨i, is⟩, hi, h⟩ := Option.bind_eq_some_iff.1 h
  obtain ⟨⟨b, bs⟩, hb, h⟩ := Option.bind_eq_some_iff.1 h
  cases h
  have hfirst := hc _ _ _ hi
  have hsecond := hd i _ _ _ hb
  show (c.encode i ++ (d i).encode b).length + _ ≤ _
  rw [List.length_append]
  omega

theorem Compact.through {c : Codec α} {repr : β → α} {parse : α → Option β}
    {parse_eq : ∀ a b, parse a = some b ↔ repr b = a} (hc : c.Compact) :
    (c.through repr parse parse_eq).Compact := by
  intro bytes b rest h
  obtain ⟨⟨a, as⟩, ha, h⟩ := Option.bind_eq_some_iff.1 h
  obtain ⟨b', hb, h⟩ := Option.bind_eq_some_iff.1 h
  cases h
  show (c.encode (repr b)).length + _ ≤ _
  rw [(parse_eq a b).1 hb]
  exact hc _ _ _ ha

theorem Compact.ofEquiv {c : Codec α} {e : β ≃ α} (hc : c.Compact) : (c.ofEquiv e).Compact :=
  Compact.through hc

theorem length_encodeVarint_le {n k : Nat} (hk : k = 2 ∨ k = 4 ∨ k = 8 ∨ k = 16)
    (hn : n < 256 ^ k) : (encodeVarint n).length ≤ 1 + k := by
  have hwide : ∀ j, ¬ n < 256 ^ j → j < k := by
    intro j hj
    by_contra hle
    exact hj (hn.trans_le (Nat.pow_le_pow_right (by decide) (Nat.not_lt.1 hle)))
  unfold encodeVarint
  split_ifs with h1 h2 h4 h8
  · simp
  · simp only [List.length_cons, LittleEndian.length_toLe]
    omega
  · have hlt := hwide 2 h2
    simp only [List.length_cons, LittleEndian.length_toLe]
    omega
  · have hlt := hwide 4 h4
    simp only [List.length_cons, LittleEndian.length_toLe]
    omega
  · have hlt := hwide 8 h8
    simp only [List.length_cons, LittleEndian.length_toLe]
    omega

theorem markerWidth_cases {b : UInt8} {k : Nat} (h : markerWidth b = some k) :
    k = 2 ∨ k = 4 ∨ k = 8 ∨ k = 16 := by
  unfold markerWidth at h
  split_ifs at h <;> cases h <;> omega

theorem compact_varint (width : Nat) (hw : width = 4 ∨ width = 8 ∨ width = 16) :
    (varint width hw).Compact := by
  intro bytes n rest h
  show (encodeVarint n).length + rest.length ≤ bytes.length
  cases bytes with
  | nil => cases h
  | cons b bytes =>
    change decodeVarint width (b :: bytes) = some (n, rest) at h
    rw [decodeVarint] at h
    split_ifs at h with hsmall
    · cases h
      have hle : b.toNat ≤ 250 := UInt8.le_iff_toNat_le.1 hsmall
      rw [encodeVarint, if_pos hle]
      exact (Nat.add_comm 1 _).le
    · obtain ⟨k, hmarker, h⟩ := Option.bind_eq_some_iff.1 h
      split_ifs at h with hk
      cases h
      have htake : (bytes.take k).length = k := List.length_take_of_le hk.2
      have hlt : LittleEndian.ofLe (bytes.take k) < 256 ^ k := by
        have hof := LittleEndian.ofLe_lt (bytes.take k)
        rwa [htake] at hof
      have hlen := length_encodeVarint_le (markerWidth_cases hmarker) hlt
      rw [List.length_drop, List.length_cons]
      omega

theorem compact_u64 : u64.Compact := (compact_varint 8 (by decide)).through

theorem compact_u128 : u128.Compact := (compact_varint 16 (by decide)).through

theorem compact_index (n : Nat) : (index n).Compact := (compact_varint 4 (by decide)).through

theorem compact_bytes : bytes.Compact :=
  ((compact_varint 8 (by decide)).sigma compact_raw).through

end Codec
