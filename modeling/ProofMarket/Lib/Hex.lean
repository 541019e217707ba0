import Mathlib.Data.List.Basic

/-!
# Hexadecimal text

Byte strings as text, two lower-case digits a byte. Upper-case digits are read as well.
-/

namespace Hex

/-- The digit for a number below 16. -/
def digit (n : Nat) : Char := if n < 10 then Char.ofNat (48 + n) else Char.ofNat (87 + n)

def byteDigits (b : UInt8) : List Char := [digit (b.toNat / 16), digit (b.toNat % 16)]

/-- The digits of a byte string, the high half of each byte first. -/
def digits (bs : List UInt8) : List Char := bs.flatMap byteDigits

def encode (bs : List UInt8) : String := String.ofList (digits bs)

theorem digit_inj : ∀ m < 16, ∀ n < 16, digit m = digit n → m = n := by
  decide

theorem byteDigits_inj {b c : UInt8} (h : byteDigits b = byteDigits c) : b = c := by
  have hb := b.toNat_lt
  have hc := c.toNat_lt
  simp only [byteDigits, List.cons.injEq, and_true] at h
  have hhigh := digit_inj _ (by omega) _ (by omega) h.1
  have hlow := digit_inj _ (by omega) _ (by omega) h.2
  apply UInt8.toNat_inj.1
  omega

theorem digits_injective : Function.Injective digits := by
  intro bs
  induction bs with
  | nil =>
    intro cs h
    cases cs with
    | nil => rfl
    | cons c cs => simp [digits, byteDigits] at h
  | cons b bs ih =>
    intro cs h
    cases cs with
    | nil => simp [digits, byteDigits] at h
    | cons c cs =>
      simp only [digits, List.flatMap_cons] at h
      obtain ⟨hhead, htail⟩ := List.append_inj h rfl
      rw [byteDigits_inj hhead, ih htail]

/-- **The text determines the bytes.** -/
theorem encode_injective : Function.Injective encode := by
  intro bs cs h
  exact digits_injective (String.ofList_injective h)

/-! ## Reading -/

/-- The number that a digit stands for. -/
def value (c : Char) : Option Nat :=
  if '0' ≤ c ∧ c ≤ '9' then some (c.toNat - 48)
  else if 'a' ≤ c ∧ c ≤ 'f' then some (c.toNat - 87)
  else if 'A' ≤ c ∧ c ≤ 'F' then some (c.toNat - 55)
  else none

def decode : List Char → Option (List UInt8)
  | [] => some []
  | [_] => none
  | high :: low :: cs => do
    let high ← value high
    let low ← value low
    let bs ← decode cs
    return UInt8.ofNat (16 * high + low) :: bs

theorem value_digit : ∀ n < 16, value (digit n) = some n := by
  decide

/-- **The digits of a byte string are read back.** -/
theorem decode_digits (bs : List UInt8) : decode (digits bs) = some bs := by
  induction bs with
  | nil => rfl
  | cons b bs ih =>
    have hb := b.toNat_lt
    have hhigh := value_digit (b.toNat / 16) (by omega)
    have hlow := value_digit (b.toNat % 16) (by omega)
    have hsplit : UInt8.ofNat (16 * (b.toNat / 16) + b.toNat % 16) = b := by
      rw [Nat.div_add_mod, UInt8.ofNat_toNat]
    have hdigits : digits (b :: bs) =
        digit (b.toNat / 16) :: digit (b.toNat % 16) :: digits bs := rfl
    rw [hdigits, decode, hhigh, hlow, ih]
    exact congrArg (fun c => some (c :: bs)) hsplit

end Hex
