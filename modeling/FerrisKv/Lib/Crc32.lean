/-
The reflected CRC-32 of IEEE 802.3: register preset to all ones, one
shift-and-conditional-xor per message bit (least significant bit first),
complemented at the end.

A step of the register loses nothing: the bit it shifts out comes back as
the top bit, through the polynomial's. So the register is injective in what
it held before and in the byte it takes in, and two messages that differ in
one byte have different checksums (`hash_set_ne`).
-/
import Mathlib

namespace Crc32

/-- The reflected generator polynomial. -/
def polynomial : BitVec 32 := 0xEDB88320#32

/-- Shift one message bit through the register. -/
def bitStep (crc : BitVec 32) : BitVec 32 :=
  if crc.getLsbD 0 then (crc >>> 1) ^^^ polynomial else crc >>> 1

/-- Shift `n` bits through the register. -/
def bitSteps : Nat → BitVec 32 → BitVec 32
  | 0, crc => crc
  | n + 1, crc => bitSteps n (bitStep crc)

/-- Shift one message byte through the register. -/
def byteStep (crc : BitVec 32) (b : UInt8) : BitVec 32 :=
  bitSteps 8 (crc ^^^ b.toBitVec.setWidth 32)

/-- The checksum of a byte string. -/
def hash (bytes : List UInt8) : BitVec 32 :=
  ~~~ (bytes.foldl byteStep 0xFFFFFFFF#32)

-- the check value every CRC-32/IEEE table lists, over the bytes of "123456789"
example : hash [49, 50, 51, 52, 53, 54, 55, 56, 57] = 0xCBF43926#32 := by
  decide +kernel

-- ============================================================== injectivity

/-- The bit shifted out is the top bit of what is left. -/
theorem getLsbD_bitStep_top (x : BitVec 32) :
    (bitStep x).getLsbD 31 = x.getLsbD 0 := by
  unfold bitStep polynomial
  cases h : x.getLsbD 0 <;> simp

theorem bitStep_injective : Function.Injective bitStep := by
  intro x y h
  have hlow : x.getLsbD 0 = y.getLsbD 0 := by
    rw [← getLsbD_bitStep_top, ← getLsbD_bitStep_top, h]
  have hshift : x >>> 1 = y >>> 1 := by
    unfold bitStep at h
    rw [hlow] at h
    split at h
    · exact (BitVec.xor_left_inj _).mp h
    · exact h
  refine BitVec.eq_of_getLsbD_eq fun i hi => ?_
  cases i with
  | zero => exact hlow
  | succ i =>
      have hbit := congrArg (fun z => z.getLsbD i) hshift
      simpa only [BitVec.getLsbD_ushiftRight, Nat.add_comm 1 i] using hbit

theorem bitSteps_injective : ∀ n, Function.Injective (bitSteps n)
  | 0 => fun _ _ h => h
  | n + 1 => fun _ _ h => bitStep_injective (bitSteps_injective n h)

theorem byteStep_injective (b : UInt8) :
    Function.Injective fun crc => byteStep crc b :=
  fun _ _ h => (BitVec.xor_left_inj _).mp (bitSteps_injective 8 h)

theorem byteStep_ne (crc : BitVec 32) {b b' : UInt8} (h : b ≠ b') :
    byteStep crc b ≠ byteStep crc b' := by
  intro he
  have hwide := (BitVec.xor_right_inj _).mp (bitSteps_injective 8 he)
  have hbyte := congrArg (fun z => z.setWidth 8) hwide
  simp only [BitVec.setWidth_setWidth_of_le _ (by decide : 8 ≤ 32),
    BitVec.setWidth_eq] at hbyte
  exact h (UInt8.eq_of_toBitVec_eq hbyte)

theorem foldl_byteStep_injective (bytes : List UInt8) :
    Function.Injective fun crc => bytes.foldl byteStep crc := by
  induction bytes with
  | nil => exact fun _ _ h => h
  | cons b rest ih => exact fun _ _ h => byteStep_injective b (ih h)

theorem foldl_byteStep_set_ne {bytes : List UInt8} {i : Nat}
    (hi : i < bytes.length) {b : UInt8} (hb : b ≠ bytes[i]) :
    ∀ crc, (bytes.set i b).foldl byteStep crc ≠ bytes.foldl byteStep crc := by
  induction bytes generalizing i with
  | nil => exact absurd hi (Nat.not_lt_zero i)
  | cons c rest ih =>
      intro crc
      cases i with
      | zero =>
          intro he
          exact byteStep_ne crc hb (foldl_byteStep_injective rest he)
      | succ i =>
          exact ih (Nat.lt_of_succ_lt_succ hi) hb _

/-- A message with one byte changed has another checksum. -/
theorem hash_set_ne {bytes : List UInt8} {i : Nat} (hi : i < bytes.length)
    {b : UInt8} (hb : b ≠ bytes[i]) : hash (bytes.set i b) ≠ hash bytes :=
  fun he => foldl_byteStep_set_ne hi hb _ (BitVec.not_inj.mp he)

end Crc32
