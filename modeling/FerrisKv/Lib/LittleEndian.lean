/-
Fixed-width unsigned integers as byte strings, least significant byte
first, and their big-endian mirror. Widths are in bytes; a value that
does not fit loses its high bytes, as a cast to the machine type does.
-/
import Mathlib

namespace LittleEndian

/-- The `n` low bytes of `x`, least significant first. -/
def leBytes : Nat → Nat → List UInt8
  | 0, _ => []
  | n + 1, x => UInt8.ofNat (x % 256) :: leBytes n (x / 256)

/-- The number a little-endian byte string stands for. -/
def ofLe : List UInt8 → Nat
  | [] => 0
  | b :: bs => b.toNat + 256 * ofLe bs

/-- The `n` low bytes of `x`, most significant first. -/
def beBytes (n x : Nat) : List UInt8 := (leBytes n x).reverse

/-- The number a big-endian byte string stands for. -/
def ofBe (bs : List UInt8) : Nat := ofLe bs.reverse

@[simp] theorem length_leBytes (n x : Nat) : (leBytes n x).length = n := by
  induction n generalizing x with
  | zero => rfl
  | succ n ih => simp [leBytes, ih]

@[simp] theorem length_beBytes (n x : Nat) : (beBytes n x).length = n := by
  simp [beBytes]

/-- Writing then reading keeps the low bytes. -/
theorem ofLe_leBytes (n x : Nat) : ofLe (leBytes n x) = x % 256 ^ n := by
  induction n generalizing x with
  | zero => simp [leBytes, ofLe, Nat.mod_one]
  | succ n ih =>
      have hbyte : (UInt8.ofNat (x % 256)).toNat = x % 256 := by
        simp [UInt8.toNat_ofNat']
      rw [leBytes, ofLe, ih, hbyte, Nat.pow_succ', Nat.mod_mul]

theorem ofLe_leBytes_of_lt {n x : Nat} (h : x < 256 ^ n) :
    ofLe (leBytes n x) = x := by
  rw [ofLe_leBytes, Nat.mod_eq_of_lt h]

theorem leBytes_inj {n x y : Nat} (hx : x < 256 ^ n) (hy : y < 256 ^ n)
    (h : leBytes n x = leBytes n y) : x = y := by
  rw [← ofLe_leBytes_of_lt hx, h, ofLe_leBytes_of_lt hy]

/-- Reading then writing gives the bytes back. -/
theorem leBytes_ofLe (bs : List UInt8) : leBytes bs.length (ofLe bs) = bs := by
  induction bs with
  | nil => rfl
  | cons b bs ih =>
      have hb : b.toNat < 256 := b.toNat_lt
      have hmod : (b.toNat + 256 * ofLe bs) % 256 = b.toNat := by omega
      have hdiv : (b.toNat + 256 * ofLe bs) / 256 = ofLe bs := by omega
      rw [List.length_cons, leBytes, ofLe, hmod, hdiv, ih, UInt8.ofNat_toNat]

theorem ofLe_lt (bs : List UInt8) : ofLe bs < 256 ^ bs.length := by
  induction bs with
  | nil => simp [ofLe]
  | cons b bs ih =>
      have hb : b.toNat < 256 := b.toNat_lt
      rw [ofLe, List.length_cons, Nat.pow_succ']
      omega

theorem ofBe_beBytes_of_lt {n x : Nat} (h : x < 256 ^ n) :
    ofBe (beBytes n x) = x := by
  rw [ofBe, beBytes, List.reverse_reverse, ofLe_leBytes_of_lt h]

theorem beBytes_ofBe (bs : List UInt8) : beBytes bs.length (ofBe bs) = bs := by
  rw [beBytes, ofBe, ← List.length_reverse, leBytes_ofLe, List.reverse_reverse]

end LittleEndian
