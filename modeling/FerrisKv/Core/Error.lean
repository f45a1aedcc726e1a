/-
Byte strings, machine-integer bounds and the error type of
`ferriskv-core`.

`Error` keeps the variants some modelled function returns. `storage` and
`io` carry the text of the engine's or the operating system's error,
which this development never inspects.
-/
import Mathlib

namespace FerrisKv

/-- `Bytes`, `&[u8]` and `Vec<u8>` alike. -/
abbrev Bytes := List UInt8

/-- `u64::MAX`. -/
def u64Max : Nat := 2 ^ 64 - 1

/-- `u64::saturating_add`. -/
def saturatingAdd (a b : Nat) : Nat := min (a + b) u64Max

theorem saturatingAdd_le (a b : Nat) : saturatingAdd a b ≤ u64Max :=
  Nat.min_le_right _ _

theorem saturatingAdd_lt (a b : Nat) : saturatingAdd a b < 2 ^ 64 := by
  have := saturatingAdd_le a b
  unfold u64Max at this
  omega

theorem saturatingAdd_eq {a b : Nat} (h : a + b ≤ u64Max) :
    saturatingAdd a b = a + b := Nat.min_eq_left h

/-- `ferriskv_core::Error`. -/
inductive Error where
  | storage (text : String)
  | corrupt (what : String)
  | io (text : String)
  | config (text : String)
  | quotaExceeded (tenant : String) (used limit : Nat)
  | rateLimited (tenant : String) (limit : Nat)
  deriving DecidableEq, Repr

/-- `ferriskv_core::Result`. -/
abbrev Result (α : Type) := Except Error α

end FerrisKv
