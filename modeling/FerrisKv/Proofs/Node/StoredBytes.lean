/-
What a tenant's data counts for, and how one write moves it.

`storedBytes t m` is the number the usage counter is meant to hold: over
all entries of `m` whose key decodes to `t`'s data, the payload's length
plus the length of the value the stored bytes decode to. A write moves it
by the difference of the two entries' shares (`storedBytes_apply`), and
the sizes `plan_accounting` and `plan_delete_accounting` compute are
shares (`share_of_previousBytes`).
-/
import FerrisKv.Lib.TreeMapSum
import FerrisKv.Node.Service

namespace FerrisKv

open Std WriteLog TreeMapSum NodeService

-- ============================================================== definitions

/-- The bytes one stored entry counts for, towards tenant `t`. -/
def entryCount (t : String) (k v : Bytes) : Nat :=
  match KeyCodec.decode k with
  | .ok (tenant, .data, payload) =>
      if tenant = t then
        match ValueCodec.decode v with
        | .ok stored => payload.length + stored.value.length
        | .error _ => 0
      else 0
  | _ => 0

/-- The bytes tenant `t` has stored: keys plus values of its data. -/
def storedBytes (t : String) (m : Table) : Nat := sumBy (entryCount t) m

/-- The share of what a key holds, or does not hold. -/
def share (t : String) (k : Bytes) (o : Option Bytes) : Nat :=
  o.elim 0 (entryCount t k)

/-- The key of some tenant's data. -/
def IsData (k : Bytes) : Prop :=
  ∃ t payload, KeyCodec.decode k = .ok (t, .data, payload)

/-- A key is no data if it does not decode to anybody's. -/
theorem not_isData_iff {k : Bytes} :
    ¬ IsData k ↔ ∀ t payload, KeyCodec.decode k ≠ .ok (t, .data, payload) := by
  simp only [IsData, not_exists, ne_eq]

-- ================================================================== shares

/-- What is no data counts for nobody. -/
theorem entryCount_of_not_data {k : Bytes} (h : ¬ IsData k) (t : String)
    (v : Bytes) : entryCount t k v = 0 := by
  unfold entryCount
  split
  · next tenant payload hd => exact absurd ⟨tenant, payload, hd⟩ h
  · rfl

/-- Data counts for its tenant, as much as a put would find. -/
private theorem entryCount_of_data {k payload : Bytes} {tenant : String}
    (h : KeyCodec.decode k = .ok (tenant, .data, payload)) (t : String)
    (v : Bytes) :
    entryCount t k v = if tenant = t then
      ((previousBytes payload.length (some v)).toOption.getD 0) else 0 := by
  unfold entryCount previousBytes
  rw [h]
  simp only [ValueCodec.payloadLen_eq]
  by_cases ht : tenant = t
  · simp only [if_pos ht]
    cases ValueCodec.decode v <;> rfl
  · simp only [if_neg ht]

/-- Nobody has a share in what is no data. -/
theorem share_of_not_data {k : Bytes} (h : ¬ IsData k) (t : String)
    (o : Option Bytes) : share t k o = 0 := by
  cases o with
  | none => rfl
  | some v => exact entryCount_of_not_data h t v

theorem share_of_ne {k payload : Bytes} {tenant t : String}
    (h : KeyCodec.decode k = .ok (tenant, .data, payload)) (ht : tenant ≠ t)
    (o : Option Bytes) : share t k o = 0 := by
  cases o with
  | none => rfl
  | some v =>
      show entryCount t k v = 0
      rw [entryCount_of_data h, if_neg ht]

/-- The size the source computes for an entry is its share. -/
theorem share_of_previousBytes {k payload : Bytes} {tenant : String}
    (h : KeyCodec.decode k = .ok (tenant, .data, payload))
    {o : Option Bytes} {n : Nat}
    (hp : previousBytes payload.length o = .ok n) (t : String) :
    share t k o = if tenant = t then n else 0 := by
  cases o with
  | none =>
      cases hp
      simp [share]
  | some v =>
      rw [share, Option.elim_some, entryCount_of_data h, hp]
      rfl

/-- An entry whose value can be sized is sized. -/
theorem previousBytes_of_payloadLen {raw : Bytes} {n : Nat}
    (h : ValueCodec.payloadLen raw = .ok n) (len : Nat) :
    previousBytes len (some raw) = .ok (entryBytes len n) := by
  rw [previousBytes, h]
  rfl

/-- A tenant's bytes are those of its data. -/
theorem storedBytes_congr {m m' : Table}
    (h : ∀ k : Bytes, IsData k → m[k]? = m'[k]?) (t : String) :
    storedBytes t m = storedBytes t m' := by
  refine sumBy_congr fun k => ?_
  show share t k m[k]? = share t k m'[k]?
  by_cases hk : IsData k
  · rw [h k hk]
  · rw [share_of_not_data hk, share_of_not_data hk]

/-- A key's share never exceeds the whole. -/
theorem share_le_storedBytes (t : String) (m : Table) (k : Bytes) :
    share t k m[k]? ≤ storedBytes t m := by
  rw [storedBytes, sumBy_split _ m k]
  exact Nat.le_add_right _ _

/-- Nor do the shares of several keys together. -/
theorem sum_share_le_storedBytes (t : String) (keys : Finset Bytes) :
    ∀ m : Table, ∑ k ∈ keys, share t k m[k]? ≤ storedBytes t m := by
  induction keys using Finset.induction_on with
  | empty => exact fun m => Nat.zero_le _
  | insert k keys hk ih =>
      intro m
      have hsplit : storedBytes t m
          = share t k m[k]? + storedBytes t (m.erase k) := sumBy_split _ m k
      have hrest : ∑ k' ∈ keys, share t k' m[k']?
          = ∑ k' ∈ keys, share t k' (m.erase k)[k']? := by
        refine Finset.sum_congr rfl fun k' hk' => ?_
        have hne : ¬ compare k k' = .eq := by
          rw [Std.compare_eq_iff_eq]
          rintro rfl
          exact hk hk'
        rw [ExtTreeMap.getElem?_erase, if_neg hne]
      rw [Finset.sum_insert hk, hsplit, hrest]
      exact Nat.add_le_add_left (ih _) _

-- ================================================================== writes

/-- A write trades its key's old share for the new one. -/
theorem storedBytes_apply (t : String) (m : Table) (w : Write Bytes Bytes) :
    storedBytes t (apply m w) + share t w.key m[w.key]?
      = storedBytes t m + share t w.key w.value := by
  have hsplit := sumBy_split (entryCount t) m w.key
  cases w with
  | put k v =>
      have hins := sumBy_insert (entryCount t) m k v
      simp only [storedBytes, share, apply, Write.key, Write.value] at *
      simp only [Option.elim_some]
      omega
  | delete k =>
      simp only [storedBytes, share, apply, Write.key, Write.value] at *
      simp only [Option.elim_none]
      omega

/-- A write to anything but data moves no tenant's bytes. -/
theorem storedBytes_apply_of_not_data {w : Write Bytes Bytes}
    (h : ¬ IsData w.key) (t : String) (m : Table) :
    storedBytes t (apply m w) = storedBytes t m := by
  have := storedBytes_apply t m w
  rw [share_of_not_data h, share_of_not_data h] at this
  omega

/-- A write to anything but data leaves the data as it is. -/
theorem getElem?_write_aside (s : StorageBackend) (w : Write Bytes Bytes)
    (hd : ¬ IsData w.key) {k : Bytes} (hk : IsData k) :
    (s.write w).contents[k]? = s.contents[k]? := by
  refine s.getElem?_write_of_ne w ?_
  rintro rfl
  exact hd hk

/-- A key of another subspace is no data. -/
theorem not_isData_encode {t : String} {s : Subspace} {p k : Bytes}
    (h : KeyCodec.encode t s p = .ok k) (hs : s ≠ .data) : ¬ IsData k := by
  rintro ⟨t', payload, hd⟩
  rw [KeyCodec.decode_encode h] at hd
  simp only [Except.ok.injEq, Prod.mk.injEq] at hd
  exact hs hd.2.1

end FerrisKv
