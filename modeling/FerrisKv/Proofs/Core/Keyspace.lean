/-
The keyspace: encoded keys stand for what they encode, and a tenant is one
contiguous range of them.

The length byte in front of the tenant's name makes the encoding
prefix-free: a key that starts with another tenant's length and name IS
that tenant's key. Everything else follows from the general facts on
byte strings in order (Lib/OrderedScan.lean): a common prefix drops out
of a comparison, and the strings with a given prefix are an interval.
-/
import FerrisKv.Core.Key
import FerrisKv.Lib.OrderedScan

namespace FerrisKv

open KeyCodec OrderedScan

-- ============================================================ the bijection

/-- Encoding fails for the tenant's sake only. -/
private theorem encode_isOk_iff (t : String) (s : Subspace) (p : Bytes) :
    (∃ k, encode t s p = .ok k) ↔ ValidTenant t := by
  constructor
  · rintro ⟨k, h⟩
    exact (encode_eq_ok.mp h).1
  · intro h
    exact ⟨_, encode_of_valid h s p⟩

/-- `encode` succeeds on exactly the tenants of 1 to 255 bytes, and `encode`
and `decode` are the same relation between triples and byte strings. -/
theorem keyCodec_bijection (t : String) (s : Subspace) (p k : Bytes) :
    ((∃ k', encode t s p = .ok k')
        ↔ 1 ≤ (asBytes t).length ∧ (asBytes t).length ≤ 255)
      ∧ (encode t s p = .ok k ↔ decode k = .ok (t, s, p)) :=
  ⟨encode_isOk_iff t s p, ⟨decode_encode, encode_decode⟩⟩

-- ================================================================ the order

/-- Subspaces in the order of their bytes, then payloads. -/
def compareContent (a b : Subspace × Bytes) : Ordering :=
  (compare a.1.toU8 b.1.toU8).then (compare a.2 b.2)

/-- The tenant's bytes, its subspace, then the payload. -/
theorem bytesOf_eq_append (t : String) (s : Subspace) (p : Bytes) :
    bytesOf t s p = writeTenant t ++ s.toU8 :: p := by
  rw [bytesOf, List.append_assoc]
  rfl

/-- Keys of one tenant are ordered by subspace, then payload. -/
private theorem compare_bytesOf (t : String) (s s' : Subspace) (p p' : Bytes) :
    compare (bytesOf t s p) (bytesOf t s' p')
      = compareContent (s, p) (s', p') := by
  rw [bytesOf_eq_append, bytesOf_eq_append, compare_append_left,
    List.compare_eq_compareLex, List.compareLex_cons_cons,
    ← List.compare_eq_compareLex]
  rfl

/-- Only a tenant's own keys start with its length and name. -/
theorem tenant_eq_of_starts {t t' : String} (ht : ValidTenant t)
    (ht' : ValidTenant t') {s : Subspace} {p : Bytes}
    (h : writeTenant t <+: bytesOf t' s p) : t = t' := by
  rw [bytesOf_eq_append, writeTenant, writeTenant, List.cons_append,
    List.cons_prefix_cons] at h
  obtain ⟨hbyte, hname⟩ := h
  have hlen : (asBytes t).length = (asBytes t').length := by
    have h := congrArg UInt8.toNat hbyte
    rw [UInt8.toNat_ofNat', UInt8.toNat_ofNat',
      Nat.mod_eq_of_lt (Nat.lt_of_le_of_lt ht.2 (by decide)),
      Nat.mod_eq_of_lt (Nat.lt_of_le_of_lt ht'.2 (by decide))] at h
    exact h
  have hpre : asBytes t <+: asBytes t' :=
    List.prefix_of_prefix_length_le hname (List.prefix_append _ _) hlen.le
  exact asBytes_inj (hpre.eq_of_length hlen)

/-- A prefix that encodes is that of a valid tenant. -/
private theorem encodeTenantPrefix_eq_ok {t : String} {pre : Bytes}
    (h : encodeTenantPrefix t = .ok pre) :
    ValidTenant t ∧ pre = writeTenant t := by
  cases hc : KeyCodec.checkTenant t with
  | error e =>
      rw [encodeTenantPrefix, hc] at h
      cases h
  | ok u =>
      rw [encodeTenantPrefix, hc] at h
      cases h
      exact ⟨checkTenant_eq_ok.mp hc, rfl⟩

/-- Within a tenant, keys are ordered by subspace and payload; another
tenant's keys neither start with this tenant's prefix nor fall between two
of its keys. -/
theorem keyspace_ordered (t t' : String) (s₁ s₂ s : Subspace)
    (p₁ p₂ p : Bytes) (k₁ k₂ k : Bytes)
    (h₁ : encode t s₁ p₁ = .ok k₁) (h₂ : encode t s₂ p₂ = .ok k₂)
    (hk : encode t' s p = .ok k) :
    compare k₁ k₂ = compareContent (s₁, p₁) (s₂, p₂)
      ∧ (t ≠ t' →
        (∀ pre, encodeTenantPrefix t = .ok pre → ¬ pre <+: k)
          ∧ ¬ (compare k₁ k = .lt ∧ compare k k₂ = .lt)) := by
  obtain ⟨ht, rfl⟩ := encode_eq_ok.mp h₁
  obtain ⟨-, rfl⟩ := encode_eq_ok.mp h₂
  obtain ⟨ht', rfl⟩ := encode_eq_ok.mp hk
  refine ⟨compare_bytesOf t s₁ s₂ p₁ p₂, fun hne => ⟨fun pre hpre h => ?_, ?_⟩⟩
  · obtain ⟨-, rfl⟩ := encodeTenantPrefix_eq_ok hpre
    exact hne (tenant_eq_of_starts ht ht' h)
  · rintro ⟨hlo, hhi⟩
    have hown : ∀ (s : Subspace) (p : Bytes),
        writeTenant t <+: bytesOf t s p := by
      intro s p
      rw [bytesOf_eq_append]
      exact List.prefix_append _ _
    -- between two keys of one tenant there are only keys that start as both
    -- do
    have hmid : writeTenant t <+: bytesOf t' s p := by
      refine prefix_of_between (hown s₁ p₁) (hown s₂ p₂) ?_ ?_
      · rw [hlo]
        decide
      · rw [hhi]
        decide
    exact hne (tenant_eq_of_starts ht ht' hmid)

/-- A tenant whose name starts with the other's. -/
theorem keyspace_ordered_foobar :
    compare (bytesOf "foo" .data [2]) (bytesOf "foo" .data [1, 9]) = .gt
      ∧ ¬ (compare (bytesOf "foo" .data [1]) (bytesOf "foobar" .data [1]) = .lt
        ∧ compare (bytesOf "foobar" .data [1]) (bytesOf "foo" .stats [])
          = .lt) := by
  constructor
  · have h := (keyspace_ordered "foo" "foo" .data .data .data [2] [1, 9] []
      _ _ _ rfl rfl rfl).1
    exact h.trans (by decide)
  · exact ((keyspace_ordered "foo" "foobar" .data .stats .data [1] [] [1]
      _ _ _ rfl rfl rfl).2 (by decide)).2

end FerrisKv
