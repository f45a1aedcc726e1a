/-
Quotas and usage counters (`ferriskv-node/src/quota.rs`): two maps keyed
by tenant, both only in memory; what is persisted of them goes through
storage and is the service's business.

# Integers

Sizes and totals are `u64`, deltas `i64`. No allocation reaches `2^63`
bytes, so the casts between them are exact and are not written out;
`fetch_add` would wrap only past `2^64` stored bytes. Where the source
saturates, the model does.
-/
import FerrisKv.Core.Key
import FerrisKv.Node.Config

namespace FerrisKv

open Std

/-- `QUOTA_KEY`: the bytes of `quota`. -/
def quotaKey : Bytes := [0x71, 0x75, 0x6F, 0x74, 0x61]

/-- `USAGE_KEY`: the bytes of `usage`. -/
def usageKey : Bytes := [0x75, 0x73, 0x61, 0x67, 0x65]

/-- `TenantUsage`. -/
structure TenantUsage where
  usedBytes : Nat
  maxBytes : Nat
  maxOpsPerSec : Nat
  deriving DecidableEq, Repr

/-- `QuotaStore`. -/
structure QuotaStore where
  defaultQuota : Quota
  quotas : ExtTreeMap String Quota
  usage : ExtTreeMap String Nat

/-- `entry_bytes`. -/
def entryBytes (keyLen valueLen : Nat) : Nat := keyLen + valueLen

/-- `apply_delta`: up by addition, down saturating at zero. -/
def applyDelta (current : Nat) (delta : Int) : Nat :=
  if 0 ≤ delta then current + delta.toNat else current - delta.natAbs

namespace QuotaStore

/-- `QuotaStore::new`. -/
def new (defaultQuota : Quota) : QuotaStore := ⟨defaultQuota, ∅, ∅⟩

/-- `QuotaStore::quota`. -/
def quota (q : QuotaStore) (tenant : String) : Quota :=
  q.quotas[tenant]?.getD q.defaultQuota

/-- `QuotaStore::used_bytes`. -/
def usedBytes (q : QuotaStore) (tenant : String) : Nat :=
  q.usage[tenant]?.getD 0

/-- `QuotaStore::usage_of`. -/
def usageOf (q : QuotaStore) (tenant : String) : TenantUsage :=
  ⟨q.usedBytes tenant, (q.quota tenant).maxBytes,
    (q.quota tenant).maxOpsPerSec⟩

/-- `QuotaStore::adjust`: an absent counter starts at zero. -/
def adjust (q : QuotaStore) (tenant : String) (delta : Int) :
    Nat × QuotaStore :=
  let total := applyDelta (q.usedBytes tenant) delta
  (total, { q with usage := q.usage.insert tenant total })

end QuotaStore

-- ================================================================ listing

/-- An order in which the two maps' iterators give their keys. -/
structure QuotaStore.Iteration (q : QuotaStore) where
  usage : List String
  quotas : List String
  usage_perm : usage.Perm q.usage.keys
  quotas_perm : quotas.Perm q.quotas.keys

/-- `sort_unstable_by` on the names, which are compared as bytes. -/
structure NameSort where
  sort : List (String × TenantUsage) → List (String × TenantUsage)
  perm : ∀ l, (sort l).Perm l
  sorted : ∀ l, (sort l).Pairwise fun a b =>
    compare (asBytes a.1) (asBytes b.1) ≠ .gt

/-- `QuotaStore::list`. -/
def QuotaStore.list (q : QuotaStore) (iter : q.Iteration) (sorter : NameSort) :
    List (String × TenantUsage) :=
  let seen := iter.usage.map fun tenant => (tenant, q.usageOf tenant)
  let configured := (iter.quotas.filter fun tenant => !q.usage.contains tenant).map
    fun tenant => (tenant, q.usageOf tenant)
  sorter.sort (seen ++ configured)

-- ============================================================= primitives

/-- The quota-store calls a program can make, each one atomic step. -/
inductive QuotaPrim where
  | quota (tenant : String)
  | usedBytes (tenant : String)
  | adjust (tenant : String) (delta : Int)
  | insertQuota (tenant : String) (quota : Quota)
  | removeQuota (tenant : String)
  | clearQuotas
  | resetUsage (totals : ExtTreeMap String Nat)

/-- What a quota-store call answers. -/
@[reducible] def QuotaPrim.Resp : QuotaPrim → Type
  | .quota _ => Quota
  | .usedBytes _ => Nat
  | .adjust _ _ => Nat
  | .insertQuota _ _ => Unit
  | .removeQuota _ => Unit
  | .clearQuotas => Unit
  | .resetUsage _ => Unit

/-- Perform a quota-store call. -/
def QuotaPrim.exec : (p : QuotaPrim) → QuotaStore → p.Resp × QuotaStore
  | .quota tenant, q => (q.quota tenant, q)
  | .usedBytes tenant, q => (q.usedBytes tenant, q)
  | .adjust tenant delta, q => q.adjust tenant delta
  | .insertQuota tenant record, q =>
      ((), { q with quotas := q.quotas.insert tenant record })
  | .removeQuota tenant, q =>
      ((), { q with quotas := q.quotas.erase tenant })
  | .clearQuotas, q => ((), { q with quotas := ∅ })
  | .resetUsage totals, q => ((), { q with usage := totals })

end FerrisKv
