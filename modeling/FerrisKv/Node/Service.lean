/-
`NodeService` (`ferriskv-node/src/service.rs`) and the functions of
`quota.rs`, `throttle.rs`, `watch.rs` and `ttl.rs` it is made of, as
programs over the node's atomic steps.

Each definition follows the source statement by statement; what the
source does in one locked call is one step here. Metrics and log lines
are left out. A function that returns `Result` is a `NodeM`, one that
cannot fail a `NodeProg`.
-/
import FerrisKv.Core.Key
import FerrisKv.Core.Value
import FerrisKv.Node.World

namespace FerrisKv

namespace NodeService

open Std LittleEndian

-- ====================================================== calling a component

/-- `?` on a pure `Result`. -/
def ofResult {α : Type} (r : Result α) : NodeM α := ExceptT.mk (pure r)

/-- `self.clock.now_ms()`. -/
def nowMs : NodeProg Nat := Prog.step (R := Prim.Resp) Prim.now

/-- `storage.get`. -/
def storageGet (key : Bytes) : NodeM (Option Bytes) :=
  ExceptT.mk (StoragePrim.get key).call

/-- `storage.put`. -/
def storagePut (key value : Bytes) : NodeM Unit :=
  ExceptT.mk (StoragePrim.put key value).call

/-- `storage.delete`. -/
def storageDelete (key : Bytes) : NodeM Unit :=
  ExceptT.mk (StoragePrim.delete key).call

/-- `storage.scan`. -/
def storageScan (pre : Bytes) : NodeM (List (Bytes × Bytes)) :=
  ExceptT.mk (StoragePrim.scan pre).call

/-- `storage.scan_range`. -/
def storageScanRange (start stop : Bytes) : NodeM (List (Bytes × Bytes)) :=
  ExceptT.mk (StoragePrim.scanRange start stop).call

/-- `storage.flush`. -/
def storageFlush : NodeM Unit := ExceptT.mk StoragePrim.flush.call

/-- `storage.is_durable`. -/
def storageIsDurable : NodeProg Bool := StoragePrim.isDurable.call

/-- `Wal::open`. -/
def walOpen : NodeM Recovery := ExceptT.mk WalPrim.open.call

/-- `wal.append`. -/
def walAppend (op : WalOp) (key value : Bytes) : NodeM Nat :=
  ExceptT.mk (WalPrim.append op key value).call

/-- `wal.rotate`. -/
def walRotate : NodeM Unit := ExceptT.mk WalPrim.rotate.call

/-- `wal.segment_bytes`. -/
def walSegmentBytes : NodeProg Nat := WalPrim.segmentBytes.call

-- ================================================================== ttl.rs

/-- `TtlIndex::schedule`: the wake-up follows the insertion, outside the
lock. -/
def schedule (key : Bytes) (expiresAtMs : Nat) : NodeProg Unit := do
  let wake ← (TtlPrim.insert key expiresAtMs).call
  if wake then TtlPrim.notifyOne.call else pure ()

/-- `TtlIndex::drain_due`. -/
def drainDue (nowMs : Nat) : NodeProg (List Bytes) :=
  (TtlPrim.drainDue nowMs).call

-- ================================================================ quota.rs

/-- `QuotaStore::quota`. -/
def quotaOf (tenant : String) : NodeProg Quota :=
  (QuotaPrim.quota tenant).call

/-- `QuotaStore::used_bytes`. -/
def usedBytes (tenant : String) : NodeProg Nat :=
  (QuotaPrim.usedBytes tenant).call

/-- `QuotaStore::adjust`. -/
def adjust (tenant : String) (delta : Int) : NodeProg Nat :=
  (QuotaPrim.adjust tenant delta).call

/-- `QuotaStore::set_quota`. -/
def setQuota (ext : Externals) (tenant : String) (quota : Quota) :
    NodeM Unit := do
  let key ← ofResult (KeyCodec.encode tenant .metadata quotaKey)
  storagePut key (ValueCodec.encode (ext.quotaToVec quota) none)
  (QuotaPrim.insertQuota tenant quota).call

/-- `QuotaStore::clear_quota`. -/
def clearQuota (tenant : String) : NodeM Unit := do
  let key ← ofResult (KeyCodec.encode tenant .metadata quotaKey)
  storageDelete key
  (QuotaPrim.removeQuota tenant).call

/-- `QuotaStore::check_write`. -/
def checkWrite (tenant : String) (delta : Int) : NodeM Unit := do
  let limit := (← quotaOf tenant).maxBytes
  if limit = 0 ∨ delta ≤ 0 then pure ()
  else
    let used ← usedBytes tenant
    let after := saturatingAdd used delta.toNat
    if after > limit then throw (.quotaExceeded tenant after limit)
    else pure ()

/-- `QuotaStore::apply`. -/
def quotaApply (tenant : String) (delta : Int) : NodeM Unit := do
  if delta = 0 then pure ()
  else
    let total ← adjust tenant delta
    let key ← ofResult (KeyCodec.encode tenant .stats usageKey)
    storagePut key (ValueCodec.encode (beBytes 8 total) none)

/-- The loop of `load_quotas` over the scanned entries. -/
def loadQuotasLoop (ext : Externals) :
    List (Bytes × Bytes) → Nat → NodeM Nat
  | [], loaded => pure loaded
  | (key, raw) :: rest, loaded =>
      match KeyCodec.decode key with
      | .error _ => loadQuotasLoop ext rest loaded
      | .ok (tenant, subspace, payload) =>
          if subspace ≠ .metadata ∨ payload ≠ quotaKey then
            loadQuotasLoop ext rest loaded
          else do
            let stored ← ofResult (ValueCodec.decode raw)
            match ext.quotaFromSlice stored.value with
            | some quota => do
                (QuotaPrim.insertQuota tenant quota).call
                loadQuotasLoop ext rest (loaded + 1)
            | none => loadQuotasLoop ext rest loaded

/-- `QuotaStore::load_quotas`. -/
def loadQuotas (ext : Externals) : NodeM Nat := do
  QuotaPrim.clearQuotas.call
  let entries ← storageScan []
  loadQuotasLoop ext entries 0

-- ============================================================= throttle.rs

/-- `Throttle::entry`. -/
def throttleEntry (tenant : String) (rate : Nat) : NodeProg Nat := do
  match ← (ThrottlePrim.lookup tenant).call with
  | some (entry, opsPerSec) =>
      if opsPerSec = rate then pure entry
      else (ThrottlePrim.insert tenant rate).call
  | none => (ThrottlePrim.insert tenant rate).call

/-- `Throttle::check`. -/
def throttleCheck (cfg : NodeConfig) (tenant : String)
    (opsPerSec cost : Nat) : NodeM Unit := do
  let limit := if opsPerSec > 0 then opsPerSec else cfg.quota.maxOpsPerSec
  if limit = 0 ∨ cost = 0 then pure ()
  else
    let entry ← throttleEntry tenant limit
    match ← ((ThrottlePrim.check tenant entry cost).call :
      NodeProg Verdict) with
    | .ok => pure ()
    | .notYet => throw (.rateLimited tenant limit)
    | .never => throw (.config
        s!"request costs {cost} operations, above the {limit} per second allowed for {tenant}")

/-- `NodeService::admit`. -/
def admitOps (cfg : NodeConfig) (tenant : String) (cost : Nat) :
    NodeM Unit := do
  let opsPerSec := (← quotaOf tenant).maxOpsPerSec
  throttleCheck cfg tenant opsPerSec cost

-- ================================================================ watch.rs

/-- `WatchHub::subscribe`. -/
def subscribe (tenant : String) : NodeProg Rx := do
  match ← (WatchPrim.subscribeExisting tenant).call with
  | some rx => pure rx
  | none => (WatchPrim.subscribeOrInsert tenant).call

/-- `WatchHub::publish`. -/
def publish (tenant : String) (change : KeyChange) : NodeProg Unit := do
  match ← ((WatchPrim.send tenant change).call :
    NodeProg SendOutcome) with
  | .absent => pure ()
  | .abandoned => (WatchPrim.remove tenant).call
  | .sent => pure ()

-- ============================================================== service.rs

/-- `Accounting`: what a change does to one tenant's usage. -/
structure Accounting where
  tenant : String
  delta : Int
  deriving DecidableEq, Repr

/-- `NodeService::publish_change`. -/
def publishChange (encodedKey : Bytes) (kind : ChangeKind) (value : Bytes) :
    NodeProg Unit :=
  match KeyCodec.decode encodedKey with
  | .error _ => pure ()
  | .ok (tenant, subspace, payload) =>
      if subspace ≠ .data then pure ()
      else do
        let watched ← (WatchPrim.isWatched tenant).call
        if watched then publish tenant ⟨kind, payload, value⟩ else pure ()

/-- `self.storage.flush().and_then(|()| self.wal.rotate())`. -/
def flushAndRotate : NodeM Unit := do
  storageFlush
  walRotate

/-- `NodeService::rotate_wal_if_needed`: its error is logged and dropped. -/
def rotateWalIfNeeded (cfg : NodeConfig) : NodeProg Unit := do
  let durable ← storageIsDurable
  if durable then
    let size ← walSegmentBytes
    if size < cfg.walRotateBytes then pure ()
    else
      let _ ← flushAndRotate.run
      pure ()
  else pure ()

/-- The bytes the entry found under a key counts for: none if there is
none, and an error if its value does not parse. -/
def previousBytes (payloadLen : Nat) : Option Bytes → Result Nat
  | none => .ok 0
  | some raw => (ValueCodec.payloadLen raw).map (entryBytes payloadLen)

/-- `NodeService::plan_accounting`. -/
def planAccounting (encodedKey : Bytes) (newValueLen : Nat) :
    NodeM (Option Accounting) :=
  match KeyCodec.decode encodedKey with
  | .error _ => pure none
  | .ok (tenant, subspace, payload) =>
      if subspace ≠ .data then pure none
      else do
        let current ← storageGet encodedKey
        let previous ← ofResult (previousBytes payload.length current)
        let next := entryBytes payload.length newValueLen
        pure (some ⟨tenant, (next : Int) - previous⟩)

/-- `NodeService::plan_delete_accounting`. -/
def planDeleteAccounting (encodedKey : Bytes) : NodeM (Option Accounting) :=
  match KeyCodec.decode encodedKey with
  | .error _ => pure none
  | .ok (tenant, subspace, payload) =>
      if subspace ≠ .data then pure none
      else do
        match ← storageGet encodedKey with
        | some raw => do
            let freed ← ofResult (previousBytes payload.length (some raw))
            pure (some ⟨tenant, -(freed : Int)⟩)
        | none => pure none

/-- The quota check of `put_with_ttl`, when the key is accounted for. -/
def checkAccounting : Option Accounting → NodeM Unit
  | none => pure ()
  | some plan => checkWrite plan.tenant plan.delta

/-- `NodeService::commit_accounting`: an error is logged and dropped. -/
def commitAccounting : Option Accounting → NodeProg Unit
  | none => pure ()
  | some plan => do
      let _ ← (quotaApply plan.tenant plan.delta).run
      pure ()

/-- The expiry stamp `put_with_ttl` computes. -/
def expiryStamp (ttlMs : Nat) : NodeProg (Option Nat) :=
  if ttlMs > 0 then do
    let now ← nowMs
    pure (some (saturatingAdd now ttlMs))
  else pure none

/-- Scheduling, when there is an expiry. -/
def scheduleExpiry (key : Bytes) : Option Nat → NodeProg Unit
  | none => pure ()
  | some exp => schedule key exp

/-- `NodeService::put_with_ttl`. -/
def putWithTtl (cfg : NodeConfig) (key value : Bytes) (ttlMs : Nat) :
    NodeM Unit := do
  let expiresAt ← expiryStamp ttlMs
  let accounting ← planAccounting key value.length
  checkAccounting accounting
  let encoded := ValueCodec.encode value expiresAt
  let _ ← walAppend .put key encoded
  storagePut key encoded
  scheduleExpiry key expiresAt
  commitAccounting accounting
  publishChange key .put value
  rotateWalIfNeeded cfg

/-- `NodeService::get`. -/
def get (key : Bytes) : NodeM (Option Bytes) := do
  match ← storageGet key with
  | none => pure none
  | some raw => do
      let now ← nowMs
      let expired ← ofResult (ValueCodec.isExpired raw now)
      if expired then pure none
      else do
        let stored ← ofResult (ValueCodec.decode raw)
        pure (some stored.value)

/-- `NodeService::delete`. -/
def delete (cfg : NodeConfig) (key : Bytes) : NodeM Unit := do
  let accounting ← planDeleteAccounting key
  let _ ← walAppend .delete key []
  storageDelete key
  commitAccounting accounting
  publishChange key .delete []
  rotateWalIfNeeded cfg

/-- What `filter_scan` keeps of one entry. -/
def filterEntry (now : Nat) (e : Bytes × Bytes) : Option (Bytes × Bytes) :=
  match ValueCodec.isExpired e.2 now with
  | .ok true => none
  | .ok false => (ValueCodec.decode e.2).toOption.map fun sv => (e.1, sv.value)
  | .error _ => none

/-- `NodeService::filter_scan`. -/
def filterScan (raw : List (Bytes × Bytes)) :
    NodeProg (List (Bytes × Bytes)) := do
  let now ← nowMs
  pure (raw.filterMap (filterEntry now))

/-- `NodeService::scan`. -/
def scan (pre : Bytes) : NodeM (List (Bytes × Bytes)) := do
  let raw ← storageScan pre
  filterScan raw

/-- `NodeService::scan_range`. -/
def scanRange (start stop : Bytes) : NodeM (List (Bytes × Bytes)) := do
  let raw ← storageScanRange start stop
  filterScan raw

-- =================================================================== sweep

/-- `if let Some(exp) = sv.expires_at_ms { schedule(..) }` on an entry the
sweep found alive. -/
def reschedule (key raw : Bytes) : NodeProg Unit :=
  match ValueCodec.decode raw with
  | .error _ => pure ()
  | .ok sv => scheduleExpiry key sv.expiresAtMs

/-- What `sweep_once` does with a candidate it finds stored. -/
def sweepFound (cfg : NodeConfig) (now : Nat) (key raw : Bytes) :
    NodeProg Nat :=
  match ValueCodec.isExpired raw now with
  | .ok true => do
      match ← (delete cfg key).run with
      | .ok () => pure 1
      | .error _ => pure 0
  | .ok false => do
      reschedule key raw
      pure 0
  | .error _ => pure 0

/-- One candidate of `sweep_once`: how many keys it removed. -/
def sweepKey (cfg : NodeConfig) (now : Nat) (key : Bytes) :
    NodeProg Nat := do
  match ← (storageGet key).run with
  | .ok (some raw) => sweepFound cfg now key raw
  | .ok none => pure 0
  | .error _ => pure 0

/-- The loop of `sweep_once`. -/
def sweepLoop (cfg : NodeConfig) (now : Nat) :
    List Bytes → Nat → NodeProg Nat
  | [], removed => pure removed
  | key :: rest, removed => do
      let n ← sweepKey cfg now key
      sweepLoop cfg now rest (removed + n)

/-- `sweep_once`. -/
def sweepOnce (cfg : NodeConfig) : NodeProg Nat := do
  let now ← nowMs
  let candidates ← drainDue now
  sweepLoop cfg now candidates 0

-- ================================================================= startup

/-- One record of `replay`. -/
def replayRecord (r : WalRecord) : NodeM Unit :=
  match r.op with
  | .put => storagePut r.key r.value
  | .delete => storageDelete r.key

/-- The loop of `replay`. -/
def replayLoop : List WalRecord → NodeM Unit
  | [] => pure ()
  | r :: rest => do
      replayRecord r
      replayLoop rest

/-- `replay`. -/
def replay (records : List WalRecord) : NodeM Nat := do
  replayLoop records
  pure records.length

/-- What one scanned entry adds to the usage totals. -/
def addUsage (usage : ExtTreeMap String Nat) (key : Bytes)
    (stored : StoredValue) : ExtTreeMap String Nat :=
  match KeyCodec.decode key with
  | .ok (tenant, .data, payload) =>
      usage.insert tenant (usage[tenant]?.getD 0
        + entryBytes payload.length stored.value.length)
  | _ => usage

/-- The loop of `bootstrap_from_storage`. -/
def bootstrapLoop :
    List (Bytes × Bytes) → ExtTreeMap String Nat →
      NodeProg (ExtTreeMap String Nat)
  | [], usage => pure usage
  | (k, v) :: rest, usage =>
      match ValueCodec.decode v with
      | .error _ => bootstrapLoop rest usage
      | .ok stored => do
          scheduleExpiry k stored.expiresAtMs
          bootstrapLoop rest (addUsage usage k stored)

/-- `bootstrap_from_storage`. -/
def bootstrapFromStorage : NodeM Unit := do
  let entries ← storageScan []
  let usage ← bootstrapLoop entries ∅
  (QuotaPrim.resetUsage usage).call

/-- `if storage.is_durable() { storage.flush()?; wal.rotate()?; }`. -/
def retireSegment : NodeM Unit := do
  let durable ← storageIsDurable
  if durable then flushAndRotate else pure ()

/-- `NodeService::open_with_clock`, from the point where the backend's own
`open` has returned. -/
def «open» (ext : Externals) : NodeM Unit := do
  let recovery ← walOpen
  let _ ← replay recovery.records
  retireSegment
  let _ ← loadQuotas ext
  bootstrapFromStorage

end NodeService

end FerrisKv
