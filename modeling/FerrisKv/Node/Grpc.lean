/-
The RPCs (`ferriskv-node/src/grpc.rs`), the principal they are made for
(`auth_layer.rs`), and the quota handlers of the admin server
(`admin.rs`).

Every handler checks the tenant name, authorizes, charges the rate
limiter and only then does its work; the order is the source's, and so
are the texts of the errors. The body of an RPC is one program over the
node's atomic steps. A `Watch` stream is the state the source unfolds it
from; `watchPoll` is one turn of its loop, with the branch tokio's
`select!` polls first as an argument.
-/
import FerrisKv.Node.Service

namespace FerrisKv

open NodeService

-- ================================================================ statuses

/-- The `tonic::Code`s the node answers with. -/
inductive Code where
  | invalidArgument
  | permissionDenied
  | resourceExhausted
  | internal
  | dataLoss
  deriving DecidableEq, Repr

/-- `tonic::Status`. -/
structure Status where
  code : Code
  message : String
  deriving DecidableEq, Repr

/-- `Display` of `Error`. -/
def Error.display : Error → String
  | .storage text => s!"storage: {text}"
  | .corrupt what => s!"corrupted data: {what}"
  | .io text => s!"io: {text}"
  | .config text => s!"configuration: {text}"
  | .quotaExceeded tenant used limit =>
      s!"tenant {tenant} would use {used} bytes, over its {limit} byte quota"
  | .rateLimited tenant limit =>
      s!"tenant {tenant} exceeded its rate limit of {limit} operations per second"

/-- `to_status`. -/
def toStatus (e : Error) : Status :=
  match e with
  | .quotaExceeded _ _ _ => ⟨.resourceExhausted, e.display⟩
  | .rateLimited _ _ => ⟨.resourceExhausted, e.display⟩
  | .config _ => ⟨.invalidArgument, e.display⟩
  | .corrupt _ => ⟨.internal, e.display⟩
  | .storage _ => ⟨.internal, e.display⟩
  | .io _ => ⟨.internal, e.display⟩

/-- A handler: a program that may answer with a status. -/
abbrev GrpcM (α : Type) := Prog.Fallible Prim Prim.Resp Status α

/-- `.map_err(to_status)` on a call of the service. -/
def mapStatus {α : Type} (x : NodeM α) : GrpcM α :=
  ExceptT.mk (x.run >>= fun r => pure (r.mapError toStatus))

/-- `?` on a pure check. -/
def ofCheck {α : Type} (r : Except Status α) : GrpcM α := ExceptT.mk (pure r)

-- ================================================================== checks

/-- `Principal`, with the parts of the claims that are read. -/
inductive Principal where
  | anonymous
  | authenticated (tenant : String) (perms : List String)
  deriving DecidableEq, Repr

/-- `Principal::tenant`. -/
def Principal.tenant : Principal → Option String
  | .anonymous => none
  | .authenticated tenant _ => some tenant

/-- The test of `Claims::allows`, on the `perms` of the claims. -/
def allowsPerm (perms : List String) (perm : String) : Bool :=
  perms.any fun p => p == "admin" || p == perm

/-- `Principal::allows`, through `Claims::allows`. -/
def Principal.allows : Principal → String → Bool
  | .anonymous, _ => true
  | .authenticated _ perms, perm => allowsPerm perms perm

/-- `PERM_READ`, `PERM_WRITE`, `PERM_DELETE`, `PERM_WATCH`. -/
def permRead : String := "read"

@[inherit_doc permRead] def permWrite : String := "write"

@[inherit_doc permRead] def permDelete : String := "delete"

@[inherit_doc permRead] def permWatch : String := "watch"

/-- `check_tenant`. -/
def checkTenant (t : String) : Except Status Unit :=
  if (asBytes t).length = 0 then
    .error ⟨.invalidArgument, "tenant must not be empty"⟩
  else if (asBytes t).length > 255 then
    .error ⟨.invalidArgument, "tenant exceeds 255 bytes"⟩
  else .ok ()

/-- `authorize`; the principal is missing when no interceptor ran. -/
def authorize (principal : Option Principal) (tenant perm : String) :
    Except Status Unit :=
  match principal with
  | none => .error ⟨.internal, "auth layer missing"⟩
  | some p =>
      if p.tenant.isSome ∧ p.tenant ≠ some tenant then
        .error ⟨.permissionDenied,
          s!"tenant {tenant} not authorized for this principal"⟩
      else if p.allows perm then .ok ()
      else .error ⟨.permissionDenied, s!"permission {perm} required"⟩

/-- The shape `enforce_key_size` and `enforce_value_size` share. They answer
with different codes. -/
def enforceSize (code : Code) (what : String) (max : Nat) (bytes : Bytes) :
    Except Status Unit :=
  if bytes.length > max then
    .error ⟨code, s!"{what} size {bytes.length} exceeds limit {max}"⟩
  else .ok ()

/-- `GrpcApi::enforce_key_size`. -/
def enforceKeySize (cfg : NodeConfig) (key : Bytes) : Except Status Unit :=
  enforceSize .invalidArgument "key" cfg.limits.maxKeySize key

/-- `GrpcApi::enforce_value_size`. -/
def enforceValueSize (cfg : NodeConfig) (value : Bytes) :
    Except Status Unit :=
  enforceSize .resourceExhausted "value" cfg.limits.maxValueSize value

/-- `GrpcApi::enforce_batch_size`. -/
def enforceBatchSize (cfg : NodeConfig) (n : Nat) : Except Status Unit :=
  if n > cfg.limits.maxBatchOps then
    .error ⟨.invalidArgument,
      s!"batch size {n} exceeds limit {cfg.limits.maxBatchOps}"⟩
  else .ok ()

/-- `GrpcApi::cap_scan_limit`. -/
def capScanLimit (cfg : NodeConfig) (requested : Nat) : Nat :=
  if requested = 0 ∨ requested > cfg.limits.maxScanLimit then
    cfg.limits.maxScanLimit
  else requested

/-- `GrpcApi::admit`. -/
def admitRpc (cfg : NodeConfig) (tenant : String) (cost : Nat) :
    GrpcM Unit := mapStatus (admitOps cfg tenant cost)

/-- `encode_data_key`. -/
def encodeDataKey (tenant : String) (payload : Bytes) :
    Except Status Bytes :=
  (KeyCodec.encode tenant .data payload).mapError toStatus

/-- The loop of `next_prefix_bound`, on the reversed prefix. -/
def bumpLast : Bytes → Bytes
  | [] => []
  | last :: rest => if last = 0xFF then bumpLast rest else (last + 1) :: rest

/-- `next_prefix_bound`. -/
def nextPrefixBound (pre : Bytes) : Bytes := (bumpLast pre.reverse).reverse

/-- `ScanBounds`. -/
structure ScanBounds where
  start : Bytes
  stop : Bytes
  stripLen : Nat
  deriving DecidableEq, Repr

/-- `encode_data_scan_bounds`. -/
def encodeDataScanBounds (tenant : String) (userPrefix : Bytes) :
    Except Status ScanBounds :=
  match KeyCodec.encodeSubspacePrefix tenant .data with
  | .error e => .error (toStatus e)
  | .ok subPrefix =>
      let start := subPrefix ++ userPrefix
      .ok ⟨start, nextPrefixBound start, subPrefix.length⟩

-- ================================================================ handlers

/-- The start most handlers share: name, permission, rate. -/
def enter (cfg : NodeConfig) (principal : Option Principal)
    (tenant perm : String) : GrpcM Unit := do
  ofCheck (checkTenant tenant)
  ofCheck (authorize principal tenant perm)
  admitRpc cfg tenant 1

/-- `get_impl`: the value, if the key is found. -/
def getImpl (cfg : NodeConfig) (principal : Option Principal)
    (tenant : String) (key : Bytes) : GrpcM (Option Bytes) := do
  enter cfg principal tenant permRead
  ofCheck (enforceKeySize cfg key)
  let k ← ofCheck (encodeDataKey tenant key)
  mapStatus (NodeService.get k)

/-- `put_impl`. -/
def putImpl (cfg : NodeConfig) (principal : Option Principal)
    (tenant : String) (key value : Bytes) (ttlMs : Nat) : GrpcM Unit := do
  enter cfg principal tenant permWrite
  ofCheck (enforceKeySize cfg key)
  ofCheck (enforceValueSize cfg value)
  let k ← ofCheck (encodeDataKey tenant key)
  mapStatus (putWithTtl cfg k value ttlMs)

/-- `delete_impl`: whether the key was visible. -/
def deleteImpl (cfg : NodeConfig) (principal : Option Principal)
    (tenant : String) (key : Bytes) : GrpcM Bool := do
  enter cfg principal tenant permDelete
  ofCheck (enforceKeySize cfg key)
  let k ← ofCheck (encodeDataKey tenant key)
  let found ← mapStatus (NodeService.get k)
  mapStatus (NodeService.delete cfg k)
  pure found.isSome

/-- `SCAN_CHUNK_SIZE`. -/
def scanChunkSize : Nat := 256

/-- The chunking loop of `scan_impl`, `current` being the chunk under
construction. -/
def chunkLoop : List (Bytes × Bytes) → List (Bytes × Bytes) →
    List (List (Bytes × Bytes))
  | [], current => if current = [] then [] else [current]
  | e :: rest, current =>
      if (current ++ [e]).length ≥ scanChunkSize then
        (current ++ [e]) :: chunkLoop rest []
      else chunkLoop rest (current ++ [e])

/-- `scan_impl`: the chunks, keys relative to the tenant. -/
def scanImpl (cfg : NodeConfig) (principal : Option Principal)
    (tenant : String) (userPrefix : Bytes) (limit : Nat) :
    GrpcM (List (List (Bytes × Bytes))) := do
  enter cfg principal tenant permRead
  let bounds ← ofCheck (encodeDataScanBounds tenant userPrefix)
  let entries ← mapStatus (NodeService.scanRange bounds.start bounds.stop)
  let kept := entries.take (capScanLimit cfg limit)
  pure (chunkLoop (kept.map fun e => (e.1.drop bounds.stripLen, e.2)) [])

/-- `OP_PUT` and `OP_DELETE`. -/
def opPut : Nat := 1

@[inherit_doc opPut] def opDelete : Nat := 2

/-- One operation of a `BatchRequest`. -/
structure BatchOp where
  op : Nat
  key : Bytes
  value : Bytes
  deriving DecidableEq, Repr

/-- One turn of the loop of `batch_impl`. -/
def batchOp (cfg : NodeConfig) (tenant : String) (o : BatchOp) :
    GrpcM Unit := do
  ofCheck (enforceKeySize cfg o.key)
  ofCheck (if o.op = opPut then enforceValueSize cfg o.value else .ok ())
  let k ← ofCheck (encodeDataKey tenant o.key)
  if o.op = opPut then mapStatus (putWithTtl cfg k o.value 0)
  else if o.op = opDelete then mapStatus (NodeService.delete cfg k)
  else throw ⟨.invalidArgument, s!"unknown op code {o.op}"⟩

/-- The loop of `batch_impl`. -/
def batchLoop (cfg : NodeConfig) (tenant : String) :
    List BatchOp → GrpcM Unit
  | [] => pure ()
  | o :: rest => do
      batchOp cfg tenant o
      batchLoop cfg tenant rest

/-- `batch_impl`. -/
def batchImpl (cfg : NodeConfig) (principal : Option Principal)
    (tenant : String) (ops : List BatchOp) : GrpcM Unit := do
  ofCheck (checkTenant tenant)
  ofCheck (if ops.any fun o => o.op = opPut then
    authorize principal tenant permWrite else .ok ())
  ofCheck (if ops.any fun o => o.op = opDelete then
    authorize principal tenant permDelete else .ok ())
  ofCheck (enforceBatchSize cfg ops.length)
  admitRpc cfg tenant (min ops.length (2 ^ 32 - 1))
  batchLoop cfg tenant ops

-- ================================================================= watching

/-- `WatchState`, on the monotonic clock; `heartbeat` is in its units. -/
structure WatchState where
  rx : Rx
  keyPrefix : Bytes
  heartbeat : Nat
  nextBeat : Nat
  tenant : String
  deriving DecidableEq, Repr

/-- `Duration::from_secs`, in milliseconds. -/
def fromSecs (secs : Nat) : Nat := secs * 1000

/-- `TokioInstant::now()`. -/
def tokioNow : NodeProg Nat := Prog.step (R := Prim.Resp) Prim.instant

/-- `watch_impl`. -/
def watchImpl (cfg : NodeConfig) (principal : Option Principal)
    (tenant : String) (keyPrefix : Bytes) : GrpcM WatchState := do
  enter cfg principal tenant permWatch
  ofCheck (enforceKeySize cfg keyPrefix)
  let rx ← subscribe tenant
  let now ← tokioNow
  let heartbeat := fromSecs cfg.watchHeartbeatSecs
  pure ⟨rx, keyPrefix, heartbeat, now + heartbeat, tenant⟩

/-- `WatchEventKind`. -/
inductive WatchEventKind where
  | put
  | delete
  | heartbeat
  deriving DecidableEq, Repr

/-- `WatchEvent`; its `version` is always zero. -/
structure WatchEvent where
  kind : WatchEventKind
  key : Bytes
  value : Bytes
  deriving DecidableEq, Repr

/-- `to_watch_event`. -/
def toWatchEvent (change : KeyChange) : WatchEvent :=
  ⟨match change.kind with
    | .put => .put
    | .delete => .delete, change.key, change.value⟩

/-- `heartbeat_event`. -/
def heartbeatEvent : WatchEvent := ⟨.heartbeat, [], []⟩

/-- What one turn of the stream's loop comes to: an item and the state to
go on with, the end of the stream with or without an error, another turn,
or waiting. -/
inductive StreamTurn where
  | item (event : WatchEvent) (state : WatchState)
  | failed (status : Status)
  | ended
  | again
  | pending
  deriving DecidableEq, Repr

/-- `state.defer_heartbeat()`, then the item. -/
def deliver (state : WatchState) (event : WatchEvent) :
    NodeProg StreamTurn := do
  let now ← tokioNow
  pure (.item event { state with nextBeat := now + state.heartbeat })

/-- What a turn makes of a receive. -/
def onReceived (state : WatchState) (idle : Bool) :
    RecvOutcome → NodeProg StreamTurn
  | .message change =>
      if state.keyPrefix.isPrefixOf change.key then
        deliver state (toWatchEvent change)
      else pure .again
  | .lagged missed => pure (.failed ⟨.dataLoss,
      s!"watch fell behind by {missed} events; re-read and resubscribe"⟩)
  | .closed => pure .ended
  | .empty => if idle then deliver state heartbeatEvent else pure .pending

/-- One turn of the loop of `watch_stream`; `idleFirst` is the branch the
`select!` polls first. -/
def watchPoll (state : WatchState) (idleFirst : Bool) :
    NodeProg StreamTurn := do
  let now ← tokioNow
  let idle := decide (state.nextBeat ≤ now)
  if idleFirst && idle then deliver state heartbeatEvent
  else do
    let received ← (WatchPrim.recv state.tenant state.rx).call
    onReceived state idle received

-- ==================================================================== admin

/-- A rejected admin request: `BAD_REQUEST` or `INTERNAL_SERVER_ERROR`. -/
inductive AdminError where
  | badRequest (error : String)
  | internal (error : String)
  deriving DecidableEq, Repr

/-- An admin handler. -/
abbrev AdminM (α : Type) := Prog.Fallible Prim Prim.Resp AdminError α

/-- `validate_tenant`. -/
def validateTenant (tenant : String) : AdminM Unit :=
  if (asBytes tenant).length = 0 ∨ (asBytes tenant).length > 255 then
    throw (.badRequest "tenant must be between 1 and 255 bytes")
  else pure ()

/-- `.map_err(internal)`. -/
def mapInternal {α : Type} (x : NodeM α) : AdminM α :=
  ExceptT.mk (x.run >>= fun r =>
    pure (r.mapError fun e => AdminError.internal e.display))

/-- `svc.quotas.usage_of`. -/
def usageOf (tenant : String) : NodeProg TenantUsage := do
  let quota ← quotaOf tenant
  let used ← usedBytes tenant
  pure ⟨used, quota.maxBytes, quota.maxOpsPerSec⟩

/-- `get_quota` of the admin server: a tenant never seen has the defaults. -/
def adminGetQuota (tenant : String) : AdminM TenantUsage := do
  validateTenant tenant
  usageOf tenant

/-- `set_quota` of the admin server: unspecified fields stay. -/
def adminSetQuota (ext : Externals) (tenant : String)
    (maxBytes maxOpsPerSec : Option Nat) : AdminM TenantUsage := do
  validateTenant tenant
  let current ← quotaOf tenant
  let updated : Quota :=
    ⟨maxBytes.getD current.maxBytes, maxOpsPerSec.getD current.maxOpsPerSec⟩
  mapInternal (setQuota ext tenant updated)
  usageOf tenant

/-- `clear_quota` of the admin server. -/
def adminClearQuota (tenant : String) : AdminM TenantUsage := do
  validateTenant tenant
  mapInternal (clearQuota tenant)
  usageOf tenant

end FerrisKv
