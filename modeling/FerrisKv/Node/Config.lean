/-
The configuration the service reads (`ferriskv-node/src/config.rs`,
`ferriskv-core/src/limits.rs`) and the third-party code it calls.

Only the fields some modelled function reads are kept. `Externals` stands
for what is not in the repository: the rate limiter's arithmetic, the
size tokio gives a broadcast buffer, and the JSON form of a quota record.
-/
import FerrisKv.Core.Error

namespace FerrisKv

/-- `Backend`. -/
inductive Backend where
  | memory
  | fjall
  deriving DecidableEq, Repr

/-- `Limits`. -/
structure Limits where
  maxKeySize : Nat := 4 * 1024
  maxValueSize : Nat := 10 * 1024 * 1024
  maxBatchOps : Nat := 1000
  maxScanLimit : Nat := 10000
  deriving DecidableEq, Repr

/-- `Quota`: `0` means unlimited, on both fields. -/
structure Quota where
  maxBytes : Nat := 0
  maxOpsPerSec : Nat := 0
  deriving DecidableEq, Repr

/-- `NodeConfig`; `quota` is `QuotaConfig`, the node-wide defaults. -/
structure NodeConfig where
  backend : Backend := .fjall
  limits : Limits := {}
  quota : Quota := {}
  watchBuffer : Nat := 1024
  watchHeartbeatSecs : Nat := 30
  walRotateBytes : Nat := 64 * 1024 * 1024
  deriving DecidableEq, Repr

/-- What `check_n` of a governor limiter answers: admitted, not yet, or
never (the request alone exceeds the capacity). -/
inductive Verdict where
  | ok
  | notYet
  | never
  deriving DecidableEq, Repr

/-- Third-party code.

`governor rate checks now cost` is the answer of a per-second limiter of
the given rate to a check of `cost` at instant `now`, after the earlier
`checks` (instant and cost, oldest first). `broadcastBuffer` is how many
messages a tokio broadcast channel of the requested capacity really
keeps. `quotaToVec` and `quotaFromSlice` are `serde_json` at `Quota`. -/
structure Externals where
  governor : Nat → List (Nat × Nat) → Nat → Nat → Verdict
  broadcastBuffer : Nat → Nat
  quotaToVec : Quota → Bytes
  quotaFromSlice : Bytes → Option Quota

/-- The simplest third-party code: every check is admitted, a channel
keeps what it was asked to keep, no quota record parses. -/
def Externals.plain : Externals where
  governor _ _ _ _ := .ok
  broadcastBuffer n := n
  quotaToVec _ := []
  quotaFromSlice _ := none

end FerrisKv
