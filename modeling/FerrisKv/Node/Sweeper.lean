/-
The loop of `run_sweeper` (`ferriskv-node/src/ttl.rs`) beside the calls of
the node.

The loop computes when to wake, waits in a `select!` for that moment, for
a notification or for the shutdown signal, sweeps, and starts over. The
calls go on meanwhile, each at its own pace; a bare `TtlIndex::schedule` is
one of them. Every read of `compute_wakeup` is a step of its own.

# Time

Instants are finer than milliseconds: `perMs` of them make one. The clock
shows whole milliseconds, `(instant + offset) / perMs`; it may stop or be
set back, that is, `offset` may go down, but it is not set ahead.

# Notify

`notify_one` leaves a permit, and a waiting loop that finds the permit
takes it and goes on. Waking the waiter is leaving it a permit that nobody
else takes.
-/
import FerrisKv.Node.Machine

namespace FerrisKv

open NodeService

-- ========================================================== compute_wakeup

/-- What `compute_wakeup` reads. -/
inductive WakeupPrim where
  | instantNow
  | nextDueMs
  | nowMs
  deriving DecidableEq, Repr

/-- What a read answers. -/
@[reducible] def WakeupPrim.Resp : WakeupPrim → Type
  | .instantNow => Nat
  | .nextDueMs => Option Nat
  | .nowMs => Nat

/-- Perform a read. -/
def WakeupPrim.exec : (p : WakeupPrim) → World → p.Resp
  | .instantNow, w => w.instant
  | .nextDueMs, w => w.ttl.nextDueMs
  | .nowMs, w => w.now

/-- A program over these reads. -/
abbrev WakeupProg (α : Type) := Prog WakeupPrim WakeupPrim.Resp α

/-- `compute_wakeup`. -/
def computeWakeup (perMs fallback : Nat) : WakeupProg Nat := do
  let now ← Prog.step (R := WakeupPrim.Resp) .instantNow
  let fallbackAt := now + fallback
  match ← Prog.step (R := WakeupPrim.Resp) .nextDueMs with
  | some dueMs => do
      let clockNow ← Prog.step (R := WakeupPrim.Resp) .nowMs
      if dueMs ≤ clockNow then pure now
      else
        let delta := (dueMs - clockNow) * perMs
        pure (min (now + delta) fallbackAt)
  | none => pure fallbackAt

-- ================================================================= the loop

/-- Where `run_sweeper` is. -/
inductive SweeperPhase where
  | computing (rest : WakeupProg Nat)
  | waiting (wakeAt : Nat)
  | sweeping (rest : NodeProg Nat)
  | stopped

/-- A node with its sweeper: the calls in progress, and what relates the
clock to the instants. `since` is the instant `compute_wakeup` last read,
from which the fallback interval counts. -/
structure SweeperNode where
  world : World
  offset : Nat
  calls : List (NodeProg Unit)
  phase : SweeperPhase
  since : Nat

/-- What is fixed while it runs. -/
structure SweeperSetting where
  ext : Externals
  cfg : NodeConfig
  perMs : Nat
  fallback : Nat

/-- The beginning of `run_sweeper`. -/
def SweeperSetting.enter (S : SweeperSetting) : SweeperPhase :=
  if S.fallback = 0 then .stopped
  else .computing (computeWakeup S.perMs S.fallback)

namespace SweeperNode

/-- The steps of the node and of its sweeper. -/
inductive Step (S : SweeperSetting) : SweeperNode → SweeperNode → Prop where
  | schedule (s : SweeperNode) (key : Bytes) (expiresAtMs : Nat) :
      Step S s { s with
        calls := s.calls ++ [NodeService.schedule key expiresAtMs] }
  | call (s : SweeperNode) (op : Op) :
      Step S s { s with
        calls := s.calls ++ [(fun _ => ()) <$> op.prog S.cfg] }
  | act {s : SweeperNode} {i : Nat} {p : Prim} {k : p.Resp → NodeProg Unit}
      (fault : Option Fault) (h : s.calls[i]? = some (.act p k)) :
      Step S s { s with
        world := (p.exec S.ext fault s.world).2
        calls := s.calls.set i (k (p.exec S.ext fault s.world).1) }
  | tick {s : SweeperNode} {instant offset : Nat}
      (hi : s.world.instant ≤ instant) (ho : offset ≤ s.offset) :
      Step S s { s with
        world := s.world.tick ((instant + offset) / S.perMs) instant
        offset := offset }
  | read {s : SweeperNode} {p : WakeupPrim} {k : p.Resp → WakeupProg Nat}
      (h : s.phase = .computing (.act p k)) :
      Step S s { s with
        phase := .computing (k (p.exec s.world))
        since := if p = .instantNow then s.world.instant else s.since }
  | wait {s : SweeperNode} {wakeAt : Nat}
      (h : s.phase = .computing (.ret wakeAt)) :
      Step S s { s with phase := .waiting wakeAt }
  | timeout {s : SweeperNode} {wakeAt : Nat} (h : s.phase = .waiting wakeAt)
      (hdue : wakeAt ≤ s.world.instant) :
      Step S s { s with phase := .sweeping (sweepOnce S.cfg) }
  | notified {s : SweeperNode} {wakeAt : Nat} (h : s.phase = .waiting wakeAt)
      (hpermit : s.world.ttl.permit = true) :
      Step S s { s with
        world := { s.world with ttl := { s.world.ttl with permit := false } }
        phase := .sweeping (sweepOnce S.cfg) }
  | shutdown {s : SweeperNode} {wakeAt : Nat} (h : s.phase = .waiting wakeAt) :
      Step S s { s with phase := .stopped }
  | sweep {s : SweeperNode} {p : Prim} {k : p.Resp → NodeProg Nat}
      (fault : Option Fault) (h : s.phase = .sweeping (.act p k)) :
      Step S s { s with
        world := (p.exec S.ext fault s.world).2
        phase := .sweeping (k (p.exec S.ext fault s.world).1) }
  | swept {s : SweeperNode} {removed : Nat}
      (h : s.phase = .sweeping (.ret removed)) :
      Step S s { s with
        phase := .computing (computeWakeup S.perMs S.fallback) }

/-- The sweeper is started on a node in whatever state, its clock right. -/
def Starts (S : SweeperSetting) (s : SweeperNode) : Prop :=
  s.calls = [] ∧ s.phase = S.enter ∧ s.since ≤ s.world.instant
    ∧ s.world.now = (s.world.instant + s.offset) / S.perMs

/-- The states any interleaving reaches. -/
def Reached (S : SweeperSetting) (s : SweeperNode) : Prop :=
  ∃ s₀, Starts S s₀ ∧ Relation.ReflTransGen (Step S) s₀ s

/-- The call has scheduled a key and is about to notify. -/
def AboutToNotify (x : NodeProg Unit) : Prop :=
  ∃ k, x = .act (.ttl .notifyOne) k

end SweeperNode

end FerrisKv
