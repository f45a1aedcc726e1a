/-
The index of scheduled expirations (`ferriskv-node/src/ttl.rs`): a
`BTreeMap` from expiry to the set of keys expiring then, with a running
total. `permit` is the one stored permit of its tokio `Notify`.

`schedule` is two steps in the source, an insertion under the lock and a
`notify_one` after it, and stays two primitives here.
-/
import FerrisKv.Core.Error

namespace FerrisKv

open Std

/-- `TtlIndex`. -/
structure TtlIndex where
  byExpiry : ExtTreeMap Nat (ExtTreeSet Bytes)
  total : Nat
  permit : Bool

namespace TtlIndex

/-- `TtlIndex::new`. -/
def new : TtlIndex := ⟨∅, 0, false⟩

/-- The keys scheduled for one expiry. -/
def bucket (g : TtlIndex) (expiresAtMs : Nat) : ExtTreeSet Bytes :=
  g.byExpiry[expiresAtMs]?.getD ∅

/-- `TtlIndex::next_due_ms`. -/
def nextDueMs (g : TtlIndex) : Option Nat := g.byExpiry.keys.head?

/-- The locked part of `TtlIndex::schedule`; the answer says whether the
sweeper has to be woken. -/
def insert (g : TtlIndex) (key : Bytes) (expiresAtMs : Nat) :
    Bool × TtlIndex :=
  let wasEarliest := g.nextDueMs
  let inserted := !(g.bucket expiresAtMs).contains key
  let wake := match wasEarliest with
    | none => true
    | some prev => decide (expiresAtMs < prev)
  (wake,
    { g with
      byExpiry :=
        g.byExpiry.insert expiresAtMs ((g.bucket expiresAtMs).insert key)
      total := if inserted then g.total + 1 else g.total })

/-- `TtlIndex::schedule`, undisturbed between its two steps. -/
def schedule (g : TtlIndex) (key : Bytes) (expiresAtMs : Nat) : TtlIndex :=
  let (wake, g') := g.insert key expiresAtMs
  if wake then { g' with permit := true } else g'

/-- The `while let` loop of `drain_due`, one bucket a turn. -/
def drainLoop (nowMs : Nat) :
    Nat → ExtTreeMap Nat (ExtTreeSet Bytes) →
      List Bytes × ExtTreeMap Nat (ExtTreeSet Bytes)
  | 0, m => ([], m)
  | fuel + 1, m =>
      match m.toList with
      | [] => ([], m)
      | (ts, keys) :: _ =>
          if ts > nowMs then ([], m)
          else
            let (out, m') := drainLoop nowMs fuel (m.erase ts)
            (keys.toList ++ out, m')

/-- `TtlIndex::drain_due`: there are no more turns than buckets. -/
def drainDue (g : TtlIndex) (nowMs : Nat) : List Bytes × TtlIndex :=
  let (out, m) := drainLoop nowMs g.byExpiry.size g.byExpiry
  (out, { g with byExpiry := m, total := g.total - out.length })

/-- `TtlIndex::len`. -/
def len (g : TtlIndex) : Nat := g.total

/-- `TtlIndex::is_empty`. -/
def isEmpty (g : TtlIndex) : Bool := g.len == 0

/-- The index schedules `key` at `expiresAtMs`. -/
def Scheduled (g : TtlIndex) (key : Bytes) (expiresAtMs : Nat) : Prop :=
  key ∈ g.bucket expiresAtMs

end TtlIndex

-- ============================================================= primitives

/-- The index calls a program can make, each one atomic step. -/
inductive TtlPrim where
  | insert (key : Bytes) (expiresAtMs : Nat)
  | notifyOne
  | drainDue (nowMs : Nat)
  deriving DecidableEq, Repr

/-- What an index call answers. -/
@[reducible] def TtlPrim.Resp : TtlPrim → Type
  | .insert _ _ => Bool
  | .notifyOne => Unit
  | .drainDue _ => List Bytes

/-- Perform an index call. -/
def TtlPrim.exec : (p : TtlPrim) → TtlIndex → p.Resp × TtlIndex
  | .insert key expiresAtMs, g => g.insert key expiresAtMs
  | .notifyOne, g => ((), { g with permit := true })
  | .drainDue nowMs, g => g.drainDue nowMs

end FerrisKv
