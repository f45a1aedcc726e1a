/-
The usage counters step by step (`adjust`, `apply_delta` and `used_bytes`
of `ferriskv-node/src/quota.rs`).

Elsewhere in this development a counter update is one step. In the source
it is a map lookup, perhaps an insertion, and then either one `fetch_add`
or a loop around `compare_exchange_weak`, which may also fail for no
reason. Here every one of these is a step of its own, on `u64`s that wrap.

The guards of the `DashMap` keep a shard locked from the lookup to the
return; they are left out, which only adds interleavings. The accesses are
`Relaxed`, so what is promised of one counter is the order of its own
updates; the model takes the steps on all counters in one order.
-/
import FerrisKv.Lib.Linearize
import FerrisKv.Node.Quota

namespace FerrisKv

open Std Linearize

/-- `usage: DashMap<Arc<str>, AtomicU64>`. -/
abbrev Counters := ExtTreeMap String UInt64

/-- The calls on the counters. -/
inductive CounterOp where
  | adjust (tenant : String) (delta : Int)
  | usedBytes (tenant : String)
  deriving DecidableEq, Repr

/-- Where a call is. -/
inductive CounterCall where
  /-- `adjust`, before `self.usage.get(tenant)`. -/
  | looking (tenant : String) (delta : Int)
  /-- Before `self.usage.entry(..).or_insert_with(..)`. -/
  | entering (tenant : String) (delta : Int)
  /-- At the start of `apply_delta`. -/
  | applying (tenant : String) (delta : Int)
  /-- In its loop, before the exchange. -/
  | exchanging (tenant : String) (magnitude current : UInt64)
  /-- `used_bytes`, before `self.usage.get(tenant)`. -/
  | finding (tenant : String)
  /-- Before `u.load(..)`. -/
  | loading (tenant : String)
  | returned (total : UInt64)
  deriving DecidableEq, Repr

/-- `current.saturating_sub(magnitude)`. -/
def saturatingSub (current magnitude : UInt64) : UInt64 :=
  if magnitude ≤ current then current - magnitude else 0

namespace CounterCall

/-- The first step of a call. -/
def start : CounterOp → CounterCall
  | .adjust tenant delta => .looking tenant delta
  | .usedBytes tenant => .finding tenant

/-- One step of one call. -/
inductive Step :
    CounterCall → Counters → CounterCall → Counters → Prop where
  | found {m : Counters} {t : String} {delta : Int} {c : UInt64}
      (hc : m[t]? = some c) : Step (.looking t delta) m (.applying t delta) m
  | missing {m : Counters} {t : String} {delta : Int} (hc : m[t]? = none) :
      Step (.looking t delta) m (.entering t delta) m
  | enter {m : Counters} {t : String} {delta : Int} :
      Step (.entering t delta) m (.applying t delta) (m.insertIfNew t 0)
  | fetchAdd {m : Counters} {t : String} {delta : Int} {c : UInt64}
      (hd : 0 ≤ delta) (hc : m[t]? = some c) :
      Step (.applying t delta) m (.returned (c + .ofNat delta.toNat))
        (m.insert t (c + .ofNat delta.toNat))
  | load {m : Counters} {t : String} {delta : Int} {c : UInt64}
      (hd : delta < 0) (hc : m[t]? = some c) :
      Step (.applying t delta) m (.exchanging t (.ofNat delta.natAbs) c) m
  | exchange {m : Counters} {t : String} {magnitude current : UInt64}
      (hc : m[t]? = some current) :
      Step (.exchanging t magnitude current) m
        (.returned (saturatingSub current magnitude))
        (m.insert t (saturatingSub current magnitude))
  | retry {m : Counters} {t : String} {magnitude current c : UInt64}
      (hc : m[t]? = some c) :
      Step (.exchanging t magnitude current) m (.exchanging t magnitude c) m
  | absent {m : Counters} {t : String} (hc : m[t]? = none) :
      Step (.finding t) m (.returned 0) m
  | present {m : Counters} {t : String} {c : UInt64} (hc : m[t]? = some c) :
      Step (.finding t) m (.loading t) m
  | read {m : Counters} {t : String} {c : UInt64} (hc : m[t]? = some c) :
      Step (.loading t) m (.returned c) m

/-- What a call that is through answers. -/
def Result (x : CounterCall) (total : Nat) : Prop :=
  ∃ v : UInt64, x = .returned v ∧ v.toNat = total

end CounterCall

/-- The delta is an `i64`. -/
def CounterOp.Typed : CounterOp → Prop
  | .adjust _ delta => -2 ^ 63 ≤ delta ∧ delta < 2 ^ 63
  | .usedBytes _ => True

instance : DecidablePred CounterOp.Typed
  | .adjust _ _ => inferInstanceAs (Decidable (_ ∧ _))
  | .usedBytes _ => inferInstanceAs (Decidable True)

/-- The counters, from `m` on. -/
def counters (m : Counters) : Service Counters CounterCall CounterOp Nat where
  init m' := m' = m
  accepts := CounterOp.Typed
  start := CounterCall.start
  step := CounterCall.Step
  result := CounterCall.Result
  env _ _ := False

-- ========================================================= the atomic store

/-- `QuotaStore::adjust` in one step, wrapping where `fetch_add` does. -/
def QuotaStore.wrappingAdjust (q : QuotaStore) (tenant : String)
    (delta : Int) : Nat × QuotaStore :=
  let total := applyDelta (q.usedBytes tenant) delta % 2 ^ 64
  (total, { q with usage := q.usage.insert tenant total })

/-- The quota store as an atomic object: a call is one step. -/
def atomicCounters (q : QuotaStore) :
    Object QuotaStore CounterOp Nat Nat where
  init s := s = q
  effect _ s o v s' :=
    match o with
    | .adjust tenant delta => (v, s') = s.wrappingAdjust tenant delta
    | .usedBytes tenant => (v, s') = (s.usedBytes tenant, s)
  reply _ v _ a := a = v
  env _ _ := False

end FerrisKv
