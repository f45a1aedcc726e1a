/-
Rate limiters (`ferriskv-node/src/throttle.rs`), one map entry per tenant.

An `Arc<Entry>` outlives its place in the map, so each tenant keeps every
limiter ever built for it and the map entry names the current one: a
caller that fetched an entry just before it was replaced still charges
the old limiter. A limiter is its rate and the checks made on it; what
these decide is `Externals.governor`.
-/
import FerrisKv.Node.Config

namespace FerrisKv

open Std

/-- `Entry`. -/
structure Limiter where
  opsPerSec : Nat
  checks : List (Nat × Nat)
  deriving DecidableEq, Repr

/-- One tenant's limiters, and which of them the map holds. -/
structure TenantLimiters where
  current : Option Nat
  entries : List Limiter
  deriving DecidableEq, Repr

/-- `Throttle`; its default rate is the configuration's. -/
structure Throttle where
  limiters : ExtTreeMap String TenantLimiters

namespace Throttle

/-- `Throttle::new`. -/
def new : Throttle := ⟨∅⟩

/-- A tenant's limiters; none before its first check. -/
def tenant (t : Throttle) (name : String) : TenantLimiters :=
  t.limiters[name]?.getD ⟨none, []⟩

/-- Replace a tenant's limiters. -/
def set (t : Throttle) (name : String) (ls : TenantLimiters) : Throttle :=
  ⟨t.limiters.insert name ls⟩

theorem tenant_set (t : Throttle) (name name' : String)
    (ls : TenantLimiters) :
    (t.set name ls).tenant name' = if name = name' then ls else t.tenant name' := by
  unfold tenant set
  simp only [ExtTreeMap.getElem?_insert, Std.compare_eq_iff_eq]
  split <;> rfl

end Throttle

-- ============================================================= primitives

/-- The steps of `Throttle::check`: the map lookup, the map insert and
the limiter's own check. -/
inductive ThrottlePrim where
  | lookup (tenant : String)
  | insert (tenant : String) (rate : Nat)
  | check (tenant : String) (entry cost : Nat)
  deriving DecidableEq, Repr

/-- What a throttle step answers; an entry is named by its index among the
tenant's limiters. -/
@[reducible] def ThrottlePrim.Resp : ThrottlePrim → Type
  | .lookup _ => Option (Nat × Nat)
  | .insert _ _ => Nat
  | .check _ _ _ => Verdict

/-- Perform a throttle step at the given instant. -/
def ThrottlePrim.exec (ext : Externals) (instant : Nat) :
    (p : ThrottlePrim) → Throttle → p.Resp × Throttle
  | .lookup name, t =>
      let ls := t.tenant name
      (ls.current.bind fun i => ls.entries[i]?.map fun l => (i, l.opsPerSec), t)
  | .insert name rate, t =>
      let ls := t.tenant name
      (ls.entries.length,
        t.set name ⟨some ls.entries.length, ls.entries ++ [⟨rate, []⟩]⟩)
  | .check name i cost, t =>
      let ls := t.tenant name
      match ls.entries[i]? with
      | none => (.never, t)
      | some l =>
          (ext.governor l.opsPerSec l.checks instant cost,
            t.set name { ls with
              entries := ls.entries.set i
                { l with checks := l.checks ++ [(instant, cost)] } })

end FerrisKv
