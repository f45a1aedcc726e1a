/-
The rate a tenant is held to, and the rate it is told.

`Throttle::check` resolves the node's default a second time: a tenant whose
own record says 0 is reported as unlimited by `usage_of`, and charged at the
node's default all the same. `Applies` is what it means that `admit` applies
a limit: whatever the cost, it answers and does what charging at that limit
does. The limit applied is `rateLimit`, and no other (`applies_iff`).
-/
import FerrisKv.Node.Service

namespace FerrisKv

open Prog NodeService

/-- The rate `admit` holds a tenant to. -/
def rateLimit (cfg : NodeConfig) (w : World) (t : String) : Nat :=
  if (w.quotas.quota t).maxOpsPerSec > 0 then
    (w.quotas.quota t).maxOpsPerSec
  else cfg.quota.maxOpsPerSec

/-- What `Throttle::check` does once the limit is known. -/
def chargeAt (tenant : String) (limit cost : Nat) : NodeM Unit :=
  if limit = 0 ∨ cost = 0 then pure ()
  else do
    let entry ← throttleEntry tenant limit
    match ← ((ThrottlePrim.check tenant entry cost).call :
      NodeProg Verdict) with
    | .ok => pure ()
    | .notYet => throw (.rateLimited tenant limit)
    | .never => throw (.config
        s!"request costs {cost} operations, above the {limit} per second allowed for {tenant}")

/-- The rate is the tenant's own, or the node's default. -/
theorem throttleCheck_eq (cfg : NodeConfig) (t : String) (ops cost : Nat) :
    throttleCheck cfg t ops cost
      = chargeAt t (if ops > 0 then ops else cfg.quota.maxOpsPerSec) cost := rfl

/-- The rate of the limiter the map holds for a tenant. -/
def Throttle.rate (th : Throttle) (t : String) : Option Nat :=
  (th.tenant t).current.bind fun i =>
    (th.tenant t).entries[i]?.map Limiter.opsPerSec

/-- The limiter a call has fetched: the tenant's current one, at the rate
asked for, behind the limiters that were there. -/
structure Fetched (before : Throttle) (t : String) (rate : Nat)
    (th : Throttle) (i : Nat) (l : Limiter) : Prop where
  entry : (th.tenant t).entries[i]? = some l
  current : (th.tenant t).current = some i
  rate : l.opsPerSec = rate
  behind : (before.tenant t).entries <+: (th.tenant t).entries

-- ============================================================== the limiter

section Limiter

variable {ext : Externals} {cfg : NodeConfig} {w : World} {t : String}
  {rate limit cost : Nat}

/-- A limiter that is not there is made, full. -/
private theorem fetched_insert (th : Throttle) (t : String) (rate : Nat) :
    Fetched th t rate (th.set t ⟨some (th.tenant t).entries.length,
        (th.tenant t).entries ++ [⟨rate, []⟩]⟩)
      (th.tenant t).entries.length ⟨rate, []⟩ := by
  refine ⟨?_, ?_, rfl, ?_⟩ <;> rw [Throttle.tenant_set, if_pos rfl]
  · exact List.getElem?_concat_length
  · exact List.prefix_append _ _

/-- Whether found or made, there is one limiter to ask. -/
private theorem throttleEntry_run :
    ∃ th i l, (throttleEntry t rate).run (Prim.exec ext none) w
        = (i, { w with throttle := th })
      ∧ Fetched w.throttle t rate th i l := by
  have hfresh : ∃ th i l,
      ((ThrottlePrim.insert t rate).call.run (Prim.exec ext none) w
        = (i, { w with throttle := th })) ∧ Fetched w.throttle t rate th i l :=
    ⟨_, _, _, rfl, fetched_insert w.throttle t rate⟩
  have hlookup : (ThrottlePrim.lookup t).call.run (Prim.exec ext none) w
      = ((w.throttle.tenant t).current.bind fun i =>
          (w.throttle.tenant t).entries[i]?.map fun l => (i, l.opsPerSec), w) :=
    rfl
  unfold throttleEntry
  rw [run_bind, hlookup]
  -- without a limiter, or with one built for another rate, a new one takes
  -- its place
  rcases hc : (w.throttle.tenant t).current.bind fun i =>
    (w.throttle.tenant t).entries[i]?.map fun l => (i, l.opsPerSec) with _ | ⟨i, r⟩
  · simp only [hc]
    exact hfresh
  · by_cases hr : r = rate
    · obtain ⟨j, hcur, hj⟩ := Option.bind_eq_some_iff.mp hc
      obtain ⟨l, hl, he⟩ := Option.map_eq_some_iff.mp hj
      cases he
      refine ⟨w.throttle, i, l, ?_, hl, hcur, hr, List.prefix_refl _⟩
      simp only [hc, hr, if_true]
      rfl
    · simp only [hc, hr, if_false]
      exact hfresh

section Check

variable {before th : Throttle} {i : Nat} {l : Limiter}

/-- What a check leaves of the tenant's limiters. -/
theorem Fetched.check (h : Fetched before t rate th i l) (instant : Nat) :
    ((ThrottlePrim.check t i cost).exec ext instant th).2.tenant t
      = ⟨some i, (th.tenant t).entries.set i
          ⟨rate, l.checks ++ [(instant, cost)]⟩⟩ := by
  have hexec : ((ThrottlePrim.check t i cost).exec ext instant th).2
      = th.set t ⟨(th.tenant t).current, (th.tenant t).entries.set i
          ⟨l.opsPerSec, l.checks ++ [(instant, cost)]⟩⟩ := by
    unfold ThrottlePrim.exec
    simp only [h.entry]
  rw [hexec, Throttle.tenant_set, if_pos rfl, h.current, h.rate]

/-- Recording a check changes the tenant's limiters. -/
theorem Fetched.check_ne (h : Fetched before t rate th i l) (instant : Nat) :
    ((ThrottlePrim.check t i cost).exec ext instant th).2.tenant t
      ≠ before.tenant t := by
  rw [h.check]
  intro heq
  have hset : (th.tenant t).entries.set i
      ⟨rate, l.checks ++ [(instant, cost)]⟩
      = (before.tenant t).entries := congrArg TenantLimiters.entries heq
  -- nothing was added, so the limiter charged is one that was there
  have hlen := congrArg List.length hset
  rw [List.length_set] at hlen
  rw [h.behind.eq_of_length hlen.symm] at hset
  have hi : i < (th.tenant t).entries.length :=
    (List.getElem?_eq_some_iff.mp h.entry).1
  have hget := congrArg (fun ls => ls[i]?) hset
  simp only [List.getElem?_set_self hi, h.entry, Option.some.injEq] at hget
  have hchecks := congrArg (fun x => x.checks.length) hget
  simp at hchecks

/-- The map holds the limiter that was charged. -/
theorem Fetched.check_rate (h : Fetched before t rate th i l)
    (instant : Nat) :
    ((ThrottlePrim.check t i cost).exec ext instant th).2.rate t
      = some rate := by
  have hi : i < (th.tenant t).entries.length :=
    (List.getElem?_eq_some_iff.mp h.entry).1
  rw [Throttle.rate, h.check, Option.bind_some, List.getElem?_set_self hi]
  rfl

end Check

/-- No limit or no cost is no check. -/
theorem chargeAt_free (h : limit = 0 ∨ cost = 0) :
    chargeAt t limit cost = pure () := if_pos h

/-- Otherwise the limiter of that rate is asked, and remembers being asked. -/
theorem chargeAt_run (hlimit : limit ≠ 0) (hcost : cost ≠ 0) :
    ∃ th i l, Fetched w.throttle t limit th i l
      ∧ ((chargeAt t limit cost).run.run (Prim.exec ext none) w).2
        = { w with throttle := ((ThrottlePrim.check t i cost).exec ext
            w.instant th).2 } := by
  obtain ⟨th, i, l, hentry, hf⟩ := @throttleEntry_run ext w t limit
  refine ⟨th, i, l, hf, ?_⟩
  unfold chargeAt
  rw [if_neg (by rintro (h | h) <;> contradiction), run_bindE, run_lift,
    hentry]
  simp only
  rw [run_bindE, run_lift]
  simp only [run_step]
  -- whatever the verdict, nothing more happens
  split <;> rfl

-- ====================================================== the limit applied

variable (ext cfg w t) in
/-- In the state `w` the limit that `admit` applies to the tenant is
`limit`. -/
def Applies (limit : Nat) : Prop :=
  ∀ cost, (admitOps cfg t cost).run.run (Prim.exec ext none) w
    = (chargeAt t limit cost).run.run (Prim.exec ext none) w

/-- Charging at one limit is not charging at another. -/
theorem chargeAt_inj {limit' : Nat}
    (h : ((chargeAt t limit 1).run.run (Prim.exec ext none) w).2
      = ((chargeAt t limit' 1).run.run (Prim.exec ext none) w).2) :
    limit = limit' := by
  have hidle : ∀ n, n = 0 →
      ((chargeAt t n 1).run.run (Prim.exec ext none) w).2 = w := by
    rintro n rfl
    rfl
  by_cases hz : limit = 0 <;> by_cases hz' : limit' = 0
  · rw [hz, hz']
  · obtain ⟨th, i, l, hf, hrun⟩ := @chargeAt_run ext w t _ 1 hz' one_ne_zero
    rw [hidle _ hz, hrun] at h
    exact absurd (congrArg (fun w => w.throttle.tenant t) h).symm
      (hf.check_ne w.instant)
  · obtain ⟨th, i, l, hf, hrun⟩ := @chargeAt_run ext w t _ 1 hz one_ne_zero
    rw [hidle _ hz', hrun] at h
    exact absurd (congrArg (fun w => w.throttle.tenant t) h)
      (hf.check_ne w.instant)
  · obtain ⟨th, i, l, hf, hrun⟩ := @chargeAt_run ext w t _ 1 hz one_ne_zero
    obtain ⟨th', i', l', hf', hrun'⟩ :=
      @chargeAt_run ext w t _ 1 hz' one_ne_zero
    rw [hrun, hrun'] at h
    have hrate := congrArg (fun w => w.throttle.rate t) h
    simp only [hf.check_rate, hf'.check_rate, Option.some.injEq] at hrate
    exact hrate

/-- The rate applied is the one configured. -/
private theorem applies_iff :
    Applies ext cfg w t limit ↔ rateLimit cfg w t = limit := by
  have hcharge : ∀ cost, (admitOps cfg t cost).run.run (Prim.exec ext none) w
      = (chargeAt t (rateLimit cfg w t) cost).run.run (Prim.exec ext none) w :=
    fun _ => rfl
  constructor
  · intro h
    have hone := h 1
    rw [hcharge] at hone
    exact chargeAt_inj (congrArg Prod.snd hone)
  · rintro rfl
    exact hcharge

end Limiter

-- ============================================================ administration

/-- A change of a tenant's own limits. -/
inductive QuotaCall where
  | set (tenant : String) (quota : Quota)
  | clear (tenant : String)
  deriving DecidableEq, Repr

/-- The program of such a call. -/
def QuotaCall.prog (ext : Externals) : QuotaCall → NodeM Unit
  | .set tenant quota => setQuota ext tenant quota
  | .clear tenant => clearQuota tenant

/-- The node after the calls, one after the other. -/
def administered (ext : Externals) (calls : List QuotaCall) (w : World) :
    World :=
  calls.foldl (fun w c => ((c.prog ext).run.run (Prim.exec ext none) w).2) w

section Administration

variable {ext : Externals} {cfg : NodeConfig} {w : World} {t : String}

/-- No program changes the node's default. -/
theorem run_defaultQuota {α : Type} (x : NodeProg α) (w : World) :
    (x.run (Prim.exec ext none) w).2.quotas.defaultQuota
      = w.quotas.defaultQuota := by
  induction x generalizing w with
  | ret a => rfl
  | act p k ih =>
      refine (ih _ (p.exec ext none w).2).trans ?_
      cases p with
      | quota q => cases q <;> rfl
      | _ => rfl

/-- The operator's calls do not touch the node's default. -/
private theorem administered_defaultQuota (calls : List QuotaCall) :
    ∀ w, (administered ext calls w).quotas.defaultQuota
      = w.quotas.defaultQuota := by
  induction calls with
  | nil => exact fun _ => rfl
  | cons c rest ih =>
      exact fun w => (ih _).trans (run_defaultQuota (c.prog ext).run w)

variable (ext cfg w t) in
/-- The limit applied is the one `usage_of` reports, and a reported 0 means
that nothing is refused. -/
def RateAsReported : Prop :=
  Applies ext cfg w t (w.quotas.usageOf t).maxOpsPerSec
    ∧ ((w.quotas.usageOf t).maxOpsPerSec = 0 →
      ∀ cost, ((admitOps cfg t cost).run.run (Prim.exec ext none) w).1
        = .ok ())

/-- What is reported is applied unless a tenant's zero hides a default. -/
private theorem rateAsReported_iff : RateAsReported ext cfg w t
    ↔ (w.quotas.usageOf t).maxOpsPerSec ≠ 0 ∨ cfg.quota.maxOpsPerSec = 0 := by
  have hlimit : rateLimit cfg w t = if (w.quotas.usageOf t).maxOpsPerSec > 0
      then (w.quotas.usageOf t).maxOpsPerSec else cfg.quota.maxOpsPerSec := rfl
  constructor
  · rintro ⟨happlies, -⟩
    have heq := applies_iff.mp happlies
    rw [hlimit] at heq
    split at heq <;> omega
  · intro h
    have happlies : Applies ext cfg w t (w.quotas.usageOf t).maxOpsPerSec := by
      refine applies_iff.mpr ?_
      rw [hlimit]
      split <;> omega
    refine ⟨happlies, fun hzero cost => ?_⟩
    rw [happlies cost, hzero, chargeAt_free (.inl rfl)]
    rfl

end Administration

/-- The rate enforced is the rate reported, for a node started on any data
directory, after any changes of limits, exactly for the tenants that are
told a limit, or everybody if the node has no default. -/
theorem rate_enforced_as_reported (ext : Externals) (cfg : NodeConfig)
    (now instant : Nat) (storage : StorageBackend) (file : Bytes)
    (calls : List QuotaCall) (t : String) :
    let w := administered ext calls ((NodeService.open ext).run.run
      (Prim.exec ext none) (.boot cfg now instant storage file)).2
    w.quotas.defaultQuota = cfg.quota
      ∧ (RateAsReported ext cfg w t
        ↔ (w.quotas.usageOf t).maxOpsPerSec ≠ 0
          ∨ w.quotas.defaultQuota.maxOpsPerSec = 0) := by
  intro w
  have hdefault : w.quotas.defaultQuota = cfg.quota :=
    (administered_defaultQuota calls _).trans (run_defaultQuota _ _)
  rw [hdefault]
  exact ⟨rfl, rateAsReported_iff⟩

/-- A limiter that admits a cost while the checks of the same instant leave
room for it. -/
def Externals.counting : Externals :=
  { Externals.plain with
    governor := fun rate checks now cost =>
      if cost > rate then .never
      else if ((checks.filter (·.1 = now)).map (·.2)).sum + cost ≤ rate then .ok
      else .notYet }

/-- One request a second for every tenant. -/
def slowConfig : NodeConfig := { quota := { maxOpsPerSec := 1 } }

/-- A tenant with a record of its own that says 0. -/
def unthrottled : World :=
  administered .counting [.set "a" ⟨5, 0⟩]
    ((NodeService.open .counting).run.run (Prim.exec .counting none)
      (.fresh slowConfig 0 0)).2

/-- It is told that it has no limit, and its second request is refused. -/
theorem zero_rate_refused :
    (unthrottled.quotas.usageOf "a").maxOpsPerSec = 0
      ∧ ((admitOps slowConfig "a" 1).run.run (Prim.exec .counting none)
          ((admitOps slowConfig "a" 1).run.run (Prim.exec .counting none)
            unthrottled).2).1 = .error (.rateLimited "a" 1) := by
  constructor <;> decide +kernel

end FerrisKv
