/-
What planning a write and paying for it come to, under any rules.

Almost every result about a write walks `plan_accounting`,
`plan_delete_accounting` and `commit_accounting`. The first two are one
read of the key around a pure computation, the last a step on a counter and
one on its record. The rules below say so once; what is left to a caller is
what its own rules make of those steps.
-/
import FerrisKv.Node.Service

namespace FerrisKv

open Prog NodeService LittleEndian

/-- The plan for putting `len` bytes where the entry is `current`. -/
def putPlan (tenant : String) (payload : Bytes) (len : Nat)
    (current : Option Bytes) : Result (Option Accounting) :=
  (previousBytes payload.length current).map fun previous : Nat =>
    some ⟨tenant, (entryBytes payload.length len : Int) - previous⟩

/-- The plan for deleting the entry `current`. -/
def deletePlan (tenant : String) (payload : Bytes) :
    Option Bytes → Result (Option Accounting)
  | none => .ok none
  | some raw => (previousBytes payload.length (some raw)).map
      fun freed : Nat => some ⟨tenant, -(freed : Int)⟩

section Values

variable {t : String} {payload raw : Bytes} {len n : Nat}
  {current : Option Bytes} {e : Error} {a : Accounting}

/-- A put plans the difference to the entry it replaces. -/
theorem putPlan_of_ok (h : previousBytes payload.length current = .ok n) :
    putPlan t payload len current
      = .ok (some ⟨t, (entryBytes payload.length len : Int) - n⟩) := by
  rw [putPlan, h]
  rfl

/-- An entry that cannot be sized fails the plan. -/
theorem putPlan_of_error
    (h : previousBytes payload.length current = .error e) :
    putPlan t payload len current = .error e := by
  rw [putPlan, h]
  rfl

/-- A delete plans to give back the entry. -/
theorem deletePlan_of_ok
    (h : previousBytes payload.length (some raw) = .ok n) :
    deletePlan t payload (some raw) = .ok (some ⟨t, -(n : Int)⟩) := by
  rw [deletePlan, h]
  rfl

/-- An entry that cannot be sized fails this plan too. -/
theorem deletePlan_of_error
    (h : previousBytes payload.length (some raw) = .error e) :
    deletePlan t payload (some raw) = .error e := by
  rw [deletePlan, h]
  rfl

/-- A plan is for the key's tenant. -/
theorem tenant_of_putPlan
    (h : putPlan t payload len current = .ok (some a)) : a.tenant = t := by
  cases hp : previousBytes payload.length current with
  | error e =>
      rw [putPlan_of_error hp] at h
      cases h
  | ok n =>
      rw [putPlan_of_ok hp] at h
      cases h
      rfl

/-- A plan is for the key's tenant. -/
theorem tenant_of_deletePlan
    (h : deletePlan t payload current = .ok (some a)) : a.tenant = t := by
  cases current with
  | none => cases h
  | some raw =>
      cases hp : previousBytes payload.length (some raw) with
      | error e =>
          rw [deletePlan_of_error hp] at h
          cases h
      | ok n =>
          rw [deletePlan_of_ok hp] at h
          cases h
          rfl

end Values

section Rules

variable {G : Type} {L : Rules G Prim Prim.Resp} {g : G} {key : Bytes}

section Plans

variable {Q : G → Result (Option Accounting) → Prop}
  (hother : (∀ t payload, KeyCodec.decode key ≠ .ok (t, .data, payload)) →
    Q g (.ok none))
include hother

/-- A key of no tenant's data is not planned for; of any other the entry is
read and the plan computed. -/
theorem wp_planAccounting_of {len : Nat}
    (hdata : ∀ t payload, KeyCodec.decode key = .ok (t, .data, payload) →
      L.post g (.storage (.get key)) fun r g' =>
        Q g' (Except.bind r (putPlan t payload len))) :
    wp L Q (planAccounting key len).run g := by
  unfold planAccounting
  split
  · next e hd =>
      refine hother fun t payload h => ?_
      rw [hd] at h
      cases h
  · next t s payload hd =>
      split
      · next hs =>
          refine hother fun t' payload' h => hs ?_
          rw [hd] at h
          cases h
          rfl
      · next hs =>
          rw [not_not] at hs
          subst hs
          refine L.mono (fun r g' h => ?_) (hdata t payload hd)
          cases r with
          | error e => exact h
          | ok current =>
              replace h : Q g' (putPlan t payload len current) := h
              show wp L Q (ExceptT.run (ofResult _ >>= _)) g'
              cases hp : previousBytes payload.length current with
              | error e =>
                  rw [putPlan_of_error hp] at h
                  exact h
              | ok n =>
                  rw [putPlan_of_ok hp] at h
                  exact h

/-- `plan_delete_accounting` reads the entry of a data key, and nothing
otherwise. -/
theorem wp_planDeleteAccounting_of
    (hdata : ∀ t payload, KeyCodec.decode key = .ok (t, .data, payload) →
      L.post g (.storage (.get key)) fun r g' =>
        Q g' (Except.bind r (deletePlan t payload))) :
    wp L Q (planDeleteAccounting key).run g := by
  unfold planDeleteAccounting
  split
  · next e hd =>
      refine hother fun t payload h => ?_
      rw [hd] at h
      cases h
  · next t s payload hd =>
      split
      · next hs =>
          refine hother fun t' payload' h => hs ?_
          rw [hd] at h
          cases h
          rfl
      · next hs =>
          rw [not_not] at hs
          subst hs
          refine L.mono (fun r g' h => ?_) (hdata t payload hd)
          rcases r with e | _ | raw
          · exact h
          · exact h
          · replace h : Q g' (deletePlan t payload (some raw)) := h
            show wp L Q (ExceptT.run (ofResult _ >>= _)) g'
            cases hp : previousBytes payload.length (some raw) with
            | error e =>
                rw [deletePlan_of_error hp] at h
                exact h
            | ok n =>
                rw [deletePlan_of_ok hp] at h
                exact h

end Plans

/-- The counter moves and its record follows, whatever the record's write
answers. -/
theorem wp_commitAccounting_of {plan : Option Accounting}
    {Q : G → Unit → Prop} (hnothing : (∀ a ∈ plan, a.delta = 0) → Q g ())
    (hpay : ∀ a ∈ plan, a.delta ≠ 0 →
      L.post g (.quota (.adjust a.tenant a.delta)) fun total g₁ =>
        (∀ e, KeyCodec.encode a.tenant .stats usageKey = .error e → Q g₁ ())
          ∧ ∀ k, KeyCodec.encode a.tenant .stats usageKey = .ok k →
            L.post g₁ (.storage (.put k (ValueCodec.encode (beBytes 8 total)
              none))) fun _ g₂ => Q g₂ ()) :
    wp L Q (commitAccounting plan) g := by
  cases plan with
  | none => exact hnothing nofun
  | some a =>
      refine (wp_bind _ _ _).mpr ?_
      show wp L (fun g' _ => Q g' ()) (quotaApply a.tenant a.delta).run g
      unfold quotaApply
      split
      · next hz =>
          refine hnothing fun a' ha => ?_
          cases ha
          exact hz
      · next hz =>
          refine L.mono (fun total g₁ h => ?_) (hpay a rfl hz)
          show wp L _ (ExceptT.run (ofResult _ >>= _)) g₁
          cases hk : KeyCodec.encode a.tenant .stats usageKey with
          | error e => exact h.1 e hk
          | ok k => exact h.2 k hk

end Rules

end FerrisKv
