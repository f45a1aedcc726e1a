/-
How a call keeps the books: read the old entry, write the new one, pay
the difference.

Accounting is three steps that belong together and are nowhere under one
lock: a storage read, the storage write, and the counter update by a
delta computed from the read. `Ledger` follows one call through them from
its own steps alone. Every call of the node keeps its discipline
(`prog_ledger`): it writes data only under the key it has just read, pays
exactly the difference of the two shares, and reads nothing else before
it has paid. Whether the entry is still the one that was read when the
write comes is not the call's to say.
-/
import FerrisKv.Node.Machine
import FerrisKv.Proofs.Node.Footprint
import FerrisKv.Proofs.Node.StoredBytes

namespace FerrisKv

open Prog NodeService

-- =============================================================== the ledger

/-- Where a call is with its accounting: nothing to rely on and nothing
due, an entry read, or a delta due to a tenant's counter. -/
inductive Ledger where
  | settled
  | saw (key : Bytes) (entry : Option Bytes)
  | owing (tenant : String) (delta : Int)

namespace Ledger

/-- What is due to `t`'s counter. -/
def debt (t : String) : Ledger → Int
  | .owing tenant delta => if tenant = t then delta else 0
  | _ => 0

/-- Nothing is due. -/
def Clear (g : Ledger) : Prop := ∀ t, g.debt t = 0

/-- Data written over the entry that was read makes the difference due. -/
def write (g : Ledger) (key : Bytes) (new : Option Bytes) : Ledger :=
  match KeyCodec.decode key, g with
  | .ok (tenant, .data, _), .saw _ old =>
      .owing tenant ((share tenant key new : Int) - share tenant key old)
  | _, g => g

/-- What a step of the call does to its ledger. -/
def advance (g : Ledger) : (p : Prim) → p.Resp → Ledger
  | .storage (.get key), .ok entry => .saw key entry
  | .storage (.put key value), .ok () => g.write key (some value)
  | .storage (.delete key), .ok () => g.write key none
  | .quota (.adjust _ _), _ => .settled
  | _, _ => g

end Ledger

/-- The steps that neither move a counter or the data nor read an
entry. -/
def Prim.Unaccounted : Prim → Prop
  | .storage (.get _) => False
  | .storage (.put _ _) => False
  | .storage (.delete _) => False
  | .quota (.adjust _ _) => False
  | .quota (.resetUsage _) => False
  | _ => True

/-- The steps a call takes at each point of its accounting. -/
inductive Ledger.Ok : Ledger → Prim → Prop where
  | get {g : Ledger} {key : Bytes} (h : g.Clear) : Ok g (.storage (.get key))
  | put {key value : Bytes} {entry : Option Bytes} :
      Ok (.saw key entry) (.storage (.put key value))
  | delete {key : Bytes} {entry : Option Bytes} :
      Ok (.saw key entry) (.storage (.delete key))
  | putAside {g : Ledger} {key value : Bytes} (h : ¬ IsData key) :
      Ok g (.storage (.put key value))
  | deleteAside {g : Ledger} {key : Bytes} (h : ¬ IsData key) :
      Ok g (.storage (.delete key))
  | adjust {tenant : String} {delta : Int} :
      Ok (.owing tenant delta) (.quota (.adjust tenant delta))
  | other {g : Ledger} {p : Prim} (h : p.Unaccounted) : Ok g p

/-- The discipline's rules. -/
abbrev ledgerRules : Rules Ledger Prim Prim.Resp :=
  .ghost Ledger.Ok Ledger.advance

section Programs

variable {g : Ledger} {α : Type}

/-- Having looked is owing nothing. -/
theorem Ledger.clear_saw (key : Bytes) (entry : Option Bytes) :
    (Ledger.saw key entry).Clear := fun _ => rfl

/-- A debt is owed to one tenant. -/
theorem Ledger.debt_owing (t tenant : String) (delta : Int) :
    (Ledger.owing tenant delta).debt t = if tenant = t then delta else 0 :=
  rfl

/-- The counter moves by what is due and by nothing else. -/
theorem Ledger.Ok.eq_owing {tenant : String} {delta : Int}
    (h : g.Ok (.quota (.adjust tenant delta))) : g = .owing tenant delta := by
  cases h with
  | adjust => rfl
  | other hp => exact hp.elim

/-- A write to no data makes no debt. -/
theorem Ledger.write_of_not_data {key : Bytes} (h : ¬ IsData key)
    (new : Option Bytes) : g.write key new = g := by
  unfold Ledger.write
  split
  · next hd => exact absurd ⟨_, _, hd⟩ h
  · rfl

/-- What a write makes due is the difference of the shares. -/
theorem Ledger.debt_write (key : Bytes) (old new : Option Bytes)
    (t : String) :
    ((Ledger.saw key old).write key new).debt t
      = (share t key new : Int) - share t key old := by
  by_cases hd : IsData key
  · obtain ⟨tenant, payload, hd⟩ := hd
    unfold Ledger.write
    simp only [hd, Ledger.debt]
    split
    · next ht => rw [ht]
    · next ht => rw [share_of_ne hd ht, share_of_ne hd ht, sub_self]
  · rw [Ledger.write_of_not_data hd, share_of_not_data hd,
      share_of_not_data hd]
    rfl

-- ============================================================ other steps

/-- Such a step leaves the ledger alone. -/
theorem Prim.Unaccounted.advance {p : Prim} (h : p.Unaccounted)
    (a : p.Resp) : g.advance p a = g := by
  cases p with
  | storage q => cases q <;> first | rfl | exact h.elim
  | quota q => cases q <;> first | rfl | exact h.elim
  | _ => rfl

theorem Prim.OnWatch.unaccounted {p : Prim} (h : p.OnWatch) :
    p.Unaccounted := by
  obtain ⟨q, rfl⟩ := h
  exact trivial

theorem Prim.Schedules.unaccounted {p : Prim} (h : p.Schedules) :
    p.Unaccounted := by
  obtain ⟨k, e, rfl⟩ | rfl := h
  · exact trivial
  · exact trivial

theorem Prim.ReadsQuota.unaccounted {p : Prim} (h : p.ReadsQuota) :
    p.Unaccounted := by
  obtain ⟨t, rfl⟩ | ⟨t, rfl⟩ := h
  · exact trivial
  · exact trivial

theorem Prim.Rotates.unaccounted {p : Prim} (h : p.Rotates) :
    p.Unaccounted := by
  obtain rfl | rfl | rfl | rfl := h <;> exact trivial

theorem wp_unaccounted {x : NodeProg α} (hx : x.Uses Prim.Unaccounted) :
    wp ledgerRules (fun g' _ => g' = g) x g := by
  refine wp_of_uses (I := fun g' => g' = g) ?_ (fun _ _ hI => hI) hx rfl
  rintro _ p rfl hp
  exact ⟨.other hp, hp.advance⟩

-- ================================================================ planning

/-- What `plan` says is due. -/
def Owes (plan : Option Accounting) (g : Ledger) : Prop :=
  match plan with
  | none => g.Clear
  | some plan => g = .owing plan.tenant plan.delta

/-- `plan` is what writing `new` under `key` will make due. -/
structure Planned (key : Bytes) (new : Option Bytes)
    (plan : Option Accounting) (g : Ledger) : Prop where
  clear : g.Clear
  saw : IsData key → ∃ entry, g = .saw key entry
  owes : Owes plan (g.write key new)

/-- A plan, or an error with nothing due. -/
def Plan (key : Bytes) (new : Option Bytes) (g : Ledger) :
    Result (Option Accounting) → Prop
  | .ok plan => Planned key new plan g
  | .error _ => g.Clear

/-- A key that is no data plans nothing, and owes nothing. -/
private theorem planned_of_not_data {key : Bytes} (h : ¬ IsData key)
    (new : Option Bytes) (hg : g.Clear) : Planned key new none g := by
  refine ⟨hg, fun hd => absurd hd h, ?_⟩
  rw [Ledger.write_of_not_data h]
  exact hg

/-- The sizes the source computes are the shares. -/
theorem write_saw_owing {key payload : Bytes} {tenant : String}
    (hd : KeyCodec.decode key = .ok (tenant, .data, payload))
    {old new : Option Bytes} {a b : Nat}
    (ha : previousBytes payload.length old = .ok a)
    (hb : previousBytes payload.length new = .ok b) :
    (Ledger.saw key old).write key new = .owing tenant ((b : Int) - a) := by
  unfold Ledger.write
  simp only [hd, share_of_previousBytes hd ha, share_of_previousBytes hd hb,
    if_true]

/-- `plan_accounting` plans for the write it is given. -/
theorem planAccounting_ledger {key encoded : Bytes} {len : Nat}
    (henc : ValueCodec.payloadLen encoded = .ok len) (hg : g.Clear) :
    wp ledgerRules (Plan key (some encoded)) (planAccounting key len).run
      g := by
  refine wp_planAccounting_of
    (fun h => planned_of_not_data (not_isData_iff.mpr h) _ hg)
    fun tenant payload hd => ⟨.get hg, fun r => ?_⟩
  cases r with
  | error e => exact hg
  | ok current =>
      show Plan key _ (.saw key current) (putPlan tenant payload len current)
      cases hp : previousBytes payload.length current with
      | error e =>
          rw [putPlan_of_error hp]
          exact Ledger.clear_saw _ _
      | ok previous =>
          rw [putPlan_of_ok hp]
          exact ⟨Ledger.clear_saw _ _, fun _ => ⟨current, rfl⟩,
            write_saw_owing hd hp (previousBytes_of_payloadLen henc _)⟩

/-- `plan_delete_accounting` plans for the removal. -/
theorem planDelete_ledger {key : Bytes} (hg : g.Clear) :
    wp ledgerRules (Plan key none) (planDeleteAccounting key).run g := by
  refine wp_planDeleteAccounting_of
    (fun h => planned_of_not_data (not_isData_iff.mpr h) _ hg)
    fun tenant payload hd => ⟨.get hg, fun r => ?_⟩
  rcases r with e | _ | raw
  · exact hg
  · -- nothing stored: the removal changes nothing, and nothing is due
    refine ⟨Ledger.clear_saw _ _, fun _ => ⟨none, rfl⟩, fun t => ?_⟩
    show ((Ledger.saw key none).write key none).debt t = 0
    rw [write_saw_owing (a := 0) (b := 0) hd rfl rfl]
    simp [Ledger.debt]
  · show Plan key _ (.saw key (some raw)) (deletePlan tenant payload (some raw))
    cases hp : previousBytes payload.length (some raw) with
    | error e =>
        rw [deletePlan_of_error hp]
        exact Ledger.clear_saw _ _
    | ok freed =>
        rw [deletePlan_of_ok hp]
        refine ⟨Ledger.clear_saw _ _, fun _ => ⟨_, rfl⟩, ?_⟩
        show (Ledger.saw key (some raw)).write key none = _
        rw [write_saw_owing (b := 0) hd hp rfl, Nat.cast_zero, zero_sub]

-- ============================================================== committing

/-- `commit_accounting` pays, whatever fails in it. -/
theorem commitAccounting_ledger {plan : Option Accounting}
    (h : Owes plan g) :
    wp ledgerRules (fun g' _ => g'.Clear) (commitAccounting plan) g := by
  cases plan with
  | none => exact h
  | some plan =>
      cases h
      refine wp_commitAccounting_of (fun hz t => ?_) fun a ha _ => ?_
      · simp [Ledger.debt, hz plan rfl]
      cases ha
      refine ⟨.adjust, fun total => ⟨fun _ _ _ => rfl, fun key hk => ?_⟩⟩
      have hd := not_isData_encode hk (by decide)
      refine ⟨.putAside hd, fun r => ?_⟩
      cases r with
      | error e => exact fun _ => rfl
      | ok u =>
          show (Ledger.settled.write key _).Clear
          rw [Ledger.write_of_not_data hd]
          exact fun _ => rfl

/-- The end of every write. -/
theorem settle_ledger {plan : Option Accounting} (h : Owes plan g)
    (key value : Bytes) (kind : ChangeKind) (cfg : NodeConfig) :
    wp ledgerRules (fun g' _ => g'.Clear)
      (ExceptT.run (do
        commitAccounting plan
        publishChange key kind value
        rotateWalIfNeeded cfg : NodeM Unit)) g := by
  simp only [wp_bindE, wp_lift, onResult_ok]
  refine wp_mono ?_ (commitAccounting_ledger h)
  intro g₁ _ h₁
  refine wp_mono ?_ (wp_unaccounted
    ((publishChange_uses key kind value).mono fun _ hp => hp.unaccounted))
  rintro _ _ rfl
  refine wp_mono ?_ (wp_unaccounted
    ((rotateWalIfNeeded_uses cfg).mono fun _ hp => hp.unaccounted))
  rintro _ _ rfl
  exact h₁

-- ============================================================== operations

/-- The stamp `put_with_ttl` computes fits a `u64`. -/
theorem expiryStamp_ledger (ttlMs : Nat) :
    wp ledgerRules (fun g' exp => g' = g ∧ ∀ e ∈ exp, e < 2 ^ 64)
      (expiryStamp ttlMs) g := by
  refine wp_of_yields (I := fun g' => g' = g) ?_ (fun _ _ hg he => ⟨hg, he⟩)
    (expiryStamp_yields ttlMs) rfl
  rintro _ _ rfl rfl
  exact ⟨.other trivial, fun _ => rfl⟩

/-- A put pays what it comes to owe. -/
private theorem putWithTtl_ledger (cfg : NodeConfig) (key value : Bytes)
    (ttlMs : Nat) (hg : g.Clear) :
    wp ledgerRules (fun g' _ => g'.Clear)
      (putWithTtl cfg key value ttlMs).run g := by
  unfold putWithTtl
  rw [wp_bindE, wp_lift]
  refine wp_mono ?_ (expiryStamp_ledger ttlMs)
  rintro _ exp ⟨rfl, hexp⟩
  rw [onResult_ok, wp_bindE]
  refine wp_mono ?_ (planAccounting_ledger (ValueCodec.payloadLen_encode value hexp) hg)
  rintro g₁ (e | plan) hp
  · exact hp
  rw [onResult_ok, wp_bindE]
  refine wp_mono ?_ (wp_unaccounted
    ((checkAccounting_uses plan).mono fun _ hp => hp.unaccounted))
  rintro _ (e | u) rfl
  · exact hp.clear
  rw [onResult_ok, wp_bindE]
  refine ⟨.other trivial, fun r => ?_⟩
  cases r with
  | error e => exact hp.clear
  | ok seq =>
      show wp _ _ (ExceptT.run (storagePut key _ >>= _)) _
      refine ⟨?_, fun r => ?_⟩
      · by_cases hd : IsData key
        · obtain ⟨entry, rfl⟩ := hp.saw hd
          exact .put
        · exact .putAside hd
      · cases r with
        | error e => exact hp.clear
        | ok u =>
            refine (wp_bindE _ _ _).mpr ((wp_lift _ _).mpr ?_)
            refine wp_mono ?_ (wp_unaccounted
              ((scheduleExpiry_uses key exp).mono fun _ hp => hp.unaccounted))
            rintro _ _ rfl
            exact settle_ledger hp.owes key value .put cfg

/-- So does a delete. -/
private theorem delete_ledger (cfg : NodeConfig) (key : Bytes) (hg : g.Clear) :
    wp ledgerRules (fun g' _ => g'.Clear) (delete cfg key).run g := by
  unfold delete
  rw [wp_bindE]
  refine wp_mono ?_ (planDelete_ledger hg)
  rintro g₁ (e | plan) hp
  · exact hp
  rw [onResult_ok, wp_bindE]
  refine ⟨.other trivial, fun r => ?_⟩
  cases r with
  | error e => exact hp.clear
  | ok seq =>
      show wp _ _ (ExceptT.run (storageDelete key >>= _)) _
      refine ⟨?_, fun r => ?_⟩
      · by_cases hd : IsData key
        · obtain ⟨entry, rfl⟩ := hp.saw hd
          exact .delete
        · exact .deleteAside hd
      · cases r with
        | error e => exact hp.clear
        | ok u => exact settle_ledger hp.owes key [] .delete cfg

/-- Reading an entry leaves nothing due. -/
theorem looks_ledger {p : Prim} (h : p.Looks) (hg : g.Clear) :
    ledgerRules.post g p fun _ g' => g'.Clear := by
  obtain ⟨key, rfl⟩ := h
  refine ⟨.get hg, fun r => ?_⟩
  cases r with
  | error e => exact hg
  | ok current => exact Ledger.clear_saw _ _

/-- A step off the books leaves the ledger clear. -/
theorem unaccounted_ledger {p : Prim} (h : p.Unaccounted) (hg : g.Clear) :
    ledgerRules.post g p fun _ g' => g'.Clear := by
  refine ⟨.other h, fun r => ?_⟩
  rw [h.advance]
  exact hg

/-- A read owes nothing. -/
private theorem get_ledger (key : Bytes) (hg : g.Clear) :
    wp ledgerRules (fun g' _ => g'.Clear) (get key).run g := by
  refine wp_of_uses ?_ (fun _ _ h => h) (get_uses key) hg
  rintro g p hg (rfl | hp | hp)
  · exact unaccounted_ledger trivial hg
  · exact looks_ledger hp hg
  · exact unaccounted_ledger hp.unaccounted hg

/-- A sweep is clear between its deletes. -/
private theorem sweepOnce_ledger (cfg : NodeConfig) :
    (sweepOnce cfg).Preserves ledgerRules Ledger.Clear := by
  refine sweepOnce_preserves ?_ (fun key raw => ?_)
    fun key g hg => delete_ledger cfg key hg
  · rintro g p hg (rfl | ⟨now, rfl⟩ | hp)
    · exact unaccounted_ledger trivial hg
    · exact unaccounted_ledger trivial hg
    · exact looks_ledger hp hg
  · exact (reschedule_uses key raw).preserves
      fun g p hg hp => unaccounted_ledger hp.unaccounted hg

/-- Every call keeps the books. -/
theorem prog_ledger (cfg : NodeConfig) (op : Op) :
    wp ledgerRules (fun g _ => g.Clear) (op.prog cfg) .settled := by
  have hclear : Ledger.settled.Clear := fun _ => rfl
  cases op with
  | put key value ttlMs =>
      exact (wp_map _ _ _).mpr (putWithTtl_ledger cfg key value ttlMs hclear)
  | delete key => exact (wp_map _ _ _).mpr (delete_ledger cfg key hclear)
  | get key => exact (wp_map _ _ _).mpr (get_ledger key hclear)
  | scan pre =>
      refine (wp_map _ _ _).mpr ⟨.other trivial, fun r => ?_⟩
      cases r with
      | error e => exact hclear
      | ok raw => exact ⟨.other trivial, fun _ => hclear⟩
  | scanRange start stop =>
      refine (wp_map _ _ _).mpr ⟨.other trivial, fun r => ?_⟩
      cases r with
      | error e => exact hclear
      | ok raw => exact ⟨.other trivial, fun _ => hclear⟩
  | sweep => exact (wp_map _ _ _).mpr (sweepOnce_ledger cfg _ hclear)

end Programs

end FerrisKv
