/-
When concurrent writers of one tenant exceed its byte limit, and when
they cannot.

`check_write` compares the counter with the limit and reserves nothing:
any number of writers can pass it against the same counter value before
the first of them moves the counter (`cap_exceeded`).

The limit holds in every state of a run in which every check that passes
leaves room for the growth other calls have been cleared for and not yet
counted (`stored_le_cap`). The invariant is a reservation: the counter
and the room of all calls stay within the limit, and what a call adds to
the store never exceeds its room.
-/
import FerrisKv.Proofs.Concurrent.Accounting

namespace FerrisKv

open Prog NodeService WriteLog

-- ================================================================ the calls

/-- The key a write is about. -/
def Op.key : Op → Bytes
  | .put key _ _ => key
  | .delete key => key
  | _ => []

/-- What the entry will count for after the write. -/
def Op.share (t : String) : Op → Nat
  | .put key value _ =>
      FerrisKv.share t key (some (ValueCodec.encode value none))
  | _ => 0

/-- The call is a put or delete of `t`'s data. -/
def Op.WritesDataOf (t : String) : Op → Prop
  | .put key _ _ =>
      ∃ payload, KeyCodec.decode key = .ok (t, .data, payload)
  | .delete key => ∃ payload, KeyCodec.decode key = .ok (t, .data, payload)
  | _ => False

/-- A write of a tenant's data is to data. -/
private theorem Op.WritesDataOf.isData {t : String} {op : Op}
    (h : op.WritesDataOf t) : IsData op.key := by
  cases op with
  | put key value ttlMs =>
      obtain ⟨payload, hd⟩ := h
      exact ⟨t, payload, hd⟩
  | delete key =>
      obtain ⟨payload, hd⟩ := h
      exact ⟨t, payload, hd⟩
  | get key => exact h.elim
  | scan pre => exact h.elim
  | scanRange start stop => exact h.elim
  | sweep => exact h.elim

-- ============================================================== the permit

/-- A write with its ledger and the room its check has cleared. `stray` is
set once the tenant's limit was not the expected one. -/
structure Permit where
  op : Op
  ledger : Ledger
  room : Nat
  stray : Bool

namespace Permit

/-- By how much the write would grow the tenant's data. -/
def growth (t : String) (g : Permit) : Int :=
  match g.ledger with
  | .saw key entry => (g.op.share t : Int) - FerrisKv.share t key entry
  | _ => 0

/-- What a step leaves of the room: a check that passes clears the growth,
the counter update takes it back. -/
def roomAfter (t : String) (limit : Nat) (g : Permit) :
    (p : Prim) → p.Resp → Nat
  | .quota (.usedBytes tenant), used =>
      if tenant = t ∧ saturatingAdd used (g.growth t).toNat ≤ limit then
        (g.growth t).toNat
      else g.room
  | .quota (.adjust _ _), _ => 0
  | _, _ => g.room

/-- Whether the step read another limit than the expected one. -/
def strayAfter (t : String) (limit : Nat) (g : Permit) :
    (p : Prim) → p.Resp → Bool
  | .quota (.quota tenant), quota =>
      g.stray || decide (tenant = t ∧ quota.maxBytes ≠ limit)
  | _, _ => g.stray

/-- What a step of the write does to its permit. -/
def advance (t : String) (limit : Nat) (g : Permit) (p : Prim)
    (r : p.Resp) : Permit :=
  ⟨g.op, g.ledger.advance p r, g.roomAfter t limit p r,
    g.strayAfter t limit p r⟩

end Permit

/-- The key of a storage access. -/
def Prim.accesses : Prim → Option Bytes
  | .storage (.get key) => some key
  | .storage (.put key _) => some key
  | .storage (.delete key) => some key
  | _ => none

/-- The write a step makes. -/
def Prim.writes : Prim → Option (Write Bytes Bytes)
  | .storage (.put key value) => some (.put key value)
  | .storage (.delete key) => some (.delete key)
  | _ => none

/-- What a write may do: touch no data but its own, grow it only within
its room, read the counter only while nothing is due, and leave the
quotas alone. -/
structure Permit.Ok (t : String) (g : Permit) (p : Prim) : Prop where
  own : ∀ key, p.accesses = some key → IsData key → key = g.op.key
  grow : ∀ wr entry, p.writes = some wr → IsData wr.key →
    g.ledger = .saw wr.key entry → g.stray = false →
    (share t wr.key wr.value : Int) - share t wr.key entry ≤ g.room
  clear : ∀ tenant, p = .quota (.usedBytes tenant) → g.ledger.debt t = 0
  quotas : p.KeepsLimits

/-- The discipline's rules. -/
abbrev permitRules (t : String) (limit : Nat) :
    Rules Permit Prim Prim.Resp := .ghost (Permit.Ok t) (Permit.advance t limit)

section Programs

variable {t : String} {limit : Nat} {g : Permit} {α : Type}

-- ========================================================= the easy steps

/-- A step that touches no data and reads no counter. -/
structure Prim.Harmless (p : Prim) : Prop where
  accesses : ∀ key, p.accesses = some key → ¬ IsData key
  counter : ∀ tenant, p ≠ .quota (.usedBytes tenant)
  quotas : p.KeepsLimits

/-- A write is an access. -/
theorem Prim.accesses_of_writes {p : Prim} {wr : Write Bytes Bytes}
    (h : p.writes = some wr) : p.accesses = some wr.key := by
  cases p with
  | storage q => cases q <;> cases h <;> rfl
  | _ => cases h

/-- A harmless step is permitted. -/
theorem Prim.Harmless.ok {p : Prim} (h : p.Harmless) : g.Ok t p where
  own := fun key hkey hd => absurd hd (h.accesses key hkey)
  grow := fun _ _ hw hd => absurd hd (h.accesses _ (Prim.accesses_of_writes hw))
  clear := fun tenant hp => absurd hp (h.counter tenant)
  quotas := h.quotas

theorem Prim.Schedules.harmless {p : Prim} (h : p.Schedules) :
    p.Harmless := by
  obtain ⟨k, e, rfl⟩ | rfl := h
  · exact ⟨nofun, nofun, trivial⟩
  · exact ⟨nofun, nofun, trivial⟩

theorem Prim.Settles.harmless {p : Prim} (h : p.Settles) : p.Harmless := by
  obtain (⟨t, d, rfl⟩ | ⟨t, key, value, hk, rfl⟩) | ⟨q, rfl⟩ | hr := h
  · exact ⟨nofun, nofun, trivial⟩
  · refine ⟨?_, nofun, trivial⟩
    rintro _ ⟨⟩
    exact not_isData_encode hk (by decide)
  · exact ⟨nofun, nofun, trivial⟩
  · obtain rfl | rfl | rfl | rfl := hr <;> exact ⟨nofun, nofun, trivial⟩

/-- After the storage write nothing is left to watch. -/
theorem wp_harmless {x : NodeProg α} (hx : x.Uses Prim.Harmless) :
    wp (permitRules t limit) (fun _ _ => True) x g := by
  refine wp_of_uses (I := fun _ => True) ?_ (fun _ _ _ => trivial) hx trivial
  intro g p _ hp
  exact ⟨hp.ok, fun _ => trivial⟩

-- ============================================================== operations

/-- How large the entry will be does not depend on its expiry. -/
theorem share_encode {key payload : Bytes}
    (hd : KeyCodec.decode key = .ok (t, .data, payload)) (value : Bytes)
    {exp : Option Nat} (hexp : ∀ e ∈ exp, e < 2 ^ 64) :
    share t key (some (ValueCodec.encode value exp))
      = entryBytes payload.length value.length := by
  rw [share_of_previousBytes hd (previousBytes_of_payloadLen
    (ValueCodec.payloadLen_encode value hexp) _), if_pos rfl]

/-- A stamp changes no permit. -/
private theorem expiryStamp_permit (ttlMs : Nat) :
    wp (permitRules t limit) (fun g' exp => g' = g ∧ ∀ e ∈ exp, e < 2 ^ 64)
      (expiryStamp ttlMs) g := by
  refine wp_of_yields (I := fun g' => g' = g) ?_ (fun _ _ hg he => ⟨hg, he⟩)
    (expiryStamp_yields ttlMs) rfl
  rintro _ _ rfl rfl
  exact ⟨⟨nofun, nofun, nofun, trivial⟩, fun _ => rfl⟩

/-- A plan, and the entry it was made from. -/
def PermitPlan (t : String) (key : Bytes) (g g' : Permit) :
    Result (Option Accounting) → Prop
  | .ok plan => g'.op = g.op ∧ (∃ entry, g'.ledger = .saw key entry)
      ∧ plan = some ⟨t, g'.growth t⟩
  | .error _ => True

/-- A plan is made from the entry that was seen. -/
private theorem planAccounting_permit {key payload : Bytes} {len : Nat}
    (hd : KeyCodec.decode key = .ok (t, .data, payload))
    (hkey : g.op.key = key)
    (hshare : g.op.share t = entryBytes payload.length len) :
    wp (permitRules t limit) (PermitPlan t key g)
      (planAccounting key len).run g := by
  refine wp_planAccounting_of (fun h => absurd hd (h _ _))
    fun t' payload' hd' => ⟨⟨?_, nofun, nofun, trivial⟩, fun r => ?_⟩
  · rintro _ ⟨⟩ _
    exact hkey.symm
  rw [hd] at hd'
  cases hd'
  cases r with
  | error e => exact trivial
  | ok current =>
      show PermitPlan t key g _ (putPlan t payload len current)
      cases hp : previousBytes payload.length current with
      | error e =>
          rw [putPlan_of_error hp]
          exact trivial
      | ok previous =>
          rw [putPlan_of_ok hp]
          refine ⟨rfl, ⟨current, rfl⟩, ?_⟩
          show some _ = some (Accounting.mk t
            ((g.op.share t : Int) - share t key current))
          rw [hshare, share_of_previousBytes hd hp, if_pos rfl]

/-- A check that passes has cleared the growth, unless the limit was
another one. -/
theorem checkWrite_permit (hlimit : limit ≠ 0) (hg : g.ledger.debt t = 0) :
    wp (permitRules t limit) (fun g' r =>
        g'.op = g.op ∧ g'.ledger = g.ledger
          ∧ (r = .ok () → g'.stray = false → g.growth t ≤ g'.room))
      (checkWrite t (g.growth t)).run g := by
  refine ⟨⟨nofun, nofun, nofun, trivial⟩, fun quota => ?_⟩
  -- reading the limit decides whether the permit is stray
  have hstray : (g.advance t limit (.quota (.quota t)) quota).stray = false →
      quota.maxBytes = limit := by
    intro h
    by_contra hne
    simp [Permit.advance, Permit.strayAfter, hne] at h
  show wp _ _ (ExceptT.run (if _ then _ else _)) _
  split
  · next hz =>
      refine ⟨rfl, rfl, fun _ hs => ?_⟩
      obtain hz | hz := hz
      · exact absurd (hstray hs ▸ hz) hlimit
      · omega
  · refine ⟨⟨nofun, nofun, fun _ _ => hg, trivial⟩, fun used => ?_⟩
    show wp _ _ (ExceptT.run (if _ then _ else _)) _
    split
    · exact ⟨rfl, rfl, nofun⟩
    · next hz hle =>
        refine ⟨rfl, rfl, fun _ hs => ?_⟩
        rw [not_lt, hstray hs] at hle
        show g.growth t ≤ ((if t = t ∧ saturatingAdd used (g.growth t).toNat
          ≤ limit then (g.growth t).toNat else g.room : Nat) : Int)
        rw [if_pos ⟨rfl, hle⟩]
        omega

/-- A put grows its entry only within what its check has cleared. -/
private theorem putWithTtl_permit (cfg : NodeConfig) (hlimit : limit ≠ 0)
    {key value payload : Bytes} {ttlMs : Nat}
    (hd : KeyCodec.decode key = .ok (t, .data, payload))
    (hop : g.op = .put key value ttlMs) :
    wp (permitRules t limit) (fun _ _ => True)
      (putWithTtl cfg key value ttlMs).run g := by
  have hkey : g.op.key = key := by rw [hop]; rfl
  have hshare : g.op.share t = entryBytes payload.length value.length := by
    rw [hop]
    exact share_encode hd value nofun
  unfold putWithTtl
  rw [wp_bindE, wp_lift]
  refine wp_mono ?_ (expiryStamp_permit ttlMs)
  rintro _ exp ⟨rfl, hexp⟩
  rw [onResult_ok, wp_bindE]
  refine wp_mono ?_ (planAccounting_permit hd hkey hshare)
  rintro g₁ (e | plan) hp
  · exact trivial
  obtain ⟨hop₁, ⟨entry, hl⟩, rfl⟩ := hp
  rw [onResult_ok, wp_bindE]
  refine wp_mono ?_ (checkWrite_permit hlimit (by rw [hl]; rfl))
  rintro g₂ (e | u) ⟨hop₂, hl₂, hroom⟩
  · exact trivial
  rw [onResult_ok, wp_bindE]
  refine ⟨Prim.Harmless.ok ⟨nofun, nofun, trivial⟩, fun r => ?_⟩
  cases r with
  | error e => exact trivial
  | ok seq =>
      show wp _ _ (ExceptT.run (storagePut key _ >>= _)) g₂
      refine ⟨⟨?_, ?_, nofun, trivial⟩, fun r => ?_⟩
      · rintro _ ⟨⟩ _
        rw [hop₂, hop₁, hkey]
      -- the write itself: it grows the entry by what the check has made room
      -- for
      · rintro _ entry' ⟨⟩ _ hl' hs
        have hgrow : g₁.growth t = (share t key
            (some (ValueCodec.encode value exp)) : Int) - share t key entry := by
          unfold Permit.growth
          rw [hl, hop₁, hshare, share_encode hd value hexp]
        rw [hl₂, hl] at hl'
        cases hl'
        exact hgrow ▸ hroom rfl hs
      · cases r with
        | error e => exact trivial
        | ok u =>
            refine wp_harmless (wp_bindE _ _ _ |>.mpr ((wp_lift _ _).mpr ?_))
            refine wp_mono ?_ ((scheduleExpiry_uses key exp).mono
              fun _ hp => hp.harmless)
            intro _ _ _
            exact (settle_uses _ key value .put cfg).mono fun _ hp => hp.harmless

/-- What `delete` does once it has its plan. -/
theorem removal_permit (cfg : NodeConfig) (plan : Option Accounting)
    {key : Bytes} (hkey : g.op.key = key) :
    wp (permitRules t limit) (fun _ _ => True)
      (ExceptT.run (do
        let _ ← walAppend .delete key []
        storageDelete key
        commitAccounting plan
        publishChange key .delete []
        rotateWalIfNeeded cfg : NodeM Unit)) g := by
  rw [wp_bindE]
  refine ⟨Prim.Harmless.ok ⟨nofun, nofun, trivial⟩, fun r => ?_⟩
  cases r with
  | error e => exact trivial
  | ok seq =>
      show wp _ _ (ExceptT.run (storageDelete key >>= _)) g
      refine ⟨⟨?_, ?_, nofun, trivial⟩, fun r => ?_⟩
      · rintro _ ⟨⟩ _
        exact hkey.symm
      · -- a removal leaves nothing to count
        rintro _ entry ⟨⟩ _ _ _
        show ((0 : Nat) : Int) - (share t key entry : Int) ≤ _
        omega
      · cases r with
        | error e => exact trivial
        | ok u =>
            exact wp_harmless ((settle_uses _ key [] .delete cfg).mono
              fun _ hp => hp.harmless)

/-- A delete does not grow anything. -/
private theorem delete_permit (cfg : NodeConfig) {key : Bytes}
    (hop : g.op = .delete key) :
    wp (permitRules t limit) (fun _ _ => True) (delete cfg key).run g := by
  have hkey : g.op.key = key := by rw [hop]; rfl
  refine (wp_bindE _ _ _).mpr (wp_planDeleteAccounting_of
    (fun _ => removal_permit cfg none hkey)
    fun t' payload' _ => ⟨⟨?_, nofun, nofun, trivial⟩, fun r => ?_⟩)
  · rintro _ ⟨⟩ _
    exact hkey.symm
  cases r with
  | error e => exact trivial
  | ok current =>
      show onResult _ _ _ (deletePlan t' payload' current)
      cases deletePlan t' payload' current with
      | error e => exact trivial
      | ok plan => exact removal_permit cfg plan hkey

/-- Every write of the tenant's data stays within its permit. -/
theorem prog_permit (cfg : NodeConfig) (hlimit : limit ≠ 0) {op : Op}
    (h : op.WritesDataOf t) (hop : g.op = op) :
    wp (permitRules t limit) (fun _ _ => True) (op.prog cfg) g := by
  cases op with
  | put key value ttlMs =>
      obtain ⟨payload, hd⟩ := h
      exact (wp_map _ _ _).mpr (putWithTtl_permit cfg hlimit hd hop)
  | delete key => exact (wp_map _ _ _).mpr (delete_permit cfg hop)
  | get key => exact h.elim
  | scan pre => exact h.elim
  | scanRange start stop => exact h.elim
  | sweep => exact h.elim

end Programs

-- =========================================================== the condition

/-- The call at `i`. -/
def callAt (ops : List Op) (i : Nat) : Op := ops[i]?.getD .sweep

/-- Call `i`'s permit. -/
def NodePool.permit (pool : NodePool) (t : String) (limit : Nat)
    (ops : List Op) (i : Nat) : Permit :=
  Pool.ghost (Permit.advance t limit)
    (fun j => ⟨callAt ops j, .settled, 0, false⟩) pool.log i

/-- What the calls other than `i` have been cleared for and not yet
counted. -/
def NodePool.roomOfOthers (pool : NodePool) (t : String) (limit : Nat)
    (ops : List Op) (i : Nat) : Int :=
  ∑ j ∈ (Finset.range ops.length).erase i, ((pool.permit t limit ops j).room : Int)

/-- A check that is about to pass leaves room for what other calls have
been cleared for. -/
def RoomLeft (t : String) (limit : Nat) (ops : List Op) (pool : NodePool)
    (i : Nat) : Prim → Prop
  | .quota (.usedBytes tenant) =>
      let growth := ((pool.permit t limit ops i).growth t).toNat
      tenant = t → saturatingAdd (pool.world.quotas.usedBytes t) growth ≤ limit →
        (pool.world.quotas.usedBytes t : Int) + growth
          + pool.roomOfOthers t limit ops i ≤ limit
  | _ => True

instance (t : String) (limit : Nat) (ops : List Op) (pool : NodePool)
    (i : Nat) (p : Prim) : Decidable (RoomLeft t limit ops pool i p) := by
  unfold RoomLeft
  split <;> infer_instance

-- =========================================================== the invariant

/-- What holds in every state of a run with room left at every check. -/
structure Capped (t : String) (limit : Nat) (ops : List Op)
    (pool : NodePool) : Prop where
  balanced : Balanced t ops.length pool
  quota : (pool.world.quotas.quota t).maxBytes = limit
  calm : ∀ j, (pool.permit t limit ops j).stray = false
  -- nobody else writes the key a call has read
  saw : ∀ j < ops.length, ∀ key entry, pool.ledger j = .saw key entry →
    IsData key →
      key = (callAt ops j).key ∧ pool.world.storage.contents[key]? = entry
  -- what a call owes is in the store, under its own key
  stored : ∀ j < ops.length, (pool.ledger j).debt t
    ≤ share t (callAt ops j).key
      pool.world.storage.contents[(callAt ops j).key]?
  cleared : ∀ j, (pool.ledger j).debt t ≤ (pool.permit t limit ops j).room
  total : (pool.world.quotas.usedBytes t : Int)
    + ∑ j ∈ Finset.range ops.length, ((pool.permit t limit ops j).room : Int)
      ≤ limit

section Invariant

variable {t : String} {limit : Nat} {ops : List Op} {pool : NodePool}
  {i j : Nat}

/-- A permit has the call's ledger in it. -/
private theorem permit_ledger (j : Nat) :
    (pool.permit t limit ops j).ledger = pool.ledger j :=
  Pool.ghost_proj Permit.ledger (fun _ _ _ => rfl) _ _

theorem permit_op (j : Nat) :
    (pool.permit t limit ops j).op = callAt ops j := by
  unfold NodePool.permit
  induction pool.log using List.reverseRecOn with
  | nil => rfl
  | append_singleton log e ih =>
      rw [Pool.ghost_snoc]
      split
      · exact ih
      · exact ih

/-- The call of a thread is the one it was started with. -/
theorem callAt_eq (hi : i < ops.length) : callAt ops i = ops[i] := by
  unfold callAt
  rw [List.getElem?_eq_getElem hi]
  rfl

/-- No two calls write one key. -/
private theorem key_inj (hkeys : (ops.map Op.key).Nodup) (hi : i < ops.length)
    (hj : j < ops.length) (h : (callAt ops i).key = (callAt ops j).key) :
    i = j := by
  rw [callAt_eq hi, callAt_eq hj] at h
  refine (List.getElem?_inj (by rwa [List.length_map]) hkeys).mp ?_
  rw [List.getElem?_map, List.getElem?_map, List.getElem?_eq_getElem hi,
    List.getElem?_eq_getElem hj]
  exact congrArg some h

/-- What is counted and what is due are both within the limit, so what is
stored is. -/
theorem Capped.stored_le (h : Capped t limit ops pool) :
    storedBytes t pool.world.storage.contents ≤ limit := by
  have hb := h.balanced
  have hsum : pool.due t ops.length
      ≤ ∑ j ∈ Finset.range ops.length, ((pool.permit t limit ops j).room : Int) :=
    Finset.sum_le_sum fun j _ => h.cleared j
  have ht := h.total
  unfold Balanced at hb
  omega

/-- The counter is never asked below zero: what the others owe is part of
what is stored. -/
theorem Capped.used_add_debt_nonneg (h : Capped t limit ops pool)
    (hkeys : (ops.map Op.key).Nodup) (hi : i < ops.length) :
    0 ≤ (pool.world.quotas.usedBytes t : Int) + (pool.ledger i).debt t := by
  let others := (Finset.range ops.length).erase i
  have hmem : ∀ j ∈ others, j < ops.length := fun j hj =>
    Finset.mem_range.mp (Finset.mem_of_mem_erase hj)
  have hdue : pool.due t ops.length = (pool.ledger i).debt t
      + ∑ j ∈ others, (pool.ledger j).debt t :=
    (Finset.add_sum_erase _ _ (Finset.mem_range.mpr hi)).symm
  have hshares : ∑ j ∈ others, (pool.ledger j).debt t
      ≤ ∑ j ∈ others, (share t (callAt ops j).key
        pool.world.storage.contents[(callAt ops j).key]? : Int) :=
    Finset.sum_le_sum fun j hj => h.stored j (hmem j hj)
  have hkeyed : ∑ j ∈ others, share t (callAt ops j).key
        pool.world.storage.contents[(callAt ops j).key]?
      ≤ storedBytes t pool.world.storage.contents := by
    have hle := sum_share_le_storedBytes t
      (others.image fun j => (callAt ops j).key) pool.world.storage.contents
    rwa [Finset.sum_image fun a ha b hb hab =>
      key_inj hkeys (hmem a ha) (hmem b hb) hab] at hle
  have hb := h.balanced
  unfold Balanced at hb
  rw [← Nat.cast_sum] at hshares
  omega

end Invariant

section Steps

variable {ext : Externals} {t : String} {limit : Nat} {ops : List Op}
  {pool : NodePool} {i j : Nat} {p : Prim} {k : p.Resp → NodeProg Answer}

/-- What a step does to the data and to its call's ledger. -/
inductive CapEffect (ext : Externals) (pool : NodePool) (i : Nat) (p : Prim) :
    Prop where
  | write (wr : Write Bytes Bytes) (entry : Option Bytes)
      (hw : p.writes = some wr) (hd : IsData wr.key)
      (hl : pool.ledger i = .saw wr.key entry)
      (hadv : (pool.ledger i).advance p (p.exec ext none pool.world).1
        = (Ledger.saw wr.key entry).write wr.key wr.value)
      (hc : (p.exec ext none pool.world).2.storage.contents
        = apply pool.world.storage.contents wr)
  | aside (hc : ∀ key, IsData key →
        (p.exec ext none pool.world).2.storage.contents[key]?
          = pool.world.storage.contents[key]?)
      (hadv : (pool.ledger i).advance p (p.exec ext none pool.world).1
          = pool.ledger i
        ∨ (∃ key, p = .storage (.get key)
            ∧ (pool.ledger i).advance p (p.exec ext none pool.world).1
              = .saw key pool.world.storage.contents[key]?)
        ∨ (pool.ledger i).advance p (p.exec ext none pool.world).1
            = .settled)

/-- What a step within its ledger does to the data. -/
private theorem effect_of_ok (hok : (pool.ledger i).Ok p) :
    CapEffect ext pool i p := by
  generalize hl : pool.ledger i = g at hok
  cases hok with
  | @get _ key hg => exact .aside (fun _ _ => rfl) (.inr (.inl ⟨key, rfl, rfl⟩))
  | @put key value entry =>
      by_cases hd : IsData key
      · exact .write (.put key value) entry rfl hd hl (by rw [hl]; rfl)
          (StorageBackend.contents_write _ _)
      · exact .aside (fun _ hk => getElem?_write_aside _ (.put key value) hd hk)
          (.inl (Ledger.write_of_not_data hd _))
  | @delete key entry =>
      by_cases hd : IsData key
      · exact .write (.delete key) entry rfl hd hl (by rw [hl]; rfl)
          (StorageBackend.contents_write _ _)
      · exact .aside (fun _ hk => getElem?_write_aside _ (.delete key) hd hk)
          (.inl (Ledger.write_of_not_data hd _))
  | @putAside _ key value hd =>
      exact .aside (fun _ hk => getElem?_write_aside _ (.put key value) hd hk)
        (.inl (Ledger.write_of_not_data hd _))
  | @deleteAside _ key hd =>
      exact .aside (fun _ hk => getElem?_write_aside _ (.delete key) hd hk)
        (.inl (Ledger.write_of_not_data hd _))
  | adjust => exact .aside (fun _ _ => rfl) (.inr (.inr rfl))
  | other hp =>
      refine .aside (fun _ _ => ?_) (.inl (hp.advance _))
      rw [(hp.exec ext none pool.world).contents]

/-- A step moves its own ledger. -/
theorem ledger_self : (pool.after ext i p k).ledger i
    = (pool.ledger i).advance p (p.exec ext none pool.world).1 :=
  Pool.ghost_snoc_self _ _ _ _

theorem ledger_ne (h : i ≠ j) :
    (pool.after ext i p k).ledger j = pool.ledger j :=
  Pool.ghost_snoc_ne _ h _ _

/-- A step moves its own permit. -/
theorem permit_self : (pool.after ext i p k).permit t limit ops i
    = (pool.permit t limit ops i).advance t limit p
      (p.exec ext none pool.world).1 :=
  Pool.ghost_snoc_self _ _ _ _

theorem permit_ne (h : i ≠ j) :
    (pool.after ext i p k).permit t limit ops j = pool.permit t limit ops j :=
  Pool.ghost_snoc_ne _ h _ _

/-- The write of one call leaves the keys of the others alone. -/
theorem CapEffect.entry_of_ne (h : CapEffect ext pool i p)
    (hok : (pool.permit t limit ops i).Ok t p)
    (hkeys : (ops.map Op.key).Nodup) (hi : i < ops.length)
    (hj : j < ops.length) (hne : i ≠ j) (hd : IsData (callAt ops j).key) :
    (p.exec ext none pool.world).2.storage.contents[(callAt ops j).key]?
      = pool.world.storage.contents[(callAt ops j).key]? := by
  cases h with
  | write wr entry hw hdw hl hadv hc =>
      have hown := hok.own _ (Prim.accesses_of_writes hw) hdw
      rw [permit_op] at hown
      rw [hc, getElem?_apply, if_neg]
      intro heq
      exact hne (key_inj hkeys hi hj (hown.symm.trans heq))
  | aside hc hadv => exact hc _ hd

/-- What a call has seen of its key is what is there. -/
theorem CapEffect.saw (h : CapEffect ext pool i p)
    (hinv : Capped t limit ops pool)
    (hok : (pool.permit t limit ops i).Ok t p) (hi : i < ops.length)
    {key : Bytes} {entry : Option Bytes}
    (hg : (pool.ledger i).advance p (p.exec ext none pool.world).1
      = .saw key entry) (hd : IsData key) :
    key = (callAt ops i).key
      ∧ (p.exec ext none pool.world).2.storage.contents[key]? = entry := by
  cases h with
  | write wr old hw hdw hl hadv hc =>
      obtain ⟨tenant, payload, hdw⟩ := hdw
      rw [hadv] at hg
      unfold Ledger.write at hg
      simp only [hdw, reduceCtorEq] at hg
  | aside hc hadv =>
      rw [hc key hd]
      rcases hadv with hadv | ⟨key', rfl, hadv⟩ | hadv
      · rw [hadv] at hg
        exact hinv.saw i hi key entry hg hd
      · rw [hadv] at hg
        cases hg
        have hown := hok.own key rfl hd
        rw [permit_op] at hown
        exact ⟨hown, rfl⟩
      · rw [hadv] at hg
        cases hg

/-- What a call owes for its key is stored under it. -/
theorem CapEffect.stored (h : CapEffect ext pool i p)
    (hinv : Capped t limit ops pool)
    (hok : (pool.permit t limit ops i).Ok t p) (hi : i < ops.length)
    (hd : IsData (callAt ops i).key) :
    ((pool.ledger i).advance p (p.exec ext none pool.world).1).debt t
      ≤ share t (callAt ops i).key
        (p.exec ext none pool.world).2.storage.contents[(callAt ops i).key]? := by
  cases h with
  | write wr old hw hdw hl hadv hc =>
      have hown := hok.own _ (Prim.accesses_of_writes hw) hdw
      rw [permit_op] at hown
      rw [hadv, hc, ← hown, getElem?_apply, if_pos rfl, Ledger.debt_write]
      omega
  | aside hc hadv =>
      rw [hc _ hd]
      rcases hadv with hadv | ⟨key, -, hadv⟩ | hadv
      · rw [hadv]
        exact hinv.stored i hi
      · rw [hadv]
        exact Int.natCast_nonneg _
      · rw [hadv]
        exact Int.natCast_nonneg _

/-- Only the check and the counter update move the room. -/
theorem roomAfter_eq {g : Permit} (hu : ∀ tenant, p ≠ .quota (.usedBytes tenant))
    (ha : ∀ tenant delta, p ≠ .quota (.adjust tenant delta)) (r : p.Resp) :
    g.roomAfter t limit p r = g.room := by
  cases p with
  | quota q =>
      cases q with
      | usedBytes tenant => exact absurd rfl (hu tenant)
      | adjust tenant delta => exact absurd rfl (ha tenant delta)
      | _ => rfl
  | _ => rfl

/-- What a call owes was cleared. -/
theorem CapEffect.cleared (h : CapEffect ext pool i p)
    (hinv : Capped t limit ops pool)
    (hok : (pool.permit t limit ops i).Ok t p) :
    ((pool.ledger i).advance p (p.exec ext none pool.world).1).debt t
      ≤ (pool.permit t limit ops i).roomAfter t limit p
        (p.exec ext none pool.world).1 := by
  by_cases hu : ∃ tenant, p = .quota (.usedBytes tenant)
  · obtain ⟨tenant, rfl⟩ := hu
    have hzero := hok.clear tenant rfl
    rw [permit_ledger] at hzero
    show (pool.ledger i).debt t ≤ _
    omega
  by_cases ha : ∃ tenant delta, p = .quota (.adjust tenant delta)
  · obtain ⟨tenant, delta, rfl⟩ := ha
    exact Int.natCast_nonneg _
  push Not at hu ha
  rw [roomAfter_eq hu ha]
  cases h with
  | write wr old hw hdw hl hadv hc =>
      rw [hadv, Ledger.debt_write]
      exact hok.grow wr old hw hdw (by rw [permit_ledger, hl]) (hinv.calm i)
  | aside hc hadv =>
      rcases hadv with hadv | ⟨key, -, hadv⟩ | hadv
      · rw [hadv]
        exact hinv.cleared i
      · rw [hadv]
        exact Int.natCast_nonneg _
      · rw [hadv]
        exact Int.natCast_nonneg _

/-- With one limit in force, no permit is stray. -/
private theorem calm_step (hinv : Capped t limit ops pool) :
    (pool.permit t limit ops i).strayAfter t limit p
      (p.exec ext none pool.world).1 = false := by
  have hcalm := hinv.calm i
  cases p with
  | quota q =>
      cases q with
      | quota tenant =>
          show (_ || decide (tenant = t
            ∧ (pool.world.quotas.quota tenant).maxBytes ≠ limit)) = false
          rw [hcalm, Bool.false_or, decide_eq_false_iff_not]
          rintro ⟨rfl, hne⟩
          exact hne hinv.quota
      | _ => exact hcalm
  | _ => exact hcalm

/-- Only the counter update moves the counter. -/
theorem Ledger.Ok.used_exec {g : Ledger} (h : g.Ok p)
    (ha : ∀ tenant delta, p ≠ .quota (.adjust tenant delta)) (w : World) :
    (p.exec ext none w).2.quotas.usedBytes t = w.quotas.usedBytes t := by
  cases h with
  | @adjust tenant delta => exact absurd rfl (ha tenant delta)
  | other hp =>
      unfold QuotaStore.usedBytes
      rw [(hp.exec ext none w).usage]
  | _ => rfl

/-- The counter takes exactly what was due, never more than the room. -/
theorem used_adjust (hinv : Capped t limit ops pool) {tenant : String}
    {delta : Int} (hl : (pool.ledger i).Ok (.quota (.adjust tenant delta)))
    (hkeys : (ops.map Op.key).Nodup) (hi : i < ops.length) :
    ((pool.world.quotas.adjust tenant delta).2.usedBytes t : Int)
      = pool.world.quotas.usedBytes t + (pool.ledger i).debt t := by
  have hnonneg := hinv.used_add_debt_nonneg hkeys hi
  rw [hl.eq_owing, Ledger.debt_owing] at hnonneg ⊢
  rw [usedBytes_adjust]
  by_cases ht : tenant = t
  · subst ht
    rw [if_pos rfl] at hnonneg
    rw [if_pos rfl, if_pos rfl, applyDelta_eq hnonneg]
  · rw [if_neg ht, if_neg ht, add_zero]

/-- The counter and the room of all calls stay within the limit: a check
clears only what is left, and the counter takes no more than was
cleared. -/
theorem total_step (hinv : Capped t limit ops pool)
    (hl : (pool.ledger i).Ok p) (hkeys : (ops.map Op.key).Nodup)
    (hi : i < ops.length) (hc : RoomLeft t limit ops pool i p) :
    ((p.exec ext none pool.world).2.quotas.usedBytes t : Int)
      + ((pool.permit t limit ops i).roomAfter t limit p
        (p.exec ext none pool.world).1 + pool.roomOfOthers t limit ops i)
      ≤ limit := by
  have htotal := hinv.total
  rw [← Finset.add_sum_erase _ _ (Finset.mem_range.mpr hi)] at htotal
  change _ + (_ + pool.roomOfOthers t limit ops i) ≤ _ at htotal
  by_cases hu : ∃ tenant, p = .quota (.usedBytes tenant)
  · obtain ⟨tenant, rfl⟩ := hu
    -- the check passes, and takes for its call what the others have left
    show (pool.world.quotas.usedBytes t : Int) + (((if tenant = t ∧ _ then _ else _ : Nat) : Int) + _) ≤ _
    split
    · next hpass =>
        obtain ⟨rfl, hpass⟩ := hpass
        have hroom := hc rfl hpass
        omega
    · exact htotal
  by_cases ha : ∃ tenant delta, p = .quota (.adjust tenant delta)
  · obtain ⟨tenant, delta, rfl⟩ := ha
    -- the counter takes up what the room was held for
    have hused := used_adjust hinv hl hkeys hi
    have hdebt := hinv.cleared i
    show ((pool.world.quotas.adjust tenant delta).2.usedBytes t : Int)
      + (((0 : Nat) : Int) + _) ≤ _
    omega
  push Not at hu ha
  rw [roomAfter_eq hu ha, hl.used_exec ha]
  exact htotal

/-- Nothing a call of the run does disturbs the books of the others. -/
theorem Capped.undisturbed (hinv : Capped t limit ops pool)
    (hl : (pool.ledger i).Ok p) (hkeys : (ops.map Op.key).Nodup)
    (hi : i < ops.length) : Undisturbed t pool i p := by
  have hstill : ∀ key, StillCounts t pool i key := by
    intro key
    unfold StillCounts
    split
    · next key' entry hg =>
        rintro rfl
        by_cases hd : IsData key'
        · rw [(hinv.saw i hi key' entry hg hd).2]
        · rw [share_of_not_data hd, share_of_not_data hd]
    · trivial
  unfold Undisturbed
  split
  · exact hstill _
  · exact hstill _
  · next tenant delta =>
      rintro rfl
      have hnonneg := hinv.used_add_debt_nonneg hkeys hi
      rwa [hl.eq_owing, Ledger.debt_owing, if_pos rfl] at hnonneg
  · trivial

/-- A step keeps the data within the limit, if the room left covers what was
cleared at the same time. -/
private theorem capped_step (hinv : Capped t limit ops pool)
    (hl : (pool.ledger i).Ok p) (hok : (pool.permit t limit ops i).Ok t p)
    (hops : ∀ op ∈ ops, op.WritesDataOf t) (hkeys : (ops.map Op.key).Nodup)
    (hi : i < ops.length) (hc : RoomLeft t limit ops pool i p) :
    Capped t limit ops (pool.after ext i p k) := by
  have heff : CapEffect ext pool i p := effect_of_ok hl
  have hdata : ∀ j < ops.length, IsData (callAt ops j).key := by
    intro j hj
    rw [callAt_eq hj]
    exact (hops _ (List.getElem_mem hj)).isData
  refine ⟨balanced_step hinv.balanced hi hl (hinv.undisturbed hl hkeys hi),
    -- the six conditions are kept one by one, and each for the call that
    -- steps and for the others; the keys are distinct, so a step of one call
    -- leaves the entries of the others alone
    ?_, ?_, ?_, ?_, ?_, ?_⟩
  · exact (congrArg Quota.maxBytes (congrFun
      (hok.quotas.exec ext _) t)).trans hinv.quota
  · intro j
    by_cases hij : i = j
    · subst hij
      rw [permit_self]
      exact calm_step hinv
    · rw [permit_ne hij]
      exact hinv.calm j
  · intro j hj key entry hg hd
    by_cases hij : i = j
    · subst hij
      rw [ledger_self] at hg
      exact heff.saw hinv hok hi hg hd
    · rw [ledger_ne hij] at hg
      obtain ⟨rfl, hentry⟩ := hinv.saw j hj key entry hg hd
      exact ⟨rfl, (heff.entry_of_ne hok hkeys hi hj hij hd).trans hentry⟩
  · intro j hj
    by_cases hij : i = j
    · subst hij
      rw [ledger_self]
      exact heff.stored hinv hok hi (hdata i hi)
    · rw [ledger_ne hij]
      show _ ≤ (share t _ (p.exec ext none pool.world).2.storage.contents[_]? : Int)
      rw [heff.entry_of_ne hok hkeys hi hj hij (hdata j hj)]
      exact hinv.stored j hj
  · intro j
    by_cases hij : i = j
    · subst hij
      rw [ledger_self, permit_self]
      exact heff.cleared hinv hok
    · rw [ledger_ne hij, permit_ne hij]
      exact hinv.cleared j
  -- the total: the room of the others is as before, so only the stepping
  -- call's own counts
  · rw [← Finset.add_sum_erase _ _ (Finset.mem_range.mpr hi), permit_self]
    have hothers : ∑ j ∈ (Finset.range ops.length).erase i,
          (((pool.after ext i p k).permit t limit ops j).room : Int)
        = pool.roomOfOthers t limit ops i :=
      Finset.sum_congr rfl fun j hj => by
        rw [permit_ne (Finset.ne_of_mem_erase hj).symm]
    rw [hothers]
    exact total_step hinv hl hkeys hi hc

end Steps

section Runs

variable {ext : Externals} {cfg : NodeConfig} {w : World} {ops : List Op}
  {pool : NodePool} {t : String} {limit : Nat}

/-- Every write stays within its permit in every interleaving. -/
theorem NodePool.Run.permit {allow : NodePool → Nat → Prim → Prop}
    (hlimit : limit ≠ 0) (hops : ∀ op ∈ ops, op.WritesDataOf t)
    (h : NodePool.Run ext allow (NodePool.calls cfg w ops) pool) {i : Nat}
    {x : NodeProg Answer} (hx : pool.threads[i]? = some x) :
    wp (permitRules t limit) (fun _ _ => True) x
      (pool.permit t limit ops i) := by
  refine Pool.Run.discipline (Q := fun _ (_ : Permit) _ => True) ?_ h i x hx
  intro i x hx
  rw [List.getElem?_map, Option.map_eq_some_iff] at hx
  obtain ⟨op, hop, rfl⟩ := hx
  refine prog_permit cfg hlimit (hops op (List.mem_of_getElem? hop)) ?_
  show callAt ops i = op
  unfold callAt
  rw [hop]
  rfl

/-- So it is over a whole run. -/
private theorem capped_run (hlimit : limit ≠ 0)
    (hops : ∀ op ∈ ops, op.WritesDataOf t) (hkeys : (ops.map Op.key).Nodup)
    (hquota : (w.quotas.quota t).maxBytes = limit)
    (hused : w.quotas.usedBytes t = storedBytes t w.storage.contents)
    (hle : storedBytes t w.storage.contents ≤ limit)
    (h : NodePool.Run ext (RoomLeft t limit ops) (NodePool.calls cfg w ops)
      pool) : Capped t limit ops pool := by
  induction h with
  | start =>
      have hdue : (NodePool.calls cfg w ops).due t ops.length = 0 :=
        Finset.sum_eq_zero fun _ _ => rfl
      have hroom : ∑ j ∈ Finset.range ops.length,
          (((NodePool.calls cfg w ops).permit t limit ops j).room : Int) = 0 :=
        Finset.sum_eq_zero fun _ _ => rfl
      refine ⟨?_, hquota, fun _ => rfl, nofun, fun _ _ => ?_, fun _ => ?_, ?_⟩
      · show (w.quotas.usedBytes t : Int) + _ = _
        rw [hdue, hused, add_zero]
        rfl
      · exact Int.natCast_nonneg _
      · exact Int.natCast_nonneg _
      · rw [hroom, add_zero]
        exact_mod_cast hused ▸ hle
  | step hrun hi hc ih =>
      exact capped_step ih (NodePool.Run.ledger hrun hi).1
        (NodePool.Run.permit hlimit hops hrun hi).1 hops hkeys
        (NodePool.Run.lt_length hrun hi) hc
  | env _ he ih =>
      obtain ⟨now, instant, -, rfl⟩ := he
      exact ⟨ih.balanced, ih.quota, ih.calm, ih.saw, ih.stored, ih.cleared,
        ih.total⟩

end Runs

-- ================================================================= the law

/-- Concurrent writers keep their tenant within its byte limit in every
state, as long as every check that passes leaves room for what the other
calls have been cleared for. -/
theorem stored_le_cap (ext : Externals) (cfg : NodeConfig) (t : String)
    {limit : Nat} (hlimit : limit ≠ 0) {w : World} {ops : List Op}
    {pool : NodePool} (hops : ∀ op ∈ ops, op.WritesDataOf t)
    (hkeys : (ops.map Op.key).Nodup)
    (hquota : (w.quotas.quota t).maxBytes = limit)
    (hused : w.quotas.usedBytes t = storedBytes t w.storage.contents)
    (hle : storedBytes t w.storage.contents ≤ limit)
    (h : NodePool.Run ext (RoomLeft t limit ops) (NodePool.calls cfg w ops)
      pool) : storedBytes t pool.world.storage.contents ≤ limit :=
  (capped_run hlimit hops hkeys hquota hused hle h).stored_le

/-- The configuration of the runs below: three bytes per tenant. -/
def cappedConfig : NodeConfig := { quota := { maxBytes := 3 } }

/-- Two puts of two bytes each, on two keys. -/
def twoPuts : List Op :=
  [.put (KeyCodec.bytesOf "a" .data [1]) [2] 0,
    .put (KeyCodec.bytesOf "a" .data [3]) [4] 0]

/-- With the second check after the first counter update, the second put is
refused and the limit holds. -/
theorem stored_le_cap_in_turn :
    ∃ pool, NodePool.Run .plain (RoomLeft "a" 3 twoPuts)
        (NodePool.calls cappedConfig (.opened cappedConfig) twoPuts) pool
      ∧ pool.result 0 = some (.done (.ok ()))
      ∧ pool.result 1 = some (.done (.error (.quotaExceeded "a" 4 3)))
      ∧ storedBytes "a" pool.world.storage.contents ≤ 3 := by
  have hrun : NodePool.Run .plain (RoomLeft "a" 3 twoPuts)
      (NodePool.calls cappedConfig (.opened cappedConfig) twoPuts) _ :=
    Pool.run_play (List.replicate 10 0 ++ List.replicate 3 1)
      (by decide +kernel)
  refine ⟨_, hrun, by decide +kernel, by decide +kernel, ?_⟩
  exact stored_le_cap .plain cappedConfig "a" (by decide)
    (by
      intro op hop
      rcases List.mem_pair.mp hop with rfl | rfl
      · exact ⟨[1], by decide +kernel⟩
      · exact ⟨[3], by decide +kernel⟩)
    (by decide +kernel) (by decide +kernel) (by decide +kernel)
    (by decide +kernel) hrun

-- ============================================================== a breach

/-- Both puts pass the check before either moves the counter. -/
def capRace : NodePool :=
  Pool.play (Prim.exec .plain none)
    ([0, 0, 0, 1, 1, 1] ++ List.replicate 7 0 ++ List.replicate 7 1)
    (NodePool.calls cappedConfig (.opened cappedConfig) twoPuts)

/-- The limit can be exceeded: both puts return `Ok` and the tenant stores
four bytes under a limit of three. -/
theorem cap_exceeded :
    NodePool.Run .plain NodePool.anyStep
        (NodePool.calls cappedConfig (.opened cappedConfig) twoPuts) capRace
      ∧ capRace.result 0 = some (.done (.ok ()))
      ∧ capRace.result 1 = some (.done (.ok ()))
      ∧ (capRace.world.quotas.quota "a").maxBytes = 3
      ∧ storedBytes "a" capRace.world.storage.contents = 4 :=
  ⟨Pool.run_play _ (Pool.allowed_of_forall (fun _ _ _ => trivial) _ _),
    by decide +kernel, by decide +kernel, by decide +kernel,
    by decide +kernel⟩

end FerrisKv
