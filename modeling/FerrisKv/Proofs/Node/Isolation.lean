/-
Tenants cannot tell what their neighbours do.

A program is `Alone` with a tenant if it answers that tenant by what they
see, and is hidden from everyone else. Every handler is: the log, the
index and the store are shared, but the steps on them name keys, and a key
has one owner. A sweep serves all tenants at once; for each of them it
comes to the sweep of their own keys (`sweepLoop_sameFor`).

`tenant_noninterference` puts this together: take every request and quota
change of other tenants out of a run, and nothing changes for the tenant
who is left, neither a response nor an event, a counter or a verdict of
the rate limiter.
-/
import FerrisKv.Node.Session
import FerrisKv.Proofs.Node.Footprint
import FerrisKv.Proofs.Node.TenantView

namespace FerrisKv

open Prog NodeService Unwinding

-- ================================================================== parts

section Parts

variable {ext : Externals} {cfg : NodeConfig} {b t : String} {α β : Type}

/-- The program answers tenant `t` by what they see, and no other tenant
can tell whether it ran. -/
structure Alone (ext : Externals) (t : String) (x : NodeProg α) : Prop where
  steady : Steady (SameFor t) (Prim.exec ext none) x
  hidden : ∀ b, b ≠ t → x.Uses (Prim.Misses b)

/-- A program that misses a tenant shows it nothing. -/
theorem run_misses {x : NodeProg α} (hx : x.Uses (Prim.Misses b))
    (w : World) : SameFor b w (x.run (Prim.exec ext none) w).2 :=
  run_hidden (sameFor_equivalence b) (hx.mono fun _ hp => hp.hidden) w

/-- A program that serves a tenant answers from what the tenant sees. -/
theorem steady_of_serves {x : NodeProg α} (hx : x.Uses (Prim.Serves b)) :
    Steady (SameFor b) (Prim.exec ext none) x :=
  steady_of_local (hx.mono fun _ hp => hp.isLocal)

/-- One that misses it has nothing to answer with. -/
private theorem steady_of_misses {x : NodeProg Unit}
    (hx : x.Uses (Prim.Misses b)) : Steady (SameFor b) (Prim.exec ext none) x :=
  steady_of_hidden (sameFor_equivalence b) (hx.mono fun _ hp => hp.hidden)

/-- A program that serves one tenant is alone with it. -/
theorem alone_of_serves {x : NodeProg α} (hx : x.Uses (Prim.Serves t)) :
    Alone ext t x :=
  ⟨steady_of_serves hx, fun _ hne => hx.mono fun _ hp => hp.misses hne.symm⟩

/-- Alone, then alone again, is alone. -/
private theorem alone_bind {x : NodeProg α} {f : α → NodeProg β}
    (hx : Alone ext t x) (hf : ∀ a, Alone ext t (f a)) :
    Alone ext t (x >>= f) :=
  ⟨steady_bind hx.steady fun a => (hf a).steady,
    fun b hne => uses_bind (hx.hidden b hne) fun a => (hf a).hidden b hne⟩

theorem alone_map {x : NodeProg α} (f : α → β) (hx : Alone ext t x) :
    Alone ext t (f <$> x) :=
  ⟨steady_map f hx.steady, fun b hne => uses_map f (hx.hidden b hne)⟩

/-- The same where the first can fail. -/
theorem alone_bindE {ε : Type} {x : Fallible Prim Prim.Resp ε α}
    {f : α → Fallible Prim Prim.Resp ε β} (hx : Alone ext t x.run)
    (hf : ∀ a, Alone ext t (f a).run) : Alone ext t (ExceptT.run (x >>= f)) :=
  ⟨steady_bindE hx.steady fun a _ => (hf a).steady,
    fun b hne => uses_bindE (hx.hidden b hne) fun a => (hf a).hidden b hne⟩

theorem alone_ret (a : α) : Alone ext t (.ret a : NodeProg α) :=
  ⟨steady_ret a, fun _ _ => trivial⟩

/-- What follows a check need only be alone if it passes. -/
theorem alone_ofCheck {r : Except Status α} {f : α → GrpcM β}
    (hf : ∀ a, r = .ok a → Alone ext t (f a).run) :
    Alone ext t (ExceptT.run (ofCheck r >>= f)) := by
  cases r with
  | error e => exact alone_ret _
  | ok a => exact hf a rfl

/-- An error is reported without looking. -/
theorem alone_mapStatus {x : NodeM α} (hx : Alone ext t x.run) :
    Alone ext t (mapStatus x).run :=
  alone_bind hx fun _ => alone_ret _

private theorem alone_mapInternal {x : NodeM α} (hx : Alone ext t x.run) :
    Alone ext t (mapInternal x).run :=
  alone_bind hx fun _ => alone_ret _

end Parts

-- ============================================================ small pieces

section Pieces

variable {ext : Externals} {cfg : NodeConfig} {b t : String} {key : Bytes}

/-- Rotation is nothing a tenant can see. -/
private theorem rotateWalIfNeeded_misses (b : String) (cfg : NodeConfig) :
    (rotateWalIfNeeded cfg).Uses (Prim.Misses b) := by
  refine (rotateWalIfNeeded_uses cfg).mono ?_
  rintro p (rfl | rfl | rfl | rfl) <;> exact trivial

private theorem schedule_misses (hk : keyOwner key ≠ some b) (exp : Nat) :
    (schedule key exp).Uses (Prim.Misses b) := by
  refine ⟨hk, fun wake => ?_⟩
  cases wake with
  | true => exact ⟨trivial, fun _ => trivial⟩
  | false => exact trivial

/-- Scheduling moves a tenant's index alike, whether or not the sweeper
has to be woken. -/
theorem schedule_steady (key : Bytes) (exp : Nat) :
    Steady (SameFor b) (Prim.exec ext none) (schedule key exp) := by
  intro w w' h
  have hE := sameFor_equivalence b
  have hins : SameFor b (Prim.exec ext none (.ttl (.insert key exp)) w).2
      (Prim.exec ext none (.ttl (.insert key exp)) w').2 := by
    refine { h with due := fun k e hk' => ?_ }
    show (w.ttl.insert key exp).2.Scheduled k e
      ↔ (w'.ttl.insert key exp).2.Scheduled k e
    rw [TtlIndex.scheduled_insert, TtlIndex.scheduled_insert, h.due k e hk']
  have hwake : ∀ wake : Bool, (if wake then TtlPrim.notifyOne.call
      else pure () : NodeProg Unit).Uses (Prim.Misses b) := by
    intro wake
    cases wake with
    | true => exact ⟨trivial, fun _ => trivial⟩
    | false => exact trivial
  exact ⟨rfl, hE.trans (hE.symm (run_misses (hwake _) _))
    (hE.trans hins (run_misses (hwake _) _))⟩

private theorem scheduleExpiry_misses (hk : keyOwner key ≠ some b)
    (exp : Option Nat) : (scheduleExpiry key exp).Uses (Prim.Misses b) := by
  cases exp with
  | none => exact trivial
  | some e => exact schedule_misses hk e

/-- Whether the sweeper is woken is not the tenant's to see. -/
private theorem scheduleExpiry_steady (key : Bytes) (exp : Option Nat) :
    Steady (SameFor b) (Prim.exec ext none) (scheduleExpiry key exp) := by
  cases exp with
  | none => exact steady_ret ()
  | some e => exact schedule_steady key e

/-- The steps of a plan are those of its tenant. -/
theorem checkAccounting_serves {plan : Option Accounting}
    (h : ∀ a ∈ plan, a.tenant = t) :
    (checkAccounting plan).run.Uses (Prim.Serves t) := by
  refine (checkAccounting_uses_of plan).mono ?_
  rintro p ⟨a, ha, rfl | rfl⟩ <;> exact h a ha

/-- A payment is made on the plan's tenant. -/
private theorem commitAccounting_serves {plan : Option Accounting}
    (h : ∀ a ∈ plan, a.tenant = t) :
    (commitAccounting plan).Uses (Prim.Serves t) := by
  refine (commitAccounting_uses_of plan).mono ?_
  rintro p ⟨a, ha, ⟨d, rfl⟩ | ⟨k, v, hk, rfl⟩⟩
  · exact h a ha
  · rw [h a ha] at hk
    exact keyOwner_of_encode hk

private theorem commitAccounting_misses {plan : Option Accounting}
    (h : ∀ a ∈ plan, a.tenant ≠ b) :
    (commitAccounting plan).Uses (Prim.Misses b) := by
  cases plan with
  | none => exact trivial
  | some a =>
      refine (commitAccounting_serves (t := a.tenant) ?_).mono
        fun _ hp => hp.misses (h a rfl)
      rintro a' ⟨⟩
      rfl

/-- A change is told to the key's tenant. -/
private theorem publishChange_serves (hk : keyOwner key = some t)
    (kind : ChangeKind) (value : Bytes) :
    (publishChange key kind value).Uses (Prim.Serves t) := by
  refine (publishChange_uses_of key kind value).mono ?_
  rintro p ⟨t', s, payload, hd, q, hq, rfl⟩
  rw [keyOwner_of_decode hd] at hk
  exact hq.trans (Option.some.inj hk)

private theorem publishChange_misses (hk : keyOwner key ≠ some b)
    (kind : ChangeKind) (value : Bytes) :
    (publishChange key kind value).Uses (Prim.Misses b) := by
  refine (publishChange_uses_of key kind value).mono ?_
  rintro p ⟨t, s, payload, hd, q, hq, rfl⟩
  rw [keyOwner_of_decode hd] at hk
  exact fun hb => hk (congrArg some (hq.symm.trans hb))

end Pieces

-- ================================================================== writes

section Writes

variable {ext : Externals} {cfg : NodeConfig} {b t : String} {key : Bytes}

/-- The end of a write of one of the tenant's keys. -/
theorem settle_steady (hk : keyOwner key = some b)
    {plan : Option Accounting} (hplan : ∀ a ∈ plan, a.tenant = b)
    (kind : ChangeKind) (value : Bytes) :
    Steady (SameFor b) (Prim.exec ext none) (ExceptT.run (do
      commitAccounting plan
      publishChange key kind value
      rotateWalIfNeeded cfg : NodeM Unit)) := by
  refine steady_bindE (steady_lift (steady_of_serves
    (commitAccounting_serves hplan))) fun _ _ => ?_
  refine steady_bindE (steady_lift (steady_of_serves
    (publishChange_serves hk kind value))) fun _ _ => ?_
  exact steady_lift (steady_of_misses (rotateWalIfNeeded_misses b cfg))

/-- So the end of a write misses every other tenant. -/
private theorem settle_misses (hk : keyOwner key ≠ some b)
    {plan : Option Accounting} (hplan : ∀ a ∈ plan, a.tenant ≠ b)
    (kind : ChangeKind) (value : Bytes) :
    (ExceptT.run (do
      commitAccounting plan
      publishChange key kind value
      rotateWalIfNeeded cfg : NodeM Unit)).Uses (Prim.Misses b) := by
  refine uses_bindE (uses_lift (commitAccounting_misses hplan)) fun _ => ?_
  refine uses_bindE (uses_lift (publishChange_misses hk kind value))
    fun _ => ?_
  exact uses_lift (rotateWalIfNeeded_misses b cfg)

/-- The log is out of every tenant's sight, and its answer is not used. -/
theorem walAppend_skip {op : WalOp} {value : Bytes} {rest : NodeM Unit}
    (h : Steady (SameFor b) (Prim.exec ext none) rest.run) :
    Steady (SameFor b) (Prim.exec ext none)
      (ExceptT.run (walAppend op key value >>= fun _ => rest)) := by
  refine steady_skip (sameFor_equivalence b) ?_ (fun w => ⟨_, rfl⟩) h
  exact ⟨Prim.Misses.hidden (by trivial), fun _ => trivial⟩

/-- A plan for a tenant's key is the tenant's. -/
private theorem planned_tenant (hk : keyOwner key = some b) {a : Accounting}
    (h : ∃ s payload, KeyCodec.decode key = .ok (a.tenant, s, payload)) :
    a.tenant = b := by
  obtain ⟨s, payload, hd⟩ := h
  rw [keyOwner_of_decode hd] at hk
  exact Option.some.inj hk

/-- A plan for another's key is not. -/
private theorem planned_tenant_ne (hk : keyOwner key ≠ some b) {a : Accounting}
    (h : ∃ s payload, KeyCodec.decode key = .ok (a.tenant, s, payload)) :
    a.tenant ≠ b := by
  obtain ⟨s, payload, hd⟩ := h
  rw [keyOwner_of_decode hd] at hk
  exact fun he => hk (congrArg some he)

/-- A storage write answers the same whatever others have stored. -/
private theorem storagePut_steady (value : Bytes) :
    Steady (SameFor b) (Prim.exec ext none) (storagePut key value).run :=
  fun _ _ h => ⟨rfl, { h with
    entry := fun k hk => entry_write (.put key value) (h.entry k hk) }⟩

private theorem storageDelete_steady :
    Steady (SameFor b) (Prim.exec ext none) (storageDelete key).run :=
  fun _ _ h => ⟨rfl, { h with
    entry := fun k hk => entry_write (.delete key) (h.entry k hk) }⟩

/-- A put under the tenant's key answers from what the tenant sees. -/
private theorem putWithTtl_steady (hk : keyOwner key = some b) (value : Bytes)
    (ttlMs : Nat) :
    Steady (SameFor b) (Prim.exec ext none)
      (putWithTtl cfg key value ttlMs).run := by
  unfold putWithTtl
  refine steady_bindE (steady_lift (steady_of_serves
    ((expiryStamp_uses ttlMs).mono fun _ hp => hp ▸ trivial))) fun exp _ => ?_
  have hplan := planAccounting_yields key value.length
  refine steady_bindE (steady_of_serves (hplan.uses.mono
    fun _ hp => hp ▸ hk)) fun plan hran => ?_
  obtain ⟨w, hrun⟩ := hran
  have htenant : ∀ a ∈ plan, a.tenant = b := fun a ha =>
    planned_tenant hk (hplan.answer w a (hrun.trans (congrArg _ ha)))
  refine steady_bindE (steady_of_serves (checkAccounting_serves htenant))
    fun _ _ => ?_
  refine walAppend_skip (steady_bindE (storagePut_steady _) fun _ _ => ?_)
  refine steady_bindE (steady_lift (scheduleExpiry_steady key exp))
    fun _ _ => ?_
  exact settle_steady hk htenant .put value

/-- A put under another's key shows it nothing. -/
private theorem putWithTtl_misses (hk : keyOwner key ≠ some b) (value : Bytes)
    (ttlMs : Nat) :
    (putWithTtl cfg key value ttlMs).run.Uses (Prim.Misses b) := by
  unfold putWithTtl
  refine uses_bindE (uses_lift ((expiryStamp_uses ttlMs).mono
    fun _ hp => hp ▸ trivial)) fun exp => ?_
  refine Yields.bindE ((planAccounting_yields key value.length).mono
    fun _ hp => hp ▸ trivial) fun plan hplan => ?_
  have htenant : ∀ a ∈ plan, a.tenant ≠ b := fun a ha =>
    planned_tenant_ne hk (hplan a (congrArg _ ha))
  refine uses_bindE ((checkAccounting_uses plan).mono ?_) fun _ => ?_
  · rintro p (⟨t, rfl⟩ | ⟨t, rfl⟩) <;> exact trivial
  refine uses_bindE ⟨trivial, fun _ => trivial⟩ fun _ => ?_
  refine uses_bindE ⟨hk, fun _ => trivial⟩ fun _ => ?_
  refine uses_bindE (uses_lift (scheduleExpiry_misses hk exp)) fun _ => ?_
  exact settle_misses hk htenant .put value

/-- A delete under the tenant's key answers from what the tenant sees. -/
private theorem delete_steady (hk : keyOwner key = some b) :
    Steady (SameFor b) (Prim.exec ext none)
      (NodeService.delete cfg key).run := by
  unfold NodeService.delete
  have hplan := planDeleteAccounting_yields key
  refine steady_bindE (steady_of_serves (hplan.uses.mono
    fun _ hp => hp ▸ hk)) fun plan hran => ?_
  obtain ⟨w, hrun⟩ := hran
  have htenant : ∀ a ∈ plan, a.tenant = b := fun a ha =>
    planned_tenant hk (hplan.answer w a (hrun.trans (congrArg _ ha)))
  refine walAppend_skip (steady_bindE storageDelete_steady fun _ _ => ?_)
  exact settle_steady hk htenant .delete []

/-- A delete under another's key shows it nothing. -/
private theorem delete_misses (hk : keyOwner key ≠ some b) :
    (NodeService.delete cfg key).run.Uses (Prim.Misses b) := by
  unfold NodeService.delete
  refine Yields.bindE ((planDeleteAccounting_yields key).mono
    fun _ hp => hp ▸ trivial) fun plan hplan => ?_
  have htenant : ∀ a ∈ plan, a.tenant ≠ b := fun a ha =>
    planned_tenant_ne hk (hplan a (congrArg _ ha))
  refine uses_bindE ⟨trivial, fun _ => trivial⟩ fun _ => ?_
  refine uses_bindE ⟨hk, fun _ => trivial⟩ fun _ => ?_
  exact settle_misses hk htenant .delete []

/-- A key has one owner. -/
private theorem owner_ne (hk : keyOwner key = some t) (hne : b ≠ t) :
    keyOwner key ≠ some b := by
  rw [hk]
  exact fun he => hne (Option.some.inj he).symm

/-- So a put is alone with the owner of its key. -/
private theorem putWithTtl_alone (hk : keyOwner key = some t) (value : Bytes)
    (ttlMs : Nat) : Alone ext t (putWithTtl cfg key value ttlMs).run :=
  ⟨putWithTtl_steady hk value ttlMs,
    fun _ hne => putWithTtl_misses (owner_ne hk hne) value ttlMs⟩

private theorem delete_alone (hk : keyOwner key = some t) :
    Alone ext t (NodeService.delete cfg key).run :=
  ⟨delete_steady hk, fun _ hne => delete_misses (owner_ne hk hne)⟩

end Writes

-- ================================================================ handlers

section Handlers

variable {ext : Externals} {cfg : NodeConfig} {t : String}
  {principal : Option Principal}

theorem Prim.LimitsFor.serves {p : Prim} (h : p.LimitsFor t) :
    p.Serves t := by
  obtain rfl | ⟨rate, rfl⟩ | ⟨entry, cost, rfl⟩ := h <;> exact rfl

/-- Admission asks the tenant's limits and its limiter. -/
private theorem admitRpc_alone (cost : Nat) :
    Alone ext t (admitRpc cfg t cost).run := by
  refine alone_mapStatus (alone_of_serves ?_)
  exact uses_bindE (uses_lift ⟨rfl, fun _ => trivial⟩)
    fun _ => (throttleCheck_uses cfg t _ cost).mono fun _ hp => hp.serves

/-- Everything before a handler is alone with the request's tenant. -/
theorem enter_alone (perm : String) :
    Alone ext t (enter cfg principal t perm).run :=
  alone_ofCheck fun _ _ => alone_ofCheck fun _ _ => admitRpc_alone 1

/-- The key a handler makes is its tenant's. -/
theorem keyOwner_of_encodeDataKey {key k : Bytes}
    (h : encodeDataKey t key = .ok k) : keyOwner k = some t := by
  unfold encodeDataKey at h
  cases he : KeyCodec.encode t .data key with
  | error e =>
      rw [he] at h
      cases h
  | ok k' =>
      rw [he] at h
      cases h
      exact keyOwner_of_encode he

/-- A read is alone with the owner of its key. -/
private theorem get_alone {k : Bytes} (hk : keyOwner k = some t) :
    Alone ext t (NodeService.get k).run := by
  refine alone_of_serves ((get_uses_of k).mono ?_)
  rintro p (rfl | rfl)
  · exact trivial
  · exact hk

/-- The handlers are each alone with their tenant. -/
private theorem getImpl_alone (key : Bytes) :
    Alone ext t (getImpl cfg principal t key).run :=
  alone_bindE (enter_alone _) fun _ => alone_ofCheck fun _ _ =>
    alone_ofCheck fun _ hk =>
      alone_mapStatus (get_alone (keyOwner_of_encodeDataKey hk))

private theorem putImpl_alone (key value : Bytes) (ttlMs : Nat) :
    Alone ext t (putImpl cfg principal t key value ttlMs).run :=
  alone_bindE (enter_alone _) fun _ => alone_ofCheck fun _ _ =>
    alone_ofCheck fun _ _ => alone_ofCheck fun _ hk =>
      alone_mapStatus
        (putWithTtl_alone (keyOwner_of_encodeDataKey hk) value ttlMs)

private theorem deleteImpl_alone (key : Bytes) :
    Alone ext t (deleteImpl cfg principal t key).run :=
  alone_bindE (enter_alone _) fun _ => alone_ofCheck fun _ _ =>
    alone_ofCheck fun _ hk =>
      alone_bindE (alone_mapStatus
        (get_alone (keyOwner_of_encodeDataKey hk))) fun _ =>
        alone_bindE (alone_mapStatus
          (delete_alone (keyOwner_of_encodeDataKey hk))) fun _ => alone_ret _

/-- A scan's bounds hold one tenant's keys. -/
private theorem scanImpl_alone (userPrefix : Bytes) (limit : Nat) :
    Alone ext t (scanImpl cfg principal t userPrefix limit).run := by
  refine alone_bindE (enter_alone _) fun _ => alone_ofCheck
    fun bounds hb => ?_
  refine alone_bindE (alone_mapStatus (alone_of_serves ?_))
    fun _ => alone_ret _
  unfold encodeDataScanBounds KeyCodec.encodeSubspacePrefix at hb
  cases he : KeyCodec.encode t .data [] with
  | error e =>
      rw [he] at hb
      cases hb
  | ok pre =>
      rw [he] at hb
      cases hb
      obtain ⟨hv, rfl⟩ := KeyCodec.encode_eq_ok.mp he
      refine ⟨⟨hv, userPrefix, ?_, rfl⟩, fun r => ?_⟩
      · simp [KeyCodec.bytesOf]
      · cases r with
        | error e => exact trivial
        | ok raw => exact ⟨trivial, fun _ => trivial⟩

private theorem batchOp_alone (o : BatchOp) :
    Alone ext t (batchOp cfg t o).run := by
  refine alone_ofCheck fun _ _ => alone_ofCheck fun _ _ =>
    alone_ofCheck fun k hk => ?_
  have howner := keyOwner_of_encodeDataKey hk
  split
  · exact alone_mapStatus (putWithTtl_alone howner _ _)
  · split
    · exact alone_mapStatus (delete_alone howner)
    · exact alone_ret _

/-- A batch is alone with its tenant wherever it stops. -/
private theorem batchLoop_alone (ops : List BatchOp) :
    Alone ext t (batchLoop cfg t ops).run := by
  induction ops with
  | nil => exact alone_ret _
  | cons o rest ih => exact alone_bindE (batchOp_alone o) fun _ => ih

private theorem batchImpl_alone (ops : List BatchOp) :
    Alone ext t (batchImpl cfg principal t ops).run :=
  alone_ofCheck fun _ _ => alone_ofCheck fun _ _ => alone_ofCheck fun _ _ =>
    alone_ofCheck fun _ _ =>
      alone_bindE (admitRpc_alone _) fun _ => batchLoop_alone ops

/-- A stream is opened on the tenant's channel. -/
private theorem watchImpl_alone (keyPrefix : Bytes) :
    Alone ext t (watchImpl cfg principal t keyPrefix).run := by
  refine alone_bindE (enter_alone _) fun _ => alone_ofCheck
    fun _ _ => alone_of_serves ?_
  refine uses_bindE (uses_lift ?_) fun rx => ⟨trivial, fun _ => trivial⟩
  refine ⟨rfl, fun found => ?_⟩
  cases found with
  | none => exact ⟨rfl, fun _ => trivial⟩
  | some rx => exact trivial

/-- Every RPC. -/
theorem request_alone (ext : Externals) (cfg : NodeConfig)
    (principal : Option Principal) (req : Request) :
    Alone ext t (req.prog cfg principal t) := by
  cases req with
  | get key => exact alone_map _ (getImpl_alone key)
  | put key value ttlMs => exact alone_map _ (putImpl_alone key value ttlMs)
  | delete key => exact alone_map _ (deleteImpl_alone key)
  | scan userPrefix limit =>
      exact alone_map _ (scanImpl_alone userPrefix limit)
  | batch ops => exact alone_map _ (batchImpl_alone ops)
  | watch keyPrefix => exact alone_map _ (watchImpl_alone keyPrefix)

/-- One turn of a stream. -/
theorem watchPoll_alone (ext : Externals) (state : WatchState)
    (idleFirst : Bool) :
    Alone ext state.tenant (watchPoll state idleFirst) := by
  have hdeliver : ∀ event, (deliver state event).Uses
      (Prim.Serves state.tenant) := fun _ => ⟨trivial, fun _ => trivial⟩
  refine alone_of_serves ⟨trivial, fun now => ?_⟩
  show Uses _ (if _ then _ else _)
  split
  · exact hdeliver _
  · refine ⟨rfl, fun received => ?_⟩
    cases received with
    | message change =>
        show Uses _ (if _ then _ else _)
        split
        · exact hdeliver _
        · exact trivial
    | lagged missed => exact trivial
    | closed => exact trivial
    | empty =>
        show Uses _ (if _ then _ else _)
        split
        · exact hdeliver _
        · exact trivial

/-- A usage report reads the tenant's counter and limits. -/
private theorem usageOf_serves : (usageOf t).Uses (Prim.Serves t) :=
  ⟨rfl, fun _ => ⟨rfl, fun _ => trivial⟩⟩

theorem Prim.OverridesFor.serves {p : Prim} (h : p.OverridesFor t) :
    p.Serves t := by
  obtain ⟨key, hk, ⟨value, rfl⟩ | rfl⟩ | ⟨q, rfl⟩ | rfl := h
  · exact keyOwner_of_encode hk
  · exact keyOwner_of_encode hk
  · exact rfl
  · exact rfl

/-- Validation looks at the name only. -/
private theorem validateTenant_alone : Alone ext t (validateTenant t).run := by
  unfold validateTenant
  split <;> exact alone_ret _

/-- The quota handlers. -/
theorem adminSetQuota_alone (maxBytes maxOpsPerSec : Option Nat) :
    Alone ext t (adminSetQuota ext t maxBytes maxOpsPerSec).run := by
  refine alone_bindE validateTenant_alone fun _ => ?_
  refine alone_bindE (alone_of_serves
    (uses_lift ⟨rfl, fun _ => trivial⟩)) fun current => ?_
  exact alone_bindE (alone_mapInternal (alone_of_serves
    ((setQuota_uses ext t _).mono fun _ hp => hp.serves)))
    fun _ => alone_of_serves (uses_lift usageOf_serves)

/-- An operator's call is alone with the tenant it names. -/
private theorem adminClearQuota_alone (ext : Externals) :
    Alone ext t (adminClearQuota t).run := by
  refine alone_bindE validateTenant_alone fun _ => ?_
  exact alone_bindE (alone_mapInternal (alone_of_serves
    ((clearQuota_uses t).mono fun _ hp => hp.serves)))
    fun _ => alone_of_serves (uses_lift usageOf_serves)

end Handlers

-- =============================================================== the sweep

section Sweep

variable {ext : Externals} {cfg : NodeConfig} {b : String} {key : Bytes}

/-- Sweeping another's key shows a tenant nothing. -/
private theorem sweepKey_misses (hk : keyOwner key ≠ some b) (now : Nat) :
    (sweepKey cfg now key).Uses (Prim.Misses b) := by
  refine ⟨trivial, fun r => ?_⟩
  rcases r with e | _ | raw
  · exact trivial
  · exact trivial
  · show Uses _ (sweepFound cfg now key raw)
    unfold sweepFound
    split
    · refine uses_bind (delete_misses hk) fun r => ?_
      cases r <;> exact trivial
    · refine uses_bind ?_ fun _ => trivial
      unfold reschedule
      split
      · exact trivial
      · exact scheduleExpiry_misses hk _
    · exact trivial

/-- Sweeping its own does the same whatever others have stored. -/
private theorem sweepKey_steady (hk : keyOwner key = some b) (now : Nat) :
    Steady (SameFor b) (Prim.exec ext none) (sweepKey cfg now key) := by
  refine steady_bind (steady_of_serves ⟨hk, fun _ => trivial⟩) fun r => ?_
  rcases r with e | _ | raw
  · exact steady_ret 0
  · exact steady_ret 0
  · show Steady _ _ (sweepFound cfg now key raw)
    unfold sweepFound
    split
    · refine steady_bind (delete_steady hk) fun r => ?_
      cases r <;> exact steady_ret _
    · refine steady_bind ?_ fun _ => steady_ret 0
      unfold reschedule
      split
      · exact steady_ret ()
      · exact scheduleExpiry_steady key _
    · exact steady_ret 0

/-- The key is tenant `b`'s. -/
def owned (b : String) (k : Bytes) : Bool := decide (keyOwner k = some b)

/-- For one tenant, sweeping a list of keys comes to sweeping those of
them that are theirs. -/
theorem sweepLoop_sameFor (ext : Externals) (cfg : NodeConfig) (now : Nat)
    (keys : List Bytes) {w w' : World} (h : SameFor b w w') (n m : Nat) :
    SameFor b
      ((sweepLoop cfg now keys n).run (Prim.exec ext none) w).2
      ((sweepLoop cfg now (keys.filter (owned b)) m).run
        (Prim.exec ext none) w').2 := by
  induction keys generalizing w w' n m with
  | nil => exact h
  | cons key rest ih =>
      by_cases hk : keyOwner key = some b
      · rw [List.filter_cons_of_pos (by simpa [owned] using hk), sweepLoop,
          sweepLoop, run_bind, run_bind]
        exact ih (sweepKey_steady hk now w w' h).2 _ _
      · rw [List.filter_cons_of_neg (by simpa [owned] using hk), sweepLoop,
          run_bind]
        have hE := sameFor_equivalence b
        exact ih (hE.trans (hE.symm (run_misses (sweepKey_misses hk now) w))
          h) _ _

/-- A sweep looks alike in worlds that look alike. -/
theorem sweepOnce_sameFor {w w' : World} (h : SameFor b w w') :
    SameFor b ((sweepOnce cfg).run (Prim.exec ext none) w).2
      ((sweepOnce cfg).run (Prim.exec ext none) w').2 := by
  have hE := sameFor_equivalence b
  have hdrained : SameFor b
      { w with ttl := (w.ttl.drainDue w.now).2 }
      { w' with ttl := (w'.ttl.drainDue w'.now).2 } := by
    refine { h with due := fun k e hk => ?_ }
    show (w.ttl.drainDue w.now).2.Scheduled k e
      ↔ (w'.ttl.drainDue w'.now).2.Scheduled k e
    rw [TtlIndex.scheduled_drainDue, TtlIndex.scheduled_drainDue,
      h.due k e hk, h.now]
  have hkeys : (w.ttl.drainDue w.now).1.filter (owned b)
      = (w'.ttl.drainDue w'.now).1.filter (owned b) := by
    rw [h.now]
    refine TtlIndex.drainDue_filter_congr (fun k e hk => ?_) w'.now
    exact h.due k e (by simpa [owned] using hk)
  have hleft := sweepLoop_sameFor ext cfg w.now
    (w.ttl.drainDue w.now).1 hdrained 0 0
  have hright := sweepLoop_sameFor ext cfg w'.now
    (w'.ttl.drainDue w'.now).1 (SameFor.refl b
      { w' with ttl := (w'.ttl.drainDue w'.now).2 }) 0 0
  have hloop : sweepLoop cfg w.now
      ((w.ttl.drainDue w.now).1.filter (owned b)) 0
      = sweepLoop cfg w'.now
        ((w'.ttl.drainDue w'.now).1.filter (owned b)) 0 := by
    rw [hkeys, h.now]
  rw [hloop] at hleft
  exact hE.trans hleft (hE.symm hright)

end Sweep

-- ================================================================= streams

section Streams

variable {ext : Externals} {cfg : NodeConfig} {t : String}
  {principal : Option Principal}

/-- The stream a session opens is the tenant's. -/
theorem serve_watching (req : Request) (w : World) {st : WatchState}
    (h : (req.serve ext cfg principal t w).1 = .watching (.ok st)) :
    st.tenant = t := by
  unfold Request.serve at h
  cases req with
  | watch keyPrefix =>
      rw [Request.prog, run_map, Response.watching.injEq] at h
      exact (watchImpl_tenant keyPrefix).answer w st h
  | _ =>
      rw [Request.prog, run_map] at h
      cases h

end Streams

-- ================================================================ sessions

namespace Session

/-- Every stream watches for the tenant it is listed under. -/
def Proper (s : Session) : Prop :=
  ∀ t st, some st ∈ s.streams t → st.tenant = t

/-- Tenant `b` cannot tell the sessions apart. -/
structure Alike (b : String) (s s' : Session) : Prop where
  world : SameFor b s.world s'.world
  streams : s.streams b = s'.streams b
  proper : s.Proper
  proper' : s'.Proper

section Streams

variable {b t : String} {s s' : Session}
  {l : List (Option WatchState)}

/-- Streams stay in their tenant's list. -/
theorem Proper.setStreams (h : s.Proper)
    (hl : ∀ st, some st ∈ l → st.tenant = t) : (s.setStreams t l).Proper := by
  intro t' st hst
  rw [streams_setStreams] at hst
  by_cases ht : t' = t
  · rw [if_pos ht] at hst
    rw [ht]
    exact hl st hst
  · rw [if_neg ht] at hst
    exact h t' st hst

/-- A stream is its tenant's. -/
theorem Proper.stream (h : s.Proper) {i : Nat} {st : WatchState}
    (hst : s.stream t i = some st) : st.tenant = t :=
  h t st (List.mem_of_getElem? (Option.join_eq_some_iff.mp hst))

theorem Proper.set (h : s.Proper) {i : Nat} {o : Option WatchState}
    (ho : ∀ st, o = some st → st.tenant = t) :
    ∀ st, some st ∈ (s.streams t).set i o → st.tenant = t := by
  intro st hst
  rcases List.mem_or_eq_of_mem_set hst with hst | hst
  · exact h t st hst
  · exact ho st hst.symm

theorem Proper.push (h : s.Proper) {st₀ : WatchState}
    (h₀ : st₀.tenant = t) :
    ∀ st, some st ∈ s.streams t ++ [some st₀] → st.tenant = t := by
  intro st hst
  rcases List.mem_append.mp hst with hst | hst
  · exact h t st hst
  · cases List.mem_singleton.mp hst
    exact h₀

/-- The same change to the tenant's own streams. -/
theorem Alike.setOwn (h : Alike b s s')
    (hl : ∀ st, some st ∈ l → st.tenant = b) :
    Alike b (s.setStreams b l) (s'.setStreams b l) where
  world := h.world
  streams := by
    rw [streams_setStreams, streams_setStreams, if_pos rfl, if_pos rfl]
  proper := h.proper.setStreams hl
  proper' := h.proper'.setStreams hl

/-- A change to another tenant's. -/
theorem Alike.setOther (h : Alike b s s') (hne : t ≠ b)
    (hl : ∀ st, some st ∈ l → st.tenant = t) :
    Alike b (s.setStreams t l) s' where
  world := h.world
  streams := by
    rw [streams_setStreams, if_neg hne.symm]
    exact h.streams
  proper := h.proper.setStreams hl
  proper' := h.proper'

end Streams

section Steps

variable {ext : Externals} {cfg : NodeConfig} {b t : String}
  {s s' : Session}

/-- A program that is alone with another tenant. -/
theorem Alike.other (h : Alike b s s') {α : Type} {x : NodeProg α}
    (hx : Alone ext t x) (hne : t ≠ b) :
    Alike b { s with world := (x.run (Prim.exec ext none) s.world).2 } s' :=
  have hE := sameFor_equivalence b
  { h with
    world := hE.trans
      (hE.symm (run_misses (hx.hidden b hne.symm) s.world)) h.world }

/-- A program that is alone with the tenant. -/
theorem Alike.own (h : Alike b s s') {α : Type} {x : NodeProg α}
    (hx : Alone ext b x) :
    (x.run (Prim.exec ext none) s.world).1
        = (x.run (Prim.exec ext none) s'.world).1
      ∧ Alike b { s with world := (x.run (Prim.exec ext none) s.world).2 }
        { s' with world := (x.run (Prim.exec ext none) s'.world).2 } := by
  obtain ⟨hr, hw⟩ := hx.steady _ _ h.world
  exact ⟨hr, { h with world := hw }⟩

/-- Dropping a stream is alone with its tenant. -/
private theorem drop_alone (ext : Externals) (st : WatchState) :
    Alone ext st.tenant (WatchPrim.drop st.tenant st.rx).call :=
  alone_of_serves ⟨rfl, fun _ => trivial⟩

/-- Dropping another's stream shows a tenant nothing. -/
theorem Alike.dropOther (h : Alike b s s') (hne : t ≠ b) (i : Nat)
    {st : WatchState} (hst : st.tenant = t) :
    Alike b (s.dropStream ext t i st) s' := by
  subst hst
  have hnone : ∀ st', (none : Option WatchState) = some st' →
      st'.tenant = st.tenant := fun _ he => nomatch he
  exact (h.other (drop_alone ext st) hne).setOther hne (h.proper.set hnone)

/-- Dropping its own does the same on both sides. -/
theorem Alike.dropOwn (h : Alike b s s') (i : Nat) {st : WatchState}
    (hst : st.tenant = b) :
    Alike b (s.dropStream ext b i st) (s'.dropStream ext b i st) := by
  subst hst
  have hnone : ∀ st', (none : Option WatchState) = some st' →
      st'.tenant = st.tenant := fun _ he => nomatch he
  have hdrop := (h.own (drop_alone ext st)).2.setOwn
    (h.proper.set (i := i) hnone)
  rw [h.streams] at hdrop
  unfold Session.dropStream
  rw [h.streams]
  exact hdrop

/-- Another's turn shows a tenant nothing. -/
private theorem Alike.turnedOther (h : Alike b s s') (hne : t ≠ b) (i : Nat)
    {st : WatchState} (hst : st.tenant = t) {turn : StreamTurn}
    (hturn : ∀ event st', turn = .item event st' → st'.tenant = t) :
    Alike b (s.turned ext t i st turn) s' := by
  cases turn with
  | item event st' =>
      refine h.setOther hne (h.proper.set fun st'' he => ?_)
      cases he
      exact hturn event st' rfl
  | failed status => exact h.dropOther hne i hst
  | ended => exact h.dropOther hne i hst
  | again => exact h
  | pending => exact h

/-- Its own goes the same on both sides. -/
private theorem Alike.turnedOwn (h : Alike b s s') (ext : Externals) (i : Nat)
    {st : WatchState} (hst : st.tenant = b) (turn : StreamTurn)
    (hturn : ∀ event st', turn = .item event st' → st'.tenant = b) :
    Alike b (s.turned ext b i st turn) (s'.turned ext b i st turn) := by
  cases turn with
  | item event st' =>
      have hset := h.setOwn (h.proper.set (i := i) (o := some st')
        fun st'' he => by
          cases he
          exact hturn event st' rfl)
      rw [Session.turned, Session.turned, ← h.streams]
      exact hset
  | failed status => exact h.dropOwn i hst
  | ended => exact h.dropOwn i hst
  | again => exact h
  | pending => exact h

/-- Another's new stream shows a tenant nothing. -/
private theorem Alike.openedOther (h : Alike b s s') (hne : t ≠ b)
    {r : Response} (hr : ∀ st, r = .watching (.ok st) → st.tenant = t) :
    Alike b (s.opened t r) s' := by
  rcases r with _ | _ | _ | _ | (e | st)
  all_goals first
    | exact h.setOther hne (h.proper.push (hr _ rfl))
    | exact h

/-- Its own is opened on both sides. -/
private theorem Alike.openedOwn (h : Alike b s s') {r : Response}
    (hr : ∀ st, r = .watching (.ok st) → st.tenant = b) :
    Alike b (s.opened b r) (s'.opened b r) := by
  rcases r with _ | _ | _ | _ | (e | st)
  all_goals try exact h
  have hset := h.setOwn (h.proper.push (hr st rfl))
  rw [Session.opened, Session.opened, ← h.streams]
  exact hset

/-- An action of another tenant is not noticed. -/
theorem Alike.step_other (h : Alike b s s') {a : Action}
    (ha : a.tenant = some t) (hne : t ≠ b) :
    Alike b (s.step ext cfg a).1 s' := by
  cases a with
  | rpc principal t' req =>
      cases ha
      exact (h.other (request_alone ext cfg principal req) hne).openedOther hne
        fun st hst => serve_watching req s.world hst
  | poll t' i idleFirst =>
      cases ha
      rw [Session.step]
      cases hst : s.stream t i with
      | none => exact h
      | some st =>
          -- the stream of another tenant reads that tenant's channels only
          have htenant := h.proper.stream hst
          have hpoll := watchPoll_alone ext st idleFirst
          rw [htenant] at hpoll
          refine (h.other hpoll hne).turnedOther hne i htenant ?_
          intro event st' hturn
          rw [← htenant]
          exact (watchPoll_tenant st idleFirst).answer s.world event st' hturn
  | hangUp t' i =>
      cases ha
      rw [Session.step]
      cases hst : s.stream t i with
      | none => exact h
      | some st => exact h.dropOther hne i (h.proper.stream hst)
  | setQuota t' maxBytes maxOpsPerSec =>
      cases ha
      exact h.other (adminSetQuota_alone maxBytes maxOpsPerSec) hne
  | clearQuota t' =>
      cases ha
      exact h.other (adminClearQuota_alone ext) hne
  | sweep => cases ha
  | tick now instant => cases ha

/-- A tenant has the same streams on both sides. -/
theorem Alike.stream (h : Alike b s s') (i : Nat) :
    s.stream b i = s'.stream b i := by
  rw [Session.stream, Session.stream, h.streams]

/-- An action of the tenant's own is answered alike. -/
theorem Alike.step_own (h : Alike b s s') {a : Action}
    (ha : a.tenant = some b) :
    (s.step ext cfg a).2 = (s'.step ext cfg a).2
      ∧ Alike b (s.step ext cfg a).1 (s'.step ext cfg a).1 := by
  cases a with
  | rpc principal t' req =>
      cases ha
      obtain ⟨hr, hw⟩ := h.own (request_alone ext cfg principal req)
      have hopened := hw.openedOwn
        (r := (req.serve ext cfg principal b s.world).1)
        fun st hst => serve_watching req s.world hst
      refine ⟨congrArg Output.response hr, ?_⟩
      have hr' : (req.serve ext cfg principal b s.world).1
        = (req.serve ext cfg principal b s'.world).1 := hr
      rw [Session.step, Session.step]
      simp only
      rw [← hr']
      exact hopened
  | poll t' i idleFirst =>
      cases ha
      rw [Session.step, Session.step, ← h.stream i]
      cases hst : s.stream b i with
      | none => exact ⟨rfl, h⟩
      | some st =>
          have htenant := h.proper.stream hst
          -- a stream belongs to the tenant who opened it, so its turn reads
          -- that tenant's channels only
          have hpoll := watchPoll_alone ext st idleFirst
          rw [htenant] at hpoll
          obtain ⟨hr, hw⟩ := h.own hpoll
          have hturned := hw.turnedOwn ext i htenant
            ((watchPoll st idleFirst).run (Prim.exec ext none) s.world).1
            fun event st' hturn => by
              rw [← htenant]
              exact (watchPoll_tenant st idleFirst).answer s.world event
                st' hturn
          simp only
          rw [← hr]
          exact ⟨rfl, hturned⟩
  | hangUp t' i =>
      cases ha
      rw [Session.step, Session.step, ← h.stream i]
      cases hst : s.stream b i with
      | none => exact ⟨rfl, h⟩
      | some st => exact ⟨rfl, h.dropOwn i (h.proper.stream hst)⟩
  | setQuota t' maxBytes maxOpsPerSec =>
      cases ha
      obtain ⟨hr, hw⟩ := h.own (adminSetQuota_alone maxBytes maxOpsPerSec)
      exact ⟨congrArg Output.quota hr, hw⟩
  | clearQuota t' =>
      cases ha
      obtain ⟨hr, hw⟩ := h.own (adminClearQuota_alone ext)
      exact ⟨congrArg Output.quota hr, hw⟩
  | sweep => cases ha
  | tick now instant => cases ha

/-- A sweep and the clock concern everyone alike. -/
theorem Alike.step_common (h : Alike b s s') {a : Action}
    (ha : a.tenant = none) :
    Alike b (s.step ext cfg a).1 (s'.step ext cfg a).1 := by
  cases a with
  | sweep => exact { h with world := sweepOnce_sameFor h.world }
  | tick now instant =>
      exact { h with
        world := { h.world with now := rfl, instant := rfl } }
  | _ => cases ha

end Steps

end Session

-- ========================================================= noninterference

/-- The action names `b`. -/
def Action.names (b : String) (a : Action) : Bool :=
  decide (a.tenant = some b)

/-- The action names no tenant but `b`. -/
def Action.spares (b : String) (a : Action) : Bool :=
  decide (a.tenant = none ∨ a.tenant = some b)

/-- The unwinding conditions: actions of others are not seen, and the tenant's
own go alike. -/
private theorem session_unwinds (ext : Externals) (cfg : NodeConfig)
    (b : String) :
    Unwinds (Session.step ext cfg) (Session.Alike b) (Action.spares b)
      (Action.names b) where
  kept_of_seen := fun a ha => by
    simp only [Action.names, Action.spares, decide_eq_true_eq] at *
    exact .inr ha
  skip := fun s s' a h ha => by
    simp only [Action.spares, decide_eq_false_iff_not, not_or] at ha
    cases ht : a.tenant with
    | none => exact absurd ht ha.1
    | some t =>
        refine h.step_other ht fun he => ha.2 ?_
        rw [ht, he]
  both := fun s s' a h ha => by
    simp only [Action.spares, decide_eq_true_eq] at ha
    rcases ha with ha | ha
    · exact h.step_common ha
    · exact (h.step_own ha).2
  alike := fun s s' a h ha => by
    simp only [Action.names, decide_eq_true_eq] at ha
    exact (h.step_own ha).1

/-- **Tenant noninterference.** Deleting from a run every request, stream
and quota change that names a tenant other than `b` changes no response to
`b`'s requests, no event on `b`'s streams, none of `b`'s limiters and not
`b`'s counter. -/
theorem tenant_noninterference (ext : Externals) (cfg : NodeConfig)
    (b : String) (w : World) (as : List Action) :
    let start : Session := ⟨w, fun _ => []⟩
    let purged := as.filter (Action.spares b)
    let step := Session.step ext cfg
    (trace step start as).filter (fun e => e.1.names b)
        = (trace step start purged).filter (fun e => e.1.names b)
      ∧ (final step start as).world.quotas.usedBytes b
        = (final step start purged).world.quotas.usedBytes b
      ∧ (final step start as).world.throttle.tenant b
        = (final step start purged).world.throttle.tenant b := by
  intro start purged step
  have hproper : start.Proper := fun t st hst => (nomatch hst)
  have halike : Session.Alike b start start :=
    ⟨SameFor.refl b w, rfl, hproper, hproper⟩
  obtain ⟨htrace, hfinal⟩ := (session_unwinds ext cfg b).purge as halike
  exact ⟨htrace, hfinal.world.used, hfinal.world.limiters⟩

end FerrisKv
