/-
Nobody can tell which backend a node runs on.

The two backends hold the same table and differ in what they make of a
crash; the node asks which one it has (`is_durable`) only to decide whether
its log may be rotated. So a node on the memory backend and one on fjall
that hold the same answer every request, stream poll and quota change
alike, for as long as both are up, whatever their logs hold and however
often one of them is rotated (`backends_agree`).

The steps on the log, and those on the backend that only matter to the log,
are hidden from clients; every other step answers by what the two nodes
have in common. What an append answers is a sequence number that no caller
uses.
-/
import FerrisKv.Node.Concurrent
import FerrisKv.Node.Session
import FerrisKv.Proofs.Node.Footprint
import FerrisKv.Lib.Unwinding

namespace FerrisKv

open Prog NodeService Unwinding

-- ============================================================= the relation

/-- The nodes hold the same, on whatever backend and with whatever log. -/
structure Interchangeable (w w' : World) : Prop where
  now : w.now = w'.now
  instant : w.instant = w'.instant
  contents : w.storage.contents = w'.storage.contents
  ttl : w.ttl = w'.ttl
  quotas : w.quotas = w'.quotas
  throttle : w.throttle = w'.throttle
  watch : w.watch = w'.watch

/-- Being interchangeable is an equivalence. -/
private theorem interchangeable_equivalence : Equivalence Interchangeable where
  refl _ := ⟨rfl, rfl, rfl, rfl, rfl, rfl, rfl⟩
  symm h := ⟨h.now.symm, h.instant.symm, h.contents.symm, h.ttl.symm,
    h.quotas.symm, h.throttle.symm, h.watch.symm⟩
  trans h h' := ⟨h.now.trans h'.now, h.instant.trans h'.instant,
    h.contents.trans h'.contents, h.ttl.trans h'.ttl,
    h.quotas.trans h'.quotas, h.throttle.trans h'.throttle,
    h.watch.trans h'.watch⟩

/-- The steps that do not depend on the backend or the log. -/
def Prim.Portable : Prim → Prop
  | .wal _ => False
  | .storage .isDurable => False
  | _ => True

/-- The steps about the log. -/
def Prim.Housekeeps : Prim → Prop
  | .wal _ => True
  | .storage .isDurable => True
  | .storage .flush => True
  | _ => False

section Relation

variable {ext : Externals} {α β : Type}

/-- A portable step answers alike on both. -/
theorem Prim.Portable.isLocal {p : Prim} (h : p.Portable) :
    Local Interchangeable (Prim.exec ext none) p := by
  intro w w' hw
  obtain ⟨hnow, hinstant, hcontents, httl, hquotas, hthrottle, hwatch⟩ := hw
  have hwrite : ∀ wr : WriteLog.Write Bytes Bytes,
      (w.storage.write wr).contents = (w'.storage.write wr).contents := by
    intro wr
    rw [StorageBackend.contents_write, StorageBackend.contents_write,
      hcontents]
  cases p with
  | now => exact ⟨hnow, hnow, hinstant, hcontents, httl, hquotas, hthrottle, hwatch⟩
  | instant =>
      exact ⟨hinstant, hnow, hinstant, hcontents, httl, hquotas, hthrottle,
        hwatch⟩
  | storage q =>
      cases q with
      | isDurable => exact h.elim
      | put key value =>
          exact ⟨rfl, hnow, hinstant, hwrite (.put key value), httl, hquotas,
            hthrottle, hwatch⟩
      | delete key =>
          exact ⟨rfl, hnow, hinstant, hwrite (.delete key), httl, hquotas,
            hthrottle, hwatch⟩
      | flush =>
          refine ⟨rfl, hnow, hinstant, ?_, httl, hquotas, hthrottle, hwatch⟩
          show w.storage.flush.contents = w'.storage.flush.contents
          rw [StorageBackend.contents_flush, StorageBackend.contents_flush,
            hcontents]
      | get key =>
          refine ⟨?_, hnow, hinstant, hcontents, httl, hquotas, hthrottle,
            hwatch⟩
          show Except.ok w.storage.contents[key]? = .ok w'.storage.contents[key]?
          rw [hcontents]
      | scan pre =>
          refine ⟨?_, hnow, hinstant, hcontents, httl, hquotas, hthrottle,
            hwatch⟩
          show Except.ok (w.storage.contents.scan pre)
            = .ok (w'.storage.contents.scan pre)
          rw [hcontents]
      | scanRange start stop =>
          refine ⟨?_, hnow, hinstant, hcontents, httl, hquotas, hthrottle,
            hwatch⟩
          show Except.ok (w.storage.contents.scanRange start stop)
            = .ok (w'.storage.contents.scanRange start stop)
          rw [hcontents]
  -- no portable step touches the log, and none asks whether the backend is
  -- durable: there the two backends differ
  | wal q => exact h.elim
  | ttl q =>
      simp only [Prim.exec, httl]
      exact ⟨trivial, hnow, hinstant, hcontents, rfl, hquotas, hthrottle, hwatch⟩
  | quota q =>
      simp only [Prim.exec, hquotas]
      exact ⟨trivial, hnow, hinstant, hcontents, httl, rfl, hthrottle, hwatch⟩
  | throttle q =>
      simp only [Prim.exec, hthrottle, hinstant]
      exact ⟨trivial, hnow, rfl, hcontents, httl, hquotas, rfl, hwatch⟩
  | watch q =>
      simp only [Prim.exec, hwatch]
      exact ⟨trivial, hnow, hinstant, hcontents, httl, hquotas, hthrottle, rfl⟩

/-- Housekeeping does not show. -/
theorem Prim.Housekeeps.hidden {p : Prim} (h : p.Housekeeps) :
    Hidden Interchangeable (Prim.exec ext none) p := by
  intro w
  cases p with
  | wal q => exact ⟨rfl, rfl, rfl, rfl, rfl, rfl, rfl⟩
  | storage q =>
      cases q with
      | isDurable => exact ⟨rfl, rfl, rfl, rfl, rfl, rfl, rfl⟩
      | flush =>
          refine ⟨rfl, rfl, ?_, rfl, rfl, rfl, rfl⟩
          exact (StorageBackend.contents_flush _).symm
      | _ => exact h.elim
  | _ => exact h.elim

/-- The program answers alike on nodes that hold the same. -/
abbrev AnswersAlike (ext : Externals) (x : NodeProg α) : Prop :=
  Steady Interchangeable (Prim.exec ext none) x

/-- A program of portable steps answers alike. -/
theorem alike_of_portable {x : NodeProg α} (hx : x.Uses Prim.Portable) :
    AnswersAlike ext x :=
  steady_of_local (hx.mono fun _ hp => hp.isLocal)

/-- So does one of housekeeping, which answers nothing. -/
private theorem alike_of_housekeeping {x : NodeProg Unit}
    (hx : x.Uses Prim.Housekeeps) : AnswersAlike ext x :=
  steady_of_hidden interchangeable_equivalence
    (hx.mono fun _ hp => hp.hidden)

/-- A check does not look at the backend. -/
theorem alike_ofCheck {r : Except Status α} {f : α → GrpcM β}
    (hf : ∀ a, AnswersAlike ext (f a).run) :
    AnswersAlike ext (ExceptT.run (ofCheck r >>= f)) := by
  cases r with
  | error e => exact steady_ret _
  | ok a => exact hf a

/-- Errors are reported alike. -/
theorem alike_mapStatus {x : NodeM α} (hx : AnswersAlike ext x.run) :
    AnswersAlike ext (mapStatus x).run :=
  steady_bind hx fun _ => steady_ret _

/-- Alike, then alike again, is alike. -/
theorem alike_bindE {ε : Type} {x : Fallible Prim Prim.Resp ε α}
    {f : α → Fallible Prim Prim.Resp ε β} (hx : AnswersAlike ext x.run)
    (hf : ∀ a, AnswersAlike ext (f a).run) : AnswersAlike ext (ExceptT.run (x >>= f)) :=
  steady_bindE hx fun a _ => hf a

end Relation

-- ================================================================== writes

section Writes

variable {ext : Externals} {cfg : NodeConfig}

/-- Rotation is housekeeping. -/
private theorem rotateWalIfNeeded_housekeeps (cfg : NodeConfig) :
    (rotateWalIfNeeded cfg).Uses Prim.Housekeeps := by
  refine (rotateWalIfNeeded_uses cfg).mono fun p hp => ?_
  rcases hp with rfl | rfl | rfl | rfl <;> exact trivial

theorem Prim.Looks.portable {p : Prim} (h : p.Looks) : p.Portable := by
  obtain ⟨key, rfl⟩ := h
  exact trivial

theorem Prim.Schedules.portable {p : Prim} (h : p.Schedules) :
    p.Portable := by
  rcases h with ⟨k, e, rfl⟩ | rfl <;> exact trivial

theorem Prim.Pays.portable {p : Prim} (h : p.Pays) : p.Portable := by
  rcases h with ⟨t, d, rfl⟩ | ⟨t, key, value, -, rfl⟩ <;> exact trivial

theorem Prim.OnWatch.portable {p : Prim} (h : p.OnWatch) : p.Portable := by
  obtain ⟨q, rfl⟩ := h
  exact trivial

theorem Prim.ReadsQuota.portable {p : Prim} (h : p.ReadsQuota) :
    p.Portable := by
  rcases h with ⟨t, rfl⟩ | ⟨t, rfl⟩ <;> exact trivial

/-- Scheduling goes alike. -/
private theorem scheduleExpiry_alike (key : Bytes) (exp : Option Nat) :
    AnswersAlike ext (scheduleExpiry key exp) :=
  alike_of_portable ((scheduleExpiry_uses key exp).mono
    fun _ hp => hp.portable)

/-- The end of a write. -/
theorem settle_alike (plan : Option Accounting) (key value : Bytes)
    (kind : ChangeKind) :
    AnswersAlike ext (ExceptT.run (do
      commitAccounting plan
      publishChange key kind value
      rotateWalIfNeeded cfg : NodeM Unit)) := by
  refine alike_bindE (steady_lift (alike_of_portable
    ((commitAccounting_uses plan).mono fun _ hp => hp.portable))) fun _ => ?_
  refine alike_bindE (steady_lift (alike_of_portable
    ((publishChange_uses key kind value).mono fun _ hp => hp.portable)))
    fun _ => ?_
  exact steady_lift (alike_of_housekeeping (rotateWalIfNeeded_housekeeps cfg))

/-- The sequence number of an append is not used. -/
theorem walAppend_alike {op : WalOp} {key value : Bytes} {rest : NodeM Unit}
    (h : AnswersAlike ext rest.run) :
    AnswersAlike ext (ExceptT.run (walAppend op key value >>= fun _ => rest)) := by
  refine steady_skip interchangeable_equivalence ?_ (fun w => ⟨_, rfl⟩) h
  exact ⟨Prim.Housekeeps.hidden (by trivial), fun _ => trivial⟩

/-- A put answers alike: its last step is the only one to ask which backend it
is on. -/
private theorem putWithTtl_alike (key value : Bytes) (ttlMs : Nat) :
    AnswersAlike ext (putWithTtl cfg key value ttlMs).run := by
  unfold putWithTtl
  refine alike_bindE (steady_lift (alike_of_portable
    ((expiryStamp_uses ttlMs).mono fun _ hp => hp ▸ trivial))) fun exp => ?_
  refine alike_bindE (alike_of_portable ((planAccounting_uses key
    value.length).mono fun _ hp => hp.portable)) fun plan => ?_
  refine alike_bindE (alike_of_portable ((checkAccounting_uses plan).mono
    fun _ hp => hp.portable)) fun _ => ?_
  refine walAppend_alike (alike_bindE
    (alike_of_portable ⟨trivial, fun _ => trivial⟩) fun _ => ?_)
  exact alike_bindE (steady_lift (scheduleExpiry_alike key exp))
    fun _ => settle_alike plan key value .put

theorem delete_alike (key : Bytes) :
    AnswersAlike ext (NodeService.delete cfg key).run := by
  unfold NodeService.delete
  refine alike_bindE (alike_of_portable ((planDeleteAccounting_uses key).mono
    fun _ hp => hp.portable)) fun plan => ?_
  refine walAppend_alike (alike_bindE
    (alike_of_portable ⟨trivial, fun _ => trivial⟩) fun _ => ?_)
  exact settle_alike plan key [] .delete

end Writes

-- ================================================================ handlers

section Handlers

variable {ext : Externals} {cfg : NodeConfig} {t : String}
  {principal : Option Principal}

private theorem get_alike (key : Bytes) :
    AnswersAlike ext (NodeService.get key).run := by
  refine alike_of_portable ((get_uses_of key).mono fun p hp => ?_)
  rcases hp with rfl | rfl <;> exact trivial

/-- Admission does not touch storage. -/
private theorem admitRpc_alike (cost : Nat) :
    AnswersAlike ext (admitRpc cfg t cost).run := by
  refine alike_mapStatus (alike_of_portable ?_)
  refine uses_bindE (uses_lift ⟨trivial, fun _ => trivial⟩) fun _ => ?_
  refine (throttleCheck_uses cfg t _ cost).mono fun p hp => ?_
  rcases hp with rfl | ⟨rate, rfl⟩ | ⟨entry, cost, rfl⟩ <;> exact trivial

/-- Nothing before a handler does. -/
theorem enter_alike (perm : String) :
    AnswersAlike ext (enter cfg principal t perm).run :=
  alike_ofCheck fun _ => alike_ofCheck fun _ => admitRpc_alike 1

/-- The handlers answer alike, as the programs they call do. -/
private theorem getImpl_alike (key : Bytes) :
    AnswersAlike ext (getImpl cfg principal t key).run :=
  alike_bindE (enter_alike _) fun _ => alike_ofCheck fun _ =>
    alike_ofCheck fun _ => alike_mapStatus (get_alike _)

private theorem putImpl_alike (key value : Bytes) (ttlMs : Nat) :
    AnswersAlike ext (putImpl cfg principal t key value ttlMs).run :=
  alike_bindE (enter_alike _) fun _ => alike_ofCheck fun _ =>
    alike_ofCheck fun _ => alike_ofCheck fun _ =>
      alike_mapStatus (putWithTtl_alike _ value ttlMs)

private theorem deleteImpl_alike (key : Bytes) :
    AnswersAlike ext (deleteImpl cfg principal t key).run :=
  alike_bindE (enter_alike _) fun _ => alike_ofCheck fun _ =>
    alike_ofCheck fun _ => alike_bindE (alike_mapStatus (get_alike _))
      fun _ => alike_bindE (alike_mapStatus (delete_alike _))
        fun _ => steady_ret _

private theorem scanImpl_alike (userPrefix : Bytes) (limit : Nat) :
    AnswersAlike ext (scanImpl cfg principal t userPrefix limit).run := by
  refine alike_bindE (enter_alike _) fun _ => alike_ofCheck fun bounds => ?_
  refine alike_bindE (alike_mapStatus (alike_of_portable
    ((scanRange_uses_of _ _).mono fun p hp => ?_))) fun _ => steady_ret _
  rcases hp with rfl | rfl <;> exact trivial

private theorem batchOp_alike (o : BatchOp) :
    AnswersAlike ext (batchOp cfg t o).run := by
  refine alike_ofCheck fun _ => alike_ofCheck fun _ =>
    alike_ofCheck fun k => ?_
  split
  · exact alike_mapStatus (putWithTtl_alike _ _ _)
  · split
    · exact alike_mapStatus (delete_alike _)
    · exact steady_ret _

private theorem batchLoop_alike (ops : List BatchOp) :
    AnswersAlike ext (batchLoop cfg t ops).run := by
  induction ops with
  | nil => exact steady_ret _
  | cons o rest ih => exact alike_bindE (batchOp_alike o) fun _ => ih

private theorem watchImpl_alike (keyPrefix : Bytes) :
    AnswersAlike ext (watchImpl cfg principal t keyPrefix).run := by
  refine alike_bindE (enter_alike _) fun _ => alike_ofCheck fun _ =>
    alike_of_portable ?_
  refine uses_bindE (uses_lift ⟨trivial, fun found => ?_⟩)
    fun rx => ⟨trivial, fun _ => trivial⟩
  cases found with
  | none => exact ⟨trivial, fun _ => trivial⟩
  | some rx => exact trivial

/-- Every RPC. -/
theorem request_alike (req : Request) :
    AnswersAlike ext (req.prog cfg principal t) := by
  cases req with
  | get key => exact steady_map _ (getImpl_alike key)
  | put key value ttlMs => exact steady_map _ (putImpl_alike key value ttlMs)
  | delete key => exact steady_map _ (deleteImpl_alike key)
  | scan userPrefix limit =>
      exact steady_map _ (scanImpl_alike userPrefix limit)
  | batch ops =>
      exact steady_map _ (alike_ofCheck fun _ => alike_ofCheck fun _ =>
        alike_ofCheck fun _ => alike_ofCheck fun _ =>
          alike_bindE (admitRpc_alike _) fun _ => batchLoop_alike ops)
  | watch keyPrefix => exact steady_map _ (watchImpl_alike keyPrefix)

/-- A stream's turn answers from the channel. -/
private theorem watchPoll_alike (state : WatchState) (idleFirst : Bool) :
    AnswersAlike ext (watchPoll state idleFirst) := by
  refine alike_of_portable ((watchPoll_uses state idleFirst).mono fun p hp => ?_)
  rcases hp with hp | hp <;> rw [hp] <;> exact trivial

theorem Prim.OverridesFor.portable {p : Prim} (h : p.OverridesFor t) :
    p.Portable := by
  rcases h with ⟨key, hk, ⟨value, rfl⟩ | rfl⟩ | ⟨q, rfl⟩ | rfl <;> exact trivial

/-- A usage report is made from memory. -/
private theorem usageOf_alike : AnswersAlike ext (usageOf t) :=
  alike_of_portable ⟨trivial, fun _ => ⟨trivial, fun _ => trivial⟩⟩

/-- Validation looks at the name only. -/
private theorem validateTenant_alike :
    AnswersAlike ext (validateTenant t).run := by
  unfold validateTenant
  split <;> exact steady_ret _

/-- A quota is set alike. -/
private theorem adminSetQuota_alike (maxBytes maxOpsPerSec : Option Nat) :
    AnswersAlike ext (adminSetQuota ext t maxBytes maxOpsPerSec).run := by
  refine alike_bindE validateTenant_alike fun _ => ?_
  refine alike_bindE (alike_of_portable
    (uses_lift ⟨trivial, fun _ => trivial⟩)) fun current => ?_
  refine alike_bindE (steady_bind (alike_of_portable
    ((setQuota_uses ext t _).mono fun _ hp => hp.portable))
    fun _ => steady_ret _) fun _ => ?_
  exact steady_lift usageOf_alike

private theorem adminClearQuota_alike : AnswersAlike ext
    (adminClearQuota t).run := by
  refine alike_bindE validateTenant_alike fun _ => ?_
  refine alike_bindE (steady_bind (alike_of_portable
    ((clearQuota_uses t).mono fun _ hp => hp.portable))
    fun _ => steady_ret _) fun _ => ?_
  exact steady_lift usageOf_alike

-- ================================================================ the sweep

/-- A swept key goes alike. -/
private theorem sweepKey_alike (now : Nat) (key : Bytes) :
    AnswersAlike ext (sweepKey cfg now key) := by
  refine steady_bind (alike_of_portable ⟨trivial, fun _ => trivial⟩)
    fun r => ?_
  rcases r with e | _ | raw
  · exact steady_ret 0
  · exact steady_ret 0
  · show AnswersAlike ext (sweepFound cfg now key raw)
    unfold sweepFound
    split
    · refine steady_bind (delete_alike key) fun r => ?_
      cases r <;> exact steady_ret _
    · refine steady_bind ?_ fun _ => steady_ret 0
      exact alike_of_portable ((reschedule_uses key raw).mono
        fun _ hp => hp.portable)
    · exact steady_ret 0

private theorem sweepLoop_alike (now : Nat) (keys : List Bytes) :
    ∀ removed, AnswersAlike ext (sweepLoop cfg now keys removed) := by
  induction keys with
  | nil => exact fun removed => steady_ret removed
  | cons key rest ih =>
      exact fun removed => steady_bind (sweepKey_alike now key) fun n => ih _

private theorem sweepOnce_alike : AnswersAlike ext (sweepOnce cfg) := by
  refine steady_bind (alike_of_portable ⟨trivial, fun _ => trivial⟩)
    fun now => ?_
  exact steady_bind (alike_of_portable ⟨trivial, fun _ => trivial⟩)
    fun keys => sweepLoop_alike now keys 0

end Handlers

-- ================================================================ sessions

namespace Session

/-- Sessions on such nodes, with the same open streams. -/
structure Twin (s s' : Session) : Prop where
  world : Interchangeable s.world s'.world
  streams : s.streams = s'.streams

variable {ext : Externals} {cfg : NodeConfig} {s s' : Session}

/-- Twins have the same streams. -/
theorem Twin.stream (h : Twin s s') (t : String) (i : Nat) :
    s.stream t i = s'.stream t i := by
  unfold Session.stream
  rw [h.streams]

/-- They stay so when both store the same. -/
theorem Twin.setStreams (h : Twin s s') (t : String)
    {l l' : List (Option WatchState)} (hl : l = l') :
    Twin (s.setStreams t l) (s'.setStreams t l') := by
  subst hl
  refine ⟨h.world, ?_⟩
  show Function.update s.streams t l = Function.update s'.streams t l
  rw [h.streams]

/-- A program served on both. -/
theorem Twin.serve {α : Type} {x : NodeProg α} (h : Twin s s')
    (hx : AnswersAlike ext x) :
    (x.run (Prim.exec ext none) s.world).1
        = (x.run (Prim.exec ext none) s'.world).1
      ∧ Twin { s with world := (x.run (Prim.exec ext none) s.world).2 }
        { s' with world := (x.run (Prim.exec ext none) s'.world).2 } := by
  obtain ⟨hr, hw⟩ := hx _ _ h.world
  exact ⟨hr, hw, h.streams⟩

/-- They drop them together. -/
theorem Twin.dropStream (h : Twin s s') (t : String) (i : Nat)
    (state : WatchState) :
    Twin (s.dropStream ext t i state) (s'.dropStream ext t i state) := by
  have hdrop : AnswersAlike ext
      (WatchPrim.drop state.tenant state.rx).call :=
    alike_of_portable ⟨trivial, fun _ => trivial⟩
  refine (h.serve hdrop).2.setStreams t ?_
  rw [h.streams]

/-- They open them together. -/
theorem Twin.opened (h : Twin s s') (t : String) (r : Response) :
    Twin (s.opened t r) (s'.opened t r) := by
  unfold Session.opened
  split
  · refine h.setStreams t ?_
    rw [h.streams]
  · exact h

/-- They turn them together. -/
theorem Twin.turned (h : Twin s s') (t : String) (i : Nat)
    (state : WatchState) (turn : StreamTurn) :
    Twin (s.turned ext t i state turn) (s'.turned ext t i state turn) := by
  cases turn with
  | item event state' =>
      refine h.setStreams t ?_
      rw [h.streams]
  | failed status => exact h.dropStream t i state
  | ended => exact h.dropStream t i state
  | again => exact h
  | pending => exact h

/-- Whatever happens to both, they answer alike and stay twins. -/
theorem Twin.step (h : Twin s s') (a : Action) :
    (s.step ext cfg a).2 = (s'.step ext cfg a).2
      ∧ Twin (s.step ext cfg a).1 (s'.step ext cfg a).1 := by
  cases a with
  | rpc principal t req =>
      have halike : AnswersAlike ext (req.prog cfg principal t) :=
        request_alike req
      obtain ⟨hr, hw⟩ := h.serve halike
      refine ⟨congrArg Output.response hr, ?_⟩
      show Twin (Session.opened _ t
          ((req.prog cfg principal t).run (Prim.exec ext none) s.world).1)
        (Session.opened _ t
          ((req.prog cfg principal t).run (Prim.exec ext none) s'.world).1)
      rw [← hr]
      exact hw.opened t _
  | poll t i idleFirst =>
      simp only [Session.step, ← h.stream t i]
      cases s.stream t i with
      | none => exact ⟨rfl, h⟩
      | some state =>
          obtain ⟨hr, hw⟩ := h.serve (watchPoll_alike state idleFirst)
          refine ⟨congrArg (Output.turn ∘ some) hr, ?_⟩
          show Twin (Session.turned ext _ t i state _)
            (Session.turned ext _ t i state _)
          rw [← hr]
          exact hw.turned t i state _
  | hangUp t i =>
      simp only [Session.step, ← h.stream t i]
      cases s.stream t i with
      | none => exact ⟨rfl, h⟩
      | some state => exact ⟨rfl, h.dropStream t i state⟩
  | setQuota t maxBytes maxOpsPerSec =>
      obtain ⟨hr, hw⟩ := h.serve (adminSetQuota_alike maxBytes maxOpsPerSec)
      exact ⟨congrArg Output.quota hr, hw⟩
  | clearQuota t =>
      obtain ⟨hr, hw⟩ := h.serve adminClearQuota_alike
      exact ⟨congrArg Output.quota hr, hw⟩
  | sweep => exact ⟨rfl, (h.serve sweepOnce_alike).2⟩
  | tick now instant =>
      exact ⟨rfl, { h.world with now := rfl, instant := rfl }, h.streams⟩

end Session

/-- Nodes that hold the same, whichever backends they run on and whatever
their logs hold, answer every sequence of requests, polls, quota changes,
sweeps and clock movements alike, and hold the same after it. -/
theorem backends_agree (ext : Externals) (cfg : NodeConfig)
    {s s' : Session} (hworld : Interchangeable s.world s'.world)
    (hstreams : s.streams = s'.streams) (actions : List Action) :
    trace (Session.step ext cfg) s actions
        = trace (Session.step ext cfg) s' actions
      ∧ Interchangeable (final (Session.step ext cfg) s actions).world
        (final (Session.step ext cfg) s' actions).world := by
  have hunwinds : Unwinds (Session.step ext cfg) Session.Twin
      (fun _ => true) (fun _ => true) :=
    ⟨fun _ h => h, fun _ _ _ _ hout => (Bool.true_eq_false.mp hout).elim,
      fun _ _ a h _ => (h.step a).2, fun _ _ a h _ => (h.step a).1⟩
  obtain ⟨htrace, hfinal⟩ := hunwinds.purge actions ⟨hworld, hstreams⟩
  have hall : actions.filter (fun _ => true) = actions :=
    List.filter_eq_self.mpr fun _ _ => rfl
  rw [hall] at htrace hfinal
  have hkept : ∀ l : List (Action × Output),
      l.filter (fun _ => true) = l :=
    fun l => List.filter_eq_self.mpr fun _ _ => rfl
  rw [hkept, hkept] at htrace
  exact ⟨htrace, hfinal.world⟩

/-- A new node on each backend. -/
def onMemory : Session := ⟨.opened { backend := .memory }, fun _ => []⟩

def onFjall : Session := ⟨.opened { backend := .fjall }, fun _ => []⟩

/-- Two nodes just started are interchangeable. -/
private theorem onMemory_interchangeable :
    Interchangeable onMemory.world onFjall.world :=
  ⟨rfl, rfl, rfl, rfl, rfl, rfl, rfl⟩

/-- A put and a get. -/
def putThenGet : List Action :=
  [.rpc (some .anonymous) "a" (.put [1] [7] 0),
    .rpc (some .anonymous) "a" (.get [1])]

/-- A put and a read, on either. -/
theorem backends_agree_new :
    trace (Session.step .plain {}) onMemory putThenGet
      = trace (Session.step .plain {}) onFjall putThenGet :=
  (backends_agree .plain {} onMemory_interchangeable rfl putThenGet).1

end FerrisKv
