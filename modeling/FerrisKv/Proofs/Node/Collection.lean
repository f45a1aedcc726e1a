/-
Which watch channels the hub keeps.

`publish` removes the channel of a tenant nobody listens to, but its one
caller, `publish_change`, asks `is_watched` first and does not call it for
such a tenant. So a write leaves every registration as it is
(`wp_put_keeps`, `wp_delete_keeps`), and a tenant once subscribed to stays
registered for good: `abandoned_channel_kept` subscribes, drops the
receiver, writes, and the channel is still there.

`collected_iff` says of a whole run when this shows. After each committed
write the tenant's channel is registered exactly when somebody listens,
and the registered channels are no more than the tenants watched and those
left alone since their last watcher went, in the runs that never write to
a tenant whose watchers have all gone, and in no others.
-/
import FerrisKv.Proofs.Node.WatchView

namespace FerrisKv

open Std Prog NodeService TenantChannels

-- ================================================================= the runs

/-- What happens to the hub. -/
inductive HubEvent where
  | subscribed (t : String)
  | dropped (t : String) (rx : Rx)
  | committed (t : String)
  deriving DecidableEq, Repr

/-- One event, whatever calls fail in it: a write is committed if it answers
`Ok`. -/
inductive HubEvent.Goes (ext : Externals) (cfg : NodeConfig) (w : World) :
    HubEvent → World → Prop where
  | subscribe {t : String} {rx : Rx} {w' : World}
      (h : Session.Served ext (subscribe t) w rx w') :
      Goes ext cfg w (.subscribed t) w'
  | drop {t : String} {rx : Rx} {w' : World}
      (hl : (w.watch.tenant t).Live rx)
      (h : Session.Served ext (WatchPrim.drop t rx).call w () w') :
      Goes ext cfg w (.dropped t rx) w'
  | put {key payload value : Bytes} {t : String} {ttlMs : Nat} {w' : World}
      (hd : KeyCodec.decode key = .ok (t, .data, payload))
      (h : Session.Served ext (putWithTtl cfg key value ttlMs).run w
        (.ok ()) w') :
      Goes ext cfg w (.committed t) w'
  | delete {key payload : Bytes} {t : String} {w' : World}
      (hd : KeyCodec.decode key = .ok (t, .data, payload))
      (h : Session.Served ext (NodeService.delete cfg key).run w (.ok ()) w') :
      Goes ext cfg w (.committed t) w'

/-- The events of a run with the states they lead to, the newest first. -/
abbrev HubTrace := List (HubEvent × World)

/-- The state a run has come to. -/
def HubTrace.now (trace : HubTrace) (w₀ : World) : World :=
  (trace.head?.map Prod.snd).getD w₀

/-- A sequential run of a node whose hub is new. -/
inductive HubRun (ext : Externals) (cfg : NodeConfig) (w₀ : World) :
    HubTrace → Prop where
  | start (h : w₀.watch = .new cfg.watchBuffer) : HubRun ext cfg w₀ []
  | step {trace : HubTrace} {e : HubEvent} {w : World}
      (h : HubRun ext cfg w₀ trace)
      (he : HubEvent.Goes ext cfg (trace.now w₀) e w) :
      HubRun ext cfg w₀ ((e, w) :: trace)

-- ============================================================= the property

/-- The hub has a channel registered for the tenant. -/
def World.Registers (w : World) (t : String) : Prop :=
  (w.watch.tenant t).registered ≠ none

/-- Somebody listens to the tenant. -/
def World.Watches (w : World) (t : String) : Prop :=
  ∃ rx, (w.watch.tenant t).Live rx

/-- If the run has just committed a write, the tenant's channel is registered
exactly when somebody listens. -/
def HubTrace.Collected : HubTrace → Prop
  | (.committed t, w) :: _ => w.Registers t ↔ w.Watches t
  | _ => True

/-- Nobody listens to the tenant any more, and it has not been written to
since its last watcher left. -/
def HubTrace.LeftAlone (trace : HubTrace) (t : String) : Prop :=
  ∃ since e w past, trace = since ++ (e, w) :: past ∧ since ≠ []
    ∧ w.Watches t ∧ ∀ x ∈ since, ¬ x.2.Watches t ∧ x.1 ≠ .committed t

/-- The registered channels are at most as many as the tenants watched now
and those left alone. -/
def HubTrace.Bounded (trace : HubTrace) (w₀ : World) : Prop :=
  {t | (trace.now w₀).Registers t}.ncard
    ≤ {t | (trace.now w₀).Watches t}.ncard + {t | trace.LeftAlone t}.ncard

/-- No write was committed to a tenant that has had watchers and has
none. -/
def HubTrace.SparesAbandoned (trace : HubTrace) : Prop :=
  ∀ t w past, (.committed t, w) :: past <:+ trace →
    w.Watches t ∨ .subscribed t ∉ past.map Prod.fst

-- ================================================================ the events

/-- Every registration is as it was, and the same receivers are live. -/
def SameHub (w g : World) : Prop :=
  ∀ t, (g.watch.tenant t).registered = (w.watch.tenant t).registered
    ∧ ∀ rx, (g.watch.tenant t).Live rx ↔ (w.watch.tenant t).Live rx

/-- A handle is live if its receiver is. -/
theorem live_iff_receiver {tc : TenantChannels} {rx : Rx} :
    tc.Live rx ↔ ∃ r, tc.receiver rx = some r ∧ r.live = true := by
  unfold Live Channel.Listens receiver
  simp only [Option.bind_eq_some_iff]
  constructor
  · rintro ⟨c, hc, r, hr, hl⟩
    exact ⟨r, ⟨c, hc, hr⟩, hl⟩
  · rintro ⟨r, ⟨c, hc, hr⟩, hl⟩
    exact ⟨c, hc, r, hr, hl⟩

section Events

variable {ext : Externals} {ok : Prim → Option Fault → Prop}
  {cfg : NodeConfig} {w g : World} {α : Type} {t : String}

theorem SameHub.refl (w : World) : SameHub w w :=
  fun _ => ⟨rfl, fun _ => .rfl⟩

theorem SameHub.trans {g' : World} (h : SameHub w g) (h' : SameHub g g') :
    SameHub w g' :=
  fun t => ⟨(h' t).1.trans (h t).1, fun rx => ((h' t).2 rx).trans ((h t).2 rx)⟩

/-- The hub is the sum of its tenants. -/
private theorem SameHub.of_tenants
    (h : ∀ t, g.watch.tenant t = w.watch.tenant t) : SameHub w g := by
  intro t
  rw [h t]
  exact ⟨rfl, fun _ => .rfl⟩

/-- A tenant that is watched is sent to, and keeps its channel. -/
private theorem sends_of_isWatched {tc : TenantChannels} {buffer : Nat}
    (change : KeyChange)
    (h : ((WatchPrim.isWatched t).execTenant buffer tc).1 = true) :
    ∃ channels, (WatchPrim.send t change).execTenant buffer tc
      = (.sent, { tc with channels := channels }) := by
  simp only [WatchPrim.execTenant] at h ⊢
  cases hcur : tc.current with
  | none =>
      rw [hcur] at h
      cases h
  | some ic =>
      rw [hcur] at h
      have hpos : ic.2.receiverCount ≠ 0 :=
        Nat.pos_iff_ne_zero.mp (of_decide_eq_true h)
      exact ⟨_, if_neg hpos⟩

/-- Sending on a watched channel registers and drops nobody. -/
theorem sameHub_send {hub : WatchHub} {change : KeyChange}
    {channels : List Channel}
    (h : (WatchPrim.send t change).execTenant
        (ext.broadcastBuffer hub.capacity) (hub.tenant t)
      = (.sent, { hub.tenant t with channels := channels })) (w g : World)
    (hw : w.watch = hub)
    (hg : g.watch = ((WatchPrim.send t change).exec ext hub).2) :
    SameHub w g := by
  intro t'
  rw [hw]
  by_cases heq : t = t'
  · subst heq
    have hself : g.watch.tenant t = ((WatchPrim.send t change).execTenant
        (ext.broadcastBuffer hub.capacity) (hub.tenant t)).2 := by
      rw [hg, tenant_exec]
      exact if_pos rfl
    refine ⟨?_, fun rx => ?_⟩
    · rw [hself, h]
    · rw [hself, live_iff_receiver, live_iff_receiver, receiver_send]
  · have hother : g.watch.tenant t' = hub.tenant t' := by
      rw [hg, tenant_exec]
      exact if_neg heq
    rw [hother]
    exact ⟨rfl, fun _ => .rfl⟩

/-- Publication behind `is_watched` never comes to the removal. -/
theorem wp_publish_keeps (tenant : String) (change : KeyChange) (w : World) :
    wp (.handler (Prim.exec ext none)) (fun g _ => SameHub w g) (do
      let watched ← (WatchPrim.isWatched tenant).call
      if watched then publish tenant change else pure ()) w := by
  refine (wp_bind _ _ _).mpr ?_
  show wp _ _ (if ((WatchPrim.isWatched tenant).exec ext w.watch).1 then _
    else _) { w with watch := _ }
  have hsame : ∀ t, ((WatchPrim.isWatched tenant).exec ext w.watch).2.tenant t
      = w.watch.tenant t := by
    intro t
    rw [tenant_exec]
    exact ite_self _
  have hcap : ((WatchPrim.isWatched tenant).exec ext w.watch).2.capacity
      = w.watch.capacity := rfl
  generalize hhub : ((WatchPrim.isWatched tenant).exec ext w.watch).2 = hub
    at hsame hcap ⊢
  have hlooked : SameHub w { w with watch := hub } := .of_tenants hsame
  split
  · next hw =>
      have hw : ((WatchPrim.isWatched tenant).execTenant
          (ext.broadcastBuffer w.watch.capacity)
          (w.watch.tenant tenant)).1 = true := hw
      obtain ⟨channels, hsend⟩ := sends_of_isWatched change hw
      rw [← hsame tenant, ← hcap] at hsend
      have hout : ((WatchPrim.send tenant change).exec ext hub).1 = .sent :=
        congrArg Prod.fst hsend
      refine wp_handler_bind (Prod.ext hout rfl) ?_
      exact hlooked.trans (sameHub_send hsend _ _ rfl rfl)
  · exact hlooked

/-- Publishing keeps every channel that somebody listens to. -/
private theorem wp_publishChange_keeps (key value : Bytes) (kind : ChangeKind)
    (w : World) :
    wp (restless ext ok) (fun g _ => SameHub w g)
      (publishChange key kind value) w := by
  have hkeeps : wp (.handler (Prim.exec ext none)) (fun g _ => SameHub w g)
      (publishChange key kind value) w := by
    unfold publishChange
    cases KeyCodec.decode key with
    | error e => exact .refl w
    | ok d =>
        obtain ⟨tenant, subspace, payload⟩ := d
        cases subspace with
        | data => exact wp_publish_keeps tenant ⟨kind, payload, value⟩ w
        | metadata => exact .refl w
        | index => exact .refl w
        | stats => exact .refl w
  refine wp_mono ?_ (wp_onWatch (publishChange_uses key kind value) w w rfl)
  rintro g a ⟨-, hw, -⟩
  intro t
  rw [hw]
  exact run_post hkeeps t

/-- A step off the hub leaves it as it is. -/
theorem keeps_offWatch {x : NodeProg α} {S : Prim → Prop} (hx : x.Uses S)
    (hS : ∀ p, S p → ¬ p.OnWatch) :
    x.Preserves (restless ext ok) (SameHub w) := by
  refine hx.preserves fun g p h hp => ?_
  refine restless_post fun now instant fault _ => h.trans ?_
  have hwatch : (p.exec ext fault (g.tick now instant)).2.watch = g.watch := by
    cases p with
    | watch q => exact absurd ⟨q, rfl⟩ (hS _ hp)
    | _ => rfl
  exact .of_tenants fun t => by rw [hwatch]

/-- Paying and rotating do not touch the hub. -/
private theorem not_onWatch_of_settles {p : Prim} (h : p.Pays ∨ p.Rotates) :
    ¬ p.OnWatch := by
  rintro ⟨q, rfl⟩
  obtain (⟨_, _, h⟩ | ⟨_, _, _, _, h⟩) | (h | h | h | h) := h <;> cases h

/-- The end of a write keeps the hub. -/
private theorem settle_keeps (plan : Option Accounting) (key value : Bytes)
    (kind : ChangeKind) :
    (ExceptT.run (do
      commitAccounting plan
      publishChange key kind value
      rotateWalIfNeeded cfg : NodeM Unit)).Preserves (restless ext ok)
        (SameHub w) := by
  refine preserves_bindE (preserves_lift (keeps_offWatch
    (commitAccounting_uses plan) fun p hp => not_onWatch_of_settles
      (.inl hp))) fun _ => ?_
  refine preserves_bindE (preserves_lift fun g h => wp_mono
    (fun g' _ h' => h.trans h')
    (wp_publishChange_keeps key value kind g)) fun _ => ?_
  exact preserves_lift (keeps_offWatch (rotateWalIfNeeded_uses cfg)
    fun p hp => not_onWatch_of_settles (.inr hp))

private theorem append_keeps (op : WalOp) (key value : Bytes) :
    (walAppend op key value).run.Preserves (restless ext ok) (SameHub w) := by
  have huses : (walAppend op key value).run.Uses
      fun p => p = .wal (.append op key value) := ⟨rfl, fun _ => trivial⟩
  refine keeps_offWatch huses ?_
  rintro _ rfl ⟨q, hq⟩
  cases hq

/-- So does a put. -/
private theorem wp_put_keeps (key value : Bytes) (ttlMs : Nat) (w : World) :
    wp (restless ext ok) (fun g _ => SameHub w g)
      (putWithTtl cfg key value ttlMs).run w := by
  have hreads : ∀ p : Prim, p.Reads → ¬ p.OnWatch := by
    rintro p hp ⟨q, rfl⟩
    obtain h | ⟨_, h⟩ | ⟨_, h⟩ | ⟨_, h⟩ := hp <;> cases h
  have hput : ∀ v, (storagePut key v).run.Uses
      fun p => p = .storage (.put key v) := fun v => ⟨rfl, fun _ => trivial⟩
  refine preserves_bindE (I := SameHub w) (preserves_lift (keeps_offWatch
    (expiryStamp_uses ttlMs) ?_)) (fun exp => ?_) w (.refl w)
  · rintro _ rfl ⟨q, hq⟩
    cases hq
  refine preserves_bindE (keeps_offWatch (planAccounting_uses key _)
    fun p hp => hreads p (.inr (.inl hp))) fun plan => ?_
  refine preserves_bindE (keeps_offWatch (checkAccounting_uses plan)
    fun p hp => hreads p (.inr (.inr hp))) fun _ => ?_
  refine preserves_bindE (append_keeps _ _ _) fun _ => ?_
  refine preserves_bindE (keeps_offWatch (hput _) ?_) fun _ => ?_
  · rintro _ rfl ⟨q, hq⟩
    cases hq
  refine preserves_bindE (preserves_lift (keeps_offWatch
    (scheduleExpiry_uses key exp) ?_)) fun _ => settle_keeps plan key value .put
  rintro _ (⟨_, _, h⟩ | h) ⟨q, rfl⟩ <;> cases h

/-- So does a delete. -/
private theorem wp_delete_keeps (key : Bytes) (w : World) :
    wp (restless ext ok) (fun g _ => SameHub w g)
      (NodeService.delete cfg key).run w := by
  have hdelete : (storageDelete key).run.Uses
      fun p => p = .storage (.delete key) := ⟨rfl, fun _ => trivial⟩
  refine preserves_bindE (I := SameHub w) (keeps_offWatch
    (planDeleteAccounting_uses key) ?_) (fun plan => ?_) w (.refl w)
  · rintro _ ⟨_, h⟩ ⟨q, rfl⟩
    cases h
  refine preserves_bindE (append_keeps _ _ _) fun _ => ?_
  refine preserves_bindE (keeps_offWatch hdelete ?_)
    fun _ => settle_keeps plan key [] .delete
  rintro _ rfl ⟨q, hq⟩
  cases hq

/-- A write is nothing to the hub. -/
theorem HubEvent.Goes.committed {w' : World}
    (h : HubEvent.Goes ext cfg w (.committed t) w') : SameHub w w' := by
  cases h with
  | put hd h => exact h.post (wp_put_keeps _ _ _ w)
  | delete hd h => exact h.post (wp_delete_keeps _ w)

/-- A subscriber listens to a registered channel. -/
theorem HubEvent.Goes.subscribed {w' : World}
    (h : HubEvent.Goes ext cfg w (.subscribed t) w') :
    w'.Registers t ∧ w'.Watches t
      ∧ ∀ t', t' ≠ t → w'.watch.tenant t' = w.watch.tenant t' := by
  cases h with
  | subscribe h =>
      obtain ⟨-, hothers, hjoin⟩ := h.post (wp_subscribe_joined t w)
      obtain ⟨start, hl, -⟩ := hjoin.begins
      obtain ⟨c, hc, hlive, -⟩ := hl.channel
      refine ⟨?_, ⟨_, c, hc, hlive⟩, hothers⟩
      rw [World.Registers, hl.registered]
      exact Option.some_ne_none _

/-- Dropping a receiver registers nothing and makes nobody live. -/
theorem HubEvent.Goes.dropped {w' : World} {rx : Rx}
    (h : HubEvent.Goes ext cfg w (.dropped t rx) w') (t' : String) :
    (w'.watch.tenant t').registered = (w.watch.tenant t').registered
      ∧ ∀ rx', (w'.watch.tenant t').Live rx' → (w.watch.tenant t').Live rx' := by
  cases h with
  | drop hl h =>
      have hpost : wp (restless ext fun _ _ => True) (fun g _ =>
          g.watch = ((WatchPrim.drop t rx).exec ext w.watch).2)
          (WatchPrim.drop t rx).call w :=
        restless_post fun _ _ _ _ => rfl
      rw [h.post hpost, tenant_exec, WatchPrim.tenant]
      by_cases heq : t = t'
      · subst heq
        rw [if_pos rfl]
        simp only [WatchPrim.execTenant]
        split
        · exact ⟨rfl, fun _ => id⟩
        · next c hc =>
            exact ⟨rfl, fun rx' => Live.of_set hc fun _ => listens_of_drop⟩
      · rw [if_neg heq]
        exact ⟨rfl, fun _ => id⟩

/-- Only subscribing registers a tenant. -/
theorem HubEvent.Goes.of_ne {e : HubEvent} {w' : World}
    (h : HubEvent.Goes ext cfg w e w') (hne : e ≠ .subscribed t) :
    (w'.Registers t ↔ w.Registers t) ∧ (w'.Watches t → w.Watches t) := by
  unfold World.Registers World.Watches
  cases e with
  | subscribed t' =>
      have htt : t ≠ t' := fun heq => hne (by rw [heq])
      rw [h.subscribed.2.2 t htt]
      exact ⟨.rfl, id⟩
  | dropped t' rx =>
      obtain ⟨hreg, hlive⟩ := h.dropped t
      rw [hreg]
      exact ⟨.rfl, fun ⟨rx', hl⟩ => ⟨rx', hlive rx' hl⟩⟩
  | committed t' =>
      obtain ⟨hreg, hlive⟩ := h.committed t
      rw [hreg]
      exact ⟨.rfl, fun ⟨rx', hl⟩ => ⟨rx', (hlive rx').mp hl⟩⟩

end Events

-- ================================================================== the runs

section Runs

variable {ext : Externals} {cfg : NodeConfig} {w₀ : World}
  {trace past : HubTrace} {t : String}

/-- The past of a run is a run. -/
theorem HubRun.suffix (h : HubRun ext cfg w₀ trace) (hp : past <:+ trace) :
    HubRun ext cfg w₀ past := by
  induction h with
  | start h =>
      rw [List.suffix_nil.mp hp]
      exact .start h
  | step h he ih =>
      rcases List.suffix_cons_iff.mp hp with rfl | hp
      · exact .step h he
      · exact ih hp

/-- A tenant is registered once it has been subscribed to, and not watched
before. -/
theorem HubRun.hub (h : HubRun ext cfg w₀ trace) (t : String) :
    ((trace.now w₀).Registers t ↔ .subscribed t ∈ trace.map Prod.fst)
      ∧ ((trace.now w₀).Watches t → .subscribed t ∈ trace.map Prod.fst) := by
  induction h with
  | start h =>
      have hnone : w₀.watch.tenant t = ⟨none, []⟩ := by
        rw [h]
        rfl
      refine ⟨⟨fun hr => ?_, fun hm => nomatch hm⟩, ?_⟩
      · exact absurd (congrArg TenantChannels.registered hnone) hr
      · rintro ⟨rx, hl⟩
        have hl : (w₀.watch.tenant t).Live rx := hl
        rw [hnone] at hl
        obtain ⟨c, hc, -⟩ := hl
        cases hc
  | @step trace e w h he ih =>
      show (w.Registers t ↔ .subscribed t ∈ e :: trace.map Prod.fst)
        ∧ (w.Watches t → .subscribed t ∈ e :: trace.map Prod.fst)
      by_cases heq : e = .subscribed t
      · subst heq
        exact ⟨⟨fun _ => List.mem_cons_self, fun _ => he.subscribed.1⟩,
          fun _ => List.mem_cons_self⟩
      · obtain ⟨hreg, hwatch⟩ := he.of_ne heq
        rw [List.mem_cons, or_iff_right (Ne.symm heq), hreg]
        exact ⟨ih.1, fun hw => ih.2 (hwatch hw)⟩

theorem HubTrace.SparesAbandoned.suffix (h : trace.SparesAbandoned)
    (hp : past <:+ trace) : past.SparesAbandoned :=
  fun t w past' hp' => h t w past' (hp'.trans hp)

/-- Where no abandoned tenant is written to, a registered tenant is watched
or has been left alone. -/
theorem HubRun.accounted (h : HubRun ext cfg w₀ trace)
    (hs : trace.SparesAbandoned) (hr : (trace.now w₀).Registers t) :
    (trace.now w₀).Watches t ∨ trace.LeftAlone t := by
  induction h with
  | start h =>
      have hnew : HubRun ext cfg w₀ [] := .start h
      exact absurd ((hnew.hub t).1.mp hr) List.not_mem_nil
  | @step trace e w h he ih =>
      by_cases hw : w.Watches t
      · exact .inl hw
      have hnot : e ≠ .subscribed t := by
        rintro rfl
        exact hw he.subscribed.2.1
      have hprev : (trace.now w₀).Registers t := (he.of_ne hnot).1.mp hr
      -- a commit now would be to an abandoned tenant, which the run spares
      have hquiet : e ≠ .committed t := by
        rintro rfl
        rcases hs t w trace List.suffix_rfl with hw' | hno
        · exact hw hw'
        · exact hno ((h.hub t).1.mp hprev)
      right
      rcases ih (hs.suffix (List.suffix_cons _ _)) hprev with hwas | hleft
      · -- this event took the last watcher
        cases trace with
        | nil => exact absurd ((h.hub t).2 hwas) List.not_mem_nil
        | cons x past =>
            refine ⟨[(e, w)], x.1, x.2, past, rfl, List.cons_ne_nil _ _, hwas,
              fun y hy => ?_⟩
            rw [List.mem_singleton.mp hy]
            exact ⟨hw, hquiet⟩
      · obtain ⟨since, e', w', past, rfl, -, hwas, hall⟩ := hleft
        exact ⟨(e, w) :: since, e', w', past, rfl, List.cons_ne_nil _ _, hwas,
          List.forall_mem_cons.mpr ⟨⟨hw, hquiet⟩, hall⟩⟩

/-- Finitely many have subscribed. -/
private theorem finite_subscribed (trace : HubTrace) :
    {t | .subscribed t ∈ trace.map Prod.fst}.Finite :=
  (List.finite_toSet (trace.map Prod.fst)).preimage
    fun _ _ _ _ h => HubEvent.subscribed.inj h

/-- A hub never has more tenants than are watched or were spared. -/
theorem HubRun.bounded (h : HubRun ext cfg w₀ trace)
    (hs : trace.SparesAbandoned) : trace.Bounded w₀ := by
  have hwatched : {t | (trace.now w₀).Watches t}.Finite :=
    (finite_subscribed trace).subset fun t ht => (h.hub t).2 ht
  have hleft : {t | trace.LeftAlone t}.Finite := by
    refine (finite_subscribed trace).subset ?_
    rintro t ⟨since, e, w, past, rfl, -, hw, -⟩
    have hrun := h.suffix (List.suffix_append since ((e, w) :: past))
    show .subscribed t ∈ (since ++ (e, w) :: past).map Prod.fst
    rw [List.map_append]
    exact List.mem_append_right _ ((hrun.hub t).2 hw)
  calc {t | (trace.now w₀).Registers t}.ncard
      ≤ ({t | (trace.now w₀).Watches t} ∪ {t | trace.LeftAlone t}).ncard :=
        Set.ncard_le_ncard (fun t ht => h.accounted hs ht)
          (hwatched.union hleft)
    _ ≤ _ := Set.ncard_union_le _ _

end Runs

-- =================================================================== results

/-- Abandoned channels are collected, and the registered ones bounded, at
every moment of exactly the runs that write to no abandoned tenant. -/
theorem collected_iff (ext : Externals) (cfg : NodeConfig) (w₀ : World)
    (trace : HubTrace) (hrun : HubRun ext cfg w₀ trace) :
    (∀ past : HubTrace, past <:+ trace → past.Collected ∧ past.Bounded w₀)
      ↔ trace.SparesAbandoned := by
  constructor
  · intro h t w past hp
    by_contra hno
    rw [not_or, not_not] at hno
    obtain ⟨hw, hsub⟩ := hno
    -- taken at the offending commit itself: the tenant is registered there
    -- and not watched
    have hcoll : w.Registers t ↔ w.Watches t := (h _ hp).1
    cases hrun.suffix hp with
    | step hpast he =>
        have hreg : w.Registers t :=
          (he.of_ne (by simp)).1.mpr ((hpast.hub t).1.mpr hsub)
        exact hw (hcoll.mp hreg)
  · intro hs past hp
    have hpast := hrun.suffix hp
    refine ⟨?_, hpast.bounded (hs.suffix hp)⟩
    cases hpast with
    | start h => exact trivial
    | @step before e w hbefore he =>
        cases e with
        | subscribed t => exact trivial
        | dropped t rx => exact trivial
        | committed t =>
            have hsame := he.of_ne (t := t) (by simp)
            refine ⟨fun hr => ?_, fun hw => ?_⟩
            · refine (hs t w before hp).resolve_right fun hno => hno ?_
              exact (hbefore.hub t).1.mp (hsame.1.mp hr)
            · exact hsame.1.mpr ((hbefore.hub t).1.mpr
                ((hbefore.hub t).2 (hsame.2 hw)))

/-- Tenant `a` writes. -/
def writesOne (w : World) : World :=
  ((putWithTtl {} (KeyCodec.bytesOf "a" .data [1]) [7] 0).run.run
    (Prim.exec .plain none) w).2

/-- A put that succeeds is an event of the hub. -/
private theorem writesOne_goes {w : World}
    (h : ((putWithTtl {} (KeyCodec.bytesOf "a" .data [1]) [7] 0).run.run
      (Prim.exec .plain none) w).1 = .ok ()) :
    HubEvent.Goes .plain {} w (.committed "a") (writesOne w) := by
  have hserved : Session.Served .plain _ w _ _ := Session.served_run
    (putWithTtl {} (KeyCodec.bytesOf "a" .data [1]) [7] 0).run w
  rw [h] at hserved
  exact .put (by decide +kernel : KeyCodec.decode
    (KeyCodec.bytesOf "a" .data [1]) = .ok ("a", .data, [1])) hserved

/-- One subscription. -/
private theorem oneWatcher_run :
    HubRun .plain {} (.opened {}) [(.subscribed "a", oneWatcher)] :=
  .step (.start rfl) (.subscribe (Session.served_run _ _))

/-- Somebody watches and a write is committed: the channel stays. -/
theorem collected_iff_watched :
    oneWatcher.Watches "a" ∧ (writesOne oneWatcher).Registers "a" := by
  have hlive : ∀ w : World, (w.watch.tenant "a").receiver ⟨0, 0⟩
      = some ⟨0, true⟩ → w.Watches "a" := fun w h =>
    ⟨⟨0, 0⟩, live_iff_receiver.mpr ⟨_, h, rfl⟩⟩
  have hwrite := writesOne_goes (w := oneWatcher) (by decide +kernel)
  have hwatched : (writesOne oneWatcher).Watches "a" :=
    hlive _ (by decide +kernel)
  have hcoll := (collected_iff .plain {} (.opened {}) _
    (.step oneWatcher_run hwrite)).mpr (by
      intro t w past hp
      rcases List.suffix_cons_iff.mp hp with heq | hp
      · cases heq
        exact .inl hwatched
      · rcases List.suffix_cons_iff.mp hp with heq | hp
        · cases heq
        · cases List.suffix_nil.mp hp)
  have hnow : (writesOne oneWatcher).Registers "a"
      ↔ (writesOne oneWatcher).Watches "a" := (hcoll _ List.suffix_rfl).1
  exact ⟨hlive _ (by decide +kernel), hnow.mpr hwatched⟩

/-- The watcher of tenant `a` has left. -/
def watcherLeft : World :=
  ((WatchPrim.drop "a" ⟨0, 0⟩).call.run (Prim.exec .plain none) oneWatcher).2

/-- Subscribe, drop the receiver, write: nobody listens and the channel is
still registered. -/
theorem abandoned_channel_kept :
    HubRun .plain {} (.opened {}) [(.committed "a", writesOne watcherLeft),
      (.dropped "a" ⟨0, 0⟩, watcherLeft), (.subscribed "a", oneWatcher)]
    ∧ (writesOne watcherLeft).Registers "a"
    ∧ ¬ (writesOne watcherLeft).Watches "a" := by
  have hdrop : HubEvent.Goes .plain {} oneWatcher (.dropped "a" ⟨0, 0⟩)
      watcherLeft := .drop (live_iff_receiver.mpr
    ⟨⟨0, true⟩, by decide +kernel, rfl⟩) (Session.served_run _ _)
  refine ⟨.step (.step oneWatcher_run hdrop)
    (writesOne_goes (by decide +kernel)), ?_, ?_⟩
  · have hreg : ((writesOne watcherLeft).watch.tenant "a").registered
        = some 0 := by decide +kernel
    rw [World.Registers, hreg]
    exact Option.some_ne_none 0
  · have hchannels : ((writesOne watcherLeft).watch.tenant "a").channels
        = [⟨[], [⟨0, false⟩]⟩] := by decide +kernel
    rintro ⟨rx, c, hc, r, hr, hl⟩
    rw [hchannels] at hc
    rw [List.mem_singleton.mp (List.mem_of_getElem? hc)] at hr
    rw [List.mem_singleton.mp (List.mem_of_getElem? hr)] at hl
    cases hl

end FerrisKv
