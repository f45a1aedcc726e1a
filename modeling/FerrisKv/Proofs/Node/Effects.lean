/-
What a call that meets no fault has done when it returns.

A put or delete that answers an error has changed nothing. One that
succeeds has appended one record, written one entry, and told the watchers
of the key's tenant once (`Wrote`); beside that entry only usage records
have changed. The steps performed are written down along the run, since the
log may be rotated before the call returns.
-/
import FerrisKv.Node.Machine
import FerrisKv.Proofs.Node.Channels
import FerrisKv.Proofs.Node.Footprint
import FerrisKv.Proofs.Node.StoredBytes

namespace FerrisKv

open Prog NodeService WriteLog LittleEndian TenantChannels

-- ============================================================== the watchers

/-- The message a change of a key is worth, with the tenant it goes to. -/
def messageOf (key : Bytes) (kind : ChangeKind) (value : Bytes) :
    List (String × KeyChange) :=
  match KeyCodec.decode key with
  | .ok (tenant, .data, payload) => [(tenant, ⟨kind, payload, value⟩)]
  | _ => []

/-- What of it one tenant's watchers hear. -/
def heardBy (t : String) (messages : List (String × KeyChange)) :
    List KeyChange :=
  messages.filterMap fun m => if m.1 = t then some m.2 else none

@[simp] theorem heardBy_nil (t : String) : heardBy t [] = [] := rfl

@[simp] theorem heardBy_append (t : String)
    (ms ms' : List (String × KeyChange)) :
    heardBy t (ms ++ ms') = heardBy t ms ++ heardBy t ms' :=
  List.filterMap_append

/-- A tenant hears its own messages. -/
theorem heardBy_self (t : String) (change : KeyChange) :
    heardBy t [(t, change)] = [change] := by
  simp [heardBy]

theorem heardBy_ne {t t' : String} (h : t' ≠ t) (change : KeyChange) :
    heardBy t [(t', change)] = [] := by
  simp [heardBy, h]

/-- Everyone who listens goes on listening from where it was, and has been
sent the messages of the tenant. -/
def Told (messages : List (String × KeyChange)) (hub hub' : WatchHub) :
    Prop :=
  ∀ t rx start, (hub.tenant t).Listening rx start →
    (hub'.tenant t).Listening rx start
      ∧ (hub'.tenant t).sentSince rx start
        = (hub.tenant t).sentSince rx start ++ heardBy t messages
      ∧ (hub'.tenant t).receiver rx = (hub.tenant t).receiver rx

/-- Telling nothing changes nothing. -/
theorem told_nothing (hub : WatchHub) : Told [] hub hub :=
  fun _ _ _ h => ⟨h, (List.append_nil _).symm, rfl⟩

/-- Messages told one after the other. -/
theorem Told.trans {ms ms' : List (String × KeyChange)}
    {hub hub' hub'' : WatchHub} (h : Told ms hub hub')
    (h' : Told ms' hub' hub'') : Told (ms ++ ms') hub hub'' := by
  intro t rx start hl
  obtain ⟨hl₁, hs₁, hr₁⟩ := h t rx start hl
  obtain ⟨hl₂, hs₂, hr₂⟩ := h' t rx start hl₁
  refine ⟨hl₂, ?_, hr₂.trans hr₁⟩
  rw [hs₂, hs₁, heardBy_append, List.append_assoc]

-- ================================================================== the log

/-- The record a step appends. -/
def Prim.appended : Prim → Option (WalOp × Bytes)
  | .wal (.append op key _) => some (op, key)
  | _ => none

/-- The records the steps append, oldest first. -/
def recordsOf (steps : List Prim) : List (WalOp × Bytes) :=
  steps.filterMap Prim.appended

/-- One more step adds the record it appends, if any. -/
theorem recordsOf_snoc (steps : List Prim) (p : Prim) :
    recordsOf (steps ++ [p]) = recordsOf steps ++ p.appended.toList := by
  unfold recordsOf
  rw [List.filterMap_append]
  cases h : p.appended with
  | none => rw [List.filterMap_cons_none h]; rfl
  | some r => rw [List.filterMap_cons_some h]; rfl

/-- Log first, then storage: one record. -/
private theorem recordsOf_write (steps : List Prim) (op : WalOp)
    (key value : Bytes) (q : StoragePrim) :
    recordsOf (steps ++ [.wal (.append op key value)] ++ [.storage q])
      = recordsOf steps ++ [(op, key)] := by
  rw [recordsOf_snoc, recordsOf_snoc]
  exact List.append_nil _

/-- The rules of a node without faults, its steps written down. -/
abbrev logged (ext : Externals) :
    Rules (World × List Prim) Prim Prim.Resp :=
  .handler (recording (Prim.exec ext none))

-- ============================================================= the contents

/-- The key is that of a tenant's usage record, and one is there, without
an expiry. -/
def HoldsRecord (w : World) (k : Bytes) : Prop :=
  (∃ t, KeyCodec.encode t .stats usageKey = .ok k)
    ∧ ∃ v, w.storage.contents[k]? = some (ValueCodec.encode v none)

/-- A usage record is no data. -/
theorem HoldsRecord.not_isData {w : World} {k : Bytes} (h : HoldsRecord w k) :
    ¬ IsData k := by
  obtain ⟨⟨t, ht⟩, -⟩ := h
  exact not_isData_encode ht (by decide)

/-- Only usage records have changed. -/
def SameButRecords (w g : World) : Prop :=
  ∀ k : Bytes, g.storage.contents[k]? = w.storage.contents[k]?
    ∨ HoldsRecord g k

/-- What a write of `entry` under `key` has done once its call returns. -/
structure Wrote (op : WalOp) (key : Bytes) (entry : Option Bytes)
    (kind : ChangeKind) (value : Bytes) (before after : World × List Prim) :
    Prop where
  contents : ∀ k : Bytes, after.1.storage.contents[k]?
      = (if key = k then entry else before.1.storage.contents[k]?)
    ∨ HoldsRecord after.1 k
  told : Told (messageOf key kind value) before.1.watch after.1.watch
  appended : recordsOf after.2 = recordsOf before.2 ++ [(op, key)]

/-- Data is no usage record. -/
theorem Wrote.data {op : WalOp} {key value : Bytes} {entry : Option Bytes}
    {kind : ChangeKind} {before after : World × List Prim}
    (h : Wrote op key entry kind value before after) {k : Bytes}
    (hk : IsData k) : after.1.storage.contents[k]?
      = if key = k then entry else before.1.storage.contents[k]? :=
  (h.contents k).resolve_right fun hr => hr.not_isData hk

section Steps

variable {ext : Externals} {cfg : NodeConfig} {w : World} {l : List Prim}

/-- A step of the bookkeeping: a counter and its record, or the rotation
of the log, or the index. -/
def Prim.Keeps (p : Prim) : Prop :=
  (∃ t, p.RecordsFor t) ∨ p.Rotates ∨ p.Schedules

/-- Such a step tells nobody, logs nothing, and writes only records. -/
theorem Prim.Keeps.exec {p : Prim} (hp : p.Keeps) {g : World} :
    SameButRecords g (p.exec ext none g).2
      ∧ (p.exec ext none g).2.watch = g.watch ∧ p.appended = none := by
  obtain ⟨t, ⟨d, rfl⟩ | ⟨key, total, hk, rfl⟩⟩ | (rfl | rfl | rfl | rfl)
    | (⟨key, e, rfl⟩ | rfl) := hp
  · exact ⟨fun k => .inl rfl, rfl, rfl⟩
  · refine ⟨fun k => ?_, rfl, rfl⟩
    have hput : (g.storage.put key
        (ValueCodec.encode (beBytes 8 total) none)).contents[k]?
          = if key = k then some (ValueCodec.encode (beBytes 8 total) none)
            else g.storage.contents[k]? := by
      rw [StorageBackend.put, StorageBackend.contents_write, getElem?_apply]
      rfl
    by_cases hkk : key = k
    · subst hkk
      exact .inr ⟨⟨t, hk⟩, _, hput.trans (if_pos rfl)⟩
    · exact .inl (hput.trans (if_neg hkk))
  · exact ⟨fun k => .inl rfl, rfl, rfl⟩
  · exact ⟨fun k => .inl rfl, rfl, rfl⟩
  · refine ⟨fun k => .inl ?_, rfl, rfl⟩
    show g.storage.flush.contents[k]? = _
    rw [StorageBackend.contents_flush]
  · exact ⟨fun k => .inl rfl, rfl, rfl⟩
  · exact ⟨fun k => .inl rfl, rfl, rfl⟩
  · exact ⟨fun k => .inl rfl, rfl, rfl⟩

theorem SameButRecords.refl (w : World) : SameButRecords w w :=
  fun _ => .inl rfl

theorem SameButRecords.trans {g g' : World} (h : SameButRecords w g)
    (h' : SameButRecords g g') : SameButRecords w g' := by
  intro k
  rcases h' k with heq | hr
  · rcases h k with heq' | ⟨hd, v, hv⟩
    · exact .inl (heq.trans heq')
    · exact .inr ⟨hd, v, heq.trans hv⟩
  · exact .inr hr

/-- What bookkeeping leaves. -/
theorem wp_logged_keeps {α : Type} {x : NodeProg α}
    {Q : World × List Prim → α → Prop} (hx : x.Uses Prim.Keeps)
    (hQ : ∀ g l' a, SameButRecords w g → g.watch = w.watch →
      recordsOf l' = recordsOf l → Q (g, l') a) :
    wp (logged ext) Q x (w, l) := by
  refine wp_of_uses (I := fun g => SameButRecords w g.1
    ∧ g.1.watch = w.watch ∧ recordsOf g.2 = recordsOf l) ?_ ?_ hx
    ⟨.refl w, rfl, rfl⟩
  · rintro ⟨g, l'⟩ p ⟨hs, hw, hl⟩ hp
    obtain ⟨hs', hw', hl'⟩ : SameButRecords g (p.exec ext none g).2 ∧ _ :=
      hp.exec
    refine ⟨hs.trans hs', hw'.trans hw, ?_⟩
    show recordsOf (l' ++ [p]) = _
    rw [recordsOf_snoc, hl', hl]
    exact List.append_nil _
  · rintro ⟨g, l'⟩ a ⟨hs, hw, hl⟩
    exact hQ g l' a hs hw hl

-- ============================================================== publication

/-- A step on the hub changes one tenant's channels. -/
theorem tenant_exec {p : WatchPrim} {hub : WatchHub} (t : String) :
    (p.exec ext hub).2.tenant t
      = if p.tenant = t then
          (p.execTenant (ext.broadcastBuffer hub.capacity) (hub.tenant t)).2
        else hub.tenant t := by
  unfold WatchPrim.exec
  rw [WatchHub.tenant_set]
  split
  · next h => rw [h]
  · rfl

/-- Nobody of the tenant listens, and the others' channels are left alone. -/
theorem told_nobody {tenant : String} {change : KeyChange}
    {hub hub' : WatchHub}
    (hno : ∀ rx start, ¬ (hub.tenant tenant).Listening rx start)
    (hothers : ∀ t, tenant ≠ t → hub'.tenant t = hub.tenant t) :
    Told [(tenant, change)] hub hub' := by
  intro t rx start hl
  have hne : tenant ≠ t := by
    rintro rfl
    exact hno rx start hl
  rw [hothers t hne, heardBy_ne hne, List.append_nil]
  exact ⟨hl, rfl, rfl⟩

/-- Asking who watches tells nobody anything. -/
private theorem told_looked {tenant : String} {hub : WatchHub} :
    Told [] hub ((WatchPrim.isWatched tenant).exec ext hub).2 := by
  intro t rx start hl
  have hsame : ((WatchPrim.isWatched tenant).exec ext hub).2.tenant t
      = hub.tenant t := by
    rw [tenant_exec]
    exact ite_self _
  rw [hsame, heardBy_nil, List.append_nil]
  exact ⟨hl, rfl, rfl⟩

/-- A send tells one message. -/
private theorem told_sent {tenant : String} {change : KeyChange}
    {hub : WatchHub} : Told [(tenant, change)] hub
      ((WatchPrim.send tenant change).exec ext hub).2 := by
  intro t rx start hl
  by_cases ht : tenant = t
  · subst ht
    obtain ⟨tc', he, hl', hs'⟩ := hl.send (t := tenant) change
      (ext.broadcastBuffer hub.capacity)
    have hsent : ((WatchPrim.send tenant change).exec ext hub).2.tenant tenant
        = tc' := by
      rw [tenant_exec]
      show (if tenant = tenant then _ else _) = tc'
      rw [if_pos rfl, he]
    have hrx := receiver_send (t := tenant) (hub.tenant tenant) rx change
      (ext.broadcastBuffer hub.capacity)
    rw [he] at hrx
    rw [hsent, heardBy_self]
    exact ⟨hl', hs', hrx⟩
  · have hsame : ((WatchPrim.send tenant change).exec ext hub).2.tenant t
        = hub.tenant t := by
      rw [tenant_exec]
      exact if_neg ht
    rw [hsame, heardBy_ne ht, List.append_nil]
    exact ⟨hl, rfl, rfl⟩

/-- Publishing tells the tenant's watchers, and changes nothing else. -/
theorem wp_publish_told (tenant : String) (change : KeyChange)
    {Q : World × List Prim → Unit → Prop}
    (hQ : ∀ hub l', Told [(tenant, change)] w.watch hub →
      recordsOf l' = recordsOf l → Q ({ w with watch := hub }, l') ()) :
    wp (logged ext) Q (do
      let watched ← (WatchPrim.isWatched tenant).call
      if watched then publish tenant change else pure ()) (w, l) := by
  have hquiet : ∀ (l : List Prim) (q : WatchPrim),
      recordsOf (l ++ [.watch q]) = recordsOf l := by
    intro l q
    rw [recordsOf_snoc]
    exact List.append_nil _
  have hothers : ∀ (q : WatchPrim) (hub : WatchHub) (t : String),
      q.tenant ≠ t → (q.exec ext hub).2.tenant t = hub.tenant t := by
    intro q hub t hne
    rw [tenant_exec, if_neg hne]
  refine (wp_bind _ _ _).mpr ?_
  show wp _ _ (if ((WatchPrim.isWatched tenant).exec ext w.watch).1 then _
    else _) ({ w with watch := _ }, _)
  generalize hhub : ((WatchPrim.isWatched tenant).exec ext w.watch).2 = hub₁
  have hlooked : Told [] w.watch hub₁ := hhub ▸ told_looked
  split
  · -- somebody was there a moment ago
    have hsent : Told [(tenant, change)] w.watch
        ((WatchPrim.send tenant change).exec ext hub₁).2 :=
      hlooked.trans told_sent
    have hl₂ : recordsOf (l ++ [.watch (.isWatched tenant)]
        ++ [.watch (.send tenant change)]) = recordsOf l := by
      rw [hquiet, hquiet]
    cases hout : ((WatchPrim.send tenant change).exec ext hub₁).1 with
    | absent =>
        exact wp_handler_bind (Prod.ext hout rfl) (hQ _ _ hsent hl₂)
    | sent =>
        exact wp_handler_bind (Prod.ext hout rfl) (hQ _ _ hsent hl₂)
    -- nobody can be listening if the send is given back, so whom the removal
    -- cuts off is nobody
    | abandoned =>
        refine wp_handler_bind (Prod.ext hout rfl) ?_
        refine hQ _ _ (told_nobody ?_ fun t hne => ?_) ((hquiet _ _).trans hl₂)
        · intro rx start hl
          obtain ⟨tc', he, -⟩ := (hlooked tenant rx start hl).1.send
            (t := tenant) change (ext.broadcastBuffer hub₁.capacity)
          have hsome : ((WatchPrim.send tenant change).exec ext hub₁).1
              = .sent := congrArg Prod.fst he
          rw [hout] at hsome
          cases hsome
        · refine (hothers (.remove tenant) _ t hne).trans ?_
          refine (hothers (.send tenant change) hub₁ t hne).trans ?_
          rw [← hhub]
          exact hothers (.isWatched tenant) w.watch t hne
  · next hfalse =>
      -- an unwatched tenant has no receiver either
      refine hQ hub₁ _ (told_nobody ?_ fun t hne => ?_) (hquiet l _)
      · intro rx start hl
        exact hfalse (congrArg Prod.fst
          (hl.isWatched (ext.broadcastBuffer w.watch.capacity)))
      · rw [← hhub]
        exact hothers (.isWatched tenant) w.watch t hne

/-- Publishing tells the tenant's watchers one message, and logs nothing. -/
theorem wp_publishChange_told (key value : Bytes) (kind : ChangeKind)
    {Q : World × List Prim → Unit → Prop}
    (hQ : ∀ hub l', Told (messageOf key kind value) w.watch hub →
      recordsOf l' = recordsOf l → Q ({ w with watch := hub }, l') ()) :
    wp (logged ext) Q (publishChange key kind value) (w, l) := by
  unfold messageOf at hQ
  unfold publishChange
  cases hd : KeyCodec.decode key with
  | error e =>
      rw [hd] at hQ
      exact hQ w.watch l (told_nothing _) rfl
  | ok d =>
      rw [hd] at hQ
      obtain ⟨tenant, subspace, payload⟩ := d
      cases subspace with
      | data => exact wp_publish_told tenant ⟨kind, payload, value⟩ hQ
      | metadata => exact hQ w.watch l (told_nothing _) rfl
      | index => exact hQ w.watch l (told_nothing _) rfl
      | stats => exact hQ w.watch l (told_nothing _) rfl

-- ================================================================= the calls

/-- The end of every write: the counter and its record, the message, and
perhaps a rotation. -/
theorem wp_settle_told (plan : Option Accounting) (key value : Bytes)
    (kind : ChangeKind) {Q : World × List Prim → Result Unit → Prop}
    (hQ : ∀ g l', SameButRecords w g →
      Told (messageOf key kind value) w.watch g.watch →
      recordsOf l' = recordsOf l → Q (g, l') (.ok ())) :
    wp (logged ext) Q (ExceptT.run (do
      commitAccounting plan
      publishChange key kind value
      rotateWalIfNeeded cfg : NodeM Unit)) (w, l) := by
  simp only [wp_bindE, wp_lift, onResult_ok]
  refine wp_logged_keeps ((commitAccounting_records plan).mono ?_)
    fun g₁ l₁ _ hs₁ hw₁ hl₁ => ?_
  · rintro p ⟨a, -, hp⟩
    exact .inl ⟨a.tenant, hp⟩
  refine wp_publishChange_told key value kind fun hub l₂ htold hl₂ => ?_
  rw [hw₁] at htold
  refine wp_logged_keeps ((rotateWalIfNeeded_uses cfg).mono
    fun _ hp => .inr (.inl hp)) fun g₃ l₃ _ hs₃ hw₃ hl₃ => ?_
  refine hQ g₃ l₃ (hs₁.trans hs₃) ?_ (hl₃.trans (hl₂.trans hl₁))
  rw [hw₃]
  exact htold

/-- The storage write, then bookkeeping and the message. -/
theorem wrote_of_settled {op : WalOp} (write : Write Bytes Bytes)
    {kind : ChangeKind} {value : Bytes} {v : Wal} {g : World}
    {l' : List Prim}
    (hg : SameButRecords
      { w with wal := v, storage := w.storage.write write } g)
    (htold : Told (messageOf write.key kind value) w.watch g.watch)
    (hl : recordsOf l' = recordsOf l ++ [(op, write.key)]) :
    Wrote op write.key write.value kind value (w, l) (g, l') where
  contents k := by
    rcases hg k with heq | hr
    · refine .inl (heq.trans ?_)
      show (w.storage.write write).contents[k]? = _
      rw [StorageBackend.contents_write, getElem?_apply]
    · exact .inr hr
  told := htold
  appended := hl

/-- A delete that fails has changed nothing, and the entry does not parse;
one that succeeds has removed it. -/
theorem wp_delete_wrote (key : Bytes) :
    wp (logged ext)
      (onResult
        (fun g _ => Wrote .delete key none .delete [] (w, l) g)
        fun g _ => (g.1 = w ∧ recordsOf g.2 = recordsOf l)
          ∧ ∃ raw e, w.storage.contents[key]? = some raw
            ∧ ValueCodec.decode raw = .error e)
      (delete cfg key).run (w, l) := by
  have hplan : ∀ {Q : World × List Prim → Result (Option Accounting) → Prop},
      (∀ l' plan, recordsOf l' = recordsOf l → Q (w, l') (.ok plan)) →
      (∀ l' err raw e, recordsOf l' = recordsOf l →
        w.storage.contents[key]? = some raw →
        ValueCodec.decode raw = .error e → Q (w, l') (.error err)) →
      wp (logged ext) Q (planDeleteAccounting key).run (w, l) := by
    intro Q hok herr
    have hget : recordsOf (l ++ [.storage (.get key)]) = recordsOf l := by
      rw [recordsOf_snoc]
      exact List.append_nil _
    have hread : recording (Prim.exec ext none) (.storage (.get key)) (w, l)
        = (.ok w.storage.contents[key]?, w, l ++ [.storage (.get key)]) := rfl
    refine wp_planDeleteAccounting_of (fun _ => hok l none rfl)
      fun t payload _ => wp_handler_step hread ?_
    cases hraw : w.storage.contents[key]? with
    | none => exact hok _ none hget
    | some raw =>
        show Q _ (deletePlan t payload (some raw))
        cases hd : ValueCodec.decode raw with
        | error e =>
            -- an entry that does not decode cannot be deleted: its size is
            -- not known
            rw [deletePlan_of_error (e := e) (by
              rw [previousBytes, ValueCodec.payloadLen_eq, hd]; rfl)]
            exact herr _ _ raw e hget hraw hd
        | ok sv =>
            rw [deletePlan_of_ok (n := entryBytes payload.length
              sv.value.length) (by
              rw [previousBytes, ValueCodec.payloadLen_eq, hd]; rfl)]
            exact hok _ _ hget
  refine (wp_bindE _ _ _).mpr (hplan (fun l₁ plan h₁ => ?_)
    fun l₁ err raw e h₁ hraw hd => ⟨⟨rfl, h₁⟩, raw, e, hraw, hd⟩)
  refine (wp_bindE _ _ _).mpr ?_
  refine (wp_bindE _ _ _).mpr ?_
  refine wp_settle_told plan key [] .delete fun g l' hs htold hl => ?_
  have happ : recordsOf l' = recordsOf l ++ [(.delete, key)] := by
    rw [hl, ← h₁]
    exact recordsOf_write _ _ _ _ _
  exact wrote_of_settled (.delete key) hs htold happ

end Steps

end FerrisKv
