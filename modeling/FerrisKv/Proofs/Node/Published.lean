/-
Whatever a request does to the data, it tells the watchers.

`Published ms w g`: between `w` and `g` the messages `ms` were sent, to
everyone listening, and they are exactly the changes of the stored values.
A put or delete that gets as far as its storage write sends its message,
since nothing after that write can make it give up; one that does not has
changed nothing. Everything else a handler does is inert. So every request,
admin call and sweep sends some list of messages (`Tells`), whatever calls
fail in it, and these add up.
-/
import FerrisKv.Node.Session
import FerrisKv.Proofs.Node.Coverage
import FerrisKv.Proofs.Node.Effects

namespace FerrisKv

open Prog NodeService WriteLog

-- ================================================================ the values

/-- The value tenant `t` has stored under `u`, if it parses. -/
def storedValue (w : World) (t : String) (u : Bytes) : Option Bytes :=
  w.storage.contents[KeyCodec.bytesOf t .data u]?.bind fun raw =>
    (ValueCodec.decode raw).toOption.map fun sv => sv.value

/-- What a client that keeps a map does with an event. -/
def applyEvent (view : Bytes → Option Bytes) (event : WatchEvent) :
    Bytes → Option Bytes :=
  match event.kind with
  | .put => Function.update view event.key (some event.value)
  | .delete => Function.update view event.key none
  | .heartbeat => view

/-- The messages were sent, and they are what has changed. -/
structure Published (ms : List (String × KeyChange)) (w g : World) : Prop where
  told : Told ms w.watch g.watch
  stored : ∀ t, KeyCodec.ValidTenant t → storedValue g t
    = ((heardBy t ms).map toWatchEvent).foldl applyEvent (storedValue w t)

/-- Some messages were, and are. -/
def Tells (w g : World) : Prop := ∃ ms, Published ms w g

theorem Tells.refl (w : World) : Tells w w :=
  ⟨[], told_nothing _, fun _ _ => rfl⟩

theorem Tells.trans {w g g' : World} (h : Tells w g) (h' : Tells g g') :
    Tells w g' := by
  obtain ⟨ms, htold, hstored⟩ := h
  obtain ⟨ms', htold', hstored'⟩ := h'
  refine ⟨ms ++ ms', htold.trans htold', fun t ht => ?_⟩
  rw [hstored' t ht, hstored t ht, heardBy_append, List.map_append,
    List.foldl_append]

/-- A change's event is the change. -/
theorem applyEvent_toWatchEvent (view : Bytes → Option Bytes)
    (change : KeyChange) (u : Bytes) :
    applyEvent view (toWatchEvent change) u
      = if u = change.key then
          match change.kind with
          | .put => some change.value
          | .delete => none
        else view u := by
  obtain ⟨kind, key, value⟩ := change
  cases kind <;> exact Function.update_apply _ _ _ _

/-- A data key of a valid tenant is data. -/
private theorem isData_bytesOf {t : String} (ht : KeyCodec.ValidTenant t)
    (u : Bytes) : IsData (KeyCodec.bytesOf t .data u) :=
  ⟨t, u, KeyCodec.decode_bytesOf ht .data u⟩

-- ============================================================== inert steps

/-- Data and channels are as they were. -/
structure Idle (w g : World) : Prop where
  watch : g.watch = w.watch
  data : ∀ k, IsData k → g.storage.contents[k]? = w.storage.contents[k]?

theorem Idle.refl (w : World) : Idle w w := ⟨rfl, fun _ _ => rfl⟩

theorem Idle.trans {w g g' : World} (h : Idle w g) (h' : Idle g g') :
    Idle w g' :=
  ⟨h'.watch.trans h.watch, fun k hk => (h'.data k hk).trans (h.data k hk)⟩

theorem idle_tick (w : World) (now instant : Nat) :
    Idle w (w.tick now instant) := ⟨rfl, fun _ _ => rfl⟩

/-- Nobody's values have changed. -/
theorem Idle.storedValue {w g : World} (h : Idle w g) {t : String}
    (ht : KeyCodec.ValidTenant t) : storedValue g t = storedValue w t := by
  funext u
  unfold FerrisKv.storedValue
  rw [h.data _ (isData_bytesOf ht u)]

/-- There is nothing to tell. -/
theorem Idle.tells {w g : World} (h : Idle w g) : Tells w g := by
  refine ⟨[], ?_, fun t ht => h.storedValue ht⟩
  rw [h.watch]
  exact told_nothing _

/-- An inert step leaves data and channels as they were. -/
theorem Prim.Inert.exec {p : Prim} (h : p.Inert) (ext : Externals)
    (fault : Option Fault) (w : World) : Idle w (p.exec ext fault w).2 := by
  refine ⟨?_, fun k hk => h.contents ext fault w hk⟩
  cases p with
  | watch q => exact h.elim
  | _ => rfl

section Programs

variable {ext : Externals} {ok : Prim → Option Fault → Prop}
  {cfg : NodeConfig} {w : World} {α β : Type} {t : String}

/-- What inert steps leave. -/
theorem wp_inert {x : NodeProg α} {A : α → Prop}
    (hx : x.Yields Prim.Inert A) {Q : World → α → Prop}
    (hQ : ∀ g a, Idle w g → A a → Q g a) : wp (restless ext ok) Q x w := by
  refine wp_of_yields (I := Idle w) ?_ hQ hx (.refl w)
  intro g p hg hp
  exact restless_post fun now instant fault _ =>
    (hg.trans (idle_tick g now instant)).trans (hp.exec ext fault _)

-- ============================================================== publication

/-- Steps on the channels do not ask for the time and cannot fail. -/
theorem wp_onWatch {x : NodeProg α} (hx : x.Uses Prim.OnWatch) :
    ∀ (w w₀ : World), w.watch = w₀.watch →
      wp (restless ext ok) (fun g a => g.storage = w.storage
        ∧ g.watch = (x.run (Prim.exec ext none) w₀).2.watch
        ∧ a = (x.run (Prim.exec ext none) w₀).1) x w := by
  induction x with
  | ret a => exact fun _ _ h => ⟨rfl, h, rfl⟩
  | act p k ih =>
      obtain ⟨⟨q, rfl⟩, hk⟩ := hx
      intro w w₀ hw
      refine restless_post fun now instant fault _ => ?_
      show wp _ _ (k (q.exec ext w.watch).1)
        { w.tick now instant with watch := (q.exec ext w.watch).2 }
      rw [hw]
      exact ih (q.exec ext w₀.watch).1 (hk _)
        { w.tick now instant with watch := (q.exec ext w₀.watch).2 }
        { w₀ with watch := (q.exec ext w₀.watch).2 } rfl

/-- Publishing tells the one message. -/
private theorem wp_publishChange_tells (key value : Bytes) (kind : ChangeKind) :
    wp (restless ext ok) (fun g _ => g.storage = w.storage
        ∧ Told (messageOf key kind value) w.watch g.watch)
      (publishChange key kind value) w := by
  have htold : wp (logged ext) (fun g _ =>
      Told (messageOf key kind value) w.watch g.1.watch)
      (publishChange key kind value) (w, []) :=
    wp_publishChange_told key value kind fun _ _ h _ => h
  refine wp_mono ?_ (wp_onWatch (publishChange_uses key kind value) w w rfl)
  rintro g a ⟨hs, hw, -⟩
  refine ⟨hs, ?_⟩
  rw [hw]
  exact performed_post htold

-- =============================================================== the writes

/-- What is read back of the entry a write leaves. -/
def ReadsBack (kind : ChangeKind) (value : Bytes) (entry : Option Bytes) :
    Prop :=
  entry.bind (fun raw => (ValueCodec.decode raw).toOption.map fun sv => sv.value)
    = match kind with
      | .put => some value
      | .delete => none

/-- What a put announces is what its entry reads back as. -/
private theorem readsBack_put (value : Bytes) {exp : Option Nat}
    (h : ∀ e ∈ exp, e < 2 ^ 64) :
    ReadsBack .put value (some (ValueCodec.encode value exp)) := by
  rw [ReadsBack, Option.bind_some, ValueCodec.decode_encode value h]
  rfl

/-- A delete announces an absence. -/
private theorem readsBack_delete : ReadsBack .delete [] none := rfl

/-- The write's entry is stored, and nobody has been told. -/
structure Unannounced (write : Write Bytes Bytes) (w g : World) : Prop where
  watch : g.watch = w.watch
  data : ∀ k, IsData k → g.storage.contents[k]?
    = if write.key = k then write.value else w.storage.contents[k]?

/-- A write stays unannounced over inert steps. -/
theorem Unannounced.idle {write : Write Bytes Bytes} {g g' : World}
    (h : Unannounced write w g) (h' : Idle g g') : Unannounced write w g' :=
  ⟨h'.watch.trans h.watch, fun k hk => (h'.data k hk).trans (h.data k hk)⟩

/-- The message is the change. -/
theorem Unannounced.published {write : Write Bytes Bytes} {kind : ChangeKind}
    {value : Bytes} {g g' : World} (h : Unannounced write w g)
    (hback : ReadsBack kind value write.value)
    (hdata : ∀ k, IsData k →
      g'.storage.contents[k]? = g.storage.contents[k]?)
    (htold : Told (messageOf write.key kind value) g.watch g'.watch) :
    Published (messageOf write.key kind value) w g' := by
  rw [h.watch] at htold
  refine ⟨htold, fun t ht => ?_⟩
  funext u
  have hk := isData_bytesOf ht u
  have hcontents := (hdata _ hk).trans (h.data _ hk)
  -- an entry with another key is as it was, and no event touches it
  have hother : write.key ≠ KeyCodec.bytesOf t .data u →
      storedValue g' t u = storedValue w t u := by
    intro hne
    unfold storedValue
    rw [hcontents, if_neg hne]
  unfold messageOf
  cases hd : KeyCodec.decode write.key with
  | error e =>
      refine hother fun he => ?_
      rw [he, KeyCodec.decode_bytesOf ht] at hd
      cases hd
  | ok d =>
      obtain ⟨t', s, payload⟩ := d
      obtain ⟨ht', hkey⟩ := KeyCodec.decode_eq_ok.mp hd
      have hinj : write.key = KeyCodec.bytesOf t .data u →
          t' = t ∧ s = .data ∧ payload = u := fun he =>
        KeyCodec.bytesOf_inj ht' ht (hkey.symm.trans he)
      cases s with
      | data =>
          by_cases htt : t' = t
          · subst htt
            rw [heardBy_self]
            show _ = applyEvent _ (toWatchEvent _) u
            rw [applyEvent_toWatchEvent]
            by_cases hu : u = payload
            · subst hu
              rw [if_pos hkey] at hcontents
              rw [if_pos rfl, storedValue, hcontents]
              exact hback
            · rw [if_neg hu]
              exact hother fun he => hu (hinj he).2.2.symm
          · rw [heardBy_ne htt]
            exact hother fun he => htt (hinj he).1
      | _ => exact hother fun he => by cases (hinj he).2.1

/-- Appending to the log is inert. -/
theorem walAppend_inert (op : WalOp) (key value : Bytes) :
    (walAppend op key value).run.Uses Prim.Inert :=
  ⟨trivial, fun _ => trivial⟩

/-- The end of every write: what is owed is told. -/
theorem wp_settle_tells {write : Write Bytes Bytes} {kind : ChangeKind}
    {value : Bytes} {g : World} (h : Unannounced write w g)
    (hback : ReadsBack kind value write.value) (plan : Option Accounting) :
    wp (restless ext ok) (fun g' _ => Tells w g') (ExceptT.run (do
      commitAccounting plan
      publishChange write.key kind value
      rotateWalIfNeeded cfg : NodeM Unit)) g := by
  simp only [wp_bindE, wp_lift, onResult_ok]
  refine wp_inert ((commitAccounting_uses plan).mono fun _ hp => hp.inert)
    fun g₁ _ h₁ _ => ?_
  refine wp_mono ?_ (wp_publishChange_tells write.key value kind)
  rintro g₂ _ ⟨hs₂, htold⟩
  have hpub : Published (messageOf write.key kind value) w g₂ :=
    (h.idle h₁).published hback (fun k _ => by rw [hs₂]) htold
  exact wp_inert ((rotateWalIfNeeded_uses cfg).mono fun _ hp => hp.inert)
    fun g₃ _ h₃ _ => Tells.trans ⟨_, hpub⟩ h₃.tells

/-- A storage write is to be announced. -/
private theorem Idle.unannounced {g : World} (h : Idle w g)
    (write : Write Bytes Bytes) :
    Unannounced write w { g with storage := g.storage.write write } := by
  refine ⟨h.watch, fun k hk => ?_⟩
  show (g.storage.write write).contents[k]? = _
  rw [StorageBackend.contents_write, getElem?_apply, h.data k hk]

/-- A storage call that fails leaves storage as it was. -/
theorem wp_storagePut_unannounced {g : World} (h : Idle w g)
    (key value : Bytes) :
    wp (restless ext ok)
      (onResult (fun g' _ => Unannounced (.put key value) w g')
        fun g' _ => Idle w g')
      (storagePut key value).run g := by
  refine restless_post fun now instant fault _ => ?_
  have htick := h.trans (idle_tick g now instant)
  cases fault with
  | some f => exact htick
  | none => exact htick.unannounced (.put key value)

/-- A storage delete is too, unless it fails. -/
private theorem wp_storageDelete_unannounced {g : World} (h : Idle w g)
    (key : Bytes) : wp (restless ext ok)
      (onResult (fun g' _ => Unannounced (.delete key) w g')
        fun g' _ => Idle w g')
      (storageDelete key).run g := by
  refine restless_post fun now instant fault _ => ?_
  have htick := h.trans (idle_tick g now instant)
  cases fault with
  | some f => exact htick
  | none => exact htick.unannounced (.delete key)

-- ================================================================ the calls

variable (ext ok) in
/-- Whatever the program answers, it tells what it has done. -/
abbrev TellsAll (x : NodeProg α) : Prop :=
  ∀ w, wp (restless ext ok) (fun g _ => Tells w g) x w

/-- Inert steps have nothing to tell. -/
theorem tellsAll_inert {x : NodeProg α} (hx : x.Uses Prim.Inert) :
    TellsAll ext ok x := fun _ => wp_inert hx fun _ _ h _ => h.tells

theorem tellsAll_ret (a : α) : TellsAll ext ok (.ret a) := fun w => .refl w

/-- Telling composes, so it is kept as an invariant is. -/
theorem tellsAll_iff {x : NodeProg α} :
    TellsAll ext ok x ↔ ∀ w, x.Preserves (restless ext ok) (Tells w) := by
  constructor
  · intro hx w g hg
    exact wp_mono (fun _ _ h => hg.trans h) (hx g)
  · exact fun hx w => hx w w (.refl w)

/-- What tells all, one after the other, tells all. -/
private theorem tellsAll_bind {x : NodeProg α} {f : α → NodeProg β}
    (hx : TellsAll ext ok x) (hf : ∀ a, TellsAll ext ok (f a)) :
    TellsAll ext ok (x >>= f) :=
  tellsAll_iff.mpr fun w => preserves_bind (tellsAll_iff.mp hx w)
    fun a => tellsAll_iff.mp (hf a) w

/-- The same where the first can fail. -/
theorem tellsAll_bindE {ε : Type} {x : Fallible Prim Prim.Resp ε α}
    {f : α → Fallible Prim Prim.Resp ε β} (hx : TellsAll ext ok x.run)
    (hf : ∀ a, TellsAll ext ok (f a).run) :
    TellsAll ext ok (ExceptT.run (x >>= f)) :=
  tellsAll_iff.mpr fun w => preserves_bindE (tellsAll_iff.mp hx w)
    fun a => tellsAll_iff.mp (hf a) w

theorem tellsAll_map {x : NodeProg α} (f : α → β) (hx : TellsAll ext ok x) :
    TellsAll ext ok (f <$> x) := fun w => (wp_map _ _ _).mpr (hx w)

theorem tellsAll_mapStatus {x : NodeM α} (hx : TellsAll ext ok x.run) :
    TellsAll ext ok (mapStatus x).run :=
  tellsAll_bind hx fun _ => tellsAll_ret _

theorem tellsAll_ofCheck (r : Except Status α) :
    TellsAll ext ok (ofCheck r).run := tellsAll_ret _

/-- A put tells what it has written, whatever fails in it. -/
private theorem putWithTtl_tells (key value : Bytes) (ttlMs : Nat) :
    TellsAll ext ok (putWithTtl cfg key value ttlMs).run := by
  intro w
  refine (wp_bindE _ _ _).mpr ((wp_lift _ _).mpr (wp_inert
    ((expiryStamp_yields ttlMs).mono fun p hp => hp ▸ trivial) ?_))
  intro g₁ exp h₁ hexp
  refine (wp_bindE _ _ _).mpr (wp_inert ((planAccounting_uses key _).mono
    fun _ hp => hp.inert) ?_)
  rintro g₂ (e | plan) h₂ -
  · exact (h₁.trans h₂).tells
  refine (wp_bindE _ _ _).mpr (wp_inert ((checkAccounting_uses plan).mono
    fun _ hp => hp.inert) ?_)
  rintro g₃ (e | u) h₃ -
  · exact ((h₁.trans h₂).trans h₃).tells
  refine (wp_bindE _ _ _).mpr (wp_inert (walAppend_inert _ _ _) ?_)
  rintro g₄ (e | n) h₄ -
  · exact (((h₁.trans h₂).trans h₃).trans h₄).tells
  refine (wp_bindE _ _ _).mpr (wp_mono ?_
    (wp_storagePut_unannounced (((h₁.trans h₂).trans h₃).trans h₄) key _))
  rintro g₅ (e | u) h₅
  · exact Idle.tells h₅
  refine (wp_bindE _ _ _).mpr ((wp_lift _ _).mpr (wp_inert
    ((scheduleExpiry_uses key exp).mono fun _ hp => hp.inert) ?_))
  intro g₆ _ h₆ _
  exact wp_settle_tells (Unannounced.idle h₅ h₆) (readsBack_put value hexp) plan

/-- So does a delete. -/
theorem delete_tells (key : Bytes) :
    TellsAll ext ok (NodeService.delete cfg key).run := by
  intro w
  refine (wp_bindE _ _ _).mpr (wp_inert ((planDeleteAccounting_uses key).mono
    fun _ hp => hp.inert) ?_)
  rintro g₁ (e | plan) h₁ -
  · exact h₁.tells
  refine (wp_bindE _ _ _).mpr (wp_inert (walAppend_inert _ _ _) ?_)
  rintro g₂ (e | n) h₂ -
  · exact (h₁.trans h₂).tells
  refine (wp_bindE _ _ _).mpr (wp_mono ?_
    (wp_storageDelete_unannounced (h₁.trans h₂) key))
  rintro g₃ (e | u) h₃
  · exact Idle.tells h₃
  exact wp_settle_tells h₃ readsBack_delete plan

/-- A read is inert. -/
theorem get_inert (key : Bytes) :
    (NodeService.get key).run.Uses Prim.Inert :=
  (get_uses key).mono fun _ hp => hp.inert

theorem Prim.Sweeps.inert {p : Prim} (h : p.Sweeps) : p.Inert := by
  obtain rfl | ⟨now, rfl⟩ | hp := h
  · exact trivial
  · exact trivial
  · exact hp.inert

/-- A sweep tells its deletes. -/
theorem sweepOnce_tells : TellsAll ext ok (sweepOnce cfg) := by
  refine tellsAll_iff.mpr fun w => sweepOnce_preserves ?_ ?_ ?_
  · intro g p hg hp
    have hstep : (Prog.step (R := Prim.Resp) p).Uses Prim.Inert :=
      ⟨hp.inert, fun _ => trivial⟩
    exact tellsAll_iff.mp (tellsAll_inert hstep) w g hg
  · exact fun key raw => tellsAll_iff.mp (tellsAll_inert
      ((reschedule_uses key raw).mono fun _ hp => hp.inert)) w
  · exact fun key => tellsAll_iff.mp (delete_tells key) w

-- ============================================================= the requests

theorem Prim.LimitsFor.inert {p : Prim} (h : p.LimitsFor t) : p.Inert := by
  obtain rfl | ⟨rate, rfl⟩ | ⟨entry, cost, rfl⟩ := h <;> exact trivial

/-- Admitting a request is inert. -/
theorem admitRpc_inert (cost : Nat) :
    (admitRpc cfg t cost).run.Uses Prim.Inert :=
  uses_bind (uses_bindE (uses_lift ⟨trivial, fun _ => trivial⟩)
    fun _ => (throttleCheck_uses cfg t _ cost).mono fun _ hp => hp.inert)
    fun _ => trivial

theorem enter_inert (principal : Option Principal) (perm : String) :
    (enter cfg principal t perm).run.Uses Prim.Inert :=
  uses_bindE trivial fun _ => uses_bindE trivial fun _ => admitRpc_inert 1

/-- An operation of a batch tells what it writes. -/
private theorem batchOp_tells (o : BatchOp) :
    TellsAll ext ok (batchOp cfg t o).run := by
  refine tellsAll_bindE (tellsAll_ofCheck _) fun _ => ?_
  refine tellsAll_bindE (tellsAll_ofCheck _) fun _ => ?_
  refine tellsAll_bindE (tellsAll_ofCheck _) fun k => ?_
  split
  · exact tellsAll_mapStatus (putWithTtl_tells _ _ _)
  · split
    · exact tellsAll_mapStatus (delete_tells _)
    · exact tellsAll_ret _

/-- So does the batch, also when it stops halfway. -/
private theorem batchLoop_tells (ops : List BatchOp) :
    TellsAll ext ok (batchLoop cfg t ops).run := by
  induction ops with
  | nil => exact tellsAll_ret _
  | cons o rest ih => exact tellsAll_bindE (batchOp_tells o) fun _ => ih

/-- Every RPC but `Watch`. -/
theorem request_tells (principal : Option Principal) (req : Request)
    (hreq : ∀ pre, req ≠ .watch pre) :
    TellsAll ext ok (req.prog cfg principal t) := by
  have henter : ∀ perm, TellsAll ext ok (enter cfg principal t perm).run :=
    fun perm => tellsAll_inert (enter_inert principal perm)
  cases req with
  | get key =>
      refine tellsAll_map _ (tellsAll_bindE (henter _) fun _ => ?_)
      refine tellsAll_bindE (tellsAll_ofCheck _) fun _ => ?_
      refine tellsAll_bindE (tellsAll_ofCheck _) fun k => ?_
      exact tellsAll_mapStatus (tellsAll_inert (get_inert k))
  | put key value ttlMs =>
      refine tellsAll_map _ (tellsAll_bindE (henter _) fun _ => ?_)
      refine tellsAll_bindE (tellsAll_ofCheck _) fun _ => ?_
      refine tellsAll_bindE (tellsAll_ofCheck _) fun _ => ?_
      refine tellsAll_bindE (tellsAll_ofCheck _) fun k => ?_
      exact tellsAll_mapStatus (putWithTtl_tells _ _ _)
  | delete key =>
      refine tellsAll_map _ (tellsAll_bindE (henter _) fun _ => ?_)
      refine tellsAll_bindE (tellsAll_ofCheck _) fun _ => ?_
      refine tellsAll_bindE (tellsAll_ofCheck _) fun k => ?_
      refine tellsAll_bindE
        (tellsAll_mapStatus (tellsAll_inert (get_inert k))) fun found => ?_
      exact tellsAll_bindE (tellsAll_mapStatus (delete_tells k))
        fun _ => tellsAll_ret _
  | scan pre limit =>
      refine tellsAll_map _ (tellsAll_bindE (henter _) fun _ => ?_)
      refine tellsAll_bindE (tellsAll_ofCheck _) fun bounds => ?_
      exact tellsAll_bindE (tellsAll_mapStatus (tellsAll_inert (uses_bindE
        ((wp_step _).mpr ⟨trivial, fun _ => trivial⟩) fun _ =>
        uses_lift ⟨trivial, fun _ => trivial⟩))) fun _ => tellsAll_ret _
  | batch ops =>
      refine tellsAll_map _ (tellsAll_bindE (tellsAll_ofCheck _) fun _ => ?_)
      refine tellsAll_bindE (tellsAll_ofCheck _) fun _ => ?_
      refine tellsAll_bindE (tellsAll_ofCheck _) fun _ => ?_
      refine tellsAll_bindE (tellsAll_ofCheck _) fun _ => ?_
      exact tellsAll_bindE (tellsAll_inert (admitRpc_inert _))
        fun _ => batchLoop_tells ops
  | watch pre => exact absurd rfl (hreq pre)

-- ================================================================ the admin

/-- Validation is inert. -/
private theorem validateTenant_inert :
    (validateTenant t).run.Uses Prim.Inert := by
  unfold validateTenant
  split <;> exact trivial

private theorem usageOf_inert : (usageOf t).Uses Prim.Inert :=
  ⟨trivial, fun _ => ⟨trivial, fun _ => trivial⟩⟩

/-- A quota's record is no data. -/
theorem Prim.OverridesFor.inert {p : Prim} (h : p.OverridesFor t) :
    p.Inert := by
  obtain ⟨key, hk, ⟨value, rfl⟩ | rfl⟩ | ⟨q, rfl⟩ | rfl := h
  · exact not_isData_encode hk (by decide)
  · exact not_isData_encode hk (by decide)
  · exact trivial
  · exact trivial

/-- An operator's quota is no data. -/
theorem adminSetQuota_inert (maxBytes maxOpsPerSec : Option Nat) :
    (adminSetQuota ext t maxBytes maxOpsPerSec).run.Uses Prim.Inert := by
  refine uses_bindE validateTenant_inert fun _ => ?_
  refine uses_bindE (uses_lift ⟨trivial, fun _ => trivial⟩) fun current => ?_
  exact uses_bindE (uses_bind ((setQuota_uses ext t _).mono
    fun _ hp => hp.inert) fun _ => trivial) fun _ => uses_lift usageOf_inert

theorem adminClearQuota_inert :
    (adminClearQuota t).run.Uses Prim.Inert := by
  refine uses_bindE validateTenant_inert fun _ => ?_
  exact uses_bindE (uses_bind ((clearQuota_uses t).mono
    fun _ hp => hp.inert) fun _ => trivial) fun _ => uses_lift usageOf_inert

end Programs

end FerrisKv
