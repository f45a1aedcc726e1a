/-
Subscribe, then scan, then fold the events in: a copy.

There is no version to start a watch from, so `watch_impl` leaves it to
the client to scan and to watch, and to do so in the order in which events
are seen twice rather than missed. `mirror_agrees` is that this is enough:
the scan walks the map shard by shard while others write (`ScanRun`), so it
need not be what the node held at any one moment; it may see a write whose
event is still to come, or miss one whose event is already waiting; what the
client makes of its scan and of all that was sent since it subscribed is what
the node holds.

An event decides its key whatever the scan saw of it (`foldl_lastFor`), so
the scan only has to be right about the keys that nobody has written since
the subscription. Those hold what they held then, whenever the scan came by
(`Fair`), and no event is about them (`AboutWritten`).
-/
import FerrisKv.Proofs.Concurrent.Notices
import FerrisKv.Proofs.Node.Published
import FerrisKv.Proofs.Node.ScanExact

namespace FerrisKv

open Prog NodeService WriteLog OrderedScan Spec

-- ================================================================= the copy

/-- What a change leaves under its key. -/
def KeyChange.left (change : KeyChange) : Option Bytes :=
  match change.kind with
  | .put => some change.value
  | .delete => none

/-- Whatever the stamp, the value reads back. -/
theorem decode_encode_value (value : Bytes) (exp : Option Nat) :
    ∃ exp', ValueCodec.decode (ValueCodec.encode value exp)
      = .ok ⟨exp', value⟩ := by
  cases exp with
  | none => exact ⟨none, rfl⟩
  | some e =>
      refine ⟨some (LittleEndian.ofBe (LittleEndian.beBytes 8 e)), ?_⟩
      have hver : ValueCodec.versionWithTtl ≠ ValueCodec.versionNoTtl := by
        decide
      have hlen : ¬ 8 + value.length + 1 < 9 := by omega
      simp [ValueCodec.encode, ValueCodec.decode, hver, hlen]

/-- A change that says what the entry is, leaves its value. -/
theorem KeyChange.Tells.left {change : KeyChange} {entry : Option Bytes}
    (h : change.Tells entry) :
    entry.bind (fun raw => (ValueCodec.decode raw).toOption.map
      fun sv => sv.value) = change.left := by
  obtain ⟨kind, key, value⟩ := change
  cases kind with
  | put =>
      obtain ⟨exp, he⟩ := h
      obtain ⟨exp', hd⟩ := decode_encode_value value exp
      rw [he, Option.bind_some, hd]
      rfl
  | delete =>
      have he : entry = none := h
      rw [he]
      rfl

-- ============================================================== the threads

section Threads

variable {ext : Externals} {cfg : NodeConfig} {w : World} {ops : List Op}
  {pool : NodePool}

end Threads

-- ================================================================ the writes

/-- What a call comes to owe for, it has just stored. -/
theorem Feed.advance_owes {g : Feed} {p : Prim} {r : p.Resp} {key : Bytes}
    {entry : Option Bytes} (h : g.advance p r = .owes key entry) :
    g = .owes key entry ∨ p.StoresTo key := by
  have hstore : ∀ {k : Bytes} {e : Option Bytes},
      g.store k e = .owes key entry → g = .owes key entry ∨ k = key := by
    intro k e hs
    unfold Feed.store at hs
    split at hs
    · cases hs
      exact .inr rfl
    · exact .inl hs
  cases p with
  | storage q =>
      cases q with
      | put k v =>
          cases r with
          | ok u => exact hstore h
          | error e => exact .inl h
      | delete k =>
          cases r with
          | ok u => exact hstore h
          | error e => exact .inl h
      | _ => exact .inl h
  | watch q =>
      cases q with
      | isWatched t => cases r <;> first | exact .inl h | cases h
      | send t change => cases r <;> cases h
      | remove t => cases h
      | _ => exact .inl h
  | _ => exact .inl h

/-- Who owes for a key has written it. -/
private theorem written_of_owes {pool : NodePool} {j : Nat} {key : Bytes}
    {entry : Option Bytes} (h : pool.feed j = .owes key entry) :
    Written pool.log key := by
  unfold NodePool.feed at h
  generalize pool.log = log at h ⊢
  induction log using List.reverseRecOn with
  | nil => cases h
  | append_singleton log e ih =>
      have hold : Pool.ghost Feed.advance (fun _ => .idle) log j
          = .owes key entry → Written (log ++ [e]) key := by
        intro hg
        obtain ⟨e', he', hs⟩ := ih hg
        exact ⟨e', List.mem_append_left _ he', hs⟩
      rw [Pool.ghost_snoc] at h
      split at h
      · rcases Feed.advance_owes h with hg | hs
        · exact hold hg
        · exact ⟨e, List.mem_append_right _ (List.mem_singleton_self e), hs⟩
      · exact hold h

/-- A step leaves alone what it does not store to. -/
theorem contents_of_not_storesTo {ext : Externals} {p : Prim} {key : Bytes}
    (h : ¬ p.StoresTo key) (w : World) :
    (p.exec ext none w).2.storage.contents[key]?
      = w.storage.contents[key]? := by
  cases p with
  | storage q =>
      cases q with
      | put k v => exact w.storage.getElem?_write_of_ne (.put k v) h
      | delete k => exact w.storage.getElem?_write_of_ne (.delete k) h
      | flush =>
          show w.storage.flush.contents[key]? = _
          rw [StorageBackend.contents_flush]
      | _ => rfl
  | _ => rfl

section Shadowing

variable {ext : Externals} {t : String} {rx : Rx} {start : Nat}
  {w : World} {pool : NodePool} {i : Nat} {p : Prim}
  {k : p.Resp → NodeProg Answer}

/-- Every message so far is about a key that was written. -/
def AboutWritten (t : String) (rx : Rx) (start : Nat) (pool : NodePool) :
    Prop :=
  ∀ ch ∈ (pool.world.watch.tenant t).sentSince rx start, ∃ key,
    KeyCodec.decode key = .ok (t, .data, ch.key) ∧ Written pool.log key

/-- Nothing new is sent, nothing new is to be shown. -/
theorem AboutWritten.keep (h : AboutWritten t rx start pool)
    (hsent : ((pool.after ext i p k).world.watch.tenant t).sentSince rx start
      = (pool.world.watch.tenant t).sentSince rx start) :
    AboutWritten t rx start (pool.after ext i p k) := by
  intro ch hch
  rw [hsent] at hch
  obtain ⟨key, hd, hw⟩ := h ch hch
  exact ⟨key, hd, written_fire.mpr (.inl hw)⟩

/-- A step on another tenant's channels sends this one's nothing. -/
theorem tenant_after_of_ne {q : WatchPrim} (hq : q.tenant ≠ t)
    {k : (Prim.watch q).Resp → NodeProg Answer} :
    (pool.after ext i (.watch q) k).world.watch.tenant t
      = pool.world.watch.tenant t := by
  show (WatchHub.set _ q.tenant _).tenant t = _
  rw [WatchHub.tenant_set, if_neg hq]

private theorem tenant_after_of_eq {q : WatchPrim} (hq : q.tenant = t)
    {k : (Prim.watch q).Resp → NodeProg Answer} :
    (pool.after ext i (.watch q) k).world.watch.tenant t
      = (q.execTenant (ext.broadcastBuffer pool.world.watch.capacity)
        (pool.world.watch.tenant t)).2 := by
  subst hq
  show (WatchHub.set _ q.tenant _).tenant q.tenant = _
  rw [WatchHub.tenant_set, if_pos rfl]

/-- Only a call that owes for a key sends anything. -/
theorem AboutWritten.step (h : AboutWritten t rx start pool)
    (hn : Noticed t rx start pool) (hok : (pool.feed i).Ok p) :
    AboutWritten t rx start (pool.after ext i p k) := by
  generalize hg : pool.feed i = g at hok
  cases hok with
  | put => exact h.keep rfl
  | delete => exact h.keep rfl
  | @ask key payload entry t' hd =>
      apply h.keep
      by_cases ht : t' = t
      · subst ht
        rw [tenant_after_of_eq (t := t') (q := .isWatched t') rfl,
          hn.listening.isWatched]
      · rw [tenant_after_of_ne (q := .isWatched t') ht]
  | @send key payload entry t' change hd hk htells =>
      by_cases ht : t' = t
      · subst ht
        obtain ⟨tc', hexec, -, hsince⟩ := hn.listening.send (t := t') change
          (ext.broadcastBuffer pool.world.watch.capacity)
        intro ch hch
        rw [tenant_after_of_eq (t := t') (q := .send t' change) rfl, hexec,
          hsince] at hch
        rcases List.mem_append.mp hch with hch | hch
        · obtain ⟨key', hd', hw⟩ := h ch hch
          exact ⟨key', hd', written_fire.mpr (.inl hw)⟩
        · rw [List.mem_singleton.mp hch, hk]
          -- the message is owed for a write, and the write is in the log
          exact ⟨key, hd, written_fire.mpr (.inl (written_of_owes hg))⟩
      · apply h.keep
        rw [tenant_after_of_ne (q := .send t' change) ht]
  | @remove t' =>
      have ht : t' ≠ t := by
        intro he
        rw [he] at hg
        exact hn.collecting i hg
      apply h.keep
      rw [tenant_after_of_ne (q := .remove t') ht]
  | inert hp =>
      apply h.keep
      cases p with
      | watch q => exact hp.elim
      | _ => rfl

/-- Around the calls nothing is sent. -/
theorem AboutWritten.attends (h : AboutWritten t rx start pool)
    (hn : Noticed t rx start pool) {w' : World}
    (he : Attends ext pool.world w') :
    AboutWritten t rx start { pool with world := w' } := by
  have hsame : (w'.watch.tenant t).sentSince rx start
      = (pool.world.watch.tenant t).sentSince rx start := by
    cases he with
    | tick ht =>
        obtain ⟨now, instant, -, rfl⟩ := ht
        rfl
    | recv t' rx' =>
        show ((WatchHub.set _ t' _).tenant t).sentSince rx start = _
        rw [WatchHub.tenant_set]
        by_cases ht : t' = t
        · subst ht
          rw [if_pos rfl]
          exact (hn.listening.recv rx' _).2
        · rw [if_neg ht]
  intro ch hch
  exact h ch (hsame ▸ hch)

/-- Whoever has not been written holds what it held. -/
def KeepsUnwritten (w : World) (pool : NodePool) : Prop :=
  ∀ key, ¬ Written pool.log key →
    pool.world.storage.contents[key]? = w.storage.contents[key]?

/-- A key nobody has written is as it was. -/
theorem KeepsUnwritten.step (h : KeepsUnwritten w pool) :
    KeepsUnwritten w (pool.after ext i p k) := by
  intro key hkey
  rw [written_fire, not_or] at hkey
  exact (contents_of_not_storesTo hkey.2 pool.world).trans (h key hkey.1)

-- ================================================================= the scan

/-- The order the entries are sorted by. -/
def byKey (a b : Bytes × Bytes) : Bool := (compare a.1 b.1).isLE

/-- What `scan_range` of the service makes of the entries it found. -/
def scanAnswer (now : Nat) (found : List (Bytes × Bytes)) :
    List (Bytes × Bytes) :=
  (found.mergeSort byKey).filterMap (filterEntry now)

/-- The entries of the range that one shard holds. -/
def Table.shard (m : Table) (shardOf : Bytes → Nat) (from₀ stop : Bytes)
    (n : Nat) : List (Bytes × Bytes) :=
  (m.scanRange from₀ stop).filter fun e => shardOf e.1 == n

/-- A scan that finds everything in one shard answers as the service does
when its scan of the storage is one step. -/
theorem scanAnswer_one_shard (ext : Externals) (w : World) (from₀ stop : Bytes) :
    ((NodeService.scanRange from₀ stop).run.run (Prim.exec ext none) w).1
      = .ok (scanAnswer w.now
        (w.storage.contents.shard (fun _ => 0) from₀ stop 0)) := by
  have hall : w.storage.contents.shard (fun _ => 0) from₀ stop 0
      = w.storage.contents.scanRange from₀ stop :=
    List.filter_eq_self.mpr fun _ _ => rfl
  have hsorted : (w.storage.contents.scanRange from₀ stop).Pairwise
      fun a b => byKey a b := by
    refine (w.storage.contents.ordered_keys_toList.filter _).imp fun {a b} hlt => ?_
    rw [byKey, hlt]
    rfl
  rw [hall, scanAnswer, List.mergeSort_of_pairwise hsorted]
  rfl

section Walks

variable {shardOf : Bytes → Nat} {from₀ stop : Bytes} {n : Nat}
  {found : List (Bytes × Bytes)}

end Walks

-- ================================================================= the runs

/-- What holds in every run of clients' calls with a subscriber that came
when the world was `w`. -/
structure Shadows (t : String) (rx : Rx) (start : Nat) (w : World)
    (pool : NodePool) : Prop where
  noticed : Noticed t rx start pool
  about : AboutWritten t rx start pool
  keeps : KeepsUnwritten w pool

theorem Shadows.attends (h : Shadows t rx start w pool) {w' : World}
    (he : Attends ext pool.world w') :
    Shadows t rx start w { pool with world := w' } := by
  have hstorage : w'.storage = pool.world.storage := by
    cases he with
    | tick ht =>
        obtain ⟨now, instant, -, rfl⟩ := ht
        rfl
    | recv t' rx' => rfl
  refine ⟨h.noticed.attends he, h.about.attends h.noticed he,
    fun key hkey => ?_⟩
  show w'.storage.contents[key]? = _
  rw [hstorage]
  exact h.keeps key hkey

end Shadowing

-- =============================================================== the answer

end FerrisKv
