/-
When a watcher's last event for a key is not what the key holds.

A write stores first and publishes later, with no lock over both. Two
writers of one key that store in one order and publish in the other leave
every watcher with the older value for good (`watcher_misled`).

In a run in which a key is only written while every other call that has
written it has told the watchers, a subscriber that is there throughout
and does not lag ends with the right value for every key written
(`watchers_agree`). `Feed` follows what one call still owes the watchers,
from its own steps; the invariant compares what is owed, or what was last
told when nothing is owed, with what is stored.
-/
import FerrisKv.Proofs.Concurrent.Subscribers
import FerrisKv.Proofs.Node.Footprint
import FerrisKv.Proofs.Node.StoredBytes

namespace FerrisKv

open Prog NodeService WriteLog

-- ================================================================= the feed

/-- The change says what the entry is. -/
def KeyChange.Tells (change : KeyChange) (entry : Option Bytes) : Prop :=
  match change.kind with
  | .put => ∃ exp, entry = some (ValueCodec.encode change.value exp)
  | .delete => entry = none

/-- What a write still owes the watchers: nothing, the entry it has stored,
or the removal of a channel it found abandoned. -/
inductive Feed where
  | idle
  | owes (key : Bytes) (entry : Option Bytes)
  | collects (tenant : String)
  deriving DecidableEq

namespace Feed

/-- The key the watchers are still to hear about. -/
def owed : Feed → Option Bytes
  | .owes key _ => some key
  | _ => none

/-- A stored entry is owed if it is data. -/
def store (g : Feed) (key : Bytes) (entry : Option Bytes) : Feed :=
  match KeyCodec.decode key with
  | .ok (_, .data, _) => .owes key entry
  | _ => g

/-- What a step of the call does to its debt. -/
def advance (g : Feed) : (p : Prim) → p.Resp → Feed
  | .storage (.put key value), .ok () => g.store key (some value)
  | .storage (.delete key), .ok () => g.store key none
  | .watch (.isWatched _), false => .idle
  | .watch (.send t _), .abandoned => .collects t
  | .watch (.send _ _), _ => .idle
  | .watch (.remove _), _ => .idle
  | _, _ => g

end Feed

/-- The steps a write takes with its debt. -/
inductive Feed.Ok : Feed → Prim → Prop where
  | put {key value : Bytes} : Ok .idle (.storage (.put key value))
  | delete {key : Bytes} : Ok .idle (.storage (.delete key))
  | ask {key payload : Bytes} {entry : Option Bytes} {t : String}
      (hd : KeyCodec.decode key = .ok (t, .data, payload)) :
      Ok (.owes key entry) (.watch (.isWatched t))
  | send {key payload : Bytes} {entry : Option Bytes} {t : String}
      {change : KeyChange} (hd : KeyCodec.decode key = .ok (t, .data, payload))
      (hk : change.key = payload) (ht : change.Tells entry) :
      Ok (.owes key entry) (.watch (.send t change))
  | remove {t : String} : Ok (.collects t) (.watch (.remove t))
  | inert {g : Feed} {p : Prim} (h : p.Inert) : Ok g p

-- ========================================================= the two programs

section Programs

variable {α : Type} {g : Feed}

/-- The discipline's rules. -/
abbrev feedRules : Rules Feed Prim Prim.Resp := .ghost Feed.Ok Feed.advance

/-- What is no data is not owed. -/
theorem Feed.store_of_not_data {key : Bytes} (h : ¬ IsData key)
    (entry : Option Bytes) : g.store key entry = g := by
  unfold store
  split
  · next t payload hd => exact absurd ⟨t, payload, hd⟩ h
  · rfl

/-- Stored data is owed. -/
private theorem Feed.store_of_data {key payload : Bytes} {t : String}
    (h : KeyCodec.decode key = .ok (t, .data, payload))
    (entry : Option Bytes) : g.store key entry = .owes key entry := by
  unfold store
  rw [h]

/-- An inert step changes no debt. -/
theorem Prim.Inert.advance {p : Prim} (h : p.Inert) (g : Feed)
    (r : p.Resp) : g.advance p r = g := by
  cases p with
  | storage q =>
      cases q with
      | put key value =>
          cases r with
          | ok u => exact Feed.store_of_not_data h _
          | error e => rfl
      | delete key =>
          cases r with
          | ok u => exact Feed.store_of_not_data h _
          | error e => rfl
      | _ => rfl
  | watch q => exact h.elim
  | _ => rfl

theorem wp_feed_inert {x : NodeProg α} (hx : x.Uses Prim.Inert) :
    wp feedRules (fun g' _ => g' = g) x g := by
  refine wp_of_uses (I := fun g' => g' = g) ?_ (fun _ _ hI => hI) hx rfl
  rintro _ p rfl hp
  exact ⟨.inert hp, hp.advance _⟩

/-- Publishing pays the debt. -/
theorem wp_publishChange {key value : Bytes} {entry : Option Bytes}
    {kind : ChangeKind}
    (ht : ∀ payload, KeyChange.Tells ⟨kind, payload, value⟩ entry) :
    wp feedRules (fun g' _ => g' = .idle) (publishChange key kind value)
      (Feed.idle.store key entry) := by
  unfold publishChange
  cases hd : KeyCodec.decode key with
  | error e =>
      rw [Feed.store_of_not_data]
      · exact rfl
      · rintro ⟨t, payload, h⟩
        rw [hd] at h
        cases h
  | ok parts =>
      obtain ⟨t, s, payload⟩ := parts
      by_cases hs : s = .data
      · subst hs
        rw [Feed.store_of_data hd]
        refine ⟨.ask hd, fun watched => ?_⟩
        cases watched with
        | false => exact rfl
        | true =>
            refine ⟨.send hd rfl (ht payload), fun out => ?_⟩
            cases out with
            | absent => exact rfl
            | sent => exact rfl
            | abandoned => exact ⟨.remove, fun _ => rfl⟩
      · rw [Feed.store_of_not_data]
        · simp only [if_pos hs]
          exact rfl
        · rintro ⟨t', payload', h⟩
          rw [hd] at h
          cases h
          exact hs rfl

/-- The end of every write. -/
theorem wp_settle_feed (plan : Option Accounting) {key value : Bytes}
    {entry : Option Bytes} {kind : ChangeKind} (cfg : NodeConfig)
    (ht : ∀ payload, KeyChange.Tells ⟨kind, payload, value⟩ entry) :
    wp feedRules (fun g' _ => g' = .idle)
      (ExceptT.run (do
        commitAccounting plan
        publishChange key kind value
        rotateWalIfNeeded cfg : NodeM Unit)) (Feed.idle.store key entry) := by
  simp only [wp_bindE, wp_lift, onResult_ok]
  refine wp_mono ?_ (wp_feed_inert
    ((commitAccounting_uses plan).mono fun _ hp => hp.inert))
  rintro _ _ rfl
  refine wp_mono ?_ (wp_publishChange ht)
  rintro _ _ rfl
  exact wp_feed_inert ((rotateWalIfNeeded_uses cfg).mono fun _ hp => hp.inert)

/-- A put tells what it stores. -/
theorem putWithTtl_feed (cfg : NodeConfig) (k v : Bytes) (ttlMs : Nat) :
    wp feedRules (fun g' _ => g' = .idle) ((Op.put k v ttlMs).prog cfg)
      .idle := by
  refine (wp_map _ _ _).mpr ?_
  unfold putWithTtl
  rw [wp_bindE, wp_lift]
  refine wp_mono ?_ (wp_feed_inert ((expiryStamp_uses ttlMs).mono ?_))
  swap
  · rintro _ rfl
    exact trivial
  rintro _ exp rfl
  rw [onResult_ok, wp_bindE]
  refine wp_mono ?_ (wp_feed_inert
    ((planAccounting_uses k v.length).mono fun _ hp => hp.inert))
  rintro _ (e | plan) rfl
  · exact rfl
  rw [onResult_ok, wp_bindE]
  refine wp_mono ?_ (wp_feed_inert
    ((checkAccounting_uses plan).mono fun _ hp => hp.inert))
  rintro _ (e | u) rfl
  · exact rfl
  rw [onResult_ok, wp_bindE]
  refine ⟨.inert trivial, fun a => ?_⟩
  cases a with
  | error e => exact rfl
  | ok seq =>
      show wp _ _ (ExceptT.run (storagePut k _ >>= _)) _
      refine ⟨.put, fun a => ?_⟩
      cases a with
      | error e => exact rfl
      | ok u =>
          refine (wp_bindE _ _ _).mpr ((wp_lift _ _).mpr ?_)
          refine wp_mono ?_ (wp_feed_inert
            ((scheduleExpiry_uses k exp).mono fun _ hp => hp.inert))
          rintro _ _ rfl
          exact wp_settle_feed plan cfg fun payload => ⟨exp, rfl⟩

/-- So does a delete. -/
theorem delete_feed (cfg : NodeConfig) (k : Bytes) :
    wp feedRules (fun g' _ => g' = .idle) ((Op.delete k).prog cfg)
      .idle := by
  refine (wp_map _ _ _).mpr ?_
  unfold delete
  rw [wp_bindE]
  refine wp_mono ?_ (wp_feed_inert
    ((planDeleteAccounting_uses k).mono fun _ hp => hp.inert))
  rintro _ (e | plan) rfl
  · exact rfl
  rw [onResult_ok, wp_bindE]
  refine ⟨.inert trivial, fun a => ?_⟩
  cases a with
  | error e => exact rfl
  | ok seq =>
      show wp _ _ (ExceptT.run (storageDelete k >>= _)) _
      refine ⟨.delete, fun a => ?_⟩
      cases a with
      | error e => exact rfl
      | ok u => exact wp_settle_feed plan cfg fun payload => rfl

end Programs

-- ============================================================ the invariant

/-- The last message about a key. -/
def lastFor (payload : Bytes) (changes : List KeyChange) : Option KeyChange :=
  changes.reverse.find? fun ch => ch.key = payload

/-- The last message about a key is the newest that is about it. -/
theorem lastFor_snoc (payload : Bytes) (changes : List KeyChange)
    (ch : KeyChange) :
    lastFor payload (changes ++ [ch])
      = if ch.key = payload then some ch else lastFor payload changes := by
  rw [lastFor, List.reverse_append, List.reverse_singleton,
    List.singleton_append, List.find?_cons]
  by_cases h : ch.key = payload <;> simp [h, lastFor]

/-- The step is a storage write under the key. -/
def Prim.StoresTo (key : Bytes) : Prim → Prop
  | .storage (.put k _) => k = key
  | .storage (.delete k) => k = key
  | _ => False

instance (key : Bytes) (p : Prim) : Decidable (p.StoresTo key) :=
  match p with
  | .storage (.put k _) => inferInstanceAs (Decidable (k = key))
  | .storage (.delete k) => inferInstanceAs (Decidable (k = key))
  | .storage (.get _) | .storage (.scan _) | .storage (.scanRange _ _)
  | .storage .flush | .storage .isDurable | .now | .instant | .wal _
  | .ttl _ | .quota _ | .throttle _ | .watch _ => .isFalse id

/-- Some call has written the key. -/
def Written (log : List NodeEvent) (key : Bytes) : Prop :=
  ∃ e ∈ log, e.prim.StoresTo key

instance (log : List NodeEvent) (key : Bytes) : Decidable (Written log key) :=
  inferInstanceAs (Decidable (∃ e ∈ _, _))

/-- What call `i` owes the watchers. -/
def NodePool.feed (pool : NodePool) (i : Nat) : Feed :=
  Pool.ghost Feed.advance (fun _ => .idle) pool.log i

/-- A key is only written while every other call that has written it has
told the watchers. -/
def ToldFirst (pool : NodePool) (i : Nat) : Prim → Prop
  | .storage (.put key _) =>
      ∀ e ∈ pool.log, e.tid ≠ i → (pool.feed e.tid).owed ≠ some key
  | .storage (.delete key) =>
      ∀ e ∈ pool.log, e.tid ≠ i → (pool.feed e.tid).owed ≠ some key
  | _ => True

/-- The subscriber is listening; what a call owes for one of the tenant's
keys is what the key holds, and no two calls owe for one key; and what the
subscriber was last told of a key nobody owes for is what the key holds. -/
structure Noticed (t : String) (rx : Rx) (start : Nat) (pool : NodePool) :
    Prop where
  listening : (pool.world.watch.tenant t).Listening rx start
  collecting : ∀ j, pool.feed j ≠ .collects t
  owing : ∀ j key payload entry,
    KeyCodec.decode key = .ok (t, .data, payload) →
    pool.feed j = .owes key entry →
    pool.world.storage.contents[key]? = entry
  alone : ∀ j j' key payload entry entry',
    KeyCodec.decode key = .ok (t, .data, payload) →
    pool.feed j = .owes key entry → pool.feed j' = .owes key entry' → j = j'
  told : ∀ key payload, KeyCodec.decode key = .ok (t, .data, payload) →
    (∀ j entry, pool.feed j ≠ .owes key entry) → Written pool.log key →
    ∃ ch, lastFor payload ((pool.world.watch.tenant t).sentSince rx start)
        = some ch
      ∧ ch.Tells pool.world.storage.contents[key]?

section Steps

variable {ext : Externals} {t : String} {rx : Rx} {start : Nat}
  {pool : NodePool} {i : Nat} {p : Prim} {k : p.Resp → NodeProg Answer}

/-- A step moves its own debt. -/
theorem feed_fire_self :
    (pool.after ext i p k).feed i
      = (pool.feed i).advance p (p.exec ext none pool.world).1 :=
  Pool.ghost_snoc_self _ _ _ _

theorem feed_fire_ne {j : Nat} (h : i ≠ j) :
    (pool.after ext i p k).feed j = pool.feed j :=
  Pool.ghost_snoc_ne _ h _ _

/-- A key is written once somebody has stored to it. -/
theorem written_fire {key : Bytes} :
    Written (pool.after ext i p k).log key
      ↔ Written pool.log key ∨ p.StoresTo key := by
  constructor
  · rintro ⟨e, he, hs⟩
    rcases List.mem_append.mp he with he | he
    · exact .inl ⟨e, he, hs⟩
    · rw [List.mem_singleton.mp he] at hs
      exact .inr hs
  · rintro (⟨e, he, hs⟩ | hs)
    · exact ⟨e, List.mem_append_left _ he, hs⟩
    · exact ⟨_, List.mem_append_right _ (List.mem_singleton_self _), hs⟩

/-- A step that is not about the tenant's keys or channels. -/
theorem Noticed.keep (h : Noticed t rx start pool)
    (hwatch : (p.exec ext none pool.world).2.watch.tenant t
      = pool.world.watch.tenant t)
    (hdata : ∀ key payload, KeyCodec.decode key = .ok (t, .data, payload) →
      (p.exec ext none pool.world).2.storage.contents[key]?
        = pool.world.storage.contents[key]? ∧ ¬ p.StoresTo key)
    (howes : ∀ key payload entry,
      KeyCodec.decode key = .ok (t, .data, payload) →
      ((pool.after ext i p k).feed i = .owes key entry
        ↔ pool.feed i = .owes key entry))
    (hcoll : (pool.after ext i p k).feed i ≠ .collects t) :
    Noticed t rx start (pool.after ext i p k) := by
  have hfeed : ∀ j key payload entry,
      KeyCodec.decode key = .ok (t, .data, payload) →
      ((pool.after ext i p k).feed j = .owes key entry
        ↔ pool.feed j = .owes key entry) := by
    intro j key payload entry hd
    by_cases hij : i = j
    · subst hij
      exact howes key payload entry hd
    · rw [feed_fire_ne hij]
  constructor
  · show ((p.exec ext none pool.world).2.watch.tenant t).Listening rx start
    rw [hwatch]
    exact h.listening
  · intro j
    by_cases hij : i = j
    · subst hij
      exact hcoll
    · rw [feed_fire_ne hij]
      exact h.collecting j
  · intro j key payload entry hd hj
    exact (hdata key payload hd).1.trans
      (h.owing j key payload entry hd ((hfeed j key payload entry hd).mp hj))
  · intro j j' key payload entry entry' hd hj hj'
    exact h.alone j j' key payload entry entry' hd
      ((hfeed j key payload entry hd).mp hj)
      ((hfeed j' key payload entry' hd).mp hj')
  -- nothing was said and nothing stored, so the last message about the key
  -- still says what is stored
  · intro key payload hd hfree hw
    have hw := (written_fire.mp hw).resolve_right (hdata key payload hd).2
    obtain ⟨ch, hlast, htells⟩ := h.told key payload hd
      (fun j entry hj => hfree j entry ((hfeed j key payload entry hd).mpr hj))
      hw
    refine ⟨ch, ?_, ?_⟩
    · show lastFor payload
        (((p.exec ext none pool.world).2.watch.tenant t).sentSince rx start)
          = _
      rw [hwatch]
      exact hlast
    · show ch.Tells (p.exec ext none pool.world).2.storage.contents[key]?
      rw [(hdata key payload hd).1]
      exact htells

/-- An inert step stores to no data. -/
private theorem Prim.Inert.not_storesTo (hp : p.Inert) {key : Bytes}
    (hk : IsData key) : ¬ p.StoresTo key := by
  cases p with
  | storage q =>
      cases q with
      | put k v => exact fun h => hp (h ▸ hk)
      | delete k => exact fun h => hp (h ▸ hk)
      | _ => exact id
  | _ => exact id

/-- So it changes nothing of what is noticed. -/
theorem Noticed.inert (h : Noticed t rx start pool) (hp : p.Inert) :
    Noticed t rx start (pool.after ext i p k) := by
  have hsame : (pool.after ext i p k).feed i = pool.feed i := by
    rw [feed_fire_self, hp.advance]
  refine h.keep ?_ (fun key payload hd =>
    ⟨hp.contents ext none _ ⟨t, payload, hd⟩, hp.not_storesTo ⟨t, payload, hd⟩⟩)
    (fun key payload entry _ => by rw [hsame]) ?_
  · cases p with
    | watch q => exact hp.elim
    | _ => rfl
  · rw [hsame]
    exact h.collecting i

/-- Storing an entry that nobody else owes for. -/
theorem Noticed.store (h : Noticed t rx start pool) (wr : Write Bytes Bytes)
    (hexec : (p.exec ext none pool.world).2
      = { pool.world with storage := pool.world.storage.write wr })
    (hself : (pool.after ext i p k).feed i
      = Feed.idle.store wr.key wr.value)
    (hi : pool.feed i = .idle)
    (hst : ∀ key, p.StoresTo key ↔ wr.key = key)
    (hothers : ∀ j ≠ i, ∀ entry, pool.feed j ≠ .owes wr.key entry) :
    Noticed t rx start (pool.after ext i p k) := by
  have hcontents : ∀ key,
      (p.exec ext none pool.world).2.storage.contents[key]?
        = if wr.key = key then wr.value
          else pool.world.storage.contents[key]? := by
    intro key
    rw [hexec]
    show (pool.world.storage.write wr).contents[key]? = _
    rw [StorageBackend.contents_write, getElem?_apply]
  by_cases hkey : ∃ payload, KeyCodec.decode wr.key = .ok (t, .data, payload)
  · obtain ⟨payload, hd⟩ := hkey
    rw [Feed.store_of_data hd] at hself
    -- `i` owes for the key, nobody else does, and no other key is touched
    have hfeed : ∀ j key entry, (pool.after ext i p k).feed j
        = .owes key entry → (j = i ∧ key = wr.key ∧ entry = wr.value)
          ∨ (j ≠ i ∧ key ≠ wr.key ∧ pool.feed j = .owes key entry) := by
      intro j key entry hj
      by_cases hij : i = j
      · subst hij
        rw [hself] at hj
        cases hj
        exact .inl ⟨rfl, rfl, rfl⟩
      · rw [feed_fire_ne hij] at hj
        refine .inr ⟨fun he => hij he.symm, ?_, hj⟩
        rintro rfl
        exact hothers j (fun he => hij he.symm) entry hj
    constructor
    · show ((p.exec ext none pool.world).2.watch.tenant t).Listening rx start
      rw [hexec]
      exact h.listening
    · intro j
      by_cases hij : i = j
      · subst hij
        rw [hself]
        rintro ⟨⟩
      · rw [feed_fire_ne hij]
        exact h.collecting j
    · intro j key payload' entry hd' hj
      refine (hcontents key).trans ?_
      obtain ⟨-, rfl, rfl⟩ | ⟨-, hne, hj⟩ := hfeed j key entry hj
      · exact if_pos rfl
      · rw [if_neg fun he => hne he.symm]
        exact h.owing j key payload' entry hd' hj
    · intro j j' key payload' entry entry' hd' hj hj'
      obtain ⟨rfl, rfl, -⟩ | ⟨-, hne, hj⟩ := hfeed j key entry hj
      · obtain ⟨rfl, -, -⟩ | ⟨-, hne, -⟩ := hfeed j' _ entry' hj'
        · rfl
        · exact absurd rfl hne
      · obtain ⟨-, rfl, -⟩ | ⟨-, -, hj'⟩ := hfeed j' key entry' hj'
        · exact absurd rfl hne
        · exact h.alone j j' key payload' entry entry' hd' hj hj'
    · intro key payload' hd' hfree hw
      have hne : wr.key ≠ key := by
        rintro rfl
        exact hfree i wr.value hself
      have hw := (written_fire.mp hw).resolve_right
        fun hs => hne ((hst key).mp hs)
      have hfree' : ∀ j entry, pool.feed j ≠ .owes key entry := by
        intro j entry hj
        by_cases hij : i = j
        · subst hij
          rw [hi] at hj
          cases hj
        · exact hfree j entry ((feed_fire_ne hij).trans hj)
      obtain ⟨ch, hlast, htells⟩ := h.told key payload' hd' hfree' hw
      refine ⟨ch, ?_, ?_⟩
      · show lastFor payload'
          (((p.exec ext none pool.world).2.watch.tenant t).sentSince rx start)
            = _
        rw [hexec]
        exact hlast
      · show ch.Tells (p.exec ext none pool.world).2.storage.contents[key]?
        rw [hcontents, if_neg hne]
        exact htells
  · -- another tenant's key, or none at all
    have hne : ∀ key payload, KeyCodec.decode key = .ok (t, .data, payload) →
        wr.key ≠ key := by
      rintro key payload hd rfl
      exact hkey ⟨payload, hd⟩
    have howe : ∀ key payload entry,
        KeyCodec.decode key = .ok (t, .data, payload) →
        Feed.idle.store wr.key wr.value ≠ .owes key entry := by
      intro key payload entry hd
      unfold Feed.store
      split
      · intro he
        cases he
        exact hne _ payload hd rfl
      · rintro ⟨⟩
    refine h.keep (by rw [hexec]) ?_ ?_ ?_
    · intro key payload hd
      exact ⟨(hcontents key).trans (if_neg (hne key payload hd)),
        fun hs => hne key payload hd ((hst key).mp hs)⟩
    · intro key payload entry hd
      rw [hself, hi, iff_false_left (howe key payload entry hd)]
      rintro ⟨⟩
    · rw [hself]
      unfold Feed.store
      split <;> rintro ⟨⟩

/-- A step on another tenant's channels. -/
theorem Noticed.elsewhere (h : Noticed t rx start pool) {q : WatchPrim}
    (hp : p = .watch q) (hq : q.tenant ≠ t)
    (howes : ∀ key payload entry,
      KeyCodec.decode key = .ok (t, .data, payload) →
      ((pool.after ext i p k).feed i = .owes key entry
        ↔ pool.feed i = .owes key entry))
    (hcoll : (pool.after ext i p k).feed i ≠ .collects t) :
    Noticed t rx start (pool.after ext i p k) := by
  subst hp
  refine h.keep ?_ (fun _ _ _ => ⟨rfl, id⟩) howes hcoll
  show (WatchHub.set _ q.tenant _).tenant t = _
  rw [WatchHub.tenant_set, if_neg hq]

/-- Who owes for one tenant's key does not owe for another's. -/
private theorem not_owes_foreign {g : Feed} {key payload : Bytes} {t' : String}
    {entry : Option Bytes} (hi : g = .owes key entry)
    (hd : KeyCodec.decode key = .ok (t', .data, payload)) (hne : t' ≠ t)
    (key' payload' : Bytes) (entry' : Option Bytes)
    (hd' : KeyCodec.decode key' = .ok (t, .data, payload')) :
    g ≠ .owes key' entry' := by
  rw [hi]
  intro he
  cases he
  rw [hd] at hd'
  cases hd'
  exact hne rfl

/-- Asking whether anybody listens; somebody does. -/
theorem Noticed.ask (h : Noticed t rx start pool) {key payload : Bytes}
    {entry : Option Bytes} {t' : String}
    (hd : KeyCodec.decode key = .ok (t', .data, payload))
    (hi : pool.feed i = .owes key entry)
    {k : (Prim.watch (.isWatched t')).Resp → NodeProg Answer} :
    Noticed t rx start (pool.after ext i (.watch (.isWatched t')) k) := by
  by_cases ht : t' = t
  · subst ht
    have hexec := h.listening.isWatched (t := t')
      (ext.broadcastBuffer pool.world.watch.capacity)
    have hanswer : ((Prim.watch (.isWatched t')).exec ext none
        pool.world).1 = true := congrArg Prod.fst hexec
    have hself : (pool.after ext i (.watch (.isWatched t')) k).feed i
        = pool.feed i := by
      rw [feed_fire_self, hanswer]
      rfl
    refine h.keep ?_ (fun _ _ _ => ⟨rfl, id⟩)
      (fun _ _ _ _ => by rw [hself]) (by rw [hself]; exact h.collecting i)
    show (WatchHub.set _ t' _).tenant t' = _
    rw [WatchHub.tenant_set, if_pos rfl]
    exact congrArg Prod.snd hexec
  · have hself : (pool.after ext i (.watch (.isWatched t')) k).feed i
        = pool.feed i ∨ (pool.after ext i (.watch (.isWatched t')) k).feed i
          = .idle := by
      rw [feed_fire_self]
      rcases ((Prim.watch (.isWatched t')).exec ext none pool.world).1 with
        _ | _
      · exact .inr rfl
      · exact .inl rfl
    have hforeign := not_owes_foreign hi hd ht
    refine h.elsewhere rfl ht (fun key' payload' entry' hd' => ?_) ?_
    · refine iff_of_false ?_ (hforeign key' payload' entry' hd')
      rcases hself with hs | hs
      · rw [hs]
        exact hforeign key' payload' entry' hd'
      · rw [hs]
        rintro ⟨⟩
    · rcases hself with hs | hs
      · rw [hs]
        exact h.collecting i
      · rw [hs]
        rintro ⟨⟩

/-- Telling the tenant's watchers what the key holds. -/
theorem Noticed.tell (h : Noticed t rx start pool) {key : Bytes}
    {entry : Option Bytes} {change : KeyChange}
    (hd : KeyCodec.decode key = .ok (t, .data, change.key))
    (ht : change.Tells entry) (hi : pool.feed i = .owes key entry)
    {k : (Prim.watch (.send t change)).Resp → NodeProg Answer} :
    Noticed t rx start (pool.after ext i (.watch (.send t change)) k) := by
  -- somebody listens, so the message is sent and not given back
  obtain ⟨tc', hexec, hlisten, hsince⟩ := h.listening.send (t := t) change
    (ext.broadcastBuffer pool.world.watch.capacity)
  have htenant : ((Prim.watch (.send t change)).exec ext none
      pool.world).2.watch.tenant t = tc' := by
    show (WatchHub.set _ t _).tenant t = _
    rw [WatchHub.tenant_set, if_pos rfl]
    exact congrArg Prod.snd hexec
  have hanswer : ((Prim.watch (.send t change)).exec ext none
      pool.world).1 = .sent := congrArg Prod.fst hexec
  have hself : (pool.after ext i (.watch (.send t change)) k).feed i
      = .idle := by
    rw [feed_fire_self, hanswer]
    rfl
  have hfeed : ∀ j key' entry',
      (pool.after ext i (.watch (.send t change)) k).feed j
        = .owes key' entry' → pool.feed j = .owes key' entry' := by
    intro j key' entry' hj
    by_cases hij : i = j
    · subst hij
      rw [hself] at hj
      cases hj
    · rwa [feed_fire_ne hij] at hj
  constructor
  · show ((Prim.exec ext none _ pool.world).2.watch.tenant t).Listening rx
      start
    rw [htenant]
    exact hlisten
  · intro j
    by_cases hij : i = j
    · subst hij
      rw [hself]
      rintro ⟨⟩
    · rw [feed_fire_ne hij]
      exact h.collecting j
  · exact fun j key' payload' entry' hd' hj =>
      h.owing j key' payload' entry' hd' (hfeed j key' entry' hj)
  · exact fun j j' key' payload' e e' hd' hj hj' =>
      h.alone j j' key' payload' e e' hd' (hfeed j key' e hj)
        (hfeed j' key' e' hj')
  · intro key' payload' hd' hfree hw
    have hw := (written_fire.mp hw).resolve_right id
    show ∃ ch, lastFor payload' (((Prim.exec ext none _
      pool.world).2.watch.tenant t).sentSince rx start) = some ch ∧ _
    rw [htenant, hsince, lastFor_snoc]
    -- for the key told about, this message is now the last, and says what is
    -- stored; every other key has the last message it had
    by_cases hkey : key' = key
    · subst hkey
      rw [hd] at hd'
      cases hd'
      refine ⟨change, if_pos rfl, ?_⟩
      show change.Tells pool.world.storage.contents[key']?
      rw [h.owing i key' _ entry hd hi]
      exact ht
    · have hpay : change.key ≠ payload' := by
        rintro rfl
        have he := KeyCodec.encode_decode hd
        rw [KeyCodec.encode_decode hd'] at he
        exact hkey (Except.ok.inj he)
      rw [if_neg hpay]
      refine h.told key' payload' hd' (fun j entry' hj => ?_) hw
      by_cases hij : i = j
      · subst hij
        rw [hi] at hj
        cases hj
        exact hkey rfl
      · exact hfree j entry' ((feed_fire_ne hij).trans hj)

/-- Sending on another tenant's channel, or removing it. -/
theorem Noticed.foreign (h : Noticed t rx start pool) {q : WatchPrim}
    (hq : q.tenant ≠ t)
    (hbefore : ∀ key payload entry,
      KeyCodec.decode key = .ok (t, .data, payload) →
      pool.feed i ≠ .owes key entry)
    {k : (Prim.watch q).Resp → NodeProg Answer}
    (hafter : (pool.after ext i (.watch q) k).feed i = .idle
      ∨ (pool.after ext i (.watch q) k).feed i = .collects q.tenant) :
    Noticed t rx start (pool.after ext i (.watch q) k) := by
  refine h.elsewhere rfl hq (fun key payload entry hd => ?_) ?_
  · refine iff_of_false ?_ (hbefore key payload entry hd)
    rcases hafter with hs | hs
    · rw [hs]
      rintro ⟨⟩
    · rw [hs]
      rintro ⟨⟩
  · rcases hafter with hs | hs
    · rw [hs]
      rintro ⟨⟩
    · rw [hs]
      intro he
      exact hq (Feed.collects.inj he)

/-- A call that has not moved owes nothing. -/
theorem mem_log_of_owes {j : Nat} {key : Bytes} {entry : Option Bytes}
    (hj : pool.feed j = .owes key entry) : ∃ e ∈ pool.log, e.tid = j := by
  by_contra hno
  push Not at hno
  have hidle : pool.feed j = .idle := Pool.ghost_of_idle hno
  rw [hidle] at hj
  cases hj

/-- Every step a write takes in its turn keeps the watchers right. -/
theorem Noticed.step (h : Noticed t rx start pool)
    (hok : (pool.feed i).Ok p) (ha : ToldFirst pool i p) :
    Noticed t rx start (pool.after ext i p k) := by
  have hothers : ∀ key, (∀ e ∈ pool.log, e.tid ≠ i →
      (pool.feed e.tid).owed ≠ some key) →
      ∀ j ≠ i, ∀ entry, pool.feed j ≠ .owes key entry := by
    intro key hall j hj entry hf
    obtain ⟨e, he, rfl⟩ := mem_log_of_owes hf
    exact hall e he hj (by rw [hf]; rfl)
  generalize hg : pool.feed i = g at hok
  -- a store makes the call owe a message, the send pays it, and a removal is
  -- only ever of somebody else's channel
  cases hok with
  | put =>
      rename_i key value
      refine h.store (.put key value) rfl ?_ hg (fun _ => Iff.rfl)
        (hothers key ha)
      rw [feed_fire_self, hg]
      rfl
  | delete =>
      rename_i key
      refine h.store (.delete key) rfl ?_ hg (fun _ => Iff.rfl)
        (hothers key ha)
      rw [feed_fire_self, hg]
      rfl
  | ask hd => exact h.ask hd hg
  | send hd hk ht =>
      rename_i key payload entry t' change
      subst hk
      by_cases htt : t' = t
      · subst htt
        exact h.tell hd ht hg
      · refine h.foreign (q := .send t' change) htt
          (not_owes_foreign hg hd htt) ?_
        rw [feed_fire_self]
        rcases ((Prim.watch (.send t' change)).exec ext none pool.world).1
          with _ | _ | _
        · exact .inl rfl
        · exact .inr rfl
        · exact .inl rfl
  | remove =>
      rename_i t'
      -- only a call that found nobody listening removes a channel, and here
      -- somebody listens
      have htt : t' ≠ t := by
        rintro rfl
        exact h.collecting i hg
      refine h.foreign (q := .remove t') htt (fun key payload entry _ => ?_)
        (.inl ?_)
      · rw [hg]
        rintro ⟨⟩
      · rw [feed_fire_self]
        rfl
  | inert hp => exact h.inert hp

end Steps

-- ==================================================================== runs

/-- What happens around the writes: the clock moves, a receiver reads. -/
inductive Attends (ext : Externals) (w : World) : World → Prop where
  | tick {w' : World} (h : Ticks w w') : Attends ext w w'
  | recv (t : String) (rx : Rx) :
      Attends ext w ((Prim.watch (.recv t rx)).exec ext none w).2

/-- A put or a delete. -/
def Op.IsWrite : Op → Prop
  | .put _ _ _ => True
  | .delete _ => True
  | _ => False

section Runs

variable {ext : Externals} {cfg : NodeConfig} {w : World} {ops : List Op}
  {t : String} {rx : Rx} {start : Nat} {pool : NodePool}

/-- Every call, wherever it is, will have paid at its end. -/
private theorem feed_discipline (hops : ∀ op ∈ ops, op.IsWrite)
    {env : World → World → Prop} {allow : NodePool → Nat → Prim → Prop}
    (h : Pool.Run (Prim.exec ext none) env allow (NodePool.calls cfg w ops)
      pool) {i : Nat} {x : NodeProg Answer}
    (hx : pool.threads[i]? = some x) :
    wp feedRules (fun g _ => g = .idle) x (pool.feed i) := by
  refine Pool.Run.discipline (Q := fun _ g _ => g = Feed.idle) ?_ h i x hx
  intro i x hx
  rw [List.getElem?_map, Option.map_eq_some_iff] at hx
  obtain ⟨op, hop, rfl⟩ := hx
  have hw := hops op (List.mem_of_getElem? hop)
  cases op with
  | put k v ttlMs => exact putWithTtl_feed cfg k v ttlMs
  | delete k => exact delete_feed cfg k
  | get k => exact hw.elim
  | scan pre => exact hw.elim
  | scanRange start stop => exact hw.elim
  | sweep => exact hw.elim

/-- What subscribers do keeps the notices. -/
theorem Noticed.attends (h : Noticed t rx start pool) {w' : World}
    (he : Attends ext pool.world w') :
    Noticed t rx start { pool with world := w' } := by
  have hkeep : ∀ w' : World, (w'.watch.tenant t).Listening rx start →
      (w'.watch.tenant t).sentSince rx start
        = (pool.world.watch.tenant t).sentSince rx start →
      w'.storage = pool.world.storage →
      Noticed t rx start { pool with world := w' } := by
    intro w' hl hs hst
    refine ⟨hl, h.collecting, ?_, h.alone, ?_⟩
    · intro j key payload entry hd hj
      show w'.storage.contents[key]? = entry
      rw [hst]
      exact h.owing j key payload entry hd hj
    · intro key payload hd hfree hw
      show ∃ ch, lastFor payload ((w'.watch.tenant t).sentSince rx start)
        = some ch ∧ ch.Tells w'.storage.contents[key]?
      rw [hs, hst]
      exact h.told key payload hd hfree hw
  cases he with
  | tick ht =>
      obtain ⟨now, instant, -, rfl⟩ := ht
      exact hkeep _ h.listening rfl rfl
  | recv t' rx' =>
      have htenant : ((Prim.watch (.recv t' rx')).exec ext none
          pool.world).2.watch.tenant t
          = if t' = t then ((WatchPrim.recv t' rx').execTenant
              (ext.broadcastBuffer pool.world.watch.capacity)
              (pool.world.watch.tenant t')).2
            else pool.world.watch.tenant t := WatchHub.tenant_set _ _ _ _
      by_cases ht : t' = t
      · subst ht
        rw [if_pos rfl] at htenant
        have hrecv := h.listening.recv (t := t') rx'
          (ext.broadcastBuffer pool.world.watch.capacity)
        rw [← htenant] at hrecv
        exact hkeep _ hrecv.1 hrecv.2 rfl
      · rw [if_neg ht] at htenant
        exact hkeep _ (by rw [htenant]; exact h.listening) (by rw [htenant])
          rfl

/-- Over a run in which keys are told first, every written key is owed or was
last told as it is stored. -/
private theorem noticed_of_run (hops : ∀ op ∈ ops, op.IsWrite)
    (hsub : (w.watch.tenant t).Listening rx start)
    (h : Pool.Run (Prim.exec ext none) (Attends ext) ToldFirst
      (NodePool.calls cfg w ops) pool) :
    Noticed t rx start pool := by
  induction h with
  | start =>
      refine ⟨hsub, fun j => ?_, ?_, ?_, ?_⟩
      · rintro ⟨⟩
      · intro j key payload entry hd hj
        cases hj
      · intro j j' key payload e e' hd hj hj'
        cases hj
      · rintro key payload hd hfree ⟨e, he, -⟩
        cases he
  | step hrun hi ha ih =>
      exact ih.step (feed_discipline hops hrun hi).1 ha
  | env _ he ih => exact ih.attends he

/-- Once all writes have returned, the last message a subscriber was sent
about a key that was written agrees with what the key holds: in every run
in which a key is only written while every other call that has written it
has told the watchers. The subscriber was there from the start and has not
lagged. -/
theorem watchers_agree (ext : Externals) (cfg : NodeConfig) (w : World)
    (t : String) (rx : Rx) (start : Nat) (ops : List Op)
    (hops : ∀ op ∈ ops, op.IsWrite)
    (hsub : (w.watch.tenant t).Listening rx start) {pool : NodePool}
    (h : Pool.Run (Prim.exec ext none) (Attends ext) ToldFirst
      (NodePool.calls cfg w ops) pool)
    (hdone : ∀ i < ops.length, ∃ a, pool.result i = some a)
    (key payload : Bytes)
    (hkey : KeyCodec.decode key = .ok (t, .data, payload))
    (hwritten : Written pool.log key) :
    ∃ change, lastFor payload
        ((pool.world.watch.tenant t).sentSince rx start) = some change
      ∧ change.Tells (pool.world.storage.get key) := by
  refine (noticed_of_run hops hsub h).told key payload hkey ?_ hwritten
  intro j entry hj
  obtain ⟨e, he, rfl⟩ := mem_log_of_owes hj
  have hlt := Pool.Run.tid_lt h e he
  rw [List.length_map] at hlt
  obtain ⟨a, ha⟩ := hdone e.tid hlt
  have hidle : pool.feed e.tid = .idle :=
    feed_discipline hops h (Pool.result_eq_some.mp ha)
  rw [hidle] at hj
  cases hj

end Runs

-- ============================================================ a stale view

/-- Two puts on one key. -/
def rivalPuts : List Op :=
  [.put (KeyCodec.bytesOf "a" .data [1]) [5] 0,
    .put (KeyCodec.bytesOf "a" .data [1]) [6] 0]

theorem oneWatcher_listening :
    (oneWatcher.watch.tenant "a").Listening ⟨0, 0⟩ 0 :=
  ⟨by decide +kernel, ⟨[], [⟨0, true⟩]⟩, by decide +kernel,
    ⟨⟨0, true⟩, rfl, rfl⟩, Nat.le_refl 0⟩

instance (pool : NodePool) (i : Nat) (p : Prim) :
    Decidable (ToldFirst pool i p) :=
  match p with
  | .storage (.put _ _) => inferInstanceAs (Decidable (∀ e ∈ pool.log, _))
  | .storage (.delete _) => inferInstanceAs (Decidable (∀ e ∈ pool.log, _))
  | .storage (.get _) | .storage (.scan _) | .storage (.scanRange _ _)
  | .storage .flush | .storage .isDurable | .now | .instant | .wal _
  | .ttl _ | .quota _ | .throttle _ | .watch _ => .isTrue trivial

/-- One put after the other. -/
def putsInTurn : NodePool :=
  Pool.play (Prim.exec .plain none)
    (List.replicate 10 0 ++ List.replicate 10 1)
    (NodePool.calls {} oneWatcher rivalPuts)

/-- Two puts of one key, one after the other. -/
theorem watchers_agree_in_turn :
    putsInTurn.result 0 = some (.done (.ok ()))
      ∧ putsInTurn.result 1 = some (.done (.ok ()))
      ∧ ∃ change, lastFor [1]
          ((putsInTurn.world.watch.tenant "a").sentSince ⟨0, 0⟩ 0)
            = some change
        ∧ change.Tells (putsInTurn.world.storage.get
          (KeyCodec.bytesOf "a" .data [1])) := by
  have h0 : putsInTurn.result 0 = some (.done (.ok ())) := by decide +kernel
  have h1 : putsInTurn.result 1 = some (.done (.ok ())) := by decide +kernel
  refine ⟨h0, h1, ?_⟩
  refine watchers_agree .plain {} oneWatcher "a" ⟨0, 0⟩ 0 rivalPuts ?_
    oneWatcher_listening (Pool.run_play _ (by decide +kernel)) ?_ _ _
    (KeyCodec.decode_bytesOf (by decide) _ _) (by decide +kernel)
  · intro op hop
    rcases List.mem_pair.mp hop with rfl | rfl
    · exact trivial
    · exact trivial
  · intro i hi
    have hi : i = 0 ∨ i = 1 := by
      have : i < 2 := hi
      omega
    rcases hi with rfl | rfl
    · exact ⟨_, h0⟩
    · exact ⟨_, h1⟩

/-- Both puts have stored their value before either tells the watchers, and
the first to store is the last to tell. -/
def staleView : NodePool :=
  Pool.play (Prim.exec .plain none)
    (List.replicate 4 0 ++ List.replicate 10 1 ++ List.replicate 6 0)
    (NodePool.calls {} oneWatcher rivalPuts)

/-- A subscriber can be left with a value the key no longer holds. -/
theorem watcher_misled :
    Pool.Run (Prim.exec .plain none) (Attends .plain) NodePool.anyStep
        (NodePool.calls {} oneWatcher rivalPuts) staleView
      ∧ staleView.result 0 = some (.done (.ok ()))
      ∧ staleView.result 1 = some (.done (.ok ()))
      ∧ lastFor [1]
          ((staleView.world.watch.tenant "a").sentSince ⟨0, 0⟩ 0)
        = some ⟨.put, [1], [5]⟩
      ∧ staleView.world.storage.get (KeyCodec.bytesOf "a" .data [1])
        = some (ValueCodec.encode [6] none) :=
  ⟨Pool.run_play _ (Pool.allowed_of_forall (fun _ _ _ => trivial) _ _),
    by decide +kernel, by decide +kernel, by decide +kernel,
    by decide +kernel⟩

end FerrisKv
