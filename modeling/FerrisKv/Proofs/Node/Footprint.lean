/-
Which atomic steps the node's functions use.

Most of what a call does is invisible to any one property of it: the
steps on the watch hub do not move the usage counters, reading a quota
does not move the log. The footprints below say so once per function;
`Prog.wp_of_uses` then carries an invariant across the whole of it.
-/
import FerrisKv.Proofs.Node.Planning
import FerrisKv.Proofs.Node.StoredBytes

namespace FerrisKv

open Prog NodeService LittleEndian

-- ============================================================== step kinds

namespace Prim

/-- A step on the watch hub. -/
def OnWatch (p : Prim) : Prop := ∃ q, p = .watch q

/-- A step on one tenant's channels. -/
def OnWatchOf (t : String) (p : Prim) : Prop := ∃ q, q.tenant = t ∧ p = .watch q

/-- A step of `TtlIndex::schedule`. -/
def Schedules (p : Prim) : Prop :=
  (∃ key exp, p = .ttl (.insert key exp)) ∨ p = .ttl .notifyOne

/-- A read of a quota or of a usage counter. -/
def ReadsQuota (p : Prim) : Prop :=
  (∃ t, p = .quota (.quota t)) ∨ ∃ t, p = .quota (.usedBytes t)

/-- A read of one tenant's. -/
def ReadsQuotaOf (t : String) (p : Prim) : Prop :=
  p = .quota (.quota t) ∨ p = .quota (.usedBytes t)

/-- A read of an entry. -/
def Looks (p : Prim) : Prop := ∃ key, p = .storage (.get key)

/-- A step that only reads, fault or no fault. -/
def Reads (p : Prim) : Prop := p = .now ∨ p.Looks ∨ p.ReadsQuota

/-- A step of rotating the log. -/
def Rotates (p : Prim) : Prop :=
  p = .storage .isDurable ∨ p = .wal .segmentBytes ∨ p = .storage .flush
    ∨ p = .wal .rotate

/-- A step of `commit_accounting`: the counter, then its record. -/
def Pays (p : Prim) : Prop :=
  (∃ t delta, p = .quota (.adjust t delta))
    ∨ ∃ t key value, KeyCodec.encode t .stats usageKey = .ok key
      ∧ p = .storage (.put key value)

/-- Such a step for one tenant. -/
def PaysFor (t : String) (p : Prim) : Prop :=
  (∃ delta, p = .quota (.adjust t delta))
    ∨ ∃ key value, KeyCodec.encode t .stats usageKey = .ok key
      ∧ p = .storage (.put key value)

/-- Such a step, with what the record holds: a count and no stamp. -/
def RecordsFor (t : String) (p : Prim) : Prop :=
  (∃ delta, p = .quota (.adjust t delta))
    ∨ ∃ key total, KeyCodec.encode t .stats usageKey = .ok key
      ∧ p = .storage (.put key (ValueCodec.encode (beBytes 8 total) none))

/-- A step of one tenant's rate limiter. -/
def LimitsFor (t : String) (p : Prim) : Prop :=
  p = .throttle (.lookup t) ∨ (∃ rate, p = .throttle (.insert t rate))
    ∨ ∃ entry cost, p = .throttle (.check t entry cost)

/-- A step of setting or clearing one tenant's quota: the record, then the
copy in memory. -/
def OverridesFor (t : String) (p : Prim) : Prop :=
  (∃ key, KeyCodec.encode t .metadata quotaKey = .ok key
      ∧ ((∃ value, p = .storage (.put key value))
        ∨ p = .storage (.delete key)))
    ∨ (∃ q, p = .quota (.insertQuota t q)) ∨ p = .quota (.removeQuota t)

/-- A step a call takes after its storage write and its scheduling. -/
def Settles (p : Prim) : Prop := p.Pays ∨ p.OnWatch ∨ p.Rotates

/-- A step that touches neither storage nor log. -/
def Quiet : Prim → Prop
  | .storage (.put _ _) => False
  | .storage (.delete _) => False
  | .storage .flush => False
  | .wal .segmentBytes => True
  | .wal _ => False
  | _ => True

/-- Log and storage are as they were. -/
theorem Quiet.exec {p : Prim} (h : p.Quiet) (ext : Externals) (w : World) :
    (p.exec ext none w).2.wal = w.wal
      ∧ (p.exec ext none w).2.storage = w.storage := by
  cases p with
  | storage q => cases q <;> first | exact ⟨rfl, rfl⟩ | exact h.elim
  | wal q => cases q <;> first | exact ⟨rfl, rfl⟩ | exact h.elim
  | _ => exact ⟨rfl, rfl⟩

theorem Schedules.quiet {p : Prim} (h : p.Schedules) : p.Quiet := by
  obtain ⟨k, e, rfl⟩ | rfl := h
  · exact trivial
  · exact trivial

theorem OnWatch.quiet {p : Prim} (h : p.OnWatch) : p.Quiet := by
  obtain ⟨q, rfl⟩ := h
  exact trivial

theorem Looks.quiet {p : Prim} (h : p.Looks) : p.Quiet := by
  obtain ⟨key, rfl⟩ := h
  exact trivial

theorem ReadsQuota.quiet {p : Prim} (h : p.ReadsQuota) : p.Quiet := by
  obtain ⟨t, rfl⟩ | ⟨t, rfl⟩ := h
  · exact trivial
  · exact trivial

theorem Reads.exec {p : Prim} (h : p.Reads) {ext : Externals} {w : World}
    (fault : Option Fault) : (p.exec ext fault w).2 = w := by
  obtain rfl | ⟨key, rfl⟩ | ⟨t, rfl⟩ | ⟨t, rfl⟩ := h
  · rfl
  · cases fault <;> rfl
  · rfl
  · rfl

-- ============================================================== inert steps

/-- A step that touches neither data nor channels. -/
def Inert : Prim → Prop
  | .storage (.put key _) => ¬ IsData key
  | .storage (.delete key) => ¬ IsData key
  | .watch _ => False
  | _ => True

/-- The data is as it was, whatever fails. -/
theorem Inert.contents {p : Prim} (h : p.Inert) (ext : Externals)
    (fault : Option Fault) (w : World) {key : Bytes} (hk : IsData key) :
    (p.exec ext fault w).2.storage.contents[key]?
      = w.storage.contents[key]? := by
  cases p with
  | storage q =>
      cases fault with
      | some f => cases q <;> rfl
      | none =>
          cases q with
          | put k v => exact getElem?_write_aside _ (.put k v) h hk
          | delete k => exact getElem?_write_aside _ (.delete k) h hk
          | flush =>
              show w.storage.flush.contents[key]? = _
              rw [StorageBackend.contents_flush]
          | _ => rfl
  | _ => rfl

theorem Looks.inert {p : Prim} (h : p.Looks) : p.Inert := by
  obtain ⟨key, rfl⟩ := h
  exact trivial

theorem ReadsQuota.inert {p : Prim} (h : p.ReadsQuota) : p.Inert := by
  obtain ⟨t, rfl⟩ | ⟨t, rfl⟩ := h <;> exact trivial

theorem Reads.inert {p : Prim} (h : p.Reads) : p.Inert := by
  obtain rfl | hp | hp := h
  · exact trivial
  · exact hp.inert
  · exact hp.inert

theorem Schedules.inert {p : Prim} (h : p.Schedules) : p.Inert := by
  obtain ⟨k, e, rfl⟩ | rfl := h <;> exact trivial

theorem Rotates.inert {p : Prim} (h : p.Rotates) : p.Inert := by
  obtain rfl | rfl | rfl | rfl := h <;> exact trivial

/-- The record of a usage counter is no data. -/
theorem Pays.inert {p : Prim} (h : p.Pays) : p.Inert := by
  obtain ⟨t, d, rfl⟩ | ⟨t, key, value, hk, rfl⟩ := h
  · exact trivial
  · exact not_isData_encode hk (by decide)

-- ========================================================= limits in force

/-- A step that leaves every limit as it is. -/
def KeepsLimits : Prim → Prop
  | .quota (.insertQuota _ _) => False
  | .quota (.removeQuota _) => False
  | .quota .clearQuotas => False
  | _ => True

/-- Whoever asks for a limit is told what they were told before. -/
theorem KeepsLimits.exec {p : Prim} (h : p.KeepsLimits) (ext : Externals)
    (w : World) : (p.exec ext none w).2.quotas.quota = w.quotas.quota := by
  cases p with
  | quota q =>
      cases q with
      | insertQuota t record => exact h.elim
      | removeQuota t => exact h.elim
      | clearQuotas => exact h.elim
      | _ => rfl
  | _ => rfl

end Prim

-- ================================================================= ttl.rs

/-- `schedule` inserts, and wakes the sweeper if it has to. -/
private theorem schedule_uses (key : Bytes) (exp : Nat) :
    (schedule key exp).Uses Prim.Schedules := by
  refine ⟨.inl ⟨key, exp, rfl⟩, fun wake => ?_⟩
  cases wake with
  | true => exact ⟨.inr rfl, fun _ => trivial⟩
  | false => exact trivial

/-- A value without an expiry schedules nothing. -/
theorem scheduleExpiry_uses (key : Bytes) (exp : Option Nat) :
    (scheduleExpiry key exp).Uses Prim.Schedules := by
  cases exp with
  | none => exact trivial
  | some e => exact schedule_uses key e

/-- So a key the sweeper puts back is scheduled or left out. -/
theorem reschedule_uses (key raw : Bytes) :
    (reschedule key raw).Uses Prim.Schedules := by
  unfold reschedule
  split
  · exact trivial
  · exact scheduleExpiry_uses key _

-- =============================================================== watch.rs

/-- `publish` stays with the tenant's channels. -/
private theorem publish_uses (tenant : String) (change : KeyChange) :
    (publish tenant change).Uses (Prim.OnWatchOf tenant) := by
  refine ⟨⟨_, rfl, rfl⟩, fun outcome => ?_⟩
  cases outcome with
  | absent => exact trivial
  | abandoned => exact ⟨⟨_, rfl, rfl⟩, fun _ => trivial⟩
  | sent => exact trivial

/-- The change is published to the subscribers of the key's tenant. -/
theorem publishChange_uses_of (key : Bytes) (kind : ChangeKind)
    (value : Bytes) : (publishChange key kind value).Uses fun p =>
      ∃ t s payload, KeyCodec.decode key = .ok (t, s, payload)
        ∧ p.OnWatchOf t := by
  unfold publishChange
  split
  · exact trivial
  · next t s payload hd =>
    split
    · exact trivial
    · refine ⟨⟨t, s, payload, hd, _, rfl, rfl⟩, fun watched => ?_⟩
      cases watched with
      | true =>
          exact (publish_uses _ _).mono fun _ hp => ⟨t, s, payload, hd, hp⟩
      | false => exact trivial

/-- Publishing touches the hub only. -/
theorem publishChange_uses (key : Bytes) (kind : ChangeKind)
    (value : Bytes) : (publishChange key kind value).Uses Prim.OnWatch :=
  (publishChange_uses_of key kind value).mono
    fun _ ⟨_, _, _, _, q, _, hp⟩ => ⟨q, hp⟩

-- =============================================================== quota.rs

/-- `check_write` reads the tenant's limit and counter. -/
private theorem checkWrite_uses (tenant : String) (delta : Int) :
    (checkWrite tenant delta).run.Uses (Prim.ReadsQuotaOf tenant) := by
  refine ⟨.inl rfl, fun quota => ?_⟩
  show Uses _ (ExceptT.run (if _ then _ else _))
  split
  · exact trivial
  · refine ⟨.inr rfl, fun used => ?_⟩
    show Uses _ (ExceptT.run (if _ then _ else _))
    split <;> exact trivial

/-- A check asks about the plan's tenant. -/
theorem checkAccounting_uses_of (plan : Option Accounting) :
    (checkAccounting plan).run.Uses fun p =>
      ∃ a ∈ plan, p.ReadsQuotaOf a.tenant := by
  cases plan with
  | none => exact trivial
  | some a => exact (checkWrite_uses _ _).mono fun _ hp => ⟨a, rfl, hp⟩

theorem checkAccounting_uses (plan : Option Accounting) :
    (checkAccounting plan).run.Uses Prim.ReadsQuota := by
  refine (checkAccounting_uses_of plan).mono ?_
  rintro p ⟨a, -, hp | hp⟩
  · exact .inl ⟨_, hp⟩
  · exact .inr ⟨_, hp⟩

/-- A program that goes on only when the quota key of `t` can be encoded. -/
theorem uses_withQuotaKey {α : Type} {S : Prim → Prop} {t : String}
    {f : Bytes → NodeM α}
    (h : ∀ key, KeyCodec.encode t .metadata quotaKey = .ok key →
      (f key).run.Uses S) :
    (ExceptT.run
      (ofResult (KeyCodec.encode t .metadata quotaKey) >>= f)).Uses S := by
  cases hk : KeyCodec.encode t .metadata quotaKey with
  | error e => exact trivial
  | ok key => exact h key hk

/-- Setting a quota writes the tenant's record and its copy. -/
theorem setQuota_uses (ext : Externals) (t : String) (q : Quota) :
    (setQuota ext t q).run.Uses (Prim.OverridesFor t) := by
  refine uses_withQuotaKey fun key hk => ?_
  refine uses_bindE ((wp_step _).mpr
    ⟨.inl ⟨key, hk, .inl ⟨_, rfl⟩⟩, fun _ => trivial⟩) fun _ => ?_
  exact uses_lift ⟨.inr (.inl ⟨q, rfl⟩), fun _ => trivial⟩

/-- Clearing it removes both. -/
theorem clearQuota_uses (t : String) :
    (clearQuota t).run.Uses (Prim.OverridesFor t) := by
  refine uses_withQuotaKey fun key hk => ?_
  refine uses_bindE ((wp_step _).mpr
    ⟨.inl ⟨key, hk, .inr rfl⟩, fun _ => trivial⟩) fun _ => ?_
  exact uses_lift ⟨.inr (.inr rfl), fun _ => trivial⟩

-- ============================================================ throttle.rs

/-- A limiter is looked up, or made. -/
theorem throttleEntry_uses (t : String) (rate : Nat) :
    (throttleEntry t rate).Uses (Prim.LimitsFor t) := by
  have hinsert : ((ThrottlePrim.insert t rate).call : NodeProg Nat).Uses
      (Prim.LimitsFor t) := ⟨.inr (.inl ⟨rate, rfl⟩), fun _ => trivial⟩
  refine ⟨.inl rfl, fun found => ?_⟩
  cases found with
  | none => exact hinsert
  | some e =>
      show Uses _ (if _ then _ else _)
      split
      · exact trivial
      · exact hinsert

theorem throttleCheck_uses (cfg : NodeConfig) (t : String) (ops cost : Nat) :
    (throttleCheck cfg t ops cost).run.Uses (Prim.LimitsFor t) := by
  unfold throttleCheck
  simp only
  generalize (if ops > 0 then ops else cfg.quota.maxOpsPerSec) = limit
  split
  · exact trivial
  · refine uses_bindE (uses_lift (throttleEntry_uses t limit)) fun entry => ?_
    refine ⟨.inr (.inr ⟨entry, cost, rfl⟩), fun verdict => ?_⟩
    cases verdict <;> exact trivial

-- ============================================================= service.rs

/-- Storage is flushed before the log is rotated. -/
private theorem flushAndRotate_uses : flushAndRotate.run.Uses Prim.Rotates := by
  refine ⟨.inr (.inr (.inl rfl)), fun r => ?_⟩
  cases r with
  | ok u => exact ⟨.inr (.inr (.inr rfl)), fun _ => trivial⟩
  | error e => exact trivial

/-- `rotate_wal_if_needed` asks for the sizes, and rotates. -/
theorem rotateWalIfNeeded_uses (cfg : NodeConfig) :
    (rotateWalIfNeeded cfg).Uses Prim.Rotates := by
  refine ⟨.inl rfl, fun durable => ?_⟩
  cases durable with
  | false => exact trivial
  | true =>
      refine ⟨.inr (.inl rfl), fun size => ?_⟩
      show Uses _ (if _ then _ else _)
      split
      · exact trivial
      · exact (wp_bind _ _ _).mpr
          (wp_mono (fun _ _ _ => trivial) flushAndRotate_uses)

/-- The segment a start has replayed is retired as a full one is. -/
theorem retireSegment_uses : retireSegment.run.Uses Prim.Rotates := by
  refine ⟨.inl rfl, fun durable => ?_⟩
  cases durable with
  | false => exact trivial
  | true => exact flushAndRotate_uses

/-- The only steps of the bootstrap scan are those of the index. -/
theorem bootstrapLoop_uses :
    ∀ (entries : List (Bytes × Bytes)) (usage : Std.ExtTreeMap String Nat),
      (bootstrapLoop entries usage).Uses Prim.Schedules
  | [], _ => trivial
  | (k, v) :: rest, usage => by
      unfold bootstrapLoop
      split
      · exact bootstrapLoop_uses rest usage
      · exact (wp_bind _ _ _).mpr (wp_mono
          (fun _ _ _ => bootstrapLoop_uses rest _) (scheduleExpiry_uses k _))

/-- A stamp fits into its field. -/
theorem expiryStamp_yields (ttlMs : Nat) :
    (expiryStamp ttlMs).Yields (· = Prim.now) fun exp =>
      ∀ e ∈ exp, e < 2 ^ 64 := by
  unfold expiryStamp
  split
  · refine ⟨rfl, fun now => ?_⟩
    rintro e ⟨⟩
    exact saturatingAdd_lt _ _
  · exact fun e he => nomatch he

/-- A stamp needs the clock. -/
theorem expiryStamp_uses (ttlMs : Nat) :
    (expiryStamp ttlMs).Uses (· = Prim.now) := (expiryStamp_yields ttlMs).uses

/-- Planning reads the key, and plans for its tenant. -/
theorem planAccounting_yields (k : Bytes) (n : Nat) :
    (planAccounting k n).run.Yields (· = .storage (.get k)) fun r =>
      ∀ a, r = .ok (some a) →
        ∃ s payload, KeyCodec.decode k = .ok (a.tenant, s, payload) := by
  refine wp_planAccounting_of (fun _ => nofun) fun t payload hd =>
    ⟨rfl, fun r a ha => ?_⟩
  cases r with
  | error e => cases ha
  | ok current => exact ⟨.data, payload, tenant_of_putPlan ha ▸ hd⟩

/-- A plan for a delete reads one entry, and is for the key's tenant. -/
theorem planDeleteAccounting_yields (k : Bytes) :
    (planDeleteAccounting k).run.Yields (· = .storage (.get k)) fun r =>
      ∀ a, r = .ok (some a) →
        ∃ s payload, KeyCodec.decode k = .ok (a.tenant, s, payload) := by
  refine wp_planDeleteAccounting_of (fun _ => nofun) fun t payload hd =>
    ⟨rfl, fun r a ha => ?_⟩
  cases r with
  | error e => cases ha
  | ok current => exact ⟨.data, payload, tenant_of_deletePlan ha ▸ hd⟩

/-- Planning a put looks at the entry. -/
theorem planAccounting_uses (k : Bytes) (n : Nat) :
    (planAccounting k n).run.Uses Prim.Looks :=
  (planAccounting_yields k n).uses.mono fun _ hp => ⟨k, hp⟩

theorem planDeleteAccounting_uses (k : Bytes) :
    (planDeleteAccounting k).run.Uses Prim.Looks :=
  (planDeleteAccounting_yields k).uses.mono fun _ hp => ⟨k, hp⟩

/-- The counter of the plan's tenant is adjusted and recorded. -/
theorem commitAccounting_records (plan : Option Accounting) :
    (commitAccounting plan).Uses fun p =>
      ∃ a ∈ plan, p.RecordsFor a.tenant :=
  wp_commitAccounting_of (fun _ => trivial) fun a ha _ =>
    ⟨⟨a, ha, .inl ⟨_, rfl⟩⟩, fun total => ⟨fun _ _ => trivial,
      fun k hk => ⟨⟨a, ha, .inr ⟨k, total, hk, rfl⟩⟩, fun _ => trivial⟩⟩⟩

/-- The same, whatever the record holds. -/
theorem commitAccounting_uses_of (plan : Option Accounting) :
    (commitAccounting plan).Uses fun p => ∃ a ∈ plan, p.PaysFor a.tenant := by
  refine (commitAccounting_records plan).mono ?_
  rintro p ⟨a, ha, ⟨d, hp⟩ | ⟨key, total, hk, hp⟩⟩
  · exact ⟨a, ha, .inl ⟨d, hp⟩⟩
  · exact ⟨a, ha, .inr ⟨key, _, hk, hp⟩⟩

/-- The same, whoever the tenant is. -/
theorem commitAccounting_uses (plan : Option Accounting) :
    (commitAccounting plan).Uses Prim.Pays := by
  refine (commitAccounting_uses_of plan).mono ?_
  rintro p ⟨a, -, ⟨d, hp⟩ | ⟨key, value, hk, hp⟩⟩
  · exact .inl ⟨_, d, hp⟩
  · exact .inr ⟨_, key, value, hk, hp⟩

/-- The end of every write. -/
theorem settle_uses_of {S : Prim → Prop} (plan : Option Accounting)
    (key value : Bytes) (kind : ChangeKind) (cfg : NodeConfig)
    (hpay : (commitAccounting plan).Uses S)
    (hwatch : ∀ p, p.OnWatch → S p) (hrotate : ∀ p, p.Rotates → S p) :
    (ExceptT.run (do
      commitAccounting plan
      publishChange key kind value
      rotateWalIfNeeded cfg : NodeM Unit)).Uses S := by
  refine uses_bindE (uses_lift hpay) fun _ => ?_
  refine uses_bindE (uses_lift ((publishChange_uses key kind value).mono
    hwatch)) fun _ => ?_
  exact uses_lift ((rotateWalIfNeeded_uses cfg).mono hrotate)

/-- The end of every write: account, publish, rotate. -/
theorem settle_uses (plan : Option Accounting) (key value : Bytes)
    (kind : ChangeKind) (cfg : NodeConfig) :
    (ExceptT.run (do
      commitAccounting plan
      publishChange key kind value
      rotateWalIfNeeded cfg : NodeM Unit)).Uses Prim.Settles :=
  settle_uses_of plan key value kind cfg
    ((commitAccounting_uses plan).mono fun _ => .inl)
    (fun _ hp => .inr (.inl hp)) fun _ hp => .inr (.inr hp)

-- =================================================================== reads

/-- A get looks at its own key. -/
theorem get_uses_of (key : Bytes) :
    (NodeService.get key).run.Uses fun p =>
      p = .now ∨ p = .storage (.get key) := by
  refine uses_bindE ((wp_step _).mpr ⟨.inr rfl, fun _ => trivial⟩) fun o => ?_
  cases o with
  | none => exact trivial
  | some raw =>
      refine uses_bindE (uses_lift ⟨.inl rfl, fun _ => trivial⟩) fun now => ?_
      refine uses_bindE trivial fun expired => ?_
      cases expired with
      | true => exact trivial
      | false => exact uses_bindE trivial fun _ => trivial

/-- A scan is one storage call and a reading of the clock. -/
theorem scan_uses_of (pre : Bytes) :
    (NodeService.scan pre).run.Uses fun p =>
      p = .now ∨ p = .storage (.scan pre) := by
  refine uses_bindE ((wp_step _).mpr ⟨.inr rfl, fun _ => trivial⟩) fun raw => ?_
  exact uses_lift ⟨.inl rfl, fun _ => trivial⟩

theorem scanRange_uses_of (start stop : Bytes) :
    (NodeService.scanRange start stop).run.Uses fun p =>
      p = .now ∨ p = .storage (.scanRange start stop) := by
  refine uses_bindE ((wp_step _).mpr ⟨.inr rfl, fun _ => trivial⟩) fun raw => ?_
  exact uses_lift ⟨.inl rfl, fun _ => trivial⟩

/-- `get` only reads. -/
theorem get_uses (key : Bytes) :
    (NodeService.get key).run.Uses Prim.Reads := by
  refine (get_uses_of key).mono ?_
  rintro p (rfl | rfl)
  · exact .inl rfl
  · exact .inr (.inl ⟨key, rfl⟩)

-- =================================================================== sweep

/-- A step of the sweep itself, beside deletions and rescheduling. -/
def Prim.Sweeps (p : Prim) : Prop :=
  p = .now ∨ (∃ now, p = .ttl (.drainDue now)) ∨ p.Looks

section Sweep

variable {G : Type} {L : Rules G Prim Prim.Resp} {I : G → Prop}
  {cfg : NodeConfig}

/-- What every key preserves, the loop preserves. -/
private theorem sweepLoop_preserves
    (hkey : ∀ now key, (sweepKey cfg now key).Preserves L I) (now : Nat) :
    ∀ (keys : List Bytes) (removed : Nat),
      (sweepLoop cfg now keys removed).Preserves L I := by
  intro keys
  induction keys with
  | nil => exact fun removed => preserves_ret _
  | cons key rest ih =>
      exact fun removed => preserves_bind (hkey now key) fun n => ih _

variable (hstep : ∀ g p, I g → p.Sweeps → L.post g p fun _ g' => I g')
include hstep

/-- What dealing with one key keeps, a sweep keeps. -/
theorem sweepOnce_preserves_of_key
    (hkey : ∀ now key, (sweepKey cfg now key).Preserves L I) :
    (sweepOnce cfg).Preserves L I := by
  have hnow : nowMs.Uses Prim.Sweeps := ⟨.inl rfl, fun _ => trivial⟩
  refine preserves_bind (hnow.preserves hstep) fun now => ?_
  have hdrain : (drainDue now).Uses Prim.Sweeps :=
    ⟨.inr (.inl ⟨now, rfl⟩), fun _ => trivial⟩
  exact preserves_bind (hdrain.preserves hstep) fun keys =>
    sweepLoop_preserves hkey now keys 0

variable (hback : ∀ key raw, (reschedule key raw).Preserves L I)
  (hdelete : ∀ key, (NodeService.delete cfg key).run.Preserves L I)
include hback hdelete

/-- A key of a sweep is read, and put back or deleted. -/
private theorem sweepKey_preserves (now : Nat) (key : Bytes) :
    (sweepKey cfg now key).Preserves L I := by
  have hget : (storageGet key).run.Uses Prim.Sweeps :=
    ⟨.inr (.inr ⟨key, rfl⟩), fun _ => trivial⟩
  refine preserves_bind (hget.preserves hstep) ?_
  rintro (e | (_ | raw))
  · exact preserves_ret _
  · exact preserves_ret _
  show (sweepFound cfg now key raw).Preserves L I
  unfold sweepFound
  split
  · refine preserves_bind (hdelete key) ?_
    rintro (e | u) <;> exact preserves_ret _
  · exact preserves_bind (hback key raw) fun _ => preserves_ret _
  · exact preserves_ret _

/-- What deletions and rescheduling keep, a sweep keeps. -/
theorem sweepOnce_preserves : (sweepOnce cfg).Preserves L I :=
  sweepOnce_preserves_of_key hstep (sweepKey_preserves hstep hback hdelete)

end Sweep

-- ================================================================= startup

/-- A step of `load_quotas`. -/
def Prim.Loads (p : Prim) : Prop :=
  p = .quota .clearQuotas ∨ (∃ pre, p = .storage (.scan pre))
    ∨ ∃ t q, p = .quota (.insertQuota t q)

theorem Prim.Loads.quiet {p : Prim} (h : p.Loads) : p.Quiet := by
  obtain rfl | ⟨pre, rfl⟩ | ⟨t, q, rfl⟩ := h <;> exact trivial

/-- Of each record it makes at most one override. -/
private theorem loadQuotasLoop_uses (ext : Externals)
    (entries : List (Bytes × Bytes)) (n : Nat) :
    (loadQuotasLoop ext entries n).run.Uses Prim.Loads := by
  induction entries generalizing n with
  | nil => exact trivial
  | cons e rest ih =>
      obtain ⟨key, raw⟩ := e
      unfold loadQuotasLoop
      split
      · exact ih n
      · split
        · exact ih n
        · next tenant subspace payload hd _ =>
          show Uses _ (ExceptT.run (ofResult _ >>= _))
          cases ValueCodec.decode raw with
          | error e => exact trivial
          | ok stored =>
              simp only [ofResult, Uses, wp_bindE, wp_mkE, pure_def, wp_ret,
                onResult_ok]
              cases ext.quotaFromSlice stored.value with
              | none => exact ih n
              | some quota =>
                  exact ⟨.inr (.inr ⟨tenant, quota, rfl⟩), fun _ => ih (n + 1)⟩

/-- `load_quotas` clears the overrides, scans, and loads. -/
theorem loadQuotas_uses (ext : Externals) :
    (loadQuotas ext).run.Uses Prim.Loads := by
  refine ⟨.inl rfl, fun _ => ⟨.inr (.inl ⟨[], rfl⟩), fun r => ?_⟩⟩
  cases r with
  | error e => exact trivial
  | ok entries => exact loadQuotasLoop_uses ext entries 0

/-- `bootstrap_from_storage` writes neither storage nor log. -/
theorem bootstrapFromStorage_uses :
    bootstrapFromStorage.run.Uses Prim.Quiet := by
  refine uses_bindE ((wp_step _).mpr ⟨trivial, fun _ => trivial⟩)
    fun entries => ?_
  refine uses_bindE (uses_lift ((bootstrapLoop_uses entries ∅).mono
    fun _ hp => hp.quiet)) fun usage => ?_
  exact uses_lift ⟨trivial, fun _ => trivial⟩

-- ================================================================== faults

/-- A step of the node, with some fault or none. -/
def Prim.May (ext : Externals) (w : World) (p : Prim) (r : p.Resp)
    (w' : World) : Prop :=
  ∃ fault, p.exec ext fault w = (r, w')

/-- The rules of a node whose I/O may fail. -/
abbrev faulty (ext : Externals) : Rules World Prim Prim.Resp :=
  .steps (fun _ _ => True) (Prim.May ext)

/-- What holds for every fault holds for a step that may fail. -/
theorem faulty_post {ext : Externals} {w : World} {p : Prim}
    {K : p.Resp → World → Prop}
    (h : ∀ fault, K (p.exec ext fault w).1 (p.exec ext fault w).2) :
    (faulty ext).post w p K := by
  refine ⟨trivial, fun r w' hp => ?_⟩
  obtain ⟨fault, hf⟩ := hp
  have hk := h fault
  rw [hf] at hk
  exact hk

/-- A handler that fails the steps `hit` selects. -/
def Prim.strike (ext : Externals) (hit : Prim → Bool) (p : Prim)
    (w : World) : p.Resp × World :=
  p.exec ext (if hit p then some ⟨0, "disk full"⟩ else none) w

/-- Storage writes fail. -/
def writesFail : Prim → Bool
  | .storage (.put _ _) => true
  | _ => false

/-- Reads fail. -/
def readsFail : Prim → Bool
  | .storage (.get _) => true
  | _ => false

end FerrisKv
