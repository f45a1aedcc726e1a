/-
What a node reads out of its storage when it starts, whatever is there.

`load_quotas` and `bootstrap_from_storage` each scan all of storage, and
each meets keys and values nobody can read. The second passes over all of
them: the counters are the sums of the entries that decode, and the
expiration index is their stamps (`wp_bootstrap_reads`). The first passes
over a key it cannot read, a key of another subspace and a quota it cannot
parse; but a quota record whose value does not decode ends it with an
error, and the node does not start (`boot_refused`).

`boot_reads_storage` says that nothing else ends it: the node comes up in
the state storage describes when, and only when, the value of every quota
record decodes.
-/
import FerrisKv.Node.Config
import FerrisKv.Proofs.Node.Coverage
import FerrisKv.Proofs.Node.Overrides
import FerrisKv.Proofs.Node.Usage

namespace FerrisKv

open Std Prog NodeService

-- ============================================================== the reading

/-- The part of `open_with_clock` that reads storage. -/
def readStorage (ext : Externals) : NodeM Unit := do
  let _ ← loadQuotas ext
  bootstrapFromStorage

example (ext : Externals) :
    NodeService.open ext = (do
      let recovery ← walOpen
      let _ ← replay recovery.records
      retireSegment
      readStorage ext) := rfl

/-- The node with the index and the quota store `open_with_clock` makes. -/
def World.starting (w : World) (cfg : NodeConfig) : World :=
  { w with ttl := .new, quotas := .new cfg.quota }

/-- The node is in the state the table describes. -/
structure Describes (ext : Externals) (cfg : NodeConfig) (s : Table)
    (w : World) : Prop where
  overrides : ∀ t q, w.quotas.quotas[t]? = some q ↔ QuotaIn ext s t q
  others : ∀ t, (∀ q, ¬ QuotaIn ext s t q) → w.quotas.quota t = cfg.quota
  usage : ∀ t, w.quotas.usedBytes t = storedBytes t s
  index : ∀ k e, w.ttl.Scheduled k e ↔ ∃ raw sv, s[k]? = some raw
    ∧ ValueCodec.decode raw = .ok sv ∧ sv.expiresAtMs = some e

section Reading

variable {ext : Externals}

/-- The index schedules what `w`'s did, and the stamps of the entries. -/
def Stamped (entries : List (Bytes × Bytes)) (w w' : World) : Prop :=
  ∀ k e, w'.ttl.Scheduled k e
    ↔ w.ttl.Scheduled k e ∨ ∃ raw, (k, raw) ∈ entries ∧ stampOf raw = some e

/-- Nothing but the index has changed. -/
def IndexOnly (w w' : World) : Prop :=
  w'.storage = w.storage ∧ w'.quotas = w.quotas

/-- An entry puts its stamp into the index, and nothing else anywhere. -/
private theorem wp_scheduleExpiry_stamped (ext : Externals) (key raw : Bytes)
    (w : World) : wp (.handler (Prim.exec ext none))
      (fun w' _ => IndexOnly w w' ∧ Stamped [(key, raw)] w w')
      (scheduleExpiry key (stampOf raw)) w := by
  have hone : ∀ {k e}, (∃ raw', (k, raw') ∈ [(key, raw)]
      ∧ stampOf raw' = some e) ↔ key = k ∧ stampOf raw = some e := by
    intro k e
    simp only [List.mem_singleton, Prod.mk.injEq]
    constructor
    · rintro ⟨_, ⟨rfl, rfl⟩, he⟩
      exact ⟨rfl, he⟩
    · rintro ⟨rfl, he⟩
      exact ⟨raw, ⟨rfl, rfl⟩, he⟩
  cases hstamp : stampOf raw with
  | none =>
      refine ⟨⟨rfl, rfl⟩, fun k e => ?_⟩
      rw [hone, hstamp]
      simp
  | some exp =>
      have hins : Stamped [(key, raw)] w
          { w with ttl := (w.ttl.insert key exp).2 } := by
        intro k e
        rw [hone, hstamp, Option.some.injEq]
        exact TtlIndex.scheduled_insert.trans Or.comm
      refine (wp_bind _ _ _).mpr ?_
      show wp _ _ (if (w.ttl.insert key exp).1 = true then _ else _) _
      split
      · exact ⟨⟨rfl, rfl⟩, hins⟩
      · exact ⟨⟨rfl, rfl⟩, hins⟩

/-- An entry and the entries after it. -/
theorem Stamped.cons {e : Bytes × Bytes} {rest : List (Bytes × Bytes)}
    {w w₁ w' : World} (h₁ : Stamped [e] w w₁) (h : Stamped rest w₁ w') :
    Stamped (e :: rest) w w' := by
  intro k exp
  rw [h k exp, h₁ k exp, or_assoc]
  refine or_congr_right ?_
  simp only [List.mem_cons, List.not_mem_nil, or_false, or_and_right,
    exists_or]

/-- All entries put their stamps there. -/
private theorem wp_bootstrapLoop_stamped :
    ∀ (entries : List (Bytes × Bytes)) (usage : ExtTreeMap String Nat)
      (w : World),
      wp (.handler (Prim.exec ext none))
        (fun w' _ => IndexOnly w w' ∧ Stamped entries w w')
        (bootstrapLoop entries usage) w
  | [], usage, w => ⟨⟨rfl, rfl⟩, fun k e => by simp⟩
  | (k, v) :: rest, usage, w => by
      have hrest : ∀ usage w₁, IndexOnly w w₁ → Stamped [(k, v)] w w₁ →
          wp (.handler (Prim.exec ext none))
            (fun w' _ => IndexOnly w w' ∧ Stamped ((k, v) :: rest) w w')
            (bootstrapLoop rest usage) w₁ := by
        intro usage w₁ hs₁ h₁
        refine wp_mono ?_ (wp_bootstrapLoop_stamped rest usage w₁)
        rintro w' _ ⟨hs, h⟩
        exact ⟨⟨hs.1.trans hs₁.1, hs.2.trans hs₁.2⟩, h₁.cons h⟩
      unfold bootstrapLoop
      split
      · next err hv =>
          refine hrest usage w ⟨rfl, rfl⟩ fun k' e => ?_
          simp [stampOf_of_error hv]
      · next sv hv =>
          have hwp := wp_scheduleExpiry_stamped ext k v w
          rw [stampOf_of_decode hv] at hwp
          refine (wp_bind _ _ _).mpr (wp_mono ?_ hwp)
          exact fun w₁ _ h => hrest _ w₁ h.1 h.2

/-- `bootstrap_from_storage` on a node whose calls all succeed: it answers
`Ok`, and only the index and the counters are new. -/
theorem wp_bootstrap_stamped (ext : Externals) (w : World) :
    wp (.handler (Prim.exec ext none))
      (fun w' r => r = .ok () ∧ w'.storage = w.storage
        ∧ w'.quotas.quotas = w.quotas.quotas
        ∧ w'.quotas.defaultQuota = w.quotas.defaultQuota
        ∧ Stamped (w.storage.scan []) w w')
      bootstrapFromStorage.run w := by
  refine (wp_bindE _ _ _).mpr ((wp_bindE _ _ _).mpr ((wp_lift _ _).mpr
    (wp_mono ?_ (wp_bootstrapLoop_stamped _ ∅ w))))
  rintro w₁ usage ⟨⟨hs, hq⟩, h⟩
  have hover : w₁.quotas.quotas = w.quotas.quotas := by rw [hq]
  have hdef : w₁.quotas.defaultQuota = w.quotas.defaultQuota := by rw [hq]
  exact ⟨rfl, hs, hover, hdef, h⟩

/-- Whatever it started from, a scan that went through has counted every
entry. -/
theorem bootstrap_exact (w : World)
    (hok : (bootstrapFromStorage.run.run (Prim.exec ext none) w).1 = .ok ()) :
    Exact (bootstrapFromStorage.run.run (Prim.exec ext none) w).2 := by
  have hexact : wp (usageRules ext) (fun w' r => r = .ok () → Exact w')
      bootstrapFromStorage.run w := wp_bootstrapFromStorage w
  exact (ends_run (fun w _ => ⟨w.now, w.instant, none, rfl⟩) _ w).post
    (wp_of_steps (fun _ _ _ _ h => h) hexact) hok

end Reading

/-- The stamp is that of the decoded value. -/
private theorem stampOf_eq_some {raw : Bytes} {e : Nat} : stampOf raw = some e
    ↔ ∃ sv, ValueCodec.decode raw = .ok sv ∧ sv.expiresAtMs = some e := by
  cases hv : ValueCodec.decode raw with
  | error err => simp [stampOf_of_error hv]
  | ok sv => simp [stampOf_of_decode hv]

/-- The records of the scan are those stored. -/
private theorem recordsDecode_scan {w : World} :
    RecordsDecode (w.storage.scan []) ↔ ∀ k raw, IsQuotaRecord k →
      w.storage.contents[k]? = some raw →
      ∃ sv, ValueCodec.decode raw = .ok sv :=
  ⟨fun h k raw hk hraw => h (k, raw) (mem_scan_all.mpr hraw) hk,
    fun h e he hk => h e.1 e.2 hk (mem_scan_all.mp he)⟩

/-- After `load_quotas` the counters and the index are still to be read, and
nothing stops `bootstrap_from_storage`. -/
theorem bootstrap_describes (ext : Externals) (cfg : NodeConfig) (w : World)
    {after : ExtTreeMap String Quota}
    (hall : ∀ t q, after[t]? = some q ↔ QuotaIn ext w.storage.contents t q) :
    let w₁ := { w.starting cfg with
      quotas := { (w.starting cfg).quotas with quotas := after } }
    (bootstrapFromStorage.run.run (Prim.exec ext none) w₁).1 = .ok ()
      ∧ Describes ext cfg w.storage.contents
        (bootstrapFromStorage.run.run (Prim.exec ext none) w₁).2 := by
  intro w₁
  obtain ⟨hr, hs, hq, hdef, hindex⟩ :=
    run_post (wp_bootstrap_stamped ext w₁)
  have hexact := bootstrap_exact w₁ hr
  generalize hw' : (bootstrapFromStorage.run.run (Prim.exec ext none) w₁).2
    = w' at *
  have hover : ∀ t q, w'.quotas.quotas[t]? = some q
      ↔ QuotaIn ext w.storage.contents t q := by
    intro t q
    rw [hq]
    exact hall t q
  refine ⟨hr, hover, fun t hno => ?_, fun t => ?_, fun k e => ?_⟩
  · have hnone : w'.quotas.quotas[t]? = none :=
      Option.eq_none_iff_forall_ne_some.mpr fun q hq' =>
        hno q ((hover t q).mp hq')
    rw [QuotaStore.quota, hnone, hdef]
    rfl
  · rw [hexact t, hs]
    rfl
  · -- the index was new
    have hnew : ¬ w₁.ttl.Scheduled k e := by
      rw [TtlIndex.scheduled_iff]
      exact List.not_mem_nil
    rw [hindex k e, or_iff_right hnew]
    refine exists_congr fun raw => ?_
    rw [mem_scan_all, stampOf_eq_some, ← exists_and_left]
    rfl

-- =================================================================== results

/-- Reading storage succeeds and leaves the node in the state storage
describes exactly when the value of every quota record decodes. -/
theorem boot_reads_storage (ext : Externals) (cfg : NodeConfig) (w : World) :
    (∃ w', (readStorage ext).run.run (Prim.exec ext none) (w.starting cfg)
        = (.ok (), w') ∧ Describes ext cfg w.storage.contents w')
      ↔ ∀ k raw, IsQuotaRecord k → w.storage.contents[k]? = some raw →
        ∃ sv, ValueCodec.decode raw = .ok sv := by
  have hload := run_post (wp_loadQuotas_reads ext (w.starting cfg))
  unfold readStorage
  rw [run_bindE]
  generalize (loadQuotas ext).run.run (Prim.exec ext none) (w.starting cfg)
    = out at hload ⊢
  obtain ⟨r, w₁⟩ := out
  cases r with
  | error e =>
      refine ⟨?_, fun h => absurd (recordsDecode_scan.mpr h) hload⟩
      rintro ⟨w', hw', -⟩
      cases hw'
  | ok n =>
      obtain ⟨hread, after, rfl, hall⟩ := hload
      refine ⟨fun _ => recordsDecode_scan.mp hread, fun _ => ?_⟩
      obtain ⟨hr, hdesc⟩ := bootstrap_describes ext cfg w hall
      exact ⟨_, Prod.ext hr rfl, hdesc⟩

/-- A directory with one entry, an empty value under the tenant's quota
key. -/
def emptyQuotaRecord : World :=
  .boot {} 0 0 (.memory ⟨(∅ : Table).insert (quotaRecord "a") []⟩) []

/-- One empty quota record and the node does not start. -/
theorem boot_refused :
    ((readStorage .plain).run.run (Prim.exec .plain none)
      (emptyQuotaRecord.starting {})).1 = .error (.corrupt "empty value") := by
  decide +kernel

end FerrisKv
