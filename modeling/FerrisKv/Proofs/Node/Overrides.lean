/-
Which quota overrides a restart brings back.

An override lives in the cached map and in a record in the tenant's
metadata subspace. The two agree at every moment (`Recorded`), and a
restart loads the records it finds. But `set_quota` and `clear_quota`
write the record to storage only: they take no log record and ask for no
flush. On the memory backend every override is therefore lost, and on
fjall those whose record a crash loses (`override_lost`).

`overrides_survive` says that these are the only ones: a restart keeps
every tenant's quota when the crash loses no write of a quota record.
-/
import FerrisKv.Node.Concurrent
import FerrisKv.Node.QuotaText
import FerrisKv.Proofs.Node.Durable
import FerrisKv.Proofs.Node.Footprint

namespace FerrisKv

open Std Prog NodeService WriteLog

-- ============================================================== the records

/-- The key of a tenant's quota record. -/
def quotaRecord (t : String) : Bytes := KeyCodec.bytesOf t .metadata quotaKey

/-- The key of some tenant's quota record. -/
def IsQuotaRecord (k : Bytes) : Prop :=
  ∃ t, KeyCodec.decode k = .ok (t, .metadata, quotaKey)

/-- The stored form of a quota. -/
def storedQuota (ext : Externals) (q : Quota) : Bytes :=
  ValueCodec.encode (ext.quotaToVec q) none

/-- The cached overrides are the stored ones. -/
structure Recorded (ext : Externals) (w : World) : Prop where
  valid : ∀ t q, w.quotas.quotas[t]? = some q → KeyCodec.ValidTenant t
  stored : ∀ t, KeyCodec.ValidTenant t →
    w.storage.contents[quotaRecord t]?
      = w.quotas.quotas[t]?.map (storedQuota ext)

/-- Every quota record a restart could find is one `set_quota` wrote. -/
structure Readable (ext : Externals) (s : StorageBackend) : Prop where
  persisted : ∀ k raw, IsQuotaRecord k → s.persisted[k]? = some raw →
    ∃ q, raw = storedQuota ext q
  unflushed : ∀ wr ∈ s.unflushed, IsQuotaRecord wr.key →
    ∀ raw, wr.value = some raw → ∃ q, raw = storedQuota ext q

/-- The log holds data only. -/
def DataLog (wal : Wal) : Prop :=
  ∃ records, wal.Holds records ∧ ∀ r ∈ records, IsData r.key

/-- A node whose overrides are in order. -/
structure QuotaSound (ext : Externals) (cfg : NodeConfig) (w : World) :
    Prop where
  log : DataLog w.wal
  recorded : Recorded ext w
  readable : Readable ext w.storage
  default : w.quotas.defaultQuota = cfg.quota

/-- The keys of quota records are those of valid tenants. -/
theorem isQuotaRecord_iff {k : Bytes} :
    IsQuotaRecord k ↔ ∃ t, KeyCodec.ValidTenant t ∧ k = quotaRecord t := by
  constructor
  · rintro ⟨t, hd⟩
    obtain ⟨ht, hk⟩ := KeyCodec.encode_eq_ok.mp (KeyCodec.encode_decode hd)
    exact ⟨t, ht, hk⟩
  · rintro ⟨t, ht, rfl⟩
    exact ⟨t, KeyCodec.decode_bytesOf ht _ _⟩

/-- A key of data is none of them. -/
theorem not_isQuotaRecord_of_isData {k : Bytes} (h : IsData k) :
    ¬ IsQuotaRecord k := by
  rintro ⟨t, hq⟩
  obtain ⟨t', payload, hd⟩ := h
  rw [hd] at hq
  cases hq

private theorem not_isQuotaRecord_stats {k payload : Bytes} {t : String}
    (h : KeyCodec.encode t .stats payload = .ok k) : ¬ IsQuotaRecord k := by
  rintro ⟨t', hq⟩
  rw [KeyCodec.decode_encode h] at hq
  cases hq

-- ================================================================ the steps

/-- A step that leaves quota records, overrides and the log's good order
alone. -/
def Prim.SparesQuotas : Prim → Prop
  | .storage (.put key _) => ¬ IsQuotaRecord key
  | .storage (.delete key) => ¬ IsQuotaRecord key
  | .wal (.append _ key value) =>
      IsData key ∧ key.length < 2 ^ 32 ∧ value.length < 2 ^ 32
  | .wal .open => False
  | .quota (.insertQuota _ _) => False
  | .quota (.removeQuota _) => False
  | .quota .clearQuotas => False
  | _ => True

section Steps

variable {ext : Externals} {cfg : NodeConfig} {w : World}

/-- A store stays readable if only readable quotas are written. -/
theorem Readable.write {s : StorageBackend} (h : Readable ext s)
    {wr : Write Bytes Bytes}
    (hwr : IsQuotaRecord wr.key →
      ∀ raw, wr.value = some raw → ∃ q, raw = storedQuota ext q) :
    Readable ext (s.write wr) := by
  refine ⟨?_, ?_⟩
  · rw [persisted_write]
    exact h.persisted
  · intro wr' hmem hk raw hraw
    rcases mem_unflushed_write hmem with hold | rfl
    · exact h.unflushed wr' hold hk raw hraw
    · exact hwr hk raw hraw

/-- What a crash leaves is readable, whatever it keeps. -/
theorem Readable.contents_survive {s : StorageBackend} (h : Readable ext s)
    {kept : List (Write Bytes Bytes)} (hk : s.MayKeep kept) {k raw : Bytes}
    (hq : IsQuotaRecord k) (hraw : (s.survive kept).contents[k]? = some raw) :
    ∃ q, raw = storedQuota ext q := by
  cases s with
  | memory m =>
      have hnone : (∅ : Table)[k]? = some raw := hraw
      rw [ExtTreeMap.getElem?_empty] at hnone
      cases hnone
  | fjall f =>
      have hraw : (applyAll kept f.durable)[k]? = some raw := hraw
      rw [getElem?_applyAll] at hraw
      cases hlast : lastWrite kept k with
      | none =>
          rw [hlast] at hraw
          exact h.persisted k raw hq hraw
      | some v =>
          rw [hlast] at hraw
          obtain ⟨wr, hfind, hv⟩ := Option.map_eq_some_iff.mp hlast
          have hwk : wr.key = k := by simpa using List.find?_some hfind
          have hmem : wr ∈ kept :=
            List.mem_reverse.mp (List.mem_of_find?_eq_some hfind)
          subst hwk
          exact h.unflushed wr (hk.subset hmem) hq raw (hv.trans hraw)

/-- A flush moves what is readable. -/
theorem Readable.flush {s : StorageBackend} (h : Readable ext s) :
    Readable ext s.flush := by
  cases s with
  | memory m => exact h
  | fjall f =>
      refine ⟨fun k raw hq hraw => ?_, fun wr hmem => by cases hmem⟩
      have hall : (StorageBackend.fjall f).MayKeep f.since :=
        List.Sublist.refl _
      refine h.contents_survive hall hq ?_
      show (applyAll f.since f.durable)[k]? = some raw
      rw [← f.consistent]
      exact hraw

/-- What such steps leave as it was. -/
structure Spared (ext : Externals) (w w' : World) : Prop where
  records : ∀ k, IsQuotaRecord k →
    w'.storage.contents[k]? = w.storage.contents[k]?
  overrides : w'.quotas.quotas = w.quotas.quotas
  default : w'.quotas.defaultQuota = w.quotas.defaultQuota
  log : DataLog w.wal → DataLog w'.wal
  readable : Readable ext w.storage → Readable ext w'.storage

theorem Spared.refl (w : World) : Spared ext w w :=
  ⟨fun _ _ => rfl, rfl, rfl, id, id⟩

theorem Spared.trans {w₁ w₂ w₃ : World} (h : Spared ext w₁ w₂)
    (h' : Spared ext w₂ w₃) : Spared ext w₁ w₃ :=
  ⟨fun k hk => (h'.records k hk).trans (h.records k hk),
    h'.overrides.trans h.overrides, h'.default.trans h.default,
    fun hl => h'.log (h.log hl), fun hr => h'.readable (h.readable hr)⟩

/-- A write under another key spares every record. -/
theorem spared_write (wr : Write Bytes Bytes) (hwr : ¬ IsQuotaRecord wr.key) :
    Spared ext w { w with storage := w.storage.write wr } := by
  refine ⟨fun k hk => ?_, rfl, rfl, id,
    fun hr => hr.write fun hk => absurd hk hwr⟩
  refine w.storage.getElem?_write_of_ne wr ?_
  rintro rfl
  exact hwr hk

/-- Such a step spares the quotas. -/
theorem Prim.SparesQuotas.exec {p : Prim} (hp : p.SparesQuotas) :
    Spared ext w (p.exec ext none w).2 := by
  cases p with
  | storage q =>
      cases q with
      | put key value => exact spared_write (.put key value) hp
      | delete key => exact spared_write (.delete key) hp
      | flush =>
          refine ⟨fun k _ => ?_, rfl, rfl, id, Readable.flush⟩
          show w.storage.flush.contents[k]? = _
          rw [StorageBackend.contents_flush]
      | _ => exact .refl w
  | wal q =>
      cases q with
      | append op key value =>
          obtain ⟨hk, hkl, hvl⟩ := hp
          refine ⟨fun _ _ => rfl, rfl, rfl, ?_, id⟩
          rintro ⟨records, hholds, hdata⟩
          refine ⟨_, (hholds.append op hkl hvl).2, fun r hr => ?_⟩
          rcases List.mem_append.mp hr with hr | hr
          · exact hdata r hr
          · rw [List.mem_singleton.mp hr]
            exact hk
      | rotate =>
          refine ⟨fun _ _ => rfl, rfl, rfl, ?_, id⟩
          rintro ⟨records, hholds, -⟩
          exact ⟨[], hholds.rotate.2, fun r hr => by cases hr⟩
      | segmentBytes => exact .refl w
      | «open» => exact hp.elim
  | quota q =>
      cases q with
      | insertQuota t record => exact hp.elim
      | removeQuota t => exact hp.elim
      | clearQuotas => exact hp.elim
      | _ => exact ⟨fun _ _ => rfl, rfl, rfl, id, id⟩
  | _ => exact ⟨fun _ _ => rfl, rfl, rfl, id, id⟩

theorem wp_spared {α : Type} {x : NodeProg α}
    (hx : x.Uses Prim.SparesQuotas) :
    wp (.handler (Prim.exec ext none)) (fun w' _ => Spared ext w w') x w := by
  refine wp_of_uses (I := Spared ext w) ?_ (fun _ _ hI => hI) hx (.refl w)
  intro g p hI hp
  exact hI.trans hp.exec

theorem QuotaSound.spared {w' : World} (h : QuotaSound ext cfg w)
    (hs : Spared ext w w') : QuotaSound ext cfg w' := by
  refine ⟨hs.log h.log, ⟨fun t q hq => ?_, fun t ht => ?_⟩,
    hs.readable h.readable, hs.default.trans h.default⟩
  · rw [hs.overrides] at hq
    exact h.recorded.valid t q hq
  · rw [hs.records _ (isQuotaRecord_iff.mpr ⟨t, ht, rfl⟩), hs.overrides]
    exact h.recorded.stored t ht

end Steps

-- ========================================================== the data writes

/-- A put or delete of data, of a size the log's length fields can hold. -/
def Op.WritesData : Op → Prop
  | .put key value _ =>
      IsData key ∧ key.length < 2 ^ 32 ∧ value.length + 9 < 2 ^ 32
  | .delete key => IsData key ∧ key.length < 2 ^ 32
  | _ => False

section Writes

variable {ext : Externals} {cfg : NodeConfig} {w : World}

theorem Prim.Looks.sparesQuotas {p : Prim} (h : p.Looks) :
    p.SparesQuotas := by
  obtain ⟨key, rfl⟩ := h
  exact trivial

theorem Prim.ReadsQuota.sparesQuotas {p : Prim} (h : p.ReadsQuota) :
    p.SparesQuotas := by
  obtain ⟨t, rfl⟩ | ⟨t, rfl⟩ := h
  · exact trivial
  · exact trivial

theorem Prim.Schedules.sparesQuotas {p : Prim} (h : p.Schedules) :
    p.SparesQuotas := by
  obtain ⟨k, e, rfl⟩ | rfl := h
  · exact trivial
  · exact trivial

theorem Prim.Settles.sparesQuotas {p : Prim} (h : p.Settles) :
    p.SparesQuotas := by
  obtain (⟨t, d, rfl⟩ | ⟨t, k, v, hk, rfl⟩) | ⟨q, rfl⟩
    | (rfl | rfl | rfl | rfl) := h
  · exact trivial
  · exact not_isQuotaRecord_stats hk
  all_goals exact trivial

/-- A put of data takes such steps only. -/
private theorem put_sparesQuotas (cfg : NodeConfig) {k v : Bytes} (ttlMs : Nat)
    (hk : IsData k) (hkl : k.length < 2 ^ 32)
    (hvl : v.length + 9 < 2 ^ 32) :
    ((Op.put k v ttlMs).prog cfg).Uses Prim.SparesQuotas := by
  refine (wp_map _ _ _).mpr ?_
  unfold putWithTtl
  rw [wp_bindE, wp_lift]
  refine wp_mono ?_ ((expiryStamp_uses ttlMs).mono ?_)
  swap
  · rintro _ rfl
    exact trivial
  intro _ exp _
  rw [onResult_ok, wp_bindE]
  refine wp_mono ?_ ((planAccounting_uses k v.length).mono
    fun _ hp => hp.sparesQuotas)
  rintro _ (e | plan) _
  · exact trivial
  rw [onResult_ok, wp_bindE]
  refine wp_mono ?_ ((checkAccounting_uses plan).mono
    fun _ hp => hp.sparesQuotas)
  rintro _ (e | u) _
  · exact trivial
  rw [onResult_ok, wp_bindE]
  refine ⟨⟨hk, hkl, ValueCodec.encode_length_lt hvl exp⟩, fun a => ?_⟩
  cases a with
  | error e => exact trivial
  | ok seq =>
      show wp _ _ (ExceptT.run (storagePut k _ >>= _)) _
      refine ⟨not_isQuotaRecord_of_isData hk, fun a => ?_⟩
      cases a with
      | error e => exact trivial
      | ok u =>
          refine (wp_bindE _ _ _).mpr ((wp_lift _ _).mpr ?_)
          refine wp_mono ?_ ((scheduleExpiry_uses k exp).mono
            fun _ hp => hp.sparesQuotas)
          intro _ _ _
          exact (settle_uses plan k v .put cfg).mono
            fun _ hp => hp.sparesQuotas

/-- So does a delete of data. -/
private theorem delete_sparesQuotas (cfg : NodeConfig) {k : Bytes}
    (hk : IsData k) (hkl : k.length < 2 ^ 32) :
    ((Op.delete k).prog cfg).Uses Prim.SparesQuotas := by
  refine (wp_map _ _ _).mpr ?_
  unfold delete
  rw [wp_bindE]
  refine wp_mono ?_ ((planDeleteAccounting_uses k).mono
    fun _ hp => hp.sparesQuotas)
  rintro _ (e | plan) _
  · exact trivial
  rw [onResult_ok, wp_bindE]
  refine ⟨⟨hk, hkl, by decide⟩, fun a => ?_⟩
  cases a with
  | error e => exact trivial
  | ok seq =>
      show wp _ _ (ExceptT.run (storageDelete k >>= _)) _
      refine ⟨not_isQuotaRecord_of_isData hk, fun a => ?_⟩
      cases a with
      | error e => exact trivial
      | ok u =>
          exact (settle_uses plan k [] .delete cfg).mono
            fun _ hp => hp.sparesQuotas

/-- So a write of data keeps records and cache in agreement. -/
theorem QuotaSound.write (h : QuotaSound ext cfg w) {op : Op}
    (hop : op.WritesData) :
    QuotaSound ext cfg ((op.prog cfg).run (Prim.exec ext none) w).2 := by
  cases op with
  | put k v ttlMs =>
      exact h.spared (run_post (wp_spared
        (put_sparesQuotas cfg ttlMs hop.1 hop.2.1 hop.2.2)))
  | delete k =>
      exact h.spared (run_post (wp_spared
        (delete_sparesQuotas cfg hop.1 hop.2)))
  | get k => exact hop.elim
  | scan pre => exact hop.elim
  | scanRange start stop => exact hop.elim
  | sweep => exact hop.elim

end Writes

-- ====================================================== the quota's own calls

section Changes

variable {ext : Externals} {cfg : NodeConfig} {w : World} {t : String}

/-- Every tenant has a record of its own. -/
private theorem quotaRecord_inj {t t' : String} (ht : KeyCodec.ValidTenant t)
    (ht' : KeyCodec.ValidTenant t') (h : quotaRecord t = quotaRecord t') :
    t = t' := by
  have hd := KeyCodec.decode_bytesOf ht .metadata quotaKey
  have hd' := KeyCodec.decode_bytesOf ht' .metadata quotaKey
  have h : KeyCodec.bytesOf t .metadata quotaKey
      = KeyCodec.bytesOf t' .metadata quotaKey := h
  rw [h, hd'] at hd
  cases hd
  rfl

/-- Writing a tenant's record and caching the same. -/
theorem Recorded.change (h : Recorded ext w) (ht : KeyCodec.ValidTenant t)
    (entry : Option Quota) {wr : Write Bytes Bytes}
    {quotas : ExtTreeMap String Quota} (hk : wr.key = quotaRecord t)
    (hv : wr.value = entry.map (storedQuota ext))
    (hq : ∀ t', quotas[t']? = if t = t' then entry
      else w.quotas.quotas[t']?) :
    Recorded ext { w with
      storage := w.storage.write wr
      quotas := { w.quotas with quotas := quotas } } := by
  refine ⟨fun t' q hq' => ?_, fun t' ht' => ?_⟩
  · have hq' : quotas[t']? = some q := hq'
    rw [hq] at hq'
    split at hq'
    · next he =>
        rw [← he]
        exact ht
    · exact h.valid t' q hq'
  · show (w.storage.write wr).contents[quotaRecord t']?
      = quotas[t']?.map (storedQuota ext)
    rw [StorageBackend.contents_write, getElem?_apply, hq, hk]
    by_cases he : t = t'
    · subst he
      rw [if_pos rfl, if_pos rfl, hv]
    · rw [if_neg he, if_neg fun h => he (quotaRecord_inj ht ht' h)]
      exact h.stored t' ht'

/-- Setting a quota writes record and cache alike. -/
theorem QuotaSound.setQuota (h : QuotaSound ext cfg w) (t : String)
    (q : Quota) :
    QuotaSound ext cfg ((NodeService.setQuota ext t q).run.run
      (Prim.exec ext none) w).2 := by
  unfold NodeService.setQuota
  cases hk : KeyCodec.encode t .metadata quotaKey with
  | error e => exact h
  | ok key =>
      obtain ⟨ht, rfl⟩ := KeyCodec.encode_eq_ok.mp hk
      refine ⟨h.log, h.recorded.change ht (some q) rfl rfl ?_,
        h.readable.write fun _ raw hraw => ⟨q, ?_⟩, h.default⟩
      · intro t'
        rw [ExtTreeMap.getElem?_insert]
        simp only [Std.compare_eq_iff_eq]
        rfl
      · exact (Option.some.inj hraw).symm

/-- Clearing it removes both. -/
theorem QuotaSound.clearQuota (h : QuotaSound ext cfg w) (t : String) :
    QuotaSound ext cfg ((NodeService.clearQuota t).run.run
      (Prim.exec ext none) w).2 := by
  unfold NodeService.clearQuota
  cases hk : KeyCodec.encode t .metadata quotaKey with
  | error e => exact h
  | ok key =>
      obtain ⟨ht, rfl⟩ := KeyCodec.encode_eq_ok.mp hk
      refine ⟨h.log, h.recorded.change ht none rfl rfl ?_,
        h.readable.write fun _ raw hraw => (by cases hraw), h.default⟩
      intro t'
      rw [ExtTreeMap.getElem?_erase]
      simp only [Std.compare_eq_iff_eq]
      rfl

end Changes

-- ================================================================= startup

section Loading

variable {ext : Externals} {cfg : NodeConfig} {w : World}

/-- The entry is the tenant's quota record and reads as `q`. -/
def HoldsQuota (ext : Externals) (t : String) (q : Quota)
    (e : Bytes × Bytes) : Prop :=
  KeyCodec.decode e.1 = .ok (t, .metadata, quotaKey)
    ∧ ∃ sv, ValueCodec.decode e.2 = .ok sv
      ∧ ext.quotaFromSlice sv.value = some q

/-- Every quota record among the entries has a value that decodes. -/
def RecordsDecode (entries : List (Bytes × Bytes)) : Prop :=
  ∀ e ∈ entries, IsQuotaRecord e.1 → ∃ sv, ValueCodec.decode e.2 = .ok sv

/-- The overrides after loading: for a tenant with one quota among the
entries that quota, for a tenant with none what was there before. -/
structure LoadedFrom (ext : Externals) (entries : List (Bytes × Bytes))
    (before after : ExtTreeMap String Quota) : Prop where
  found : ∀ e ∈ entries, ∀ t q, HoldsQuota ext t q e →
    (∀ e' ∈ entries, ∀ q', HoldsQuota ext t q' e' → q' = q) →
    after[t]? = some q
  absent : ∀ t, (∀ e ∈ entries, ∀ q, ¬ HoldsQuota ext t q e) →
    after[t]? = before[t]?

/-- An entry that holds no quota is passed over. -/
theorem LoadedFrom.skip {e : Bytes × Bytes} {rest : List (Bytes × Bytes)}
    {before after : ExtTreeMap String Quota}
    (h : LoadedFrom ext rest before after)
    (he : ∀ t q, ¬ HoldsQuota ext t q e) :
    LoadedFrom ext (e :: rest) before after := by
  refine ⟨fun e' he' t q hq hone => ?_, fun t hno => ?_⟩
  · rcases List.mem_cons.mp he' with rfl | he'
    · exact absurd hq (he t q)
    · exact h.found e' he' t q hq fun e'' he'' =>
        hone e'' (List.mem_cons_of_mem _ he'')
  · exact h.absent t fun e' he' => hno e' (List.mem_cons_of_mem _ he')

/-- A quota is loaded, unless a later entry has another. -/
theorem LoadedFrom.load {e : Bytes × Bytes} {q : Quota} {t : String}
    {rest : List (Bytes × Bytes)} {before after : ExtTreeMap String Quota}
    (h : LoadedFrom ext rest (before.insert t q) after)
    (hq : HoldsQuota ext t q e) :
    LoadedFrom ext (e :: rest) before after := by
  have hins : ∀ t', (before.insert t q)[t']?
      = if t = t' then some q else before[t']? := by
    intro t'
    rw [ExtTreeMap.getElem?_insert]
    simp only [Std.compare_eq_iff_eq]
  refine ⟨fun e' he' t' q' hq' hone => ?_, fun t' hno => ?_⟩
  · by_cases hlater : ∃ e'' ∈ rest, ∃ q'', HoldsQuota ext t' q'' e''
    · obtain ⟨e'', hmem, q'', hq''⟩ := hlater
      obtain rfl := hone e'' (List.mem_cons_of_mem _ hmem) q'' hq''
      exact h.found e'' hmem t' q'' hq'' fun e₃ he₃ =>
        hone e₃ (List.mem_cons_of_mem _ he₃)
    · push Not at hlater
      rcases List.mem_cons.mp he' with rfl | he'
      · have htt : t = t' := by
          have hd := hq.1.symm.trans hq'.1
          cases hd
          rfl
        subst htt
        rw [h.absent t hlater, hins, if_pos rfl,
          hone e' List.mem_cons_self q hq]
      · exact absurd hq' (hlater e' he' q')
  · rw [h.absent t' fun e' he' => hno e' (List.mem_cons_of_mem _ he'), hins,
      if_neg]
    rintro rfl
    exact hno _ List.mem_cons_self q hq

/-- What the loop of `load_quotas` comes to: it fails on the first record
whose value does not decode, and otherwise caches what it could parse. -/
def LoopLeaves (ext : Externals) (entries : List (Bytes × Bytes))
    (w w' : World) : Result Nat → Prop
  | .ok _ => RecordsDecode entries ∧ ∃ after,
      w' = { w with quotas := { w.quotas with quotas := after } }
        ∧ LoadedFrom ext entries w.quotas.quotas after
  | .error _ => ¬ RecordsDecode entries

/-- An entry that holds no quota is passed over. -/
theorem LoopLeaves.skip {e : Bytes × Bytes} {rest : List (Bytes × Bytes)}
    {w' : World} {r : Result Nat} (h : LoopLeaves ext rest w w' r)
    (hdec : IsQuotaRecord e.1 → ∃ sv, ValueCodec.decode e.2 = .ok sv)
    (he : ∀ t q, ¬ HoldsQuota ext t q e) :
    LoopLeaves ext (e :: rest) w w' r := by
  cases r with
  | ok n =>
      obtain ⟨hread, after, hw', hl⟩ := h
      exact ⟨List.forall_mem_cons.mpr ⟨hdec, hread⟩, after, hw', hl.skip he⟩
  | error err => exact fun hread => h (List.forall_mem_cons.mp hread).2

/-- The loop loads the last quota of each tenant among the entries, or stops
at a record that does not decode. The recursion is on the entries. -/
theorem wp_loadQuotasLoop :
    ∀ (entries : List (Bytes × Bytes)) (n : Nat) (w : World),
      wp (.handler (Prim.exec ext none))
        (fun w' r => LoopLeaves ext entries w w' r)
        (loadQuotasLoop ext entries n).run w
  | [], n, w => ⟨fun _ he => (by cases he), w.quotas.quotas, rfl,
      fun _ he => (by cases he), fun _ _ => rfl⟩
  | (k, raw) :: rest, n, w => by
      -- the key decides first: what is no quota record is passed over
      have hskip : (IsQuotaRecord k → ∃ sv, ValueCodec.decode raw = .ok sv) →
          (∀ t q, ¬ HoldsQuota ext t q (k, raw)) →
          wp (.handler (Prim.exec ext none))
            (fun w' r => LoopLeaves ext ((k, raw) :: rest) w w' r)
            (loadQuotasLoop ext rest n).run w :=
        fun hdec he => wp_mono (fun _ _ h => h.skip hdec he)
          (wp_loadQuotasLoop rest n w)
      have hforeign : ¬ IsQuotaRecord k →
          wp (.handler (Prim.exec ext none))
            (fun w' r => LoopLeaves ext ((k, raw) :: rest) w w' r)
            (loadQuotasLoop ext rest n).run w :=
        fun hk => hskip (fun h => absurd h hk) fun t q hq => hk ⟨t, hq.1⟩
      unfold loadQuotasLoop
      cases hd : KeyCodec.decode k with
      | error e =>
          refine hforeign ?_
          rintro ⟨t, h⟩
          rw [hd] at h
          cases h
      | ok parts =>
          obtain ⟨t, sub, payload⟩ := parts
          by_cases hq : sub ≠ .metadata ∨ payload ≠ quotaKey
          · simp only [if_pos hq]
            refine hforeign ?_
            rintro ⟨t', h⟩
            rw [hd] at h
            cases h
            exact hq.elim (fun h => h rfl) fun h => h rfl
          · simp only [if_neg hq]
            rw [not_or, not_not, not_not] at hq
            obtain ⟨rfl, rfl⟩ := hq
            cases hv : ValueCodec.decode raw with
            | error e =>
                -- this is the `?` on the stored value: one record that does
                -- not decode ends the loop
                intro hread
                obtain ⟨sv, hsv⟩ := hread (k, raw) List.mem_cons_self ⟨t, hd⟩
                rw [hv] at hsv
                cases hsv
            | ok sv =>
                simp only [ofResult, wp_bindE, wp_mkE, pure_def, wp_ret,
                  onResult_ok]
                cases hp : ext.quotaFromSlice sv.value with
                | none =>
                    refine hskip (fun _ => ⟨sv, hv⟩) ?_
                    rintro t' q ⟨-, sv', hv', hq'⟩
                    cases hv.symm.trans hv'
                    rw [hp] at hq'
                    cases hq'
                | some q =>
                    -- the induction is on the entries, so a later record of
                    -- the tenant overrides this one
                    refine wp_mono ?_ (wp_loadQuotasLoop rest (n + 1) _)
                    intro w' r hr
                    cases r with
                    | error err =>
                        exact fun hread => hr (List.forall_mem_cons.mp hread).2
                    | ok m =>
                        obtain ⟨hread, after, hw', hl⟩ := hr
                        exact ⟨List.forall_mem_cons.mpr
                            ⟨fun _ => ⟨sv, hv⟩, hread⟩, after, hw',
                          hl.load ⟨hd, sv, hv, hp⟩⟩

/-- Storage holds a quota for the tenant: its record is there, decodes and
parses. -/
def QuotaIn (ext : Externals) (s : Table) (t : String) (q : Quota) : Prop :=
  ∃ k raw, s[k]? = some raw ∧ HoldsQuota ext t q (k, raw)

/-- A quota is held under the tenant's record key. -/
theorem HoldsQuota.key {t : String} {q : Quota} {e : Bytes × Bytes}
    (h : HoldsQuota ext t q e) :
    KeyCodec.ValidTenant t ∧ e.1 = quotaRecord t :=
  KeyCodec.encode_eq_ok.mp (KeyCodec.encode_decode h.1)

/-- A tenant has one quota at most. -/
theorem QuotaIn.unique {s : Table} {t : String} {q q' : Quota}
    (h : QuotaIn ext s t q) (h' : QuotaIn ext s t q') : q = q' := by
  obtain ⟨k, raw, hk, hq⟩ := h
  obtain ⟨k', raw', hk', hq'⟩ := h'
  have hkk : k = k' := hq.key.2.trans hq'.key.2.symm
  subst hkk
  cases hk.symm.trans hk'
  obtain ⟨-, sv, hv, hp⟩ := hq
  obtain ⟨-, sv', hv', hp'⟩ := hq'
  cases hv.symm.trans hv'
  exact Option.some.inj (hp.symm.trans hp')

/-- A scan of everything lists the contents. -/
theorem mem_scan_all {k raw : Bytes} :
    (k, raw) ∈ w.storage.scan [] ↔ w.storage.contents[k]? = some raw := by
  show (k, raw) ∈ w.storage.contents.scan [] ↔ _
  rw [Table.mem_scan]
  exact ⟨fun h => h.1, fun h => ⟨h, List.nil_prefix⟩⟩

/-- `load_quotas` caches the quotas storage holds, no others, and fails only
on a record whose value does not decode. -/
theorem wp_loadQuotas_reads (ext : Externals) (w : World) :
    wp (.handler (Prim.exec ext none))
      (fun w' r => match r with
        | .ok _ => RecordsDecode (w.storage.scan []) ∧ ∃ after,
            w' = { w with quotas := { w.quotas with quotas := after } }
              ∧ ∀ t q, after[t]? = some q
                ↔ QuotaIn ext w.storage.contents t q
        | .error _ => ¬ RecordsDecode (w.storage.scan []))
      (loadQuotas ext).run w := by
  refine wp_mono ?_ (wp_loadQuotasLoop (w.storage.scan []) 0
    { w with quotas := { w.quotas with quotas := ∅ } })
  intro w' r hr
  cases r with
  | error e => exact hr
  | ok n =>
      obtain ⟨hread, after, rfl, hl⟩ := hr
      have hfound : ∀ t q, QuotaIn ext w.storage.contents t q →
          after[t]? = some q := by
        rintro t q ⟨k, raw, hk, hq⟩
        refine hl.found (k, raw) (mem_scan_all.mpr hk) t q hq ?_
        exact fun e he q' hq' => QuotaIn.unique
          ⟨e.1, e.2, mem_scan_all.mp he, hq'⟩ ⟨k, raw, hk, hq⟩
      refine ⟨hread, after, rfl, fun t q => ⟨fun ha => ?_, hfound t q⟩⟩
      by_contra hno
      have hnone : after[t]? = none := by
        refine (hl.absent t fun e he q' hq' => ?_).trans
          ExtTreeMap.getElem?_empty
        have hin : QuotaIn ext w.storage.contents t q' :=
          ⟨e.1, e.2, mem_scan_all.mp he, hq'⟩
        cases (hfound t q' hin).symm.trans ha
        exact hno hin
      rw [hnone] at ha
      cases ha

/-- Loading makes the cache what storage says. -/
theorem loadQuotas_recorded
    (hserde : ∀ q, ext.quotaFromSlice (ext.quotaToVec q) = some q)
    (hform : ∀ k raw, IsQuotaRecord k → w.storage.contents[k]? = some raw →
      ∃ q, raw = storedQuota ext q) :
    wp (.handler (Prim.exec ext none))
      (fun w' r => (∃ m, r = .ok m) ∧ ∃ after,
        w' = { w with quotas := { w.quotas with quotas := after } }
          ∧ Recorded ext w')
      (loadQuotas ext).run w := by
  have hdec : ∀ q, ValueCodec.decode (storedQuota ext q)
      = .ok ⟨none, ext.quotaToVec q⟩ := fun _ => rfl
  refine wp_mono ?_ (wp_loadQuotas_reads ext w)
  intro w' r hr
  cases r with
  | error e =>
      refine absurd (fun e he hk => ?_) hr
      obtain ⟨q, hq⟩ := hform e.1 e.2 hk (mem_scan_all.mp he)
      exact ⟨_, hq ▸ hdec q⟩
  | ok m =>
      obtain ⟨-, after, rfl, hall⟩ := hr
      refine ⟨⟨m, rfl⟩, after, rfl, fun t q hq => ?_, fun t ht => ?_⟩
      · obtain ⟨k, raw, -, hq⟩ := (hall t q).mp hq
        exact hq.key.1
      · show w.storage.contents[quotaRecord t]?
          = after[t]?.map (storedQuota ext)
        have hd := KeyCodec.decode_bytesOf ht .metadata quotaKey
        cases hc : w.storage.contents[quotaRecord t]? with
        | none =>
            cases ha : after[t]? with
            | none => rfl
            | some q =>
                obtain ⟨k, raw, hk, hq⟩ := (hall t q).mp ha
                have hkk : k = quotaRecord t := hq.key.2
                rw [hkk, hc] at hk
                cases hk
        | some raw =>
            obtain ⟨q, rfl⟩ := hform _ raw ⟨t, hd⟩ hc
            rw [(hall t q).mpr ⟨_, _, hc, hd, _, hdec q, hserde q⟩]
            rfl

end Loading

section Startup

variable {ext : Externals} {cfg : NodeConfig} {w : World}

/-- Replaying data spares the quotas. -/
private theorem wp_replay_spared :
    ∀ (records : List WalRecord) (w : World), (∀ r ∈ records, IsData r.key) →
      wp (.handler (Prim.exec ext none))
        (fun w' r => r = .ok () ∧ Spared ext w w')
        (replayLoop records).run w
  | [], w, _ => ⟨rfl, .refl w⟩
  | r :: rest, w, hdata => by
      have hr := not_isQuotaRecord_of_isData (hdata r List.mem_cons_self)
      have hnext : ∀ w₁, Spared ext w w₁ →
          wp (.handler (Prim.exec ext none))
            (fun w' r => r = .ok () ∧ Spared ext w w')
            (replayLoop rest).run w₁ := by
        intro w₁ h₁
        refine wp_mono ?_ (wp_replay_spared rest w₁
          fun r' hr' => hdata r' (List.mem_cons_of_mem _ hr'))
        rintro w' a ⟨ha, hs⟩
        exact ⟨ha, h₁.trans hs⟩
      refine (wp_bindE _ _ _).mpr ?_
      unfold replayRecord
      cases r.op with
      | put => exact hnext _ (spared_write (.put r.key r.value) hr)
      | delete => exact hnext _ (spared_write (.delete r.key) hr)

/-- Retiring the segment does. -/
private theorem wp_retire_spared :
    wp (.handler (Prim.exec ext none))
      (fun w' r => r = .ok () ∧ Spared ext w w') retireSegment.run w := by
  show wp _ _ (ExceptT.run (if w.storage.isDurable = true then _ else _)) w
  split
  · have hflush : (Prim.storage .flush).SparesQuotas := trivial
    have hrotate : (Prim.wal .rotate).SparesQuotas := trivial
    exact ⟨rfl, (hflush.exec (w := w)).trans hrotate.exec⟩
  · exact ⟨rfl, .refl w⟩

private theorem wp_bootstrap_spared :
    wp (.handler (Prim.exec ext none))
      (fun w' r => r = .ok () ∧ Spared ext w w') bootstrapFromStorage.run
      w := by
  refine (wp_bindE _ _ _).mpr ?_
  refine (wp_bindE _ _ _).mpr ((wp_lift _ _).mpr (wp_mono ?_ (wp_spared
    ((bootstrapLoop_uses _ ∅).mono fun _ hp => hp.sparesQuotas))))
  intro w₁ usage h₁
  have hreset : (Prim.quota (.resetUsage usage)).SparesQuotas := trivial
  exact ⟨rfl, h₁.trans hreset.exec⟩

/-- What startup must find. -/
structure QuotaBootable (ext : Externals) (cfg : NodeConfig) (w : World) :
    Prop where
  log : ∃ records, FileHolds w.wal.file records
    ∧ ∀ r ∈ records, IsData r.key
  form : ∀ k raw, IsQuotaRecord k → w.storage.contents[k]? = some raw →
    ∃ q, raw = storedQuota ext q
  readable : Readable ext w.storage
  default : w.quotas.defaultQuota = cfg.quota

/-- Startup succeeds, touches no quota record and loads all of them. -/
theorem wp_open_quotas
    (hserde : ∀ q, ext.quotaFromSlice (ext.quotaToVec q) = some q)
    (h : QuotaBootable ext cfg w) :
    wp (.handler (Prim.exec ext none))
      (fun w' r => r = .ok () ∧ QuotaSound ext cfg w'
        ∧ ∀ k, IsQuotaRecord k →
          w'.storage.contents[k]? = w.storage.contents[k]?)
      (NodeService.open ext).run w := by
  obtain ⟨⟨records, hfile, hdata⟩, hform, hread, hdef⟩ := h
  obtain ⟨v, recovery, hopen, hrec, hholds⟩ := hfile.open
  subst hrec
  have hwal : ∀ {Q : World → Result Recovery → Prop},
      Q { w with wal := v } (.ok recovery) →
      wp (.handler (Prim.exec ext none)) Q walOpen.run w := by
    intro Q hQ
    have hexec : Prim.exec ext none (.wal .open) w
        = (.ok recovery, { w with wal := v }) := by
      simp only [Prim.exec, WalPrim.exec, hopen]
    show Q (Prim.exec ext none (.wal .open) w).2
      (Prim.exec ext none (.wal .open) w).1
    rw [hexec]
    exact hQ
  -- the phases of `open` in order; all but `loadQuotas` spare the records and
  -- the overrides
  unfold NodeService.open
  rw [wp_bindE]
  refine hwal ?_
  rw [onResult_ok, wp_bindE]
  unfold replay
  rw [wp_bindE]
  refine wp_mono ?_ (wp_replay_spared recovery.records _ hdata)
  rintro w₂ _ ⟨rfl, h₂⟩
  rw [onResult_ok, wp_pureE, onResult_ok, wp_bindE]
  refine wp_mono ?_ wp_retire_spared
  rintro w₃ _ ⟨rfl, h₃⟩
  have h₃ := h₂.trans h₃
  rw [onResult_ok, wp_bindE]
  refine wp_mono ?_ (loadQuotas_recorded hserde fun k raw hk hraw =>
    hform k raw hk ((h₃.records k hk).symm.trans hraw))
  rintro w₄ _ ⟨⟨m, rfl⟩, after, rfl, h₄⟩
  rw [onResult_ok]
  have hsound : QuotaSound ext cfg
      { w₃ with quotas := { w₃.quotas with quotas := after } } :=
    ⟨h₃.log ⟨recovery.records, hholds, hdata⟩, h₄, h₃.readable hread,
      h₃.default.trans hdef⟩
  refine wp_mono ?_ wp_bootstrap_spared
  rintro w₅ _ ⟨rfl, h₅⟩
  exact ⟨rfl, hsound.spared h₅,
    fun k hk => (h₅.records k hk).trans (h₃.records k hk)⟩

/-- A process that dies leaves a directory startup can read. -/
theorem QuotaSound.bootable (h : QuotaSound ext cfg w)
    {kept : List (Write Bytes Bytes)} (hk : w.storage.MayKeep kept) :
    QuotaBootable ext cfg (w.crash cfg kept w.wal.file) := by
  obtain ⟨records, hholds, hdata⟩ := h.log
  refine ⟨⟨records, hholds.fileHolds, hdata⟩,
    fun k raw => h.readable.contents_survive hk, ?_, rfl⟩
  show Readable ext (w.storage.survive kept)
  have hread := h.readable
  generalize w.storage = s at hread hk
  cases s with
  | memory m => exact ⟨hread.persisted, hread.unflushed⟩
  | fjall f =>
      exact ⟨hread.persisted, fun wr hmem =>
        hread.unflushed wr (hk.subset hmem)⟩

end Startup

-- ==================================================================== runs

/-- What happens to a node between two looks at its quotas. -/
inductive QuotaStep (ext : Externals) (cfg : NodeConfig) (w : World) :
    World → Prop where
  | set (t : String) (q : Quota) :
      QuotaStep ext cfg w ((NodeService.setQuota ext t q).run.run
        (Prim.exec ext none) w).2
  | clear (t : String) :
      QuotaStep ext cfg w ((NodeService.clearQuota t).run.run
        (Prim.exec ext none) w).2
  | write {op : Op} (hop : op.WritesData) :
      QuotaStep ext cfg w ((op.prog cfg).run (Prim.exec ext none) w).2
  | tick {w' : World} (h : Ticks w w') : QuotaStep ext cfg w w'
  | restart {kept : List (Write Bytes Bytes)} (hk : w.storage.MayKeep kept) :
      QuotaStep ext cfg w ((NodeService.open ext).run.run
        (Prim.exec ext none) (w.crash cfg kept w.wal.file)).2

/-- A node that came up on an empty data directory some time ago. -/
def QuotaRun (ext : Externals) (cfg : NodeConfig) (w : World) : Prop :=
  ∃ now instant, Relation.ReflTransGen (QuotaStep ext cfg)
    ((NodeService.open ext).run.run (Prim.exec ext none)
      (.fresh cfg now instant)).2 w

/-- The crash that keeps the writes `kept` loses no override: on fjall the
writes it loses are of other keys, on the memory backend there is no
override to lose. -/
def KeepsQuotas (w : World) (kept : List (Write Bytes Bytes)) : Prop :=
  match w.storage with
  | .memory _ => ∀ t : String, w.quotas.quotas[t]? = none
  | .fjall s => ∃ lost, s.since = kept ++ lost
      ∧ ∀ wr ∈ lost, ¬ IsQuotaRecord wr.key

section Runs

variable {ext : Externals} {cfg : NodeConfig} {w : World}

/-- An empty directory can be started on. -/
private theorem quotaBootable_fresh (now instant : Nat) :
    QuotaBootable ext cfg (.fresh cfg now instant) := by
  have hempty : ∀ k raw : Bytes, (∅ : Table)[k]? ≠ some raw := by
    intro k raw h
    rw [ExtTreeMap.getElem?_empty] at h
    cases h
  have hstorage : (World.fresh cfg now instant).storage = .memory ⟨∅⟩
      ∨ (World.fresh cfg now instant).storage = .fjall (.mk' ∅ []) := by
    unfold World.fresh World.boot
    cases cfg.backend with
    | memory => exact .inl rfl
    | fjall => exact .inr rfl
  refine ⟨⟨[], .absent, fun r hr => by cases hr⟩, ?_, ?_, rfl⟩
  · rcases hstorage with hs | hs
    · rw [hs]
      exact fun k raw _ hraw => absurd hraw (hempty k raw)
    · rw [hs]
      exact fun k raw _ hraw => absurd hraw (hempty k raw)
  · rcases hstorage with hs | hs
    · rw [hs]
      exact ⟨fun k raw _ hraw => absurd hraw (hempty k raw),
        fun wr hmem => by cases hmem⟩
    · rw [hs]
      exact ⟨fun k raw _ hraw => absurd hraw (hempty k raw),
        fun wr hmem => by cases hmem⟩

/-- Over any run, records and cache agree. -/
theorem QuotaRun.sound
    (hserde : ∀ q, ext.quotaFromSlice (ext.quotaToVec q) = some q)
    (h : QuotaRun ext cfg w) : QuotaSound ext cfg w := by
  obtain ⟨now, instant, h⟩ := h
  induction h with
  | refl =>
      exact (run_post (wp_open_quotas hserde
        (quotaBootable_fresh now instant))).2.1
  | tail _ hstep ih =>
      cases hstep with
      | set t q => exact ih.setQuota t q
      | clear t => exact ih.clearQuota t
      | write hop => exact ih.write hop
      | tick ht =>
          obtain ⟨now', instant', -, rfl⟩ := ht
          exact ⟨ih.log, ⟨ih.recorded.valid, ih.recorded.stored⟩,
            ih.readable, ih.default⟩
      | restart hk =>
          exact (run_post (wp_open_quotas hserde (ih.bootable hk))).2.1

/-- A crash that loses other writes only is a crash. -/
private theorem KeepsQuotas.mayKeep {kept : List (Write Bytes Bytes)}
    (h : KeepsQuotas w kept) : w.storage.MayKeep kept := by
  unfold KeepsQuotas at h
  generalize w.storage = s at h
  cases s with
  | memory m => exact trivial
  | fjall f =>
      obtain ⟨lost, hsince, -⟩ := h
      show kept.Sublist f.since
      rw [hsince]
      exact List.sublist_append_left kept lost

/-- The records such a crash leaves are the ones there were. -/
theorem KeepsQuotas.records {kept : List (Write Bytes Bytes)}
    (h : KeepsQuotas w kept) (hrec : Recorded ext w) {t : String}
    (ht : KeyCodec.ValidTenant t) :
    (w.storage.survive kept).contents[quotaRecord t]?
      = w.storage.contents[quotaRecord t]? := by
  have hstored := hrec.stored t ht
  unfold KeepsQuotas at h
  generalize w.storage = s at h hstored
  cases s with
  | memory m =>
      rw [h t] at hstored
      rw [hstored]
      exact ExtTreeMap.getElem?_empty
  | fjall f =>
      obtain ⟨lost, hsince, hlost⟩ := h
      show (applyAll kept f.durable)[quotaRecord t]?
        = f.partition[quotaRecord t]?
      rw [f.consistent, hsince, applyAll_append]
      refine (getElem?_applyAll_of_notMem _ fun wr hwr hk => ?_).symm
      exact hlost wr hwr (isQuotaRecord_iff.mpr ⟨t, ht, hk⟩)

/-- Two quotas are not stored alike. -/
private theorem storedQuota_injective
    (hserde : ∀ q, ext.quotaFromSlice (ext.quotaToVec q) = some q) :
    Function.Injective (storedQuota ext) := by
  intro q q' h
  have hvec : ext.quotaToVec q = ext.quotaToVec q' :=
    (List.cons.inj h).2
  have hq := hserde q
  rw [hvec, hserde] at hq
  exact (Option.some.inj hq).symm

/-- Where the records agree, so do the overrides. -/
theorem Recorded.agree
    (hserde : ∀ q, ext.quotaFromSlice (ext.quotaToVec q) = some q)
    {w w' : World} (h' : Recorded ext w') (h : Recorded ext w)
    (hsame : ∀ t, KeyCodec.ValidTenant t →
      w'.storage.contents[quotaRecord t]? = w.storage.contents[quotaRecord t]?)
    {t : String} : w'.quotas.quotas[t]? = w.quotas.quotas[t]? := by
  by_cases ht : KeyCodec.ValidTenant t
  · apply Option.map_injective (storedQuota_injective hserde)
    rw [← h'.stored t ht, ← h.stored t ht]
    exact hsame t ht
  · have hnone : ∀ v : World, Recorded ext v →
        v.quotas.quotas[t]? = none := by
      intro v hv
      cases hq : v.quotas.quotas[t]? with
      | none => rfl
      | some q => exact absurd (hv.valid t q hq) ht
    rw [hnone w' h', hnone w h]

/-- After any run, a process that ends without losing a quota record starts
again, with every tenant's quota as it was. -/
theorem overrides_survive (ext : Externals)
    (hserde : ∀ q, ext.quotaFromSlice (ext.quotaToVec q) = some q)
    (cfg : NodeConfig) (w : World) (h : QuotaRun ext cfg w)
    (kept : List (Write Bytes Bytes)) (hkeep : KeepsQuotas w kept) :
    ∃ w', (NodeService.open ext).run.run (Prim.exec ext none)
        (w.crash cfg kept w.wal.file) = (.ok (), w')
      ∧ ∀ t, w'.quotas.quota t = w.quotas.quota t := by
  have hsound := h.sound hserde
  obtain ⟨hok, hsound', hsame⟩ := run_post
    (wp_open_quotas hserde (hsound.bootable hkeep.mayKeep))
  obtain ⟨w', hw'⟩ : ∃ w', w' = ((NodeService.open ext).run.run
      (Prim.exec ext none) (w.crash cfg kept w.wal.file)).2 := ⟨_, rfl⟩
  rw [← hw'] at hsound' hsame
  refine ⟨w', Prod.ext hok hw'.symm, fun t => ?_⟩
  have hover : w'.quotas.quotas[t]? = w.quotas.quotas[t]? := by
    refine hsound'.recorded.agree hserde hsound.recorded fun t ht => ?_
    rw [hsame _ (isQuotaRecord_iff.mpr ⟨t, ht, rfl⟩)]
    exact hkeep.records hsound.recorded ht
  unfold QuotaStore.quota
  rw [hover, hsound'.default, hsound.default]

end Runs

-- ============================================================ lost overrides

/-- A node on the given backend on which tenant `a` was given seven
bytes. -/
def overridden (backend : Backend) : World :=
  ((NodeService.setQuota .json "a" ⟨7, 0⟩).run.run (Prim.exec .json none)
    ((NodeService.open .json).run.run (Prim.exec .json none)
      (.fresh { backend := backend } 0 0)).2).2

/-- The overridden node is reached. -/
private theorem overridden_run (backend : Backend) :
    QuotaRun .json { backend := backend } (overridden backend) :=
  ⟨0, 0, .single (.set "a" ⟨7, 0⟩)⟩

/-- The node that starts on what is left when everything unflushed is
lost. -/
def restarted (backend : Backend) : World :=
  ((NodeService.open .json).run.run (Prim.exec .json none)
    ((overridden backend).crash { backend := backend } []
      (overridden backend).wal.file)).2

/-- On either backend a crash can take an override: the tenant is back at
the node's default. -/
theorem override_lost :
    (∀ backend, QuotaRun .json { backend := backend } (overridden backend)
      ∧ (overridden backend).storage.MayKeep [])
    ∧ ((overridden .memory).quotas.quota "a" = ⟨7, 0⟩
      ∧ (restarted .memory).quotas.quota "a" = ⟨0, 0⟩)
    ∧ ((overridden .fjall).quotas.quota "a" = ⟨7, 0⟩
      ∧ (restarted .fjall).quotas.quota "a" = ⟨0, 0⟩) := by
  refine ⟨fun backend => ⟨overridden_run backend,
    StorageBackend.mayKeep_nil _⟩, ⟨?_, ?_⟩, ?_, ?_⟩
  all_goals decide +kernel

/-- The quota record of that node, as storage has it. -/
def sevenBytes : Write Bytes Bytes :=
  .put (quotaRecord "a") (storedQuota .json ⟨7, 0⟩)

/-- The same node after a put. -/
def overriddenPut : World :=
  (((Op.put (KeyCodec.bytesOf "a" .data [1]) [2, 3] 0).prog {}).run
    (Prim.exec .json none) (overridden .fjall)).2

/-- A crash that loses the put's writes from storage and keeps the quota
record leaves the override as it was. -/
theorem overrides_survive_lost_put :
    (overriddenPut.storage.contents[KeyCodec.bytesOf "a" .data [1]]?.isSome
      ∧ (overriddenPut.storage.survive
        [sevenBytes]).contents[KeyCodec.bytesOf "a" .data [1]]? = none)
    ∧ ∃ w', (NodeService.open .json).run.run (Prim.exec .json none)
        (overriddenPut.crash {} [sevenBytes] overriddenPut.wal.file)
          = (.ok (), w')
      ∧ w'.quotas.quota "a" = ⟨7, 0⟩ := by
  have hdata : IsData (KeyCodec.bytesOf "a" .data [1]) :=
    ⟨"a", [1], KeyCodec.decode_bytesOf (by decide) _ _⟩
  have hrun : QuotaRun .json {} overriddenPut :=
    ⟨0, 0, .tail (.single (.set "a" ⟨7, 0⟩))
      (.write ⟨hdata, by decide, by decide⟩)⟩
  have hkeep : KeepsQuotas overriddenPut [sevenBytes] := by
    refine ⟨[.put (KeyCodec.bytesOf "a" .data [1])
        (ValueCodec.encode [2, 3] none),
      .put (KeyCodec.bytesOf "a" .stats usageKey)
        (ValueCodec.encode (LittleEndian.beBytes 8 3) none)],
      by decide +kernel, fun wr hwr => ?_⟩
    -- the entry and the usage record written after it
    rcases List.mem_cons.mp hwr with rfl | hwr
    · exact not_isQuotaRecord_of_isData hdata
    · cases List.mem_singleton.mp hwr
      exact not_isQuotaRecord_stats (KeyCodec.encode_of_valid (by decide) _ _)
  obtain ⟨w', hopen, hsame⟩ := overrides_survive .json json_round_trip {}
    overriddenPut hrun [sevenBytes] hkeep
  refine ⟨⟨by decide +kernel, by decide +kernel⟩, w', hopen, ?_⟩
  rw [hsame "a"]
  decide +kernel

end FerrisKv
