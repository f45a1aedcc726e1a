/-
What one tenant can see of a node.

`SameFor b w w'`: the two worlds agree on the clocks, on the entries and
expirations under `b`'s keys, on `b`'s quota, counter, limiters and
channels. Nothing else of them is compared: the log, the other tenants and
how the store divides its contents into durable and not are out of `b`'s
sight.

A step `Serves t` if it reads and moves only what is `t`'s; such a step is
local to `t` and hidden from everyone else. The steps that `Miss` a tenant
are the rest of what its neighbours do: every read, the log, and writes of
keys that are not its own.
-/
import FerrisKv.Lib.Unwinding
import FerrisKv.Node.Grpc
import FerrisKv.Proofs.Node.ScanBounds
import FerrisKv.Proofs.Node.TtlIndex

namespace FerrisKv

open Std WriteLog OrderedScan Prog NodeService

-- ================================================================ ownership

/-- The tenant a key belongs to, if it is one's. -/
def keyOwner (k : Bytes) : Option String :=
  (KeyCodec.decode k).toOption.map fun d => d.1

/-- A key belongs to the tenant it decodes to. -/
theorem keyOwner_of_decode {k : Bytes} {t : String} {s : Subspace}
    {p : Bytes} (h : KeyCodec.decode k = .ok (t, s, p)) :
    keyOwner k = some t := by
  rw [keyOwner, h]
  rfl

theorem keyOwner_of_encode {k : Bytes} {t : String} {s : Subspace}
    {p : Bytes} (h : KeyCodec.encode t s p = .ok k) : keyOwner k = some t :=
  keyOwner_of_decode (KeyCodec.decode_encode h)

-- ============================================================= the relation

/-- Tenant `b` cannot tell the worlds apart. -/
structure SameFor (b : String) (w w' : World) : Prop where
  now : w.now = w'.now
  instant : w.instant = w'.instant
  entry : ∀ k, keyOwner k = some b →
    w.storage.contents[k]? = w'.storage.contents[k]?
  due : ∀ k e, keyOwner k = some b →
    (w.ttl.Scheduled k e ↔ w'.ttl.Scheduled k e)
  default : w.quotas.defaultQuota = w'.quotas.defaultQuota
  quota : w.quotas.quotas[b]? = w'.quotas.quotas[b]?
  used : w.quotas.usedBytes b = w'.quotas.usedBytes b
  limiters : w.throttle.tenant b = w'.throttle.tenant b
  capacity : w.watch.capacity = w'.watch.capacity
  channels : w.watch.tenant b = w'.watch.tenant b

theorem SameFor.refl (b : String) (w : World) : SameFor b w w where
  now := rfl
  instant := rfl
  entry _ _ := rfl
  due _ _ _ := Iff.rfl
  default := rfl
  quota := rfl
  used := rfl
  limiters := rfl
  capacity := rfl
  channels := rfl

/-- Looking the same to a tenant is an equivalence. -/
theorem sameFor_equivalence (b : String) : Equivalence (SameFor b) where
  refl := SameFor.refl b
  symm h :=
    { now := h.now.symm
      instant := h.instant.symm
      entry := fun k hk => (h.entry k hk).symm
      due := fun k e hk => (h.due k e hk).symm
      default := h.default.symm
      quota := h.quota.symm
      used := h.used.symm
      limiters := h.limiters.symm
      capacity := h.capacity.symm
      channels := h.channels.symm }
  trans h h' :=
    { now := h.now.trans h'.now
      instant := h.instant.trans h'.instant
      entry := fun k hk => (h.entry k hk).trans (h'.entry k hk)
      due := fun k e hk => (h.due k e hk).trans (h'.due k e hk)
      default := h.default.trans h'.default
      quota := h.quota.trans h'.quota
      used := h.used.trans h'.used
      limiters := h.limiters.trans h'.limiters
      capacity := h.capacity.trans h'.capacity
      channels := h.channels.trans h'.channels }

-- ==================================================================== steps

/-- The step reads and moves only what is tenant `t`'s. -/
def Prim.Serves (t : String) : Prim → Prop
  | .now => True
  | .instant => True
  | .storage (.get k) => keyOwner k = some t
  | .storage (.put k _) => keyOwner k = some t
  | .storage (.delete k) => keyOwner k = some t
  | .storage (.scanRange start stop) => KeyCodec.ValidTenant t
      ∧ ∃ p, start = KeyCodec.bytesOf t .data p ∧ stop = nextPrefixBound start
  | .quota (.quota t') => t' = t
  | .quota (.usedBytes t') => t' = t
  | .quota (.adjust t' _) => t' = t
  | .quota (.insertQuota t' _) => t' = t
  | .quota (.removeQuota t') => t' = t
  | .throttle (.lookup t') => t' = t
  | .throttle (.insert t' _) => t' = t
  | .throttle (.check t' _ _) => t' = t
  | .watch q => q.tenant = t
  | _ => False

/-- The step moves nothing of tenant `b`'s. -/
def Prim.Misses (b : String) : Prim → Prop
  | .storage (.put k _) => keyOwner k ≠ some b
  | .storage (.delete k) => keyOwner k ≠ some b
  | .ttl (.insert k _) => keyOwner k ≠ some b
  | .ttl (.drainDue _) => False
  | .quota (.adjust t _) => t ≠ b
  | .quota (.insertQuota t _) => t ≠ b
  | .quota (.removeQuota t) => t ≠ b
  | .quota .clearQuotas => False
  | .quota (.resetUsage _) => False
  | .throttle (.insert t _) => t ≠ b
  | .throttle (.check t _ _) => t ≠ b
  | .watch q => q.tenant ≠ b
  | _ => True

/-- A step that serves one tenant misses every other. -/
theorem Prim.Serves.misses {t b : String} {p : Prim} (h : p.Serves t)
    (hne : t ≠ b) : p.Misses b := by
  have howner : ∀ {k : Bytes}, keyOwner k = some t → keyOwner k ≠ some b := by
    intro k hk hb
    rw [hk] at hb
    exact hne (Option.some.inj hb)
  have hname : ∀ {t' : String}, t' = t → t' ≠ b := fun he => he ▸ hne
  cases p with
  | now => exact trivial
  | instant => exact trivial
  | storage q => cases q <;> first | exact howner h | exact trivial
  | wal q => exact h.elim
  | ttl q => exact h.elim
  | quota q => cases q <;> first | exact hname h | exact trivial | exact h.elim
  | throttle q => cases q <;> first | exact hname h | exact trivial
  | watch q => exact hname h

section Steps

variable {b : String} {ext : Externals}

/-- What the store holds under a tenant's keys, after a write. -/
theorem entry_write {s s' : StorageBackend} {k : Bytes}
    (wr : Write Bytes Bytes) (h : s.contents[k]? = s'.contents[k]?) :
    (s.write wr).contents[k]? = (s'.write wr).contents[k]? := by
  simp only [StorageBackend.contents_write, getElem?_apply, h]

/-- A write under another's key shows in none of the tenant's entries. -/
private theorem entry_write_ne (s : StorageBackend) (wr : Write Bytes Bytes)
    {k : Bytes} (hw : keyOwner wr.key ≠ some b) (hk : keyOwner k = some b) :
    s.contents[k]? = (s.write wr).contents[k]? := by
  refine (s.getElem?_write_of_ne wr ?_).symm
  rintro rfl
  exact hw hk

/-- A scan of a tenant's data reads only the tenant's entries. -/
theorem scanRange_data_congr {t : String} (ht : KeyCodec.ValidTenant t)
    (p : Bytes) {m m' : Table}
    (h : ∀ k, keyOwner k = some t → m[k]? = m'[k]?) :
    m.scanRange (KeyCodec.bytesOf t .data p)
        (nextPrefixBound (KeyCodec.bytesOf t .data p))
      = m'.scanRange (KeyCodec.bytesOf t .data p)
        (nextPrefixBound (KeyCodec.bytesOf t .data p)) := by
  have hlist : ∀ m : Table, m.scanRange (KeyCodec.bytesOf t .data p)
      (nextPrefixBound (KeyCodec.bytesOf t .data p))
      = listing (fun k v => if KeyCodec.bytesOf t .data p <+: k
          then some v else none) m := by
    intro m
    rw [Table.scanRange, listing, ← List.filterMap_eq_filter]
    refine List.filterMap_congr fun e _ => ?_
    have hiff := between_nextPrefixBound (bytesOf_data_bounded t p) e.1
    by_cases hpre : KeyCodec.bytesOf t .data p <+: e.1
    · rw [if_pos hpre]
      obtain ⟨h₁, h₂⟩ := hiff.mpr hpre
      simp [Option.guard, h₁, h₂]
    · rw [if_neg hpre]
      have hno := mt hiff.mp hpre
      simp only [Option.guard, Option.map_none]
      rw [if_neg]
      simpa using hno
  rw [hlist, hlist]
  refine listing_congr fun k => ?_
  by_cases hpre : KeyCodec.bytesOf t .data p <+: k
  · obtain ⟨rest, hd⟩ := decode_of_data_prefix ht hpre
    rw [h k (keyOwner_of_decode hd)]
  · simp [hpre]

/-- A step that moves nothing of a tenant's is hidden from them. -/
theorem Prim.Misses.hidden {p : Prim} (h : p.Misses b) :
    Hidden (SameFor b) (Prim.exec ext none) p := by
  intro w
  -- every step is on somebody else's state, so only the component it changes
  -- has to be looked at
  have hrefl := SameFor.refl b w
  cases p with
  | now => exact hrefl
  | instant => exact hrefl
  | storage q =>
      cases q with
      | put k v =>
          exact { hrefl with
            entry := fun k' hk' => entry_write_ne _ (.put k v) h hk' }
      | delete k =>
          exact { hrefl with
            entry := fun k' hk' => entry_write_ne _ (.delete k) h hk' }
      | flush =>
          exact { hrefl with
            entry := fun k' _ => by
              show _ = w.storage.flush.contents[k']?
              rw [StorageBackend.contents_flush] }
      | _ => exact hrefl
  | wal q => exact { hrefl with now := rfl }
  | ttl q =>
      cases q with
      | insert k e =>
          exact { hrefl with
            due := fun k' e' hk' => by
              show _ ↔ (w.ttl.insert k e).2.Scheduled k' e'
              rw [TtlIndex.scheduled_insert]
              refine ⟨.inr, fun ho => ho.resolve_left ?_⟩
              rintro ⟨rfl, -⟩
              exact h hk' }
      | notifyOne => exact { hrefl with now := rfl }
      | drainDue now => exact h.elim
  | quota q =>
      cases q with
      | adjust t d =>
          have hne : t ≠ b := h
          refine { hrefl with used := ?_ }
          simp [Prim.exec, QuotaPrim.exec, QuotaStore.adjust,
            QuotaStore.usedBytes, ExtTreeMap.getElem?_insert, hne]
      | insertQuota t r =>
          have hne : t ≠ b := h
          refine { hrefl with quota := ?_ }
          simp [Prim.exec, QuotaPrim.exec, ExtTreeMap.getElem?_insert, hne]
      | removeQuota t =>
          have hne : t ≠ b := h
          refine { hrefl with quota := ?_ }
          simp [Prim.exec, QuotaPrim.exec, ExtTreeMap.getElem?_erase, hne]
      | clearQuotas => exact h.elim
      | resetUsage u => exact h.elim
      | _ => exact hrefl
  | throttle q =>
      cases q with
      | lookup t => exact hrefl
      | insert t rate =>
          refine { hrefl with limiters := ?_ }
          simp only [Prim.exec, ThrottlePrim.exec]
          rw [Throttle.tenant_set, if_neg h]
      | check t i cost =>
          refine { hrefl with limiters := ?_ }
          simp only [Prim.exec, ThrottlePrim.exec]
          split
          · rfl
          · rw [Throttle.tenant_set, if_neg h]
  | watch q =>
      refine { hrefl with channels := ?_ }
      simp only [Prim.exec, WatchPrim.exec]
      rw [WatchHub.tenant_set, if_neg h]

/-- A step on a tenant's own state is local to them. -/
theorem Prim.Serves.isLocal {p : Prim} (h : p.Serves b) :
    Local (SameFor b) (Prim.exec ext none) p := by
  intro w w' hs
  cases p with
  | now => exact ⟨hs.now, hs⟩
  | instant => exact ⟨hs.instant, hs⟩
  | storage q =>
      cases q with
      | get k => exact ⟨congrArg Except.ok (hs.entry k h), hs⟩
      | put k v =>
          exact ⟨rfl, { hs with
            entry := fun k' hk' =>
              entry_write (.put k v) (hs.entry k' hk') }⟩
      | delete k =>
          exact ⟨rfl, { hs with
            entry := fun k' hk' =>
              entry_write (.delete k) (hs.entry k' hk') }⟩
      | scanRange start stop =>
          obtain ⟨ht, p, rfl, rfl⟩ := h
          exact ⟨congrArg Except.ok (scanRange_data_congr ht p hs.entry), hs⟩
      | _ => exact h.elim
  | wal q => exact h.elim
  | ttl q => exact h.elim
  | quota q =>
      -- a quota is read through the node's default, which is the same for all
      have hquota : w.quotas.quota b = w'.quotas.quota b := by
        rw [QuotaStore.quota, QuotaStore.quota, hs.quota, hs.default]
      cases q with
      | quota t =>
          cases h
          exact ⟨hquota, hs⟩
      | usedBytes t =>
          cases h
          exact ⟨hs.used, hs⟩
      | adjust t d =>
          cases h
          refine ⟨congrArg (applyDelta · d) hs.used, { hs with used := ?_ }⟩
          have hused := hs.used
          unfold QuotaStore.usedBytes at hused
          simp [Prim.exec, QuotaPrim.exec, QuotaStore.adjust,
            QuotaStore.usedBytes, hused]
      | insertQuota t r =>
          cases h
          refine ⟨rfl, { hs with quota := ?_ }⟩
          simp [Prim.exec, QuotaPrim.exec]
      | removeQuota t =>
          cases h
          refine ⟨rfl, { hs with quota := ?_ }⟩
          simp [Prim.exec, QuotaPrim.exec]
      | _ => exact h.elim
  | throttle q =>
      cases q with
      | lookup t =>
          cases h
          refine ⟨?_, hs⟩
          simp only [Prim.exec, ThrottlePrim.exec, hs.limiters]
      | insert t rate =>
          cases h
          refine ⟨?_, { hs with limiters := ?_ }⟩
          · simp only [Prim.exec, ThrottlePrim.exec, hs.limiters]
          · simp only [Prim.exec, ThrottlePrim.exec, Throttle.tenant_set,
              if_true, hs.limiters]
      | check t i cost =>
          cases h
          simp only [Prim.exec, ThrottlePrim.exec, hs.limiters, hs.instant]
          cases (w'.throttle.tenant b).entries[i]? with
          | none => exact ⟨rfl, { hs with instant := rfl }⟩
          | some l =>
              refine ⟨rfl, { hs with instant := rfl, limiters := ?_ }⟩
              simp only [Throttle.tenant_set, if_true, hs.limiters]
  | watch q =>
      cases h
      simp only [Prim.exec, WatchPrim.exec, hs.channels, hs.capacity]
      refine ⟨trivial, { hs with channels := ?_ }⟩
      simp only [WatchHub.tenant_set, if_true]

end Steps

end FerrisKv
