/-
Whatever is stored can be read back, and a restart finds the data again.

This is the durability argument of Represents.lean without a map to
represent, for calls on any key: as long as keys and values fit the length
fields of a frame, every copy of every entry parses (`Legible`), and what a
restart would make of the data is what is stored (`Intact`). Between its
append and its storage write a call is `Underway`.

`wp_open_intact` is the restart: whatever a crash between two calls keeps
of the unflushed writes, the data is as it was.
-/
import FerrisKv.Proofs.Node.Coverage
import FerrisKv.Proofs.Node.Durable

namespace FerrisKv

open Std Prog NodeService WriteLog LittleEndian

-- =========================================================== the invariant

/-- The key fits a frame, and the value parses if there is one. -/
def Legible (key : Bytes) (value : Option Bytes) : Prop :=
  key.length < 2 ^ 32 ∧ ∀ raw ∈ value, ∃ sv, ValueCodec.decode raw = .ok sv

/-- An encoded value is legible. -/
private theorem legible_encode {key : Bytes} (hk : key.length < 2 ^ 32)
    (value : Bytes) {exp : Option Nat} (hexp : ∀ e ∈ exp, e < 2 ^ 64) :
    Legible key (some (ValueCodec.encode value exp)) := by
  refine ⟨hk, fun raw hraw => ?_⟩
  obtain rfl := Option.mem_some_iff.mp hraw
  exact ⟨_, ValueCodec.decode_encode value hexp⟩

/-- An absent one counts as legible. -/
private theorem legible_delete {key : Bytes} (hk : key.length < 2 ^ 32) :
    Legible key none := ⟨hk, fun _ h => nomatch h⟩

/-- The segment holds `records`, a restart would make the data `T`, and
everything parses. -/
structure Carries (w : World) (records : List WalRecord)
    (T : Bytes → Option Bytes) : Prop where
  wal : w.wal.Holds records
  durable : Durable w.storage records T
  legible : Throughout Legible w.storage records

/-- Between two calls: what is stored is what a restart would find. -/
def Intact (w : World) : Prop :=
  ∃ records, Carries w records (w.storage.contents[·]?)

/-- Between the append of `write` and its storage write. -/
def Underway (write : Write Bytes Bytes) (w : World) : Prop :=
  ∃ records, Carries w records (rewrite (w.storage.contents[·]?) write)
    ∧ (lastWrite (records.map WalRecord.write) write.key).isSome
    ∧ Legible write.key write.value

section Steps

variable {w : World}

/-- Every stored entry can be read. -/
theorem Intact.legible (h : Intact w) {k raw : Bytes}
    (hk : w.storage.contents[k]? = some raw) : Legible k (some raw) := by
  obtain ⟨records, hc⟩ := h
  exact hc.legible.contents k raw hk

/-- Only log and storage matter. -/
theorem Intact.same {w' : World} (h : Intact w) (hwal : w'.wal = w.wal)
    (hstorage : w'.storage = w.storage) : Intact w' := by
  obtain ⟨records, hc⟩ := h
  refine ⟨records, ?_⟩
  rw [hstorage]
  exact ⟨hwal ▸ hc.wal, hstorage ▸ hc.durable, hstorage ▸ hc.legible⟩

theorem Intact.tick (h : Intact w) (now instant : Nat) :
    Intact (w.tick now instant) := h.same rfl rfl

/-- The append makes the write durable. -/
theorem Intact.append (h : Intact w) (op : WalOp) {key value : Bytes}
    (hv : value.length < 2 ^ 32)
    (hlegible : Legible key (WalRecord.write ⟨0, op, key, value⟩).value) :
    Underway (WalRecord.write ⟨0, op, key, value⟩)
      { w with wal := (w.wal.append none op key value).2 } := by
  obtain ⟨records, hc⟩ := h
  have hwrite : (w.wal.nextRecord op key value).write
      = WalRecord.write ⟨0, op, key, value⟩ := rfl
  refine ⟨records ++ [w.wal.nextRecord op key value], ⟨?_, ?_, ?_⟩, ?_, ?_⟩
  · exact (hc.wal.append op hlegible.1 hv).2
  · rw [← hwrite]
    exact hc.durable.append _
  · exact hc.legible.append hlegible
  · rw [← hwrite]
    exact lastWrite_append_isSome records _
  · rw [WalRecord.write_key]
    exact hlegible

/-- The storage write completes the call's. -/
theorem Underway.write {write : Write Bytes Bytes} (h : Underway write w) :
    Intact { w with storage := w.storage.write write } := by
  obtain ⟨records, hc, hlog, hlegible⟩ := h
  refine ⟨records, hc.wal, ?_, hc.legible.write hlegible⟩
  rw [contents_write_eq]
  exact hc.durable.write write fun _ => hlog

/-- A write to no data needs no record. -/
theorem Intact.aside (h : Intact w) (write : Write Bytes Bytes)
    (hdata : ¬ IsData write.key) (hlegible : Legible write.key write.value) :
    Intact { w with storage := w.storage.write write } := by
  obtain ⟨records, hc⟩ := h
  refine ⟨records, hc.wal, ?_, hc.legible.write hlegible⟩
  exact (hc.durable.write write fun hk => absurd hk hdata).congr
    fun _ => getElem?_write_aside _ write hdata

/-- A flush takes nothing away. -/
theorem Intact.flush (h : Intact w) :
    Intact { w with storage := w.storage.flush } := by
  obtain ⟨records, hc⟩ := h
  refine ⟨records, hc.wal, ?_, hc.legible.flush⟩
  simp only [StorageBackend.contents_flush]
  exact hc.durable.flush

/-- A rotation right after a flush drops nothing a restart would need. -/
theorem Intact.rotate (h : Intact w) {s : StorageBackend}
    (hs : w.storage = s.flush) (hd : s.isDurable = true) :
    Intact { w with wal := (w.wal.rotate none).2 } := by
  obtain ⟨records, hc⟩ := h
  refine ⟨[], hc.wal.rotate.2, ?_, hc.legible.nil⟩
  show Durable w.storage [] (w.storage.contents[·]?)
  rw [hs]
  simp only [StorageBackend.contents_flush]
  exact durable_flush_nil hd

end Steps

-- ================================================================ the calls

section Programs

variable {ext : Externals} {cfg : NodeConfig} {w : World} {α : Type}

variable (ext) in
/-- The program leaves things intact. -/
abbrev LeavesIntact (x : NodeProg α) : Prop := x.Preserves (calm ext) Intact

/-- A quiet step leaves the node intact. -/
theorem intact_quiet {p : Prim} (h : Intact w) (hp : p.Quiet) :
    (calm ext).post w p fun _ w' => Intact w' := by
  refine calm_post fun now instant => ?_
  obtain ⟨hwal, hstorage⟩ := hp.exec ext (w.tick now instant)
  exact h.same hwal hstorage

theorem leavesIntact_quiet {x : NodeProg α} (hx : x.Uses Prim.Quiet) :
    LeavesIntact ext x := hx.preserves fun _ _ h hp => intact_quiet h hp

private theorem length_bytesOf {t : String} (ht : KeyCodec.ValidTenant t)
    (s : Subspace) {payload : Bytes} (hp : payload.length ≤ 255) :
    (KeyCodec.bytesOf t s payload).length < 2 ^ 32 := by
  have hle := ht.2
  simp only [KeyCodec.bytesOf, KeyCodec.writeTenant, maxTenantLen,
    List.length_append, List.length_cons, List.length_nil] at *
  omega

/-- A record of the node's own bookkeeping. -/
theorem intact_bookkeeping {t : String} {s : Subspace}
    {key payload : Bytes} (h : Intact w)
    (hk : KeyCodec.encode t s payload = .ok key) (hs : s ≠ .data)
    (hp : payload.length ≤ 255) (value : Bytes) (now instant : Nat) :
    Intact { w.tick now instant with
      storage := w.storage.write (.put key (ValueCodec.encode value none)) } := by
  obtain ⟨ht, rfl⟩ := KeyCodec.encode_eq_ok.mp hk
  exact (h.tick now instant).aside (.put _ _) (not_isData_encode hk hs)
    (legible_encode (length_bytesOf ht s hp) value fun _ he => nomatch he)

/-- The usage record is legible. -/
private theorem commitAccounting_intact (plan : Option Accounting) :
    LeavesIntact ext (commitAccounting plan) := by
  refine (commitAccounting_records plan).preserves ?_
  rintro g p h ⟨a, -, ⟨delta, rfl⟩ | ⟨key, total, hk, rfl⟩⟩
  · exact intact_quiet h trivial
  · exact calm_post fun now instant =>
      intact_bookkeeping h hk (by decide) (by decide) _ now instant

/-- A log rotated after a flush has nothing left to keep. -/
private theorem flushAndRotate_intact (h : Intact w)
    (hd : w.storage.isDurable = true) :
    wp (calm ext) (fun w' _ => Intact w') flushAndRotate.run w :=
  calm_post fun _ _ => calm_post fun _ _ =>
    ((h.tick _ _).flush.tick _ _).rotate rfl hd

/-- A log is only rotated on a backend that can flush. -/
private theorem rotateWalIfNeeded_intact :
    LeavesIntact ext (rotateWalIfNeeded cfg) := by
  intro w h
  refine calm_post fun now instant => ?_
  show wp _ _ (if w.storage.isDurable = true then _ else _) _
  split
  · next hd =>
    refine calm_post fun now' instant' => ?_
    have h' : Intact ((w.tick now instant).tick now' instant') := h.same rfl rfl
    show wp _ _ (if _ then _ else _) _
    split
    · exact h'
    · exact (wp_bind _ _ _).mpr (flushAndRotate_intact h' hd)
  · exact h.tick now instant

/-- The end of every write. -/
theorem settle_intact (plan : Option Accounting) (key value : Bytes)
    (kind : ChangeKind) : LeavesIntact ext (ExceptT.run (do
      commitAccounting plan
      publishChange key kind value
      rotateWalIfNeeded cfg : NodeM Unit)) := by
  refine preserves_bindE (preserves_lift (commitAccounting_intact plan))
    fun _ => ?_
  refine preserves_bindE (preserves_lift (leavesIntact_quiet
    ((publishChange_uses key kind value).mono fun _ hp => hp.quiet)))
    fun _ => ?_
  exact preserves_lift rotateWalIfNeeded_intact

/-- A logged write is under way. -/
private theorem wp_append_intact (h : Intact w) (op : WalOp) {key value : Bytes}
    (hv : value.length < 2 ^ 32)
    (hlegible : Legible key (WalRecord.write ⟨0, op, key, value⟩).value) :
    wp (calm ext) (fun w' r => r = .ok w.wal.nextSeq
        ∧ Underway (WalRecord.write ⟨0, op, key, value⟩) w')
      (walAppend op key value).run w :=
  calm_post fun now instant =>
    ⟨rfl, (h.tick now instant).append op hv hlegible⟩

theorem Underway.tick {write : Write Bytes Bytes} (h : Underway write w)
    (now instant : Nat) : Underway write (w.tick now instant) := by
  obtain ⟨records, hc, hrest⟩ := h
  exact ⟨records, ⟨hc.wal, hc.durable, hc.legible⟩, hrest⟩

/-- A put whose frame fits leaves the node intact. -/
private theorem putWithTtl_intact {key value : Bytes} (hk : key.length < 2 ^ 32)
    (hv : value.length + 9 < 2 ^ 32) (ttlMs : Nat) :
    LeavesIntact ext (putWithTtl cfg key value ttlMs).run := by
  intro w h
  have hstamp : (expiryStamp ttlMs).Yields Prim.Quiet fun exp =>
      ∀ e ∈ exp, e < 2 ^ 64 :=
    (expiryStamp_yields ttlMs).mono fun p hp => hp ▸ trivial
  refine (wp_bindE _ _ _).mpr ((wp_lift _ _).mpr (wp_of_yields
    (fun _ _ h hp => intact_quiet h hp) ?_ hstamp h))
  intro w₁ exp h₁ hexp
  refine (preserves_bindE (leavesIntact_quiet ((planAccounting_uses key _).mono
    fun _ hp => hp.quiet)) fun plan => ?_) w₁ h₁
  refine preserves_bindE (leavesIntact_quiet ((checkAccounting_uses plan).mono
    fun _ hp => hp.quiet)) fun _ => ?_
  intro w₂ h₂
  refine (wp_bindE _ _ _).mpr (wp_mono ?_ (wp_append_intact h₂ .put
    (ValueCodec.encode_length_lt hv exp) (legible_encode hk value hexp)))
  rintro w₃ _ ⟨rfl, h₃⟩
  refine (wp_bindE _ _ _).mpr (calm_post fun now instant => ?_)
  refine preserves_bindE (preserves_lift (leavesIntact_quiet
    ((scheduleExpiry_uses key exp).mono fun _ hp => hp.quiet))) (fun _ => ?_)
    _ (h₃.tick now instant).write
  exact settle_intact plan key value .put

/-- So does a delete. -/
private theorem delete_intact {key : Bytes} (hk : key.length < 2 ^ 32) :
    LeavesIntact ext (NodeService.delete cfg key).run := by
  refine preserves_bindE (leavesIntact_quiet
    ((planDeleteAccounting_uses key).mono fun _ hp => hp.quiet))
    fun plan => ?_
  intro w₁ h₁
  refine (wp_bindE _ _ _).mpr (wp_mono ?_ (wp_append_intact h₁ .delete
    (by decide) (legible_delete hk)))
  rintro w₂ _ ⟨rfl, h₂⟩
  refine (wp_bindE _ _ _).mpr (calm_post fun now instant => ?_)
  exact settle_intact plan key [] .delete _ (h₂.tick now instant).write

/-- The sweep only deletes what it finds, and that has a legible key. -/
theorem sweepKey_intact (now : Nat) (key : Bytes) :
    LeavesIntact ext (sweepKey cfg now key) := by
  intro w h
  refine calm_post fun now' instant => ?_
  have h' := h.tick now' instant
  have hget : (Prim.exec ext none (.storage (.get key))
      (w.tick now' instant)).1 = .ok w.storage.contents[key]? := rfl
  cases hraw : w.storage.contents[key]? with
  | none =>
      rw [hget, hraw]
      exact h'
  | some raw =>
      rw [hget, hraw]
      show wp _ _ (sweepFound cfg now key raw) _
      have hx : LeavesIntact ext (sweepFound cfg now key raw) := by
        unfold sweepFound
        split
        · refine preserves_bind (delete_intact (h.legible hraw).1) ?_
          rintro (e | u) <;> exact preserves_ret _
        · exact preserves_bind (leavesIntact_quiet
            ((reschedule_uses key raw).mono fun _ hp => hp.quiet))
            fun _ => preserves_ret _
        · exact preserves_ret _
      exact hx _ h'

/-- So does a sweep: the keys it deletes were legible. -/
private theorem sweepOnce_intact : LeavesIntact ext (sweepOnce cfg) := by
  refine sweepOnce_preserves_of_key ?_ sweepKey_intact
  rintro g p h (rfl | ⟨now, rfl⟩ | hp)
  · exact intact_quiet h trivial
  · exact intact_quiet h trivial
  · exact intact_quiet h hp.quiet

/-- Keys and values fit the length fields of a frame. -/
def Op.Fits : Op → Prop
  | .put key value _ => key.length < 2 ^ 32 ∧ value.length + 9 < 2 ^ 32
  | .delete key => key.length < 2 ^ 32
  | _ => True

/-- So does every call that fits. -/
theorem prog_intact {op : Op} (hop : op.Fits) :
    LeavesIntact ext (op.prog cfg) := by
  cases op with
  | put key value ttlMs =>
      exact preserves_map _ (putWithTtl_intact hop.1 hop.2 ttlMs)
  | delete key => exact preserves_map _ (delete_intact hop)
  | get key =>
      refine preserves_map _ (leavesIntact_quiet ((get_uses key).mono ?_))
      rintro p (rfl | hp | hp)
      · exact trivial
      · exact hp.quiet
      · exact hp.quiet
  | scan pre =>
      refine preserves_map _ (leavesIntact_quiet ?_)
      exact uses_bindE ((wp_step _).mpr ⟨trivial, fun _ => trivial⟩)
        fun raw => uses_lift ⟨trivial, fun _ => trivial⟩
  | scanRange start stop =>
      refine preserves_map _ (leavesIntact_quiet ?_)
      exact uses_bindE ((wp_step _).mpr ⟨trivial, fun _ => trivial⟩)
        fun raw => uses_lift ⟨trivial, fun _ => trivial⟩
  | sweep => exact preserves_map _ sweepOnce_intact

/-- A quota record is legible, and no data. -/
theorem setQuota_intact (t : String) (q : Quota) :
    LeavesIntact ext (setQuota ext t q).run := by
  intro w h
  unfold setQuota
  cases hk : KeyCodec.encode t .metadata quotaKey with
  | error e => exact h
  | ok key =>
      refine calm_post fun now instant => ?_
      have h' := intact_bookkeeping h hk (by decide) (by decide)
        (ext.quotaToVec q) now instant
      exact calm_post fun now' instant' => h'.same rfl rfl

/-- Clearing a quota removes a record and no data. -/
theorem clearQuota_intact (t : String) :
    LeavesIntact ext (clearQuota t).run := by
  intro w h
  unfold clearQuota
  cases hk : KeyCodec.encode t .metadata quotaKey with
  | error e => exact h
  | ok key =>
      refine calm_post fun now instant => ?_
      obtain ⟨ht, rfl⟩ := KeyCodec.encode_eq_ok.mp hk
      have h' := (h.tick now instant).aside (.delete _)
        (not_isData_encode hk (by decide))
        (legible_delete (length_bytesOf ht _ (by decide)))
      exact calm_post fun now' instant' => h'.same rfl rfl

-- ================================================================= restart

/-- Some of the records are replayed over `found`. -/
structure Replayed (records applied : List WalRecord) (found : Table)
    (T : Bytes → Option Bytes) (w : World) : Prop where
  carries : Carries w records T
  contents : w.storage.contents = applyAll (applied.map WalRecord.write) found

section Restart

variable {records applied : List WalRecord} {found : Table}
  {T : Bytes → Option Bytes}

theorem Replayed.tick (h : Replayed records applied found T w)
    (now instant : Nat) :
    Replayed records applied found T (w.tick now instant) :=
  ⟨⟨h.carries.wal, h.carries.durable, h.carries.legible⟩, h.contents⟩

/-- The segment decides the key of its own record. -/
theorem Replayed.write {r : WalRecord} (h : Replayed records applied found T w)
    (hr : r ∈ records) : Replayed records (applied ++ [r]) found T
      { w with storage := w.storage.write r.write } := by
  have hlog : (lastWrite (records.map WalRecord.write) r.write.key).isSome :=
    lastWrite_isSome.mpr ⟨r.write, List.mem_map_of_mem hr, rfl⟩
  have hlegible : Legible r.write.key r.write.value := by
    rw [WalRecord.write_key]
    exact h.carries.legible.records r hr
  refine ⟨⟨h.carries.wal, h.carries.durable.write _ fun _ => hlog,
    h.carries.legible.write hlegible⟩, ?_⟩
  show (w.storage.write r.write).contents = _
  rw [StorageBackend.contents_write, h.contents, List.map_append,
    applyAll_append]
  rfl

/-- Replaying a record applies its write. -/
private theorem wp_replayRecord_replayed {r : WalRecord}
    (h : Replayed records applied found T w) (hr : r ∈ records) :
    wp (calm ext) (fun w' a => a = .ok ()
        ∧ Replayed records (applied ++ [r]) found T w')
      (replayRecord r).run w := by
  unfold replayRecord
  have hwrite := fun now instant => (h.tick now instant).write hr
  unfold WalRecord.write at hwrite
  cases hop : r.op with
  | put =>
      rw [hop] at hwrite
      exact calm_post fun now instant => ⟨rfl, hwrite now instant⟩
  | delete =>
      rw [hop] at hwrite
      exact calm_post fun now instant => ⟨rfl, hwrite now instant⟩

/-- Replaying the rest applies them all. -/
private theorem wp_replayLoop_replayed :
    ∀ (rest applied : List WalRecord) {w : World},
      (∀ r ∈ rest, r ∈ records) → Replayed records applied found T w →
      wp (calm ext) (fun w' a => a = .ok ()
          ∧ Replayed records (applied ++ rest) found T w')
        (replayLoop rest).run w := by
  intro rest
  induction rest with
  | nil =>
      intro applied w _ h
      rw [List.append_nil]
      exact ⟨rfl, h⟩
  | cons r rest ih =>
      intro applied w hin h
      refine (wp_bindE _ _ _).mpr (wp_mono ?_
        (wp_replayRecord_replayed h (hin r List.mem_cons_self)))
      rintro w₁ _ ⟨rfl, h₁⟩
      refine wp_mono ?_ (ih (applied ++ [r])
        (fun r' hr' => hin r' (List.mem_cons_of_mem _ hr')) h₁)
      rintro w₂ _ ⟨rfl, h₂⟩
      rw [List.append_assoc] at h₂
      exact ⟨rfl, h₂⟩

end Restart

/-- The data is `T`, and a restart would find it so. -/
def Restored (T : Bytes → Option Bytes) (w : World) : Prop :=
  Intact w ∧ ∀ k, IsData k → w.storage.contents[k]? = T k

/-- A quiet step leaves the restored data alone. -/
private theorem restored_quiet {T : Bytes → Option Bytes} {p : Prim}
    (h : Restored T w) (hp : p.Quiet) :
    (calm ext).post w p fun _ w' => Restored T w' := by
  refine calm_post fun now instant => ?_
  obtain ⟨hwal, hstorage⟩ := hp.exec ext (w.tick now instant)
  refine ⟨h.1.same hwal hstorage, fun k hk => ?_⟩
  rw [hstorage]
  exact h.2 k hk

/-- So does retiring the replayed segment. -/
private theorem retireSegment_restored {T : Bytes → Option Bytes}
    (h : Restored T w) :
    wp (calm ext) (fun w' _ => Restored T w') retireSegment.run w := by
  refine calm_post fun now instant => ?_
  show wp _ _ (ExceptT.run (if w.storage.isDurable = true then _ else _)) _
  split
  · next hd =>
    refine calm_post fun now' instant' => calm_post fun now'' instant'' => ?_
    refine ⟨((h.1.tick _ _).tick _ _ |>.flush.tick _ _).rotate rfl hd,
      fun k hk => ?_⟩
    show w.storage.flush.contents[k]? = T k
    rw [StorageBackend.contents_flush]
    exact h.2 k hk
  · exact ⟨h.1.tick now instant, h.2⟩

/-- A data directory that a restart makes `T` of. -/
structure Found (T : Bytes → Option Bytes) (w : World) : Prop where
  readable : ∃ records, FileHolds w.wal.file records
    ∧ Durable w.storage records T ∧ Throughout Legible w.storage records
  memory : w.storage.isDurable = false → w.storage.contents = ∅

/-- What a crash leaves of an intact node, a start can restore. -/
theorem Intact.found (h : Intact w) {kept : List (Write Bytes Bytes)}
    (hk : w.storage.MayKeep kept) :
    Found (w.storage.contents[·]?) (w.crash cfg kept w.wal.file) := by
  obtain ⟨records, hc⟩ := h
  refine ⟨⟨records, hc.wal.fileHolds, hc.durable.survive hk,
    hc.legible.survive hk⟩, fun hd => ?_⟩
  replace hd : (w.storage.survive kept).isDurable = false := hd
  show (w.storage.survive kept).contents = ∅
  revert hd
  cases w.storage with
  | memory m => exact fun _ => rfl
  | fjall f => exact fun hd => nomatch hd

/-- An empty directory holds nothing. -/
theorem found_fresh (cfg : NodeConfig) (now instant : Nat) :
    Found (fun _ => none) (.fresh cfg now instant) := by
  have hempty : ∀ k v, (∅ : Table)[k]? = some v → Legible k (some v) :=
    fun k v hkv => by simp at hkv
  unfold World.fresh World.boot
  cases cfg.backend with
  | memory =>
      refine ⟨⟨[], .absent, fun k _ => ⟨?_, fun w hw => nomatch hw⟩,
        ⟨hempty, hempty, fun w hw => (nomatch hw), fun r hr => nomatch hr⟩⟩,
        fun _ => rfl⟩
      exact ExtTreeMap.getElem?_empty
  | fjall =>
      refine ⟨⟨[], .absent, fun k _ => ⟨?_, fun w hw => nomatch hw⟩,
        ⟨hempty, hempty, fun w hw => (nomatch hw), fun r hr => nomatch hr⟩⟩,
        fun hd => nomatch hd⟩
      exact ExtTreeMap.getElem?_empty

/-- Opening the log finds every record there is to replay. -/
private theorem wp_walOpen_replayed {T : Bytes → Option Bytes} (h : Found T w) :
    wp (calm ext) (fun w' r => ∃ recovery, r = .ok recovery
        ∧ w'.storage = w.storage
        ∧ Replayed recovery.records [] w.storage.contents T w')
      walOpen.run w := by
  obtain ⟨records, hfile, hd, hl⟩ := h.readable
  obtain ⟨v, recovery, hopen, hrec, hholds⟩ := hfile.open
  refine calm_post fun now instant => ?_
  have hexec : Prim.exec ext none (.wal .open) (w.tick now instant)
      = (.ok recovery, { w.tick now instant with wal := v }) := by
    simp only [Prim.exec, WalPrim.exec, World.tick, hopen]
  show ∃ recovery', (Prim.exec ext none (.wal .open) (w.tick now instant)).1
    = .ok recovery' ∧ _
  rw [hexec]
  subst hrec
  exact ⟨recovery, rfl, rfl, ⟨hholds, hd, hl⟩, rfl⟩

/-- A start that answers has the data back. -/
theorem wp_open_restored {T : Bytes → Option Bytes} (h : Found T w) :
    wp (calm ext) (fun w' r => r = .ok () → Restored T w')
      (NodeService.open ext).run w := by
  unfold NodeService.open
  refine (wp_bindE _ _ _).mpr (wp_mono ?_ (wp_walOpen_replayed h))
  rintro w₁ _ ⟨recovery, rfl, hst, h₁⟩
  unfold replay
  refine (wp_bindE _ _ _).mpr ((wp_bindE _ _ _).mpr (wp_mono ?_
    (wp_replayLoop_replayed recovery.records [] (fun _ hr => hr) h₁)))
  rintro w₂ _ ⟨rfl, h₂⟩
  -- replaying puts every data key where it was before the crash, whether or
  -- not its write had been flushed
  have hsame : ∀ k, IsData k → w₂.storage.contents[k]? = T k := by
    intro k hk
    rw [h₂.contents]
    refine h₂.carries.durable.replay hk fun hl => ?_
    have hd := h₁.carries.durable
    rw [hst] at hd
    exact hd.contents hk h.memory hl
  have hrestored : Restored T w₂ :=
    ⟨⟨_, h₂.carries.wal, h₂.carries.durable.congr hsame, h₂.carries.legible⟩,
      hsame⟩
  refine (wp_bindE _ _ _).mpr (wp_mono ?_ (retireSegment_restored hrestored))
  rintro w₃ (e | u) h₃
  · exact nofun
  refine (wp_bindE _ _ _).mpr (wp_of_uses
    (fun _ _ h hp => restored_quiet h hp) ?_
    ((loadQuotas_uses ext).mono fun _ hp => hp.quiet) h₃)
  rintro w₄ (e | n) h₄
  · exact nofun
  rw [onResult_ok]
  refine wp_of_uses (fun _ _ h hp => restored_quiet h hp) ?_
    bootstrapFromStorage_uses h₄
  exact fun _ _ h _ => h

end Programs

end FerrisKv
