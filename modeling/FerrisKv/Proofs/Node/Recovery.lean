/-
Startup finds the data again, and the node refines its specification.

`open` replays the segment over whatever the crash left in storage. Every
step of the replay writes a key the segment decides, so a crash during it
leaves exactly what was there to recover: `Holding` is kept as it is, and
only when the last record is in do the live contents become the data the
segment stood for. Only then may the segment be retired.

The simulation relates a node in mid-call to a specification that can
still finish the call (`Finished`), a node that starts up to one that is
starting; the programs' lemmas do the rest.
-/
import FerrisKv.Proofs.Node.Refines

namespace FerrisKv

open Std WriteLog Prog NodeService Spec

section Startup

variable {S : Setting} {w : World} {m : Spec.Map} {ph : Spec.Phase}

-- ================================================================== replay

/-- The data directory a process may be started on. -/
structure Bootable (w : World) (m : Spec.Map) : Prop where
  recoverable : Recoverable w.storage w.wal.file m w.now
  memory : w.storage.isDurable = false → w.storage.contents = ∅

/-- What startup has in hand between opening the log and the last record
replayed: `applied` of the records are in storage. -/
def Replaying (records applied : List WalRecord) (contents : Table)
    (T : Bytes → Option Bytes) (m : Spec.Map) (w : World) : Prop :=
  Holding w records T m
    ∧ w.storage.contents = applyAll (applied.map WalRecord.write) contents

/-- The clock and the memory may move during replay. -/
theorem Replaying.still {records applied : List WalRecord} {contents : Table}
    {T : Bytes → Option Bytes} {w' : World}
    (h : Replaying records applied contents T m w) (hs : Still w w') :
    Replaying records applied contents T m w' := by
  refine ⟨h.1.still hs, ?_⟩
  rw [hs.storage]
  exact h.2

/-- One record: its key is decided by the segment, so nothing a restart
would find changes. -/
theorem Replaying.write {records applied : List WalRecord}
    {contents : Table} {T : Bytes → Option Bytes} {r : WalRecord}
    (h : Replaying records applied contents T m w) (hr : r ∈ records) :
    Replaying records (applied ++ [r]) contents T m
      { w with storage := w.storage.write r.write } := by
  obtain ⟨hh, hc⟩ := h
  have hplain : Plain r.write.key := by
    rw [WalRecord.write_key]
    exact hh.plain.records r hr
  have hlog : (lastWrite (records.map WalRecord.write) r.write.key).isSome :=
    lastWrite_isSome.mpr ⟨r.write, List.mem_map_of_mem hr, rfl⟩
  refine ⟨⟨hh.wal, hh.durable.write _ fun _ => hlog, hh.agrees,
    hh.plain.write hplain⟩, ?_⟩
  show (w.storage.write r.write).contents = _
  rw [StorageBackend.contents_write, hc, List.map_append, applyAll_append]
  rfl

/-- Replaying one record applies its write. -/
private theorem wp_replayRecord {records applied : List WalRecord}
    {contents : Table} {T : Bytes → Option Bytes} {r : WalRecord}
    {Q : World × Spec.State → Result Unit → Prop}
    (h : Replaying records applied contents T m w) (hr : r ∈ records)
    (hQ : ∀ w', Replaying records (applied ++ [r]) contents T m w' →
      w.now ≤ w'.now → Q (beside w' m ph) (.ok ())) :
    wp (storeRules S) Q (replayRecord r).run (beside w m ph) := by
  have hstep : ∀ now instant, w.now ≤ now →
      CrashSafe S (w.tick now instant) ⟨m, now, ph⟩ (.storage .flush)
        ∧ Q (beside { w.tick now instant with
            storage := w.storage.write r.write } m ph) (.ok ()) := by
    intro now instant hn
    have ht := h.still (tick_still w instant hn)
    exact ⟨CrashSafe.of_holding ht.1 nofun, hQ _ (ht.write hr) hn⟩
  unfold replayRecord
  cases hop : r.op with
  | put =>
      intro now instant hn
      obtain ⟨hsafe, hpost⟩ := hstep now instant hn
      refine ⟨⟨hsafe.1, nofun⟩, _, .refl _, ?_⟩
      rw [WalRecord.write, hop] at hpost
      exact hpost
  | delete =>
      intro now instant hn
      obtain ⟨hsafe, hpost⟩ := hstep now instant hn
      refine ⟨⟨hsafe.1, nofun⟩, _, .refl _, ?_⟩
      rw [WalRecord.write, hop] at hpost
      exact hpost

/-- Replaying the rest applies them all. The induction is on what is left to
replay. -/
private theorem wp_replayLoop {records : List WalRecord} {contents : Table}
    {T : Bytes → Option Bytes} :
    ∀ (rest applied : List WalRecord) {w : World},
      (∀ r ∈ rest, r ∈ records) →
      Replaying records applied contents T m w →
      wp (storeRules S)
        (fun g r => r = .ok () ∧ ∃ w', w.now ≤ w'.now
          ∧ Replaying records (applied ++ rest) contents T m w'
          ∧ g = beside w' m ph)
        (replayLoop rest).run (beside w m ph) := by
  intro rest
  induction rest with
  | nil =>
      intro applied w _ h
      rw [List.append_nil]
      exact ⟨rfl, w, le_rfl, h, rfl⟩
  | cons r rest ih =>
      intro applied w hin h
      refine (wp_bindE _ _ _).mpr ?_
      refine wp_replayRecord h (hin r List.mem_cons_self) fun w₁ h₁ hle => ?_
      refine wp_mono ?_ (ih (applied ++ [r])
        (fun r' hr' => hin r' (List.mem_cons_of_mem _ hr')) h₁)
      rintro _ _ ⟨rfl, w₂, hle₂, h₂, rfl⟩
      rw [List.append_assoc] at h₂
      exact ⟨rfl, w₂, hle.trans hle₂, h₂, rfl⟩

/-- With every record in, the live contents are the data. -/
theorem Replaying.represents {records : List WalRecord} {contents : Table}
    {T : Bytes → Option Bytes}
    (h : Replaying records records contents T m w)
    (hc : ∀ k, IsData k →
      lastWrite (records.map WalRecord.write) k = none →
      contents[k]? = T k) : Represents w m := by
  obtain ⟨hh, hcontents⟩ := h
  have hsame : ∀ k, IsData k → w.storage.contents[k]? = T k := by
    intro k hk
    rw [hcontents]
    exact hh.durable.replay hk (hc k hk)
  exact ⟨records, hh.wal, hh.durable.congr hsame, hh.agrees.congr hsame,
    hh.plain⟩

-- ================================================================= startup

/-- Opening the log of a data directory left by a crash. -/
theorem wp_walOpen
    {Q : World × Spec.State → Result Recovery → Prop}
    (hcut : ∀ v n, S.cut .open v n → v.file ≠ []) (h : Bootable w m)
    (hQ : ∀ w' T recovery, w'.storage = w.storage → w.now ≤ w'.now →
      Replaying recovery.records [] w.storage.contents T m w' →
      Q (beside w' m ph) (.ok recovery)) :
    wp (storeRules S) Q walOpen.run (beside w m ph) := by
  intro now instant hn
  obtain ⟨records, T, hfile, hd, ha, hp⟩ := h.recoverable
  have ha := ha.tick hn
  obtain ⟨v, recovery, hopen, hrec, hholds⟩ := hfile.open
  refine ⟨⟨⟨records, T, hfile, hd, ha, hp⟩, ?_⟩, _, .refl _, ?_⟩
  · intro q n hq hc
    cases hq
    exact ⟨_, .refl _, records, T, hfile.open_cut (hcut _ _ hc) n, hd, ha, hp⟩
  · have hexec : Prim.exec S.ext none (.wal .open) (w.tick now instant)
        = (.ok recovery, { w.tick now instant with wal := v }) := by
      simp only [Prim.exec, WalPrim.exec, World.tick, hopen]
    show wp _ _ (Prog.ret (Prim.exec S.ext none (.wal .open)
      (w.tick now instant)).1) ((Prim.exec S.ext none (.wal .open)
      (w.tick now instant)).2, _)
    rw [hexec]
    subst hrec
    exact hQ _ T recovery rfl hn ⟨⟨hholds, hd, ha, hp⟩, rfl⟩

/-- Without quota records there is nothing to load. -/
theorem loadQuotasLoop_plain (ext : Externals) :
    ∀ (entries : List (Bytes × Bytes)) (n : Nat),
      (∀ e ∈ entries, Plain e.1) → loadQuotasLoop ext entries n = pure n
  | [], _, _ => rfl
  | (key, raw) :: rest, n, h => by
      have hrest : loadQuotasLoop ext rest n = pure n :=
        loadQuotasLoop_plain ext rest n fun e he =>
          h e (List.mem_cons_of_mem _ he)
      unfold loadQuotasLoop
      split
      · exact hrest
      · next tenant subspace payload hd =>
          rw [if_pos]
          · exact hrest
          · by_contra hq
            rw [not_or, not_not, not_not] at hq
            obtain ⟨rfl, rfl⟩ := hq
            exact (h _ List.mem_cons_self).2 tenant hd

/-- There are no quota records to load, as only data is written here. -/
private theorem wp_loadQuotas (h : Represents w m) (ext : Externals) :
    wp (storeRules S) (fun g r => r = .ok 0 ∧ After w m ph g)
      (loadQuotas ext).run (beside w m ph) := by
  refine post_still (by trivial) h fun now instant _ hs => ?_
  refine post_still (by trivial) (h.still hs)
    fun now' instant' _ hs' => ?_
  have hplain : ∀ e ∈ w.storage.contents.scan [], Plain e.1 := by
    rintro ⟨k, v⟩ he
    obtain ⟨records, hh⟩ := h
    exact hh.plain.contents k v (Table.mem_scan.mp he).1
  have hstay := hs.trans hs'
  show wp _ _ (ExceptT.run (loadQuotasLoop ext (w.storage.contents.scan [])
    0)) _
  rw [loadQuotasLoop_plain ext _ 0 hplain]
  exact ⟨rfl, _, h.still hstay, hstay.now, rfl⟩

/-- Building index and counters changes nothing that is represented. -/
private theorem wp_bootstrap_represents (h : Represents w m) :
    wp (storeRules S) (fun g r => r = .ok () ∧ After w m ph g)
      bootstrapFromStorage.run (beside w m ph) := by
  refine post_still (by trivial) h fun now instant _ hs => ?_
  refine (wp_bindE _ _ _).mpr ((wp_lift _ _).mpr (wp_mono ?_ (wp_still
    ((bootstrapLoop_uses _ ∅).mono fun _ hp => hp.quiet)
    (h.still hs))))
  rintro _ usage ⟨w₁, hs₁, rfl⟩
  refine post_still (by trivial) ((h.still hs).still hs₁)
    fun now' instant' _ hs' => ?_
  have hstay := (hs.trans hs₁).trans hs'
  exact ⟨rfl, _, h.still hstay, hstay.now, rfl⟩

/-- Nor does retiring the replayed segment. -/
private theorem wp_retireSegment (hcut : ∀ v n, ¬ S.cut .rotate v n)
    (h : Represents w m) :
    wp (storeRules S) (fun g r => r = .ok () ∧ After w m ph g)
      retireSegment.run (beside w m ph) := by
  refine post_still (by trivial) h fun now instant _ hs => ?_
  show wp _ _ (ExceptT.run (if w.storage.isDurable = true then _ else _)) _
  split
  · next hd =>
      refine wp_mono ?_ (wp_flushAndRotate hcut (h.still hs) hd)
      rintro _ _ ⟨rfl, w₁, h₁, hle, rfl⟩
      exact ⟨rfl, w₁, h₁, hs.now.trans hle, rfl⟩
  · exact ⟨rfl, _, h.still hs, hs.now, rfl⟩

/-- Startup succeeds, and the node represents the map the crash left. -/
theorem wp_open_represents (hrot : ∀ v n, ¬ S.cut .rotate v n)
    (hcut : ∀ v n, S.cut .open v n → v.file ≠ []) (h : Bootable w m)
    (ext : Externals) :
    wp (storeRules S) (fun g r => r = .ok () ∧ After w m ph g)
      (NodeService.open ext).run (beside w m ph) := by
  unfold NodeService.open
  rw [wp_bindE]
  refine wp_walOpen hcut h fun w₁ T recovery hst hle₁ h₁ => ?_
  rw [onResult_ok, wp_bindE]
  unfold replay
  rw [wp_bindE]
  refine wp_mono ?_ (wp_replayLoop recovery.records [] (fun _ hr => hr) h₁)
  rintro _ _ ⟨rfl, w₂, hle₂, h₂, rfl⟩
  have hrep : Represents w₂ m := by
    refine Replaying.represents h₂ fun k hk hl => ?_
    have hd := h₁.1.durable
    rw [hst] at hd
    exact hd.contents hk h.memory hl
  rw [onResult_ok, wp_pureE, onResult_ok, wp_bindE]
  refine wp_mono ?_ (wp_retireSegment hrot hrep)
  rintro _ _ ⟨rfl, w₃, h₃, hle₃, rfl⟩
  rw [onResult_ok, wp_bindE]
  refine wp_mono ?_ (wp_loadQuotas h₃ ext)
  rintro _ _ ⟨rfl, w₄, h₄, hle₄, rfl⟩
  rw [onResult_ok]
  refine wp_mono ?_ (wp_bootstrap_represents h₄)
  rintro _ _ ⟨rfl, w₅, h₅, hle₅, rfl⟩
  exact ⟨rfl, w₅, h₅, by omega, rfl⟩

end Startup

-- ============================================================= the setting

/-- A call on data, of a size the log's length fields can hold. The scans
are those the RPCs make. -/
def Op.Served : Op → Prop
  | .put key value _ =>
      IsData key ∧ key.length < 2 ^ 32 ∧ value.length + 9 < 2 ^ 32
  | .delete key => IsData key ∧ key.length < 2 ^ 32
  | .get key => IsData key
  | .scan pre => ∃ t p, KeyCodec.ValidTenant t ∧ pre = KeyCodec.bytesOf t .data p
  | .scanRange start stop => ∃ t p, KeyCodec.ValidTenant t
      ∧ start = KeyCodec.bytesOf t .data p ∧ stop = nextPrefixBound start
  | .sweep => True

/-- No I/O errors; the process may die between any two steps, inside an
append, and while a torn segment is mended. A rotation and the header of
a new segment are taken to be atomic. -/
def Setting.crashing (ext : Externals) (cfg : NodeConfig) : Setting where
  ext := ext
  cfg := cfg
  call := Op.Served
  fault f := f = none
  cut
    | .append _ _ _, _, _ => True
    | .open, wal, _ => wal.file ≠ []
    | _, _, _ => False

section Refinement

variable {ext : Externals} {cfg : NodeConfig}

/-- A key of data is plain. -/
private theorem plain_of_isData {k : Bytes} (hk : IsData k)
    (hlen : k.length < 2 ^ 32) : Plain k := by
  obtain ⟨t, p, hd⟩ := hk
  refine ⟨hlen, fun t' hq => ?_⟩
  rw [hd] at hq
  cases hq

/-- What starts with a tenant's data prefix is data. -/
private theorem isData_of_data_prefix {t : String} {p k : Bytes}
    (ht : KeyCodec.ValidTenant t) (h : KeyCodec.bytesOf t .data p <+: k) :
    IsData k := by
  obtain ⟨rest, hd⟩ := decode_of_data_prefix ht h
  exact ⟨t, p ++ rest, hd⟩

/-- Every served call can be finished by the specification. -/
theorem wp_op_finished {w : World} {m : Spec.Map} (h : Represents w m)
    {op : Op} (hop : op.Served) :
    wp (storeRules (.crashing ext cfg)) (Finished op) (op.prog cfg)
      (beside w m (.called op)) := by
  have hcut : ∀ v n, ¬ (Setting.crashing ext cfg).cut .rotate v n :=
    fun _ _ hc => hc
  cases op with
  | put key value ttlMs =>
      obtain ⟨hk, hlen, hv⟩ := hop
      exact wp_put_finished hcut h (plain_of_isData hk hlen) hv
  | delete key =>
      exact wp_delete_finished hcut h (plain_of_isData hop.1 hop.2)
  | get key => exact wp_get_finished h hop
  | scan pre =>
      obtain ⟨t, p, ht, rfl⟩ := hop
      exact wp_scan_finished h fun k => isData_of_data_prefix ht
  | scanRange start stop =>
      obtain ⟨t, p, ht, rfl, rfl⟩ := hop
      refine wp_scanRange_finished h fun k hk => ?_
      rw [between, Bool.and_eq_true, decide_eq_true_iff,
        decide_eq_true_iff] at hk
      exact isData_of_data_prefix ht
        ((between_nextPrefixBound (bytesOf_data_bounded t p) k).mp hk)
  | sweep => exact wp_sweep_finished hcut h

-- ========================================================== the simulation

/-- Startup has succeeded and found the map. -/
def Opened (g : World × Spec.State) (r : Result Unit) : Prop :=
  r = .ok () ∧ ∃ m, Represents g.1 m ∧ g.2 = ⟨m, g.1.now, .starting⟩

/-- The node is where the specification is. -/
def Follows (S : Setting) (n : Machine) (a : Spec.State) : Prop :=
  a.now = n.world.now ∧
    match n.phase with
    | .opening x => wp (storeRules S) Opened x (n.world, a)
    | .idle => a.phase = .idle ∧ Represents n.world a.map
    | .serving op x => wp (storeRules S) (Finished op) x (n.world, a)
    | .down _ => False

/-- A silent step takes no time. -/
private theorem silent_now {a a' : Spec.State} (h : store.Silent a a') :
    a'.now = a.now := by
  induction h with
  | refl => rfl
  | tail _ hs ih => cases hs <;> exact ih

theorem wp_tick {S : Setting} {α : Type}
    {Q : World × Spec.State → α → Prop} {w : World} {a : Spec.State}
    {now : Nat} (instant : Nat) (hn : w.now ≤ now)
    (hQ : ∀ r, Q (w, a) r → Q (w.tick now instant, a.tick now) r)
    {x : NodeProg α} (h : wp (storeRules S) Q x (w, a)) :
    wp (storeRules S) Q x (w.tick now instant, a.tick now) := by
  cases x with
  | ret r => exact hQ r h
  | act p k => exact fun now' instant' hn' => h now' instant' (hn.trans hn')

/-- What the rules promise of the step a program is about to take, with no
time passing. -/
theorem post_at_once {S : Setting} {w : World} {a : Spec.State} {p : Prim}
    {K : p.Resp → World × Spec.State → Prop}
    (h : (storeRules S).post (w, a) p K) (hnow : a.now = w.now) :
    CrashSafe S w a p ∧ ∃ a', store.Silent a a'
      ∧ K (p.exec S.ext none w).1 ((p.exec S.ext none w).2, a') := by
  obtain ⟨m, now, ph⟩ := a
  cases hnow
  exact h w.now w.instant le_rfl

/-- A node that dies can be started again. -/
theorem follows_boot {w : World} {kept : List (Write Bytes Bytes)}
    (hk : w.storage.MayKeep kept) {file : Bytes} {a : Spec.State}
    (hnow : a.now = w.now)
    (h : ∃ a', store.Silent a a'
      ∧ Recoverable w.storage file a'.map w.now) :
    ∃ a'', store.Matches a (some .crash) a''
      ∧ Follows (.crashing ext cfg)
        (.boot ext (w.crash cfg kept file)) a'' := by
  obtain ⟨a', hsil, hrec⟩ := h
  have hnow' : a'.now = w.now := (silent_now hsil).trans hnow
  refine ⟨⟨a'.map, a'.now, .starting⟩, ⟨a', hsil, .crash⟩, hnow', ?_⟩
  have hboot : Bootable (w.crash cfg kept file) a'.map := by
    refine ⟨hrec.survive hk, fun hd => ?_⟩
    show (w.storage.survive kept).contents = ∅
    have hmem : (w.storage.survive kept).isDurable = false := hd
    cases hs : w.storage with
    | memory s => rfl
    | fjall s =>
        rw [hs] at hmem
        cases hmem
  rw [hnow']
  refine wp_mono ?_ (wp_open_represents (fun _ _ hc => hc)
    (fun _ _ hc => hc) hboot ext)
  rintro _ r ⟨rfl, w', h', -, rfl⟩
  exact ⟨rfl, _, h', rfl⟩

/-- Wherever the node is, a restart finds an image of the map. -/
theorem Follows.recoverable {S : Setting} {n : Machine} {a : Spec.State}
    (h : Follows S n a) :
    ∃ a', store.Silent a a' ∧ Recoverable n.world.storage n.world.wal.file
      a'.map n.world.now := by
  obtain ⟨w, ph⟩ := n
  obtain ⟨hnow, hph⟩ := h
  cases ph with
  | opening x =>
      cases x with
      | ret r =>
          obtain ⟨-, m, ⟨records, hh⟩, ha⟩ := hph
          refine ⟨a, .refl a, ?_⟩
          rw [show a = _ from ha]
          exact hh.recoverable
      | act p k => exact ⟨a, .refl a, (post_at_once hph hnow).1.1⟩
  | idle =>
      obtain ⟨-, records, hh⟩ := hph
      exact ⟨a, .refl a, hh.recoverable⟩
  | serving op x =>
      cases x with
      | ret r =>
          -- the call is done but has not returned, so its abstract step may
          -- still be outstanding
          obtain ⟨m, ⟨records, hh⟩, hsil⟩ := hph w.now w.instant le_rfl
          obtain ⟨map, now, aph⟩ := a
          cases hnow
          exact ⟨_, hsil, hh.recoverable⟩
      | act p k => exact ⟨a, .refl a, (post_at_once hph hnow).1.1⟩
  | down e => exact hph.elim

/-- The same inside a log call. -/
theorem Follows.recoverable_inside {S : Setting} {n : Machine}
    {a : Spec.State} (h : Follows S n a) {q : WalPrim}
    (hq : n.phase.next = some (.wal q)) {k : Nat}
    (hc : S.cut q n.world.wal k) :
    ∃ a', store.Silent a a' ∧ Recoverable n.world.storage
      (applyEffects ((q.effects n.world.wal).take k) n.world.wal.file)
      a'.map n.world.now := by
  obtain ⟨w, ph⟩ := n
  obtain ⟨hnow, hph⟩ := h
  cases ph with
  | opening x =>
      cases x with
      | ret r => cases hq
      | act p k => exact (post_at_once hph hnow).1.2 q _ (Option.some.inj hq) hc
  | idle => cases hq
  | serving op x =>
      cases x with
      | ret r => cases hq
      | act p k => exact (post_at_once hph hnow).1.2 q _ (Option.some.inj hq) hc
  | down e => cases hq

/-- Both sides may let time pass. -/
theorem Follows.tick {S : Setting} {w : World} {ph : Phase} {a : Spec.State}
    (h : Follows S ⟨w, ph⟩ a) {now : Nat} (instant : Nat)
    (hn : w.now ≤ now) : Follows S ⟨w.tick now instant, ph⟩ (a.tick now) := by
  refine ⟨rfl, ?_⟩
  cases ph with
  | opening x =>
      refine wp_tick instant hn ?_ h.2
      rintro r ⟨hr, m, hm, ha⟩
      refine ⟨hr, m, hm.still (tick_still w instant hn), ?_⟩
      rw [show a = _ from ha]
      rfl
  | idle => exact ⟨h.2.1, h.2.2.still (tick_still w instant hn)⟩
  | serving op x =>
      refine wp_tick instant hn ?_ h.2
      exact fun r hf now' instant' hn' => hf now' instant' (hn.trans hn')
  | down e => exact h.2.elim

/-- One step of a program, matched. -/
theorem follows_act {S : Setting} {α : Type} {w : World} {a : Spec.State}
    {p : Prim} {k : p.Resp → NodeProg α}
    {Q : World × Spec.State → α → Prop} (hnow : a.now = w.now)
    (h : wp (storeRules S) Q (.act p k) (w, a)) :
    ∃ a', store.Matches a none a' ∧ a'.now = (p.exec S.ext none w).2.now
      ∧ wp (storeRules S) Q (k (p.exec S.ext none w).1)
        ((p.exec S.ext none w).2, a') := by
  obtain ⟨-, a', hsil, hk⟩ := post_at_once h hnow
  refine ⟨a', hsil, ?_, hk⟩
  rw [exec_now, silent_now hsil, hnow]

/-- Every step of the node is a step of the specification or none. -/
private theorem follows_step {n n' : Machine} {l : Option Label}
    {a : Spec.State} (h : Follows (.crashing ext cfg) n a)
    (hs : Machine.Step (.crashing ext cfg) n l n') :
    ∃ a', store.Matches a l a' ∧ Follows (.crashing ext cfg) n' a' := by
  cases hs with
  | @call w op hop =>
      obtain ⟨hnow, hidle, hrep⟩ := h
      obtain ⟨m, now, ph⟩ := a
      cases hnow
      cases hidle
      exact ⟨_, ⟨_, .refl _, .call⟩, rfl, wp_op_finished hrep hop⟩
  | act hf =>
      cases (hf : _ = none)
      obtain ⟨a', hm, hnow, hwp⟩ := follows_act h.1 h.2
      exact ⟨a', hm, hnow, hwp⟩
  | @ret w op answer =>
      -- the call may take effect as late as at its return, so the abstract
      -- store takes that step silently just before
      obtain ⟨hnow, hfin⟩ := h
      obtain ⟨m', hrep, hsil⟩ := hfin w.now w.instant le_rfl
      obtain ⟨m, now, ph⟩ := a
      cases hnow
      exact ⟨_, ⟨_, hsil, .ret⟩, rfl, rfl, hrep⟩
  | openAct hf =>
      cases (hf : _ = none)
      obtain ⟨a', hm, hnow, hwp⟩ := follows_act h.1 h.2
      exact ⟨a', hm, hnow, hwp⟩
  | @opened w =>
      obtain ⟨-, -, m, hrep, ha⟩ := h
      rw [show a = _ from ha]
      exact ⟨_, ⟨_, .refl _, .opened⟩, rfl, rfl, hrep⟩
  | refused =>
      -- what a crash leaves can always be opened
      obtain ⟨-, hr, -⟩ := h
      cases hr
  | @tick w ph now instant hn hi =>
      refine ⟨a.tick now, ⟨a, .refl a, .tick ?_⟩, h.tick instant hn⟩
      rw [h.1]
      exact hn
  | @crash w ph kept hk => exact follows_boot hk h.1 h.recoverable
  | @crashInside w ph kept q k hk hq hc =>
      exact follows_boot hk h.1 (h.recoverable_inside hq hc)

/-- An empty data directory is an image of the empty map. -/
theorem bootable_fresh (cfg : NodeConfig) (now instant : Nat) :
    Bootable (.fresh cfg now instant) ∅ := by
  have hempty : ∀ k : Bytes, (∅ : Table)[k]? = none := fun k => by simp
  have hcontents : (World.fresh cfg now instant).storage.contents = ∅ := by
    unfold World.fresh World.boot
    cases cfg.backend <;> rfl
  have hpersisted :
      (World.fresh cfg now instant).storage.persisted = ∅ := by
    unfold World.fresh World.boot
    cases cfg.backend <;> rfl
  have hsince : (World.fresh cfg now instant).storage.unflushed = [] := by
    unfold World.fresh World.boot
    cases cfg.backend <;> rfl
  refine ⟨⟨[], fun _ => none, .absent, ?_, ?_, ?_⟩, fun _ => hcontents⟩
  · intro k _
    refine ⟨?_, fun w hw => ?_⟩
    · rw [hpersisted, hempty]
    · rw [hsince] at hw
      cases hw
  · intro k _
    simp
  · refine ⟨fun k v hk => ?_, fun k v hk => ?_, fun w hw => ?_, nofun⟩
    · rw [hcontents, hempty] at hk
      cases hk
    · rw [hpersisted, hempty] at hk
      cases hk
    · rw [hsince] at hw
      cases hw

/-- So the specification simulates the node. -/
private theorem follows_simulation :
    (node (.crashing ext cfg)).Simulation store
      (Follows (.crashing ext cfg)) where
  init := by
    rintro _ ⟨now, instant, rfl⟩
    refine ⟨⟨∅, now, .starting⟩, ⟨now, rfl⟩, rfl, ?_⟩
    refine wp_mono ?_ (wp_open_represents (fun _ _ hc => hc)
      (fun _ _ hc => hc) (bootable_fresh cfg now instant) ext)
    rintro _ r ⟨rfl, w', h', -, rfl⟩
    exact ⟨rfl, _, h', rfl⟩
  step _ _ _ _ h hs := follows_step h hs

/-- Crash-recovery refinement. Whatever calls are made on data, on either
backend, as the clock advances and the process dies and is started again
at any of its crash points: what a client observes of the node it could
have observed of the abstract store. -/
theorem node_refines_store (ext : Externals) (cfg : NodeConfig)
    {τ : List Label} {n : Machine}
    (h : (node (.crashing ext cfg)).Trace τ n) :
    ∃ a, store.Trace τ a := by
  obtain ⟨a, ha, -⟩ := follows_simulation.trace h
  exact ⟨a, ha⟩

/-- A put on the durable backend, a crash that loses every unflushed
write, a restart and a read: the store explains the answer. -/
theorem node_refines_store_restart :
    ∃ a, store.Trace
      [.opened, .call (.put (KeyCodec.bytesOf "a" .data [1]) [2] 0),
        .ret (.put (KeyCodec.bytesOf "a" .data [1]) [2] 0) (.done (.ok ())),
        .crash, .opened, .call (.get (KeyCodec.bytesOf "a" .data [1])),
        .ret (.get (KeyCodec.bytesOf "a" .data [1]))
          (.value (.ok (some [2])))] a := by
  have hdata : IsData (KeyCodec.bytesOf "a" .data [1]) :=
    ⟨"a", [1], KeyCodec.decode_bytesOf (by decide) .data [1]⟩
  have hserved : (Setting.crashing .plain {}).call
      (.put (KeyCodec.bytesOf "a" .data [1]) [2] 0) :=
    ⟨hdata, by decide, by decide⟩
  have hopen := Machine.trace_opened (S := .crashing .plain {}) rfl
    (.start ⟨0, 0, rfl⟩) rfl
  have hput := Machine.trace_served (a := .done (.ok ())) rfl _ hserved
    hopen (by decide +kernel)
  have hboot := Machine.trace_opened rfl
    (.visible hput (.crash (StorageBackend.mayKeep_nil _)))
    (by decide +kernel)
  have hget := Machine.trace_served (a := .value (.ok (some [2]))) rfl
    (.get (KeyCodec.bytesOf "a" .data [1])) hdata hboot (by decide +kernel)
  exact node_refines_store .plain {} hget

end Refinement

end FerrisKv
