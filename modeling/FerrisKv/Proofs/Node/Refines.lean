/-
The node refines its specification: whatever calls are made and wherever
the process dies, every answer is one the abstract store could give.

# The joint logic

Programs are judged over pairs of a world and a state of the
specification (`storeRules`). Before each step a restart must find an
image of the abstract map, also if the process dies inside the step; the
step may then be matched by internal steps of the specification. A put or
delete happens, abstractly, at its log append: before it a crash loses
the operation, from its last byte on replay completes it. The storage
write that follows changes nothing a restart could see.

The clock may advance before any step, which is why the rules and the
postcondition `Finished` quantify over later times.
-/
import FerrisKv.Proofs.Node.Footprint
import FerrisKv.Proofs.Node.Represents
import FerrisKv.Proofs.Node.ScanBounds

namespace FerrisKv

open Std WriteLog Prog NodeService Spec

-- ================================================================ the rules

/-- Move the specification's clock. -/
def Spec.State.tick (a : Spec.State) (now : Nat) : Spec.State :=
  { a with now := now }

/-- A process that dies here, or inside the step `p`, leaves an image of
the map behind: of the map as it is, or as the specification can make it
at once. -/
def CrashSafe (S : Setting) (w : World) (a : Spec.State) (p : Prim) :
    Prop :=
  Recoverable w.storage w.wal.file a.map w.now
    ∧ ∀ q n, p = .wal q → S.cut q w.wal n → ∃ a', store.Silent a a'
      ∧ Recoverable w.storage
        (applyEffects ((q.effects w.wal).take n) w.wal.file) a'.map w.now

/-- The rules of the joint logic. -/
def storeRules (S : Setting) : Rules (World × Spec.State) Prim Prim.Resp where
  post g p K := ∀ now instant, g.1.now ≤ now →
    CrashSafe S (g.1.tick now instant) (g.2.tick now) p
      ∧ ∃ a, store.Silent (g.2.tick now) a
        ∧ K (p.exec S.ext none (g.1.tick now instant)).1
          ((p.exec S.ext none (g.1.tick now instant)).2, a)
  mono hK h now instant hn := by
    obtain ⟨hc, a, ha, hk⟩ := h now instant hn
    exact ⟨hc, a, ha, hK _ _ hk⟩

/-- The specification can finish the call with this answer, now or
later. -/
def Finished (op : Op) (g : World × Spec.State) (r : Answer) : Prop :=
  ∀ now instant, g.1.now ≤ now → ∃ m, Represents (g.1.tick now instant) m
    ∧ store.Silent (g.2.tick now) ⟨m, now, .answered op r⟩

/-- The specification's state beside `w` in phase `ph`. -/
abbrev beside (w : World) (m : Spec.Map) (ph : Spec.Phase) :
    World × Spec.State := (w, ⟨m, w.now, ph⟩)

/-- Some time after `w`, the node represents `m` and the specification is
in phase `ph`. -/
def After (w : World) (m : Spec.Map) (ph : Spec.Phase)
    (g : World × Spec.State) : Prop :=
  ∃ w', Represents w' m ∧ w.now ≤ w'.now ∧ g = beside w' m ph

theorem tick_still (w : World) {now : Nat} (instant : Nat)
    (h : w.now ≤ now) : Still w (w.tick now instant) := ⟨rfl, rfl, h⟩

/-- Outside the log a crash leaves what is held. -/
theorem CrashSafe.of_holding {S : Setting} {w : World}
    {records : List WalRecord} {T : Bytes → Option Bytes} {a : Spec.State}
    (h : Holding w records T a.map) {p : Prim} (hp : ∀ q, p ≠ .wal q) :
    CrashSafe S w a p :=
  ⟨h.recoverable, fun q _ hq => absurd hq (hp q)⟩

-- ============================================================= quiet steps

/-- No step moves the clock. -/
theorem exec_now (ext : Externals) (fault : Option Fault) (p : Prim)
    (w : World) : (p.exec ext fault w).2.now = w.now := by
  cases p <;> rfl

section Programs

variable {S : Setting} {w : World} {m : Spec.Map} {ph : Spec.Phase}
  {α : Type}

/-- A quiet step keeps the map represented. -/
theorem post_still {p : Prim} (hp : p.Quiet) (h : Represents w m)
    {K : p.Resp → World × Spec.State → Prop}
    (hK : ∀ now instant, w.now ≤ now →
      Still w (p.exec S.ext none (w.tick now instant)).2 →
      K (p.exec S.ext none (w.tick now instant)).1
        (beside (p.exec S.ext none (w.tick now instant)).2 m ph)) :
    (storeRules S).post (beside w m ph) p K := by
  intro now instant hn
  have hs := tick_still w instant hn
  obtain ⟨hwal, hstorage⟩ := hp.exec S.ext (w.tick now instant)
  have hnow := exec_now S.ext none p (w.tick now instant)
  obtain ⟨records, hh⟩ := h.still hs
  refine ⟨⟨hh.recoverable, fun q n hq _ => ?_⟩, _, .refl _, ?_⟩
  · -- the only quiet log call has no file effects
    subst hq
    refine ⟨_, .refl _, ?_⟩
    cases q with
    | segmentBytes =>
        rw [WalPrim.effects, List.take_nil]
        exact hh.recoverable
    | _ => exact hp.elim
  · have hk := hK now instant hn
      (hs.trans ⟨hstorage, hwal, hnow.symm.le⟩)
    rw [beside, hnow] at hk
    exact hk

theorem wp_still {x : NodeProg α} (hx : x.Uses Prim.Quiet)
    (h : Represents w m) :
    wp (storeRules S)
      (fun g _ => ∃ w', Still w w' ∧ g = beside w' m ph) x (beside w m ph) := by
  refine wp_of_uses (I := fun g => ∃ w', Still w w' ∧ g = beside w' m ph)
    ?_ (fun _ _ hI => hI) hx ⟨w, .refl w, rfl⟩
  rintro _ p ⟨w', hs, rfl⟩ hp
  exact post_still hp (h.still hs) fun now instant _ hs' =>
    ⟨_, hs.trans hs', rfl⟩

/-- A storage read answers from the live contents. -/
theorem wp_get_still {Q : World × Spec.State → Result (Option Bytes) → Prop}
    (h : Represents w m) (k : Bytes)
    (hQ : ∀ w', Still w w' →
      Q (beside w' m ph) (.ok w.storage.contents[k]?)) :
    wp (storeRules S) Q (storageGet k).run (beside w m ph) :=
  post_still (by trivial) h fun _ _ _ hs => hQ _ hs

-- ============================================================ log and store

/-- The append of a write to data: the specification must be able to make
the write's effect its own. -/
theorem wp_append {Q : World × Spec.State → Result Nat → Prop}
    {op : WalOp} {k v : Bytes} (h : Represents w m)
    (hk : Plain k) (hv : v.length < 2 ^ 32)
    (hmove : ∀ now, w.now ≤ now → ∃ m' ph',
      store.Silent ⟨m, now, ph⟩ ⟨m', now, ph'⟩
      ∧ (Agrees (w.storage.contents[·]?) m now →
          Agrees (rewrite (w.storage.contents[·]?)
            (WalRecord.write ⟨0, op, k, v⟩)) m' now)
      ∧ ∀ w' seq, w'.now = now →
          Logged (WalRecord.write ⟨0, op, k, v⟩) w' m' →
          Q (beside w' m' ph') (.ok seq)) :
    wp (storeRules S) Q (walAppend op k v).run (beside w m ph) := by
  intro now instant hn
  obtain ⟨m', ph', hsil, hagree, hQ⟩ := hmove now hn
  obtain ⟨records, hh⟩ := h
  have ht := hh.still (tick_still w instant hn)
  have happ := ht.wal.append op hk.1 hv
  have hwrite : (w.wal.nextRecord op k v).write
      = WalRecord.write ⟨0, op, k, v⟩ := rfl
  have hdur := ht.durable.append (w.wal.nextRecord op k v)
  have hplain := ht.plain.append (r := w.wal.nextRecord op k v) hk
  rw [hwrite] at hdur
  refine ⟨⟨ht.recoverable, ?_⟩, ⟨m', now, ph'⟩, hsil, ?_⟩
  · -- inside the append: the record is out, or in
    intro q n hq _
    cases hq
    obtain hfile | hfile := ht.wal.append_cut op hk.1 hv n
    · exact ⟨_, .refl _, records, _, hfile, ht.durable, ht.agrees, ht.plain⟩
    · exact ⟨_, hsil, _, _, hfile, hdur, hagree ht.agrees, hplain⟩
  · refine hQ _ _ rfl ⟨records ++ [w.wal.nextRecord op k v], ?_, ?_, ?_⟩
    · exact ⟨happ.2, hdur, hagree ht.agrees, hplain⟩
    · rw [← hwrite]
      exact lastWrite_append_isSome records _
    · cases op <;> exact hk

/-- The storage write after its append. -/
theorem wp_storagePut_logged {Q : World × Spec.State → Result Unit → Prop}
    {k v : Bytes} (h : Logged (.put k v) w m)
    (hQ : ∀ w', Represents w' m → w.now ≤ w'.now →
      Q (beside w' m ph) (.ok ())) :
    wp (storeRules S) Q (storagePut k v).run (beside w m ph) := by
  intro now instant hn
  have ht := h.still (tick_still w instant hn)
  refine ⟨?_, _, .refl _, hQ _ ht.write hn⟩
  obtain ⟨records, hh, -⟩ := ht
  exact CrashSafe.of_holding hh nofun

/-- A logged delete that reaches storage has happened. -/
private theorem wp_storageDelete_logged
    {Q : World × Spec.State → Result Unit → Prop}
    {k : Bytes} (h : Logged (.delete k) w m)
    (hQ : ∀ w', Represents w' m → w.now ≤ w'.now →
      Q (beside w' m ph) (.ok ())) :
    wp (storeRules S) Q (storageDelete k).run (beside w m ph) := by
  intro now instant hn
  have ht := h.still (tick_still w instant hn)
  refine ⟨?_, _, .refl _, hQ _ ht.write hn⟩
  obtain ⟨records, hh, -⟩ := ht
  exact CrashSafe.of_holding hh nofun

-- ================================================== the end of every write

/-- A usage record has a key that replay can read. -/
private theorem plain_usageKey {t : String} {k : Bytes}
    (h : KeyCodec.encode t .stats usageKey = .ok k) : Plain k := by
  obtain ⟨hv, rfl⟩ := KeyCodec.encode_eq_ok.mp h
  constructor
  · have hle := hv.2
    simp only [KeyCodec.bytesOf, KeyCodec.writeTenant, maxTenantLen,
      List.length_append, List.length_cons, List.length_nil, usageKey] at *
    omega
  · intro t' hd
    rw [KeyCodec.decode_bytesOf hv] at hd
    cases hd

/-- `commit_accounting` writes no data. -/
theorem wp_commit_represents (h : Represents w m)
    (plan : Option Accounting) :
    wp (storeRules S) (fun g _ => After w m ph g)
      (commitAccounting plan) (beside w m ph) := by
  refine wp_commitAccounting_of (fun _ => ⟨w, h, le_rfl, rfl⟩) fun a _ _ => ?_
  refine post_still (by trivial) h fun now instant _ hs => ?_
  have h₁ := h.still hs
  refine ⟨fun _ _ => ⟨_, h₁, hs.now, rfl⟩, fun key hk => ?_⟩
  intro now' instant' hn'
  have h₂ := h₁.still (tick_still _ instant' hn')
  refine ⟨?_, _, .refl _, _, ?_, hs.now.trans hn', rfl⟩
  · obtain ⟨records, hh⟩ := h₂
    exact CrashSafe.of_holding hh nofun
  · exact h₂.write_of_not_data (.put key _)
      (not_isData_encode hk (by decide)) (plain_usageKey hk)

/-- Flushing and rotating keeps the data where a restart finds it. -/
theorem wp_flushAndRotate (hcut : ∀ w n, ¬ S.cut .rotate w n)
    (h : Represents w m) (hd : w.storage.isDurable = true) :
    wp (storeRules S)
      (fun g r => r = .ok () ∧ After w m ph g)
      flushAndRotate.run (beside w m ph) := by
  intro now instant hn
  have h₁ := h.still (tick_still w instant hn)
  refine ⟨?_, _, .refl _, ?_⟩
  · obtain ⟨records, hh⟩ := h₁
    exact CrashSafe.of_holding hh nofun
  · intro now' instant' hn'
    have h₂ := h₁.flush.still (tick_still _ instant' hn')
    refine ⟨?_, _, .refl _, rfl, _, h₂.rotate rfl hd, hn.trans hn', rfl⟩
    obtain ⟨records, hh⟩ := h₂
    refine ⟨hh.recoverable, fun q n hq hc => ?_⟩
    cases hq
    exact absurd hc (hcut _ _)

/-- Rotation drops only what storage has been made to keep. -/
private theorem wp_rotate_represents (hcut : ∀ w n, ¬ S.cut .rotate w n)
    (h : Represents w m) (cfg : NodeConfig) :
    wp (storeRules S) (fun g _ => After w m ph g)
      (rotateWalIfNeeded cfg) (beside w m ph) := by
  refine post_still (by trivial) h fun now instant _ hs => ?_
  have h₁ := h.still hs
  cases hd : w.storage.isDurable with
  | false =>
      show wp _ _ (if w.storage.isDurable = true then _ else _) _
      rw [hd, if_neg (by decide)]
      exact ⟨_, h₁, hs.now, rfl⟩
  | true =>
      show wp _ _ (if w.storage.isDurable = true then _ else _) _
      rw [hd, if_pos rfl]
      intro now' instant' hn'
      have h₂ := h₁.still (tick_still _ instant' hn')
      refine ⟨?_, _, .refl _, ?_⟩
      · obtain ⟨records, hh⟩ := h₂
        refine ⟨hh.recoverable, fun q n hq _ => ?_⟩
        cases hq
        refine ⟨_, .refl _, ?_⟩
        rw [WalPrim.effects, List.take_nil]
        exact hh.recoverable
      · show wp _ _ (if _ then _ else _) _
        split
        -- the log is below the threshold
        · exact ⟨_, h₂, hs.now.trans hn', rfl⟩
        · refine (wp_bind _ _ _).mpr (wp_mono ?_
            (wp_flushAndRotate hcut h₂ hd))
          rintro g r ⟨-, w', hw', hle, rfl⟩
          exact ⟨w', hw', (hs.now.trans hn').trans hle, rfl⟩

/-- The end of every write. -/
theorem wp_settle_represents (hcut : ∀ w n, ¬ S.cut .rotate w n)
    (h : Represents w m) (plan : Option Accounting) (key value : Bytes)
    (kind : ChangeKind) (cfg : NodeConfig) :
    wp (storeRules S)
      (fun g r => r = .ok () ∧ After w m ph g)
      (ExceptT.run (do
        commitAccounting plan
        publishChange key kind value
        rotateWalIfNeeded cfg : NodeM Unit)) (beside w m ph) := by
  simp only [wp_bindE, wp_lift, onResult_ok]
  refine wp_mono ?_ (wp_commit_represents h plan)
  rintro _ _ ⟨w₁, h₁, hle₁, rfl⟩
  refine wp_mono ?_ (wp_still
    ((publishChange_uses key kind value).mono fun _ hp => hp.quiet) h₁)
  rintro _ _ ⟨w₂, hs₂, rfl⟩
  refine wp_mono ?_ (wp_rotate_represents hcut (h₁.still hs₂) cfg)
  rintro _ _ ⟨w₃, h₃, hle₃, rfl⟩
  exact ⟨trivial, w₃, h₃, (hle₁.trans hs₂.now).trans hle₃, rfl⟩

-- ================================================================ planning

/-- The data a node represents always parses. -/
theorem Represents.previousBytes_ok (h : Represents w m) {k : Bytes}
    (hk : IsData k) (len : Nat) :
    ∃ n, previousBytes len w.storage.contents[k]? = .ok n := by
  obtain ⟨records, hh⟩ := h
  cases hc : w.storage.contents[k]? with
  | none => exact ⟨0, rfl⟩
  | some raw =>
      obtain ⟨e, -, hfit, rfl⟩ := hh.agrees.entry hk hc
      exact ⟨_, previousBytes_of_payloadLen
        (ValueCodec.payloadLen_encode _ hfit) len⟩

/-- Planning answers with a plan and touches nothing. -/
def Plans (w : World) (m : Spec.Map) (ph : Spec.Phase)
    (g : World × Spec.State) (r : Result (Option Accounting)) : Prop :=
  ∃ w' plan, Still w w' ∧ g = beside w' m ph ∧ r = .ok plan

/-- Planning a put changes nothing, and plans for the key's tenant. -/
private theorem wp_planAccounting_plans (h : Represents w m) (k : Bytes)
    (len : Nat) :
    wp (storeRules S) (Plans w m ph) (planAccounting k len).run
      (beside w m ph) := by
  refine wp_planAccounting_of (fun _ => ⟨w, none, .refl w, rfl, rfl⟩)
    fun t payload hd => wp_get_still h k fun w' hw => ?_
  obtain ⟨n, hn⟩ := h.previousBytes_ok ⟨t, payload, hd⟩ payload.length
  exact ⟨w', _, hw, rfl, putPlan_of_ok hn⟩

/-- So does planning a delete. -/
private theorem wp_planDelete_plans (h : Represents w m) (k : Bytes) :
    wp (storeRules S) (Plans w m ph) (planDeleteAccounting k).run
      (beside w m ph) := by
  refine wp_planDeleteAccounting_of (fun _ => ⟨w, none, .refl w, rfl, rfl⟩)
    fun t payload hd => wp_get_still h k fun w' hw => ?_
  obtain ⟨n, hn⟩ := h.previousBytes_ok ⟨t, payload, hd⟩ payload.length
  cases hc : w.storage.contents[k]? with
  | none => exact ⟨w', none, hw, rfl, rfl⟩
  | some raw =>
      rw [hc] at hn
      exact ⟨w', _, hw, rfl, deletePlan_of_ok hn⟩

/-- The quota check passes, or refuses for quota. -/
theorem wp_checkAccounting_still (h : Represents w m)
    (plan : Option Accounting) :
    wp (storeRules S)
      (fun g r => ∃ w', Still w w' ∧ g = beside w' m ph
        ∧ (r = .ok () ∨ ∃ t u l, r = .error (.quotaExceeded t u l)))
      (checkAccounting plan).run (beside w m ph) := by
  cases plan with
  | none => exact ⟨w, .refl w, rfl, .inl rfl⟩
  | some plan =>
      refine post_still (by trivial) h fun now instant _ hs => ?_
      show wp _ _ (ExceptT.run (if _ then _ else _)) _
      split
      · exact ⟨_, hs, rfl, .inl rfl⟩
      · refine post_still (by trivial) (h.still hs)
          fun now' instant' _ hs' => ?_
        show wp _ _ (ExceptT.run (if _ then _ else _)) _
        split
        · exact ⟨_, hs.trans hs', rfl, .inr ⟨_, _, _, rfl⟩⟩
        · exact ⟨_, hs.trans hs', rfl, .inl rfl⟩

-- ============================================================== operations

/-- The specification may stay where it is once it has answered. -/
theorem finished_answered {op : Op} {r : Answer} (h : Represents w m) :
    Finished op (beside w m (.answered op r)) r := fun _ instant hn =>
  ⟨m, h.still (tick_still w instant hn), .refl _⟩

/-- A put whose stamp is settled: the specification has dated it, or the
date does not matter. -/
def Dated (op : Op) (ttlMs : Nat) (exp : Option Nat) (ph : Spec.Phase) :
    Prop :=
  (∃ t, ph = .taken op t ∧ exp = stamp t ttlMs)
    ∨ ph = .called op ∧ ∀ t, exp = stamp t ttlMs

/-- A put that has read the clock has silently taken its time. -/
theorem Dated.silent {op : Op} {ttlMs : Nat} {exp : Option Nat}
    (h : Dated op ttlMs exp ph) (m : Spec.Map) (now : Nat) :
    ∃ t, store.Silent ⟨m, now, ph⟩ ⟨m, now, .taken op t⟩
      ∧ exp = stamp t ttlMs := by
  obtain ⟨t, rfl, he⟩ | ⟨rfl, he⟩ := h
  · exact ⟨t, .refl _, he⟩
  · exact ⟨now, .single .take, he now⟩

/-- A stamp fits its eight bytes. -/
private theorem stamp_fits (now ttlMs : Nat) :
    ∀ x ∈ stamp now ttlMs, x < 2 ^ 64 := by
  intro x hx
  unfold stamp at hx
  split at hx
  · cases hx
    exact saturatingAdd_lt _ _
  · cases hx

/-- Reading the clock dates a put that expires. -/
theorem wp_expiryStamp_dated {op : Op} (h : Represents w m) (ttlMs : Nat) :
    wp (storeRules S)
      (fun g exp => ∃ w' ph', Still w w' ∧ Dated op ttlMs exp ph'
        ∧ g = beside w' m ph')
      (expiryStamp ttlMs) (beside w m (.called op)) := by
  unfold expiryStamp
  split
  · next hpos =>
      intro now instant hn
      have hs := tick_still w instant hn
      obtain ⟨records, hh⟩ := h.still hs
      refine ⟨CrashSafe.of_holding hh nofun, _, .single .take, ?_⟩
      exact ⟨_, _, hs, .inl ⟨now, rfl, (if_pos hpos).symm⟩, rfl⟩
  · next hpos =>
      exact ⟨w, _, .refl w, .inr ⟨rfl, fun t => (if_neg hpos).symm⟩, rfl⟩

/-- A put answers what the specification answers, and leaves its map. -/
theorem wp_put_finished (hcut : ∀ w n, ¬ S.cut .rotate w n)
    (h : Represents w m) {cfg : NodeConfig} {k v : Bytes} {ttlMs : Nat}
    (hk : Plain k) (hv : v.length + 9 < 2 ^ 32) :
    wp (storeRules S) (Finished (.put k v ttlMs))
      ((Op.put k v ttlMs).prog cfg) (beside w m (.called (.put k v ttlMs))) := by
  refine (wp_map _ _ _).mpr ?_
  unfold putWithTtl
  rw [wp_bindE, wp_lift]
  refine wp_mono ?_ (wp_expiryStamp_dated h ttlMs)
  rintro _ exp ⟨w₁, ph, hs₁, hdated, rfl⟩
  rw [onResult_ok, wp_bindE]
  have h₁ := h.still hs₁
  refine wp_mono ?_ (wp_planAccounting_plans h₁ k v.length)
  rintro _ _ ⟨w₂, plan, hs₂, rfl, rfl⟩
  rw [onResult_ok, wp_bindE]
  have h₂ := h₁.still hs₂
  refine wp_mono ?_ (wp_checkAccounting_still h₂ plan)
  rintro _ _ ⟨w₃, hs₃, rfl, rfl | ⟨t, u, l, rfl⟩⟩
  · rw [onResult_ok, wp_bindE]
    have h₃ := h₂.still hs₃
    have hlen := ValueCodec.encode_length_lt hv exp
    -- the append is where the put happens
    refine wp_append h₃ hk hlen fun now hn => ?_
    obtain ⟨t, hsil, rfl⟩ := hdated.silent m now
    refine ⟨m.insert k ⟨v, stamp t ttlMs⟩, .answered _ (.done (.ok ())),
      hsil.tail (.act rfl), fun ha => ha.put k v (stamp_fits t ttlMs), ?_⟩
    intro w₄ seq _ hlog
    rw [onResult_ok, wp_bindE]
    refine wp_storagePut_logged hlog fun w₅ h₅ _ => ?_
    rw [onResult_ok, wp_bindE, wp_lift]
    refine wp_mono ?_ (wp_still
      ((scheduleExpiry_uses k _).mono fun _ hp => hp.quiet) h₅)
    rintro _ _ ⟨w₆, hs₆, rfl⟩
    refine wp_mono ?_
      (wp_settle_represents hcut (h₅.still hs₆) plan k v .put cfg)
    rintro _ _ ⟨rfl, w₇, h₇, -, rfl⟩
    exact finished_answered h₇
  · -- over quota: the put does not happen
    intro now instant hn
    obtain ⟨t', hsil, -⟩ := hdated.silent m now
    exact ⟨m, (h₂.still hs₃).still (tick_still _ instant hn),
      hsil.tail .refuse⟩

/-- A delete, for a client or for the sweeper: the specification must be
able to follow. -/
theorem wp_delete_after (hcut : ∀ w n, ¬ S.cut .rotate w n)
    (h : Represents w m) {cfg : NodeConfig} {k : Bytes} (hk : Plain k)
    (m' : Spec.Map) (ph' : Spec.Phase)
    (hmove : ∀ now, w.now ≤ now → store.Silent ⟨m, now, ph⟩ ⟨m', now, ph'⟩
      ∧ (Agrees (w.storage.contents[·]?) m now →
          Agrees (rewrite (w.storage.contents[·]?) (.delete k)) m' now)) :
    wp (storeRules S) (fun g r => r = .ok () ∧ After w m' ph' g)
      (delete cfg k).run (beside w m ph) := by
  unfold delete
  rw [wp_bindE]
  refine wp_mono ?_ (wp_planDelete_plans h k)
  rintro _ _ ⟨w₁, plan, hs₁, rfl, rfl⟩
  rw [onResult_ok, wp_bindE]
  refine wp_append (h.still hs₁) hk (by decide) fun now hn => ?_
  obtain ⟨hsil, hagree⟩ := hmove now (hs₁.now.trans hn)
  rw [hs₁.storage]
  refine ⟨m', ph', hsil, hagree, fun w₂ seq hnow hlog => ?_⟩
  rw [onResult_ok, wp_bindE]
  refine wp_storageDelete_logged hlog fun w₃ h₃ hle => ?_
  refine wp_mono ?_ (wp_settle_represents hcut h₃ plan k [] .delete cfg)
  rintro _ _ ⟨rfl, w₄, h₄, hle₄, rfl⟩
  refine ⟨rfl, w₄, h₄, ?_, rfl⟩
  have := hs₁.now
  omega

theorem wp_delete_finished (hcut : ∀ w n, ¬ S.cut .rotate w n)
    (h : Represents w m) {cfg : NodeConfig} {k : Bytes} (hk : Plain k) :
    wp (storeRules S) (Finished (.delete k)) ((Op.delete k).prog cfg)
      (beside w m (.called (.delete k))) := by
  refine (wp_map _ _ _).mpr (wp_mono ?_ (wp_delete_after hcut h hk
    (m.erase k) (.answered (.delete k) (.done (.ok ())))
    fun now _ => ⟨.tail (.single .take) (.act rfl), fun ha => ha.delete k⟩))
  rintro _ _ ⟨rfl, w', h', -, rfl⟩
  exact finished_answered h'

-- =================================================================== sweep

/-- Sweeping a key changes nothing a client could see. -/
theorem wp_sweepKey_after (hcut : ∀ w n, ¬ S.cut .rotate w n)
    (h : Represents w m) {cfg : NodeConfig} {t : Nat} (ht : t ≤ w.now)
    (k : Bytes) :
    wp (storeRules S) (fun g _ => After w m ph g) (sweepKey cfg t k)
      (beside w m ph) := by
  refine (wp_bind _ _ _).mpr (wp_get_still h k fun w₁ hs => ?_)
  have h₁ := h.still hs
  cases hc : w.storage.contents[k]? with
  | none => exact ⟨w₁, h₁, hs.now, rfl⟩
  | some raw =>
      show wp (storeRules S) _ (sweepFound cfg t k raw) _
      unfold sweepFound
      cases hx : ValueCodec.isExpired raw t with
      | error e =>
          exact ⟨w₁, h₁, hs.now, rfl⟩
      | ok expired =>
          cases expired with
          | false =>
              refine (wp_bind _ _ _).mpr (wp_mono ?_ (wp_still
                ((reschedule_uses k raw).mono fun _ hp => hp.quiet) h₁))
              rintro _ _ ⟨w₂, hs₂, rfl⟩
              exact ⟨w₂, h₁.still hs₂, hs.now.trans hs₂.now, rfl⟩
          | true =>
              have hk : Plain k := by
                obtain ⟨records, hh⟩ := h
                exact hh.plain.contents k raw hc
              refine (wp_bind _ _ _).mpr (wp_mono ?_
                (wp_delete_after hcut h₁ hk m ph fun now hn => ⟨.refl _, ?_⟩))
              · rintro _ _ ⟨rfl, w₂, h₂, hle, rfl⟩
                exact ⟨w₂, h₂, hs.now.trans hle, rfl⟩
              -- to the abstract store nothing happens: it does not show an
              -- entry that has expired
              · rw [hs.storage]
                exact fun ha =>
                  ha.expire hc hx (ht.trans (hs.now.trans hn))

/-- A sweep removes only what nobody can read any more. -/
private theorem wp_sweepLoop_after (hcut : ∀ w n, ¬ S.cut .rotate w n)
    {cfg : NodeConfig} {t : Nat} :
    ∀ (keys : List Bytes) (removed : Nat) {w : World}, Represents w m →
      t ≤ w.now →
      wp (storeRules S) (fun g _ => After w m ph g)
        (sweepLoop cfg t keys removed) (beside w m ph) := by
  intro keys
  induction keys with
  | nil => exact fun removed w h _ => ⟨w, h, le_rfl, rfl⟩
  | cons k rest ih =>
      intro removed w h ht
      refine (wp_bind _ _ _).mpr
        (wp_mono ?_ (wp_sweepKey_after hcut h ht k))
      rintro _ n ⟨w₁, h₁, hle, rfl⟩
      refine wp_mono ?_ (ih (removed + n) h₁ (ht.trans hle))
      rintro _ _ ⟨w₂, h₂, hle₂, rfl⟩
      exact ⟨w₂, h₂, hle.trans hle₂, rfl⟩

/-- So to the specification a sweep does nothing. -/
theorem wp_sweep_finished (hcut : ∀ w n, ¬ S.cut .rotate w n)
    (h : Represents w m) {cfg : NodeConfig} :
    wp (storeRules S) (Finished .sweep) (Op.sweep.prog cfg)
      (beside w m (.called .sweep)) := by
  refine (wp_map _ _ _).mpr ?_
  refine post_still (by trivial) h fun now instant _ hs => ?_
  have h₁ := h.still hs
  refine post_still (by trivial) h₁ fun now' instant' _ hs' => ?_
  refine wp_mono ?_
    (wp_sweepLoop_after hcut _ 0 (h₁.still hs') hs'.now)
  rintro _ removed ⟨w', h', -, rfl⟩
  intro now instant hn
  exact ⟨m, h'.still (tick_still w' instant hn),
    .tail (.single .take) (.act ⟨removed, rfl⟩)⟩

-- =================================================================== reads

/-- A read that has been dated is answered from the map as it is. -/
theorem finished_taken {op : Op} {r : Answer} {t : Nat}
    (h : Represents w m) (hr : Answers m t op r)
    (heff : effect m t op = m) :
    Finished op (beside w m (.taken op t)) r := by
  intro now instant hn
  refine ⟨m, h.still (tick_still w instant hn), .single ?_⟩
  have hact : store.step ⟨m, now, .taken op t⟩ none
      ⟨effect m t op, now, .answered op r⟩ := .act hr
  rw [heff] at hact
  exact hact

/-- Reading the clock dates a read. -/
theorem post_now_take {op : Op} (h : Represents w m)
    {K : Nat → World × Spec.State → Prop}
    (hK : ∀ now instant, Still w (w.tick now instant) →
      K now (beside (w.tick now instant) m (.taken op now))) :
    (storeRules S).post (beside w m (.called op)) .now K := by
  intro now instant hn
  have hs := tick_still w instant hn
  obtain ⟨records, hh⟩ := h.still hs
  exact ⟨CrashSafe.of_holding hh nofun, _, .single .take, hK now instant hs⟩

/-- A read answers from the map. -/
theorem wp_get_finished (h : Represents w m) {cfg : NodeConfig} {k : Bytes}
    (hk : IsData k) :
    wp (storeRules S) (Finished (.get k)) ((Op.get k).prog cfg)
      (beside w m (.called (.get k))) := by
  refine (wp_map _ _ _).mpr ?_
  unfold NodeService.get
  rw [wp_bindE]
  refine wp_get_still h k fun w₁ hs₁ => ?_
  have h₁ := h.still hs₁
  rw [onResult_ok]
  cases hc : w.storage.contents[k]? with
  | none =>
      -- nothing stored: the read is dated when it returns
      intro now instant hn
      have hs := hs₁.trans (tick_still w₁ instant hn)
      obtain ⟨records, hh⟩ := h.still hs
      have hread := hh.agrees.read hk
      rw [hs.storage] at hread
      refine ⟨m, h.still hs, .tail (.single .take) (.act ?_)⟩
      show _ = Answer.value
        (.ok (m[k]?.bind (Entry.read (w₁.tick now instant).now)))
      rw [← hread, hc]
      rfl
  | some raw =>
      refine post_now_take h₁ fun now instant hs => ?_
      have h₂ := h₁.still hs
      have hread : readRaw now k raw = lookup m now k := by
        obtain ⟨records, hh⟩ := h₂
        have hread := hh.agrees.read hk
        rw [hs.storage, hs₁.storage, hc] at hread
        exact hread
      obtain ⟨e, hfit, rfl⟩ : ∃ e : Entry, (∀ x ∈ e.expiresAt, x < 2 ^ 64)
          ∧ raw = ValueCodec.encode e.value e.expiresAt := by
        obtain ⟨records, hh⟩ := h
        obtain ⟨e, -, he⟩ := hh.agrees.entry hk hc
        exact ⟨e, he⟩
      rw [readRaw, filterEntry_encode hfit] at hread
      show wp _ _ (ExceptT.run (ofResult (ValueCodec.isExpired _ now) >>= _)) _
      rw [isExpired_encode_entry hfit now]
      cases hv : e.visible now with
      | false =>
          refine finished_taken h₂ ?_ rfl
          show _ = Answer.value (.ok (lookup m now k))
          rw [← hread, Entry.read, hv]
          rfl
      | true =>
          show wp _ _ (ExceptT.run (ofResult (ValueCodec.decode _) >>= _)) _
          rw [ValueCodec.decode_encode _ hfit]
          refine finished_taken h₂ ?_ rfl
          show _ = Answer.value (.ok (lookup m now k))
          rw [← hread, Entry.read, hv]
          rfl

/-- What both scans do with what storage gave them. -/
theorem wp_filterScan_finished {op : Op} (h : Represents w m)
    (keep : Bytes → Bool) (hkeep : ∀ k, keep k = true → IsData k)
    (hanswer : ∀ now,
      Answers m now op (.entries (.ok (select m now keep))))
    (heff : ∀ now, effect m now op = m) :
    wp (storeRules S)
      (fun g r => Finished op g (.entries (.ok r)))
      (filterScan (w.storage.contents.toList.filter fun e => keep e.1))
      (beside w m (.called op)) := by
  refine post_now_take h fun now instant hs => ?_
  refine finished_taken (h.still hs) ?_ (heff now)
  have hread : (w.storage.contents.toList.filter
      fun e => keep e.1).filterMap (filterEntry now) = select m now keep := by
    obtain ⟨records, hh⟩ := h.still hs
    exact hh.agrees.scan hkeep
  rw [hread]
  exact hanswer now

/-- So does a scan. -/
theorem wp_scan_finished (h : Represents w m) {cfg : NodeConfig}
    {pre : Bytes} (hpre : ∀ k, pre <+: k → IsData k) :
    wp (storeRules S) (Finished (.scan pre)) ((Op.scan pre).prog cfg)
      (beside w m (.called (.scan pre))) := by
  refine (wp_map _ _ _).mpr ?_
  unfold NodeService.scan
  rw [wp_bindE]
  refine post_still (by trivial) h fun now instant _ hs => ?_
  refine (wp_lift _ _).mpr ?_
  exact wp_filterScan_finished (h.still hs) (fun k => pre.isPrefixOf k)
    (fun k hk => hpre k (List.isPrefixOf_iff_prefix.mp hk))
    (fun _ => rfl) (fun _ => rfl)

/-- So does a scan of a range. -/
theorem wp_scanRange_finished (h : Represents w m) {cfg : NodeConfig}
    {start stop : Bytes} (hin : ∀ k, between start stop k = true → IsData k) :
    wp (storeRules S) (Finished (.scanRange start stop))
      ((Op.scanRange start stop).prog cfg)
      (beside w m (.called (.scanRange start stop))) := by
  refine (wp_map _ _ _).mpr ?_
  unfold NodeService.scanRange
  rw [wp_bindE]
  refine post_still (by trivial) h
    fun now instant _ hs => ?_
  refine (wp_lift _ _).mpr ?_
  exact wp_filterScan_finished (h.still hs) (between start stop) hin
    (fun _ => rfl) (fun _ => rfl)

end Programs

end FerrisKv
