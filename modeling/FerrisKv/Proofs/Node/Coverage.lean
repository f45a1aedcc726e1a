/-
Every entry that will expire is known to the index.

`Covered w`: each stored entry with a stamp is scheduled, no later than the
stamp. A put schedules what it stores; a sweep takes the due keys off the
index before it looks at them, and until it has dealt with a key nobody
else remembers it (`CoveredBut`). If reading the entry or deleting it fails,
nobody ever does: `sweep_forgets` is a run of that kind. Where these calls
of the sweep succeed the index covers the store, whatever else fails
(`expiring_remembered`). A start rebuilds the index from what it finds.
-/
import FerrisKv.Node.Concurrent
import FerrisKv.Node.Machine
import FerrisKv.Proofs.Node.Footprint
import FerrisKv.Proofs.Node.StoredBytes
import FerrisKv.Proofs.Node.TtlIndex

namespace FerrisKv

open Std WriteLog Prog NodeService LittleEndian

-- ================================================================= coverage

/-- The stamp of a stored entry, if it parses and has one. -/
def stampOf (raw : Bytes) : Option Nat :=
  (ValueCodec.decode raw).toOption.bind fun sv => sv.expiresAtMs

/-- Every stamped entry is scheduled in time, but for the keys `ks`. -/
def CoveredBut (ks : List Bytes) (w : World) : Prop :=
  ∀ k raw e, w.storage.contents[k]? = some raw → stampOf raw = some e →
    (∃ ts, ts ≤ e ∧ w.ttl.Scheduled k ts) ∨ k ∈ ks

/-- Every stored entry with an expiry has its key in the index, under some
timestamp that is no later. -/
def Covered (w : World) : Prop :=
  ∀ k raw e, w.storage.contents[k]? = some raw → stampOf raw = some e →
    ∃ ts, ts ≤ e ∧ w.ttl.Scheduled k ts

/-- With no exception, every stamp is covered. -/
theorem coveredBut_nil {w : World} : CoveredBut [] w ↔ Covered w := by
  simp only [CoveredBut, Covered, List.not_mem_nil, or_false]

/-- A value that decodes has the stamp it decodes to. -/
theorem stampOf_of_decode {raw : Bytes} {sv : StoredValue}
    (h : ValueCodec.decode raw = .ok sv) : stampOf raw = sv.expiresAtMs := by
  rw [stampOf, h]
  rfl

/-- One that does not has none. -/
theorem stampOf_of_error {raw : Bytes} {e : Error}
    (h : ValueCodec.decode raw = .error e) : stampOf raw = none := by
  rw [stampOf, h]
  rfl

/-- A stamp reads back. -/
private theorem stampOf_encode (value : Bytes) {exp : Option Nat}
    (h : ∀ e ∈ exp, e < 2 ^ 64) :
    stampOf (ValueCodec.encode value exp) = exp :=
  stampOf_of_decode (ValueCodec.decode_encode value h)

/-- A value written without a stamp has none. -/
theorem stampOf_unstamped (value : Bytes) :
    stampOf (ValueCodec.encode value none) = none :=
  stampOf_encode value fun _ h => by cases h

-- ==================================================================== steps

section Steps

variable {ext : Externals} {ok : Prim → Option Fault → Prop} {w : World}
  {ks : List Bytes} {α : Type}

/-- What was stored is still there or unstamped, and what was scheduled
still is. -/
theorem CoveredBut.of_grows {w' : World} (h : CoveredBut ks w)
    (hs : ∀ (k raw : Bytes) (e : Nat), w'.storage.contents[k]? = some raw →
      stampOf raw = some e → w.storage.contents[k]? = some raw)
    (ht : ∀ k ts, w.ttl.Scheduled k ts → w'.ttl.Scheduled k ts) :
    CoveredBut ks w' := by
  intro k raw e hk he
  rcases h k raw e (hs k raw e hk he) he with ⟨ts, hle, hsch⟩ | hmem
  · exact .inl ⟨ts, hle, ht k ts hsch⟩
  · exact .inr hmem

/-- A put without a stamp adds no stamped entry. -/
private theorem contents_put_stamped {s : StorageBackend}
    {key value k raw : Bytes} {e : Nat} (hv : stampOf value = none)
    (hk : (s.put key value).contents[k]? = some raw)
    (he : stampOf raw = some e) : s.contents[k]? = some raw := by
  rw [StorageBackend.put, StorageBackend.contents_write, getElem?_apply] at hk
  split at hk
  · cases hk
    rw [hv] at he
    cases he
  · exact hk

/-- A delete adds no entry at all. -/
private theorem contents_delete_some {s : StorageBackend} {key k raw : Bytes}
    (hk : (s.delete key).contents[k]? = some raw) :
    s.contents[k]? = some raw ∧ key ≠ k := by
  rw [StorageBackend.delete, StorageBackend.contents_write, getElem?_apply]
    at hk
  split at hk
  · cases hk
  · next hne => exact ⟨hk, hne⟩

/-- A step that stores no stamp and forgets no key. -/
def Prim.Unfading : Prim → Prop
  | .storage (.put _ value) => stampOf value = none
  | .ttl (.drainDue _) => False
  | _ => True

/-- Such a step uncovers nothing, whatever fails. -/
theorem Prim.Unfading.exec {p : Prim} (h : p.Unfading)
    (hc : CoveredBut ks w) (fault : Option Fault) :
    CoveredBut ks (p.exec ext fault w).2 := by
  cases p with
  | storage q =>
      cases q with
      | put key value =>
          cases fault with
          | some f => exact hc
          | none =>
              exact hc.of_grows
                (fun _ _ _ hk he => contents_put_stamped h hk he)
                fun _ _ hs => hs
      | delete key =>
          cases fault with
          | some f => exact hc
          | none =>
              exact hc.of_grows
                (fun _ _ _ hk _ => (contents_delete_some hk).1)
                fun _ _ hs => hs
      | flush =>
          cases fault with
          | some f => exact hc
          | none =>
              refine hc.of_grows (fun k raw _ hk _ => ?_) fun _ _ hs => hs
              rw [← StorageBackend.contents_flush]
              exact hk
      | get key => cases fault <;> exact hc
      | scan pre => cases fault <;> exact hc
      | scanRange start stop => cases fault <;> exact hc
      | isDurable => exact hc
  | ttl q =>
      cases q with
      | insert key exp =>
          exact hc.of_grows (fun _ _ _ hk _ => hk) fun k ts hs =>
            TtlIndex.scheduled_insert.mpr (.inr hs)
      | notifyOne => exact hc
      | drainDue now => exact h.elim
  | _ => exact hc

/-- The same as a rule. -/
private theorem unfading_post {p : Prim} (hc : CoveredBut ks w)
    (h : p.Unfading) : (restless ext ok).post w p fun _ g => CoveredBut ks g :=
  restless_post fun now instant fault _ =>
    h.exec (w := w.tick now instant) hc fault

theorem wp_unfading {x : NodeProg α} (hx : x.Uses Prim.Unfading)
    {Q : World → α → Prop} (hc : CoveredBut ks w)
    (hQ : ∀ g a, CoveredBut ks g → Q g a) :
    wp (restless ext ok) Q x w :=
  wp_of_uses (I := CoveredBut ks) (fun _ _ => unfading_post) hQ hx hc

theorem Prim.RecordsFor.unfading {t : String} {p : Prim}
    (h : p.RecordsFor t) : p.Unfading := by
  obtain ⟨d, rfl⟩ | ⟨key, total, -, rfl⟩ := h
  · exact trivial
  · exact stampOf_unstamped _

/-- Nor does the end of a write. -/
theorem settle_unfading (plan : Option Accounting) (key value : Bytes)
    (kind : ChangeKind) (cfg : NodeConfig) :
    (ExceptT.run (do
      commitAccounting plan
      publishChange key kind value
      rotateWalIfNeeded cfg : NodeM Unit)).Uses Prim.Unfading := by
  refine settle_uses_of plan key value kind cfg
    ((commitAccounting_records plan).mono ?_) ?_ ?_
  · rintro p ⟨a, -, hp⟩
    exact hp.unfading
  · rintro p ⟨q, rfl⟩
    exact trivial
  · rintro p (rfl | rfl | rfl | rfl) <;> exact trivial

theorem Prim.Looks.unfading {p : Prim} (h : p.Looks) : p.Unfading := by
  obtain ⟨key, rfl⟩ := h
  exact trivial

theorem Prim.ReadsQuota.unfading {p : Prim} (h : p.ReadsQuota) :
    p.Unfading := by
  obtain ⟨t, rfl⟩ | ⟨t, rfl⟩ := h
  · exact trivial
  · exact trivial

theorem Prim.Schedules.unfading {p : Prim} (h : p.Schedules) :
    p.Unfading := by
  obtain ⟨k, e, rfl⟩ | rfl := h
  · exact trivial
  · exact trivial

-- ============================================================== scheduling

/-- Scheduling an entry at its own stamp covers it. -/
theorem wp_scheduleExpiry {key raw : Bytes}
    (hraw : w.storage.contents[key]? = some raw)
    {exp : Option Nat} (hexp : stampOf raw = exp)
    (hc : CoveredBut (key :: ks) w) {Q : World → Unit → Prop}
    (hQ : ∀ g, CoveredBut ks g → g.storage = w.storage → Q g ()) :
    wp (restless ext ok) Q (scheduleExpiry key exp) w := by
  have hthis : ∀ e, stampOf raw = some e → ∀ (k raw' : Bytes) (e' : Nat),
      w.storage.contents[k]? = some raw' → stampOf raw' = some e' →
      (∃ ts, ts ≤ e' ∧ (w.ttl.insert key e).2.Scheduled k ts) ∨ k ∈ ks := by
    intro e he k raw' e' hk he'
    rcases hc k raw' e' hk he' with ⟨ts, hle, hs⟩ | hmem
    · exact .inl ⟨ts, hle, TtlIndex.scheduled_insert.mpr (.inr hs)⟩
    · rcases List.mem_cons.mp hmem with rfl | hmem
      · rw [hraw] at hk
        cases hk
        rw [he] at he'
        cases he'
        exact .inl ⟨e, le_rfl, TtlIndex.scheduled_insert.mpr (.inl ⟨rfl, rfl⟩)⟩
      · exact .inr hmem
  cases exp with
  | none =>
      refine hQ w ?_ rfl
      intro k raw' e' hk he'
      rcases hc k raw' e' hk he' with hs | hmem
      · exact .inl hs
      · rcases List.mem_cons.mp hmem with rfl | hmem
        · rw [hraw] at hk
          cases hk
          rw [hexp] at he'
          cases he'
        · exact .inr hmem
  | some e =>
      refine (wp_bind _ _ _).mpr (restless_post fun now instant fault _ => ?_)
      show wp _ _ (if _ then _ else _) _
      split
      · exact restless_post fun now' instant' fault' _ =>
          hQ _ (hthis e hexp) rfl
      · exact hQ _ (hthis e hexp) rfl

/-- Nothing stored, or nothing stamped, needs no index. -/
theorem CoveredBut.skip {key : Bytes} (hc : CoveredBut (key :: ks) w)
    (hno : ∀ raw, w.storage.contents[key]? = some raw → stampOf raw = none) :
    CoveredBut ks w := by
  intro k raw e hk he
  rcases hc k raw e hk he with hs | hmem
  · exact .inl hs
  · rcases List.mem_cons.mp hmem with rfl | hmem
    · rw [hno raw hk] at he
      cases he
    · exact .inr hmem

-- ================================================================= the calls

variable {cfg : NodeConfig}

/-- A put keeps the index complete, whatever fails in it. -/
theorem wp_put_covered (hc : Covered w) (key value : Bytes) (ttlMs : Nat) :
    wp (restless ext ok) (fun g _ => Covered g)
      (putWithTtl cfg key value ttlMs).run w := by
  replace hc := coveredBut_nil.mpr hc
  have herr : ∀ (g : World) (r : Result Unit), CoveredBut [] g → Covered g :=
    fun g _ hg => coveredBut_nil.mp hg
  -- the stamp is the one a restart would read
  have hstamp : (expiryStamp ttlMs).Yields Prim.Unfading fun exp =>
      ∀ e ∈ exp, e < 2 ^ 64 :=
    (expiryStamp_yields ttlMs).mono fun p hp => hp ▸ trivial
  refine (wp_bindE _ _ _).mpr ((wp_lift _ _).mpr (wp_of_yields
    (I := CoveredBut []) (fun _ _ => unfading_post) ?_ hstamp hc))
  intro g exp hg hexp
  refine (wp_bindE _ _ _).mpr (wp_unfading ((planAccounting_uses key _).mono
    fun _ hp => hp.unfading) hg ?_)
  rintro g₁ (e | plan) h₁
  · exact herr g₁ (.error e) h₁
  refine (wp_bindE _ _ _).mpr (wp_unfading ((checkAccounting_uses plan).mono
    fun _ hp => hp.unfading) h₁ ?_)
  rintro g₂ (e | u) h₂
  · exact herr g₂ (.error e) h₂
  refine (wp_bindE _ _ _).mpr (wp_unfading
    (x := (walAppend .put key (ValueCodec.encode value exp)).run)
    ⟨trivial, fun _ => trivial⟩ h₂ ?_)
  rintro g₃ (e | n) h₃
  · exact herr g₃ (.error e) h₃
  refine (wp_bindE _ _ _).mpr (restless_post fun now instant fault _ => ?_)
  cases fault with
  | some f => exact herr g₃ (.error (.storage f.text)) h₃
  | none =>
      have hput : ∀ k : Bytes,
          (g₃.storage.put key (ValueCodec.encode value exp)).contents[k]?
            = if key = k then some (ValueCodec.encode value exp)
              else g₃.storage.contents[k]? := by
        intro k
        rw [StorageBackend.put, StorageBackend.contents_write, getElem?_apply]
        rfl
      have hstored : (g₃.storage.put key
          (ValueCodec.encode value exp)).contents[key]?
            = some (ValueCodec.encode value exp) := by
        rw [hput, if_pos rfl]
      have hdue : CoveredBut [key] { g₃.tick now instant with
          storage := g₃.storage.put key (ValueCodec.encode value exp) } := by
        intro k raw e hk he
        replace hk : (g₃.storage.put key
          (ValueCodec.encode value exp)).contents[k]? = some raw := hk
        rw [hput] at hk
        split at hk
        · next heq => exact .inr (List.mem_singleton.mpr heq.symm)
        · rcases h₃ k raw e hk he with hs | hmem
          · exact .inl hs
          · cases hmem
      refine (wp_bindE _ _ _).mpr ((wp_lift _ _).mpr (wp_scheduleExpiry hstored
        (stampOf_encode value hexp) hdue ?_))
      intro g₄ h₄ _
      exact wp_unfading (settle_unfading plan key value .put cfg) h₄ herr

private theorem delete_unfading (key : Bytes) :
    (delete cfg key).run.Uses Prim.Unfading := by
  refine uses_bindE ((planDeleteAccounting_uses key).mono
    fun _ hp => hp.unfading) fun plan => ?_
  refine uses_bindE ((wp_step _).mpr ⟨trivial, fun _ => trivial⟩) fun _ => ?_
  refine uses_bindE ((wp_step _).mpr ⟨trivial, fun _ => trivial⟩) fun _ => ?_
  exact settle_unfading plan key [] .delete cfg

-- ================================================================= the sweep

/-- The calls of a sweep whose failure loses a key: reading an entry,
logging its removal, removing it. -/
def Prim.Fateful : Prim → Prop
  | .storage (.get _) => True
  | .storage (.delete _) => True
  | .wal (.append _ _ _) => True
  | _ => False

/-- What is drained is all that is not covered any more. -/
theorem Covered.drained (hc : Covered w) (now : Nat) :
    CoveredBut (w.ttl.drainDue now).1
      { w with ttl := (w.ttl.drainDue now).2 } := by
  intro k raw e hk he
  obtain ⟨ts, hle, hs⟩ := hc k raw e hk he
  rcases Nat.lt_or_ge now ts with hlt | hge
  · exact .inl ⟨ts, hle, TtlIndex.scheduled_drainDue.mpr ⟨hs, hlt⟩⟩
  · refine .inr ?_
    rw [TtlIndex.drainDue_fst, List.mem_map]
    exact ⟨(ts, k), List.mem_filter.mpr
      ⟨TtlIndex.scheduled_iff.mp hs, decide_eq_true hge⟩, rfl⟩

section Sweep

variable (hok : ∀ p fault, ok p fault → p.Fateful → fault = none)
include hok

/-- A read that can fail answers with the entry when it does not. -/
private theorem wp_fateful_get {Q : World → Result (Option Bytes) → Prop}
    {key : Bytes} (hQ : ∀ now instant, Q (w.tick now instant)
      (.ok w.storage.contents[key]?)) :
    wp (restless ext ok) Q (storageGet key).run w := by
  refine restless_post fun now instant fault hf => ?_
  cases hok _ _ hf trivial
  exact hQ now instant

/-- The delete of an entry that parses removes it. -/
theorem wp_delete_removes {key raw : Bytes} {sv : StoredValue}
    (hraw : w.storage.contents[key]? = some raw)
    (hd : ValueCodec.decode raw = .ok sv) (hc : CoveredBut (key :: ks) w) :
    wp (restless ext ok) (fun g _ => CoveredBut ks g)
      (delete cfg key).run w := by
  -- the plan cannot fail, and nothing moves before the removal
  have hplan : ∀ {Q : World → Result (Option Accounting) → Prop},
      (∀ now instant plan, Q (w.tick now instant) (.ok plan)) →
      wp (restless ext ok) Q (planDeleteAccounting key).run w := by
    intro Q hQ
    refine wp_planDeleteAccounting_of (fun _ => hQ w.now w.instant none)
      fun t payload _ => wp_fateful_get hok fun now instant => ?_
    have hlen : ValueCodec.payloadLen raw = .ok sv.value.length := by
      rw [ValueCodec.payloadLen_eq, hd]
      rfl
    rw [hraw]
    show Q _ (deletePlan t payload (some raw))
    rw [deletePlan_of_ok (previousBytes_of_payloadLen hlen _)]
    exact hQ now instant _
  refine (wp_bindE _ _ _).mpr (hplan fun now instant plan => ?_)
  refine (wp_bindE _ _ _).mpr (restless_post fun now' instant' fault hf => ?_)
  cases hok _ _ hf trivial
  refine (wp_bindE _ _ _).mpr (restless_post fun now'' instant'' fault hf => ?_)
  cases hok _ _ hf trivial
  have hgone : CoveredBut ks { w with storage := w.storage.delete key } := by
    intro k raw' e hk he
    obtain ⟨hk, hne⟩ := contents_delete_some hk
    rcases hc k raw' e hk he with hs | hmem
    · exact .inl hs
    · exact .inr ((List.mem_cons.mp hmem).resolve_left fun h => hne h.symm)
  exact wp_unfading (settle_unfading plan key [] .delete cfg) hgone
    fun _ _ h => h

/-- After its turn a candidate is gone, without a stamp, or scheduled. -/
theorem wp_sweepKey_covered (now : Nat) (key : Bytes)
    (hc : CoveredBut (key :: ks) w) :
    wp (restless ext ok) (fun g _ => CoveredBut ks g)
      (sweepKey cfg now key) w := by
  refine (wp_bind _ _ _).mpr (wp_fateful_get hok fun now' instant => ?_)
  cases hraw : w.storage.contents[key]? with
  | none =>
      exact CoveredBut.skip (w := w.tick now' instant) hc fun raw h => by
        rw [show (w.tick now' instant).storage = w.storage from rfl, hraw] at h
        cases h
  | some raw =>
      show wp _ _ (sweepFound cfg now key raw) _
      unfold sweepFound
      rw [ValueCodec.isExpired_eq]
      cases hd : ValueCodec.decode raw with
      | error e =>
          refine CoveredBut.skip (w := w.tick now' instant) hc fun raw' h => ?_
          rw [show (w.tick now' instant).storage = w.storage from rfl, hraw] at h
          cases h
          exact stampOf_of_error hd
      | ok sv =>
          simp only [Except.map]
          split
          · next hx =>
              refine (wp_bind _ _ _).mpr (wp_mono ?_
                (wp_delete_removes hok (w := w.tick now' instant) hraw hd hc))
              rintro g (e | u) hg <;> exact hg
          · refine (wp_bind _ _ _).mpr ?_
            unfold reschedule
            rw [hd]
            exact wp_scheduleExpiry (w := w.tick now' instant) hraw
              (stampOf_of_decode hd) hc fun g hg _ => hg
          · next e he => cases he

/-- Every drained key is deleted, put back or was not stamped. The induction
is on the keys still to do, which are the ones uncovered. -/
private theorem wp_sweepLoop_covered (now : Nat) :
    ∀ (keys : List Bytes) (removed : Nat) (w : World), CoveredBut keys w →
      wp (restless ext ok) (fun g _ => Covered g)
        (sweepLoop cfg now keys removed) w := by
  intro keys
  induction keys with
  | nil => exact fun removed w hc => coveredBut_nil.mp hc
  | cons key rest ih =>
      intro removed w hc
      refine (wp_bind _ _ _).mpr (wp_mono ?_ (wp_sweepKey_covered hok now key hc))
      exact fun g n hg => ih _ g hg

private theorem wp_sweepOnce_covered (hc : Covered w) :
    wp (restless ext ok) (fun g _ => Covered g) (sweepOnce cfg) w := by
  refine (wp_bind _ _ _).mpr (restless_post fun now instant fault _ => ?_)
  refine (wp_bind _ _ _).mpr (restless_post fun now' instant' fault' _ => ?_)
  exact wp_sweepLoop_covered hok _ _ 0 _
    (Covered.drained (w := w.tick now' instant') hc _)

end Sweep

-- =================================================================== startup

/-- The startup scan covers what it has scanned. -/
theorem wp_bootstrapLoop_covered :
    ∀ (entries : List (Bytes × Bytes)) (usage : ExtTreeMap String Nat)
      (w : World), (∀ e ∈ entries, w.storage.contents[e.1]? = some e.2) →
      CoveredBut (entries.map Prod.fst) w →
      wp (restless ext ok) (fun g _ => Covered g)
        (bootstrapLoop entries usage) w
  | [], usage, w => fun _ hc => coveredBut_nil.mp hc
  | (k, v) :: rest, usage, w => by
      intro hin hc
      have hk : w.storage.contents[k]? = some v := hin (k, v) List.mem_cons_self
      have hrest : ∀ e ∈ rest, w.storage.contents[e.1]? = some e.2 :=
        fun e he => hin e (List.mem_cons_of_mem _ he)
      unfold bootstrapLoop
      split
      · next err hd =>
          refine wp_bootstrapLoop_covered rest usage w hrest (hc.skip ?_)
          intro raw hraw
          rw [hk] at hraw
          cases hraw
          exact stampOf_of_error hd
      · next stored hd =>
          refine (wp_bind _ _ _).mpr (wp_scheduleExpiry hk
            (stampOf_of_decode hd) hc fun g hg hs => ?_)
          refine wp_bootstrapLoop_covered rest _ g (fun e he => ?_) hg
          rw [hs]
          exact hrest e he

/-- The bootstrap scan covers all of storage. -/
private theorem wp_bootstrap_covered :
    wp (restless ext ok) (fun g r => r = .ok () → Covered g)
      bootstrapFromStorage.run w := by
  refine (wp_bindE _ _ _).mpr (restless_post fun now instant fault _ => ?_)
  cases fault with
  | some f => exact fun h => by cases h
  | none =>
      refine (wp_bindE _ _ _).mpr ((wp_lift _ _).mpr (wp_mono ?_
        (wp_bootstrapLoop_covered _ ∅ _ ?_ ?_)))
      · exact fun g usage hg => restless_post fun _ _ _ _ _ => hg
      · rintro ⟨k, v⟩ he
        exact (Table.mem_scan.mp he).1
      · intro k raw e hk he
        refine .inr (List.mem_map.mpr ⟨(k, raw), ?_, rfl⟩)
        exact Table.mem_scan.mpr ⟨hk, List.nil_prefix⟩

/-- A start that succeeds has scheduled everything it found. -/
theorem wp_open_covered (w : World) :
    wp (restless ext ok) (fun g r => r = .ok () → Covered g)
      (NodeService.open ext).run w := by
  have hstop : ∀ (α : Type) (x : NodeM α) (f : α → NodeM Unit) (w : World),
      (∀ a g, wp (restless ext ok) (fun g r => r = .ok () → Covered g)
        (f a).run g) →
      wp (restless ext ok) (fun g r => r = .ok () → Covered g)
        (ExceptT.run (x >>= f)) w := by
    intro α x f w hf
    refine (wp_bindE _ _ _).mpr (wp_any fun g r => ?_)
    cases r with
    | error e => exact fun h => by cases h
    | ok a => exact hf a g
  refine hstop _ _ _ _ fun recovery w₁ => ?_
  refine hstop _ _ _ _ fun n w₂ => ?_
  refine hstop _ _ _ _ fun u w₃ => ?_
  refine hstop _ _ _ _ fun n w₄ => ?_
  exact wp_bootstrap_covered

/-- Every call keeps the index complete, if a sweep can read, log and
remove. -/
theorem wp_prog_covered (op : Op) (hc : Covered w)
    (hok : op = .sweep → ∀ p fault, ok p fault → p.Fateful → fault = none) :
    wp (restless ext ok) (fun g _ => Covered g) (op.prog cfg) w := by
  have hread : ∀ {α : Type} {x : NodeProg α}, x.Uses Prim.Unfading →
      wp (restless ext ok) (fun g _ => Covered g) x w := fun hx =>
    wp_unfading hx (coveredBut_nil.mpr hc) fun g _ hg => coveredBut_nil.mp hg
  cases op with
  | put key value ttlMs =>
      exact (wp_map _ _ _).mpr (wp_put_covered hc key value ttlMs)
  | delete key => exact (wp_map _ _ _).mpr (hread (delete_unfading key))
  | sweep => exact (wp_map _ _ _).mpr (wp_sweepOnce_covered (hok rfl) hc)
  | get key =>
      refine (wp_map _ _ _).mpr (hread (uses_bindE
        ((wp_step _).mpr ⟨trivial, fun _ => trivial⟩) fun o => ?_))
      cases o with
      | none => exact trivial
      | some raw =>
          refine uses_bindE (uses_lift ⟨trivial, fun _ => trivial⟩) fun now => ?_
          show Uses _ (ExceptT.run (ofResult _ >>= _))
          refine uses_bindE trivial fun expired => ?_
          cases expired with
          | true => exact trivial
          | false => exact uses_bindE trivial fun _ => trivial
  | scan pre =>
      exact (wp_map _ _ _).mpr (hread (uses_bindE
        ((wp_step _).mpr ⟨trivial, fun _ => trivial⟩) fun _ =>
        uses_lift ⟨trivial, fun _ => trivial⟩))
  | scanRange start stop =>
      exact (wp_map _ _ _).mpr (hread (uses_bindE
        ((wp_step _).mpr ⟨trivial, fun _ => trivial⟩) fun _ =>
        uses_lift ⟨trivial, fun _ => trivial⟩))

end Steps

-- ==================================================================== runs

/-- Runs of a node, from a start that succeeded on whatever it found. Each
step of a call may meet the faults `ok` permits it. -/
inductive FaultyRun (ext : Externals) (cfg : NodeConfig)
    (ok : Op → Prim → Option Fault → Prop) : World → Prop where
  | opened {w w' : World}
      (h : Ends (Prim.Goes ext fun _ _ => True) (NodeService.open ext).run w
        (.ok ()) w') : FaultyRun ext cfg ok w'
  | call {w w' : World} {op : Op} {a : Answer} (hr : FaultyRun ext cfg ok w)
      (h : Ends (Prim.Goes ext (ok op)) (op.prog cfg) w a w') :
      FaultyRun ext cfg ok w'
  | tick {w : World} {now instant : Nat} (hr : FaultyRun ext cfg ok w)
      (hn : w.now ≤ now) (hi : w.instant ≤ instant) :
      FaultyRun ext cfg ok (w.tick now instant)

/-- In a sweep, reading an entry, logging its removal and removing it
succeed. -/
def SweepSpared (op : Op) (p : Prim) (fault : Option Fault) : Prop :=
  op = .sweep → p.Fateful → fault = none

/-- Whatever fails outside the sweeps, and in them beside these calls:
between operations every stored entry with an expiry is in the index under
a timestamp that is no later. -/
theorem expiring_remembered (ext : Externals) (cfg : NodeConfig) (w : World)
    (h : FaultyRun ext cfg SweepSpared w) : Covered w := by
  induction h with
  | opened h => exact h.post (wp_open_covered _) rfl
  | @call w w' op a hr h ih =>
      exact h.post (wp_prog_covered op ih fun hop p fault hf => hf hop)
  | tick hr hn hi ih => exact ih

section Chosen

variable {ext : Externals} {cfg : NodeConfig}
  {ok : Op → Prim → Option Fault → Prop} {w : World}

/-- A handler that fails chosen steps is one of those allowed. -/
private theorem goes_strike {fits : Prim → Option Fault → Prop}
    (hit : Prim → Bool)
    (hfits : ∀ p, fits p (if hit p then some ⟨0, "disk full"⟩ else none))
    (w : World) (p : Prim) :
    Prim.Goes ext fits w p (p.strike ext hit w).1 (p.strike ext hit w).2 :=
  ⟨w.now, w.instant, _, le_rfl, le_rfl, hfits p, rfl⟩

/-- A call whose steps fail where `hit` says. -/
theorem FaultyRun.serve (hr : FaultyRun ext cfg ok w) (hit : Prim → Bool)
    (op : Op)
    (hok : ∀ p, ok op p (if hit p then some ⟨0, "disk full"⟩ else none)) :
    FaultyRun ext cfg ok ((op.prog cfg).run (Prim.strike ext hit) w).2 :=
  .call hr (ends_run (goes_strike hit hok) _ w)

end Chosen

/-- A node just started, as the beginning of such a run. -/
private theorem faultyRun_opened (cfg : NodeConfig)
    (ok : Op → Prim → Option Fault → Prop) :
    FaultyRun .plain cfg ok (.opened cfg) := by
  have hgoes : ∀ w p, Prim.Goes .plain (fun _ _ => True) w p
      (Prim.strike .plain (fun _ => false) p w).1
      (Prim.strike .plain (fun _ => false) p w).2 :=
    goes_strike (fun _ => false) fun _ => trivial
  have hends := ends_run hgoes (NodeService.open .plain).run (.fresh cfg 0 0)
  have hok : ((NodeService.open .plain).run.run
      (Prim.strike .plain fun _ => false) (.fresh cfg 0 0)).1 = .ok () := by
    cases hb : cfg.backend <;>
      simp only [World.fresh, hb] <;> rfl
  rw [hok] at hends
  exact .opened hends

/-- The node after a put with a lifetime of 5 ms. -/
def shortLived : World :=
  ((Op.put (KeyCodec.bytesOf "a" .data [1]) [7] 5).prog {}).run
    (Prim.strike .plain fun _ => false) (.opened {}) |>.2

/-- A second key of tenant `a`, put with a lifetime of 50 ms. -/
def longLived : World :=
  ((Op.put (KeyCodec.bytesOf "a" .data [2]) [8] 50).prog {}).run
    (Prim.strike .plain fun _ => false) shortLived |>.2

/-- An overwrite of it that fails at the store, after its record was logged. -/
def failedPut : Answer × World :=
  ((Op.put (KeyCodec.bytesOf "a" .data [2]) [9] 20).prog {}).run
    (Prim.strike .plain writesFail) longLived

/-- A sweep at time 10 that cannot store the tenant's usage record. -/
def hamperedSweep : Answer × World :=
  (Op.sweep.prog {}).run (Prim.strike .plain writesFail)
    (failedPut.2.tick 10 10)

/-- The put has failed; the sweep has removed the first key, and left the
usage record it could not write behind the counter; the second key is still
scheduled, no later than it expires. -/
theorem expiring_remembered_faults :
    failedPut.1 ≠ .done (.ok ()) ∧ hamperedSweep.1 = .swept 1
      ∧ hamperedSweep.2.quotas.usedBytes "a" = 2
      ∧ hamperedSweep.2.storage.contents[KeyCodec.bytesOf "a" .stats usageKey]?
        = some (ValueCodec.encode (beBytes 8 4) none)
      ∧ Covered hamperedSweep.2
      ∧ ∃ ts, ts ≤ 50 ∧ hamperedSweep.2.ttl.Scheduled
        (KeyCodec.bytesOf "a" .data [2]) ts := by
  have hshort : FaultyRun .plain {} SweepSpared shortLived :=
    (faultyRun_opened {} SweepSpared).serve (fun _ => false)
      (.put (KeyCodec.bytesOf "a" .data [1]) [7] 5) fun _ _ _ => rfl
  have hlong : FaultyRun .plain {} SweepSpared longLived :=
    hshort.serve (fun _ => false)
      (.put (KeyCodec.bytesOf "a" .data [2]) [8] 50) fun _ _ _ => rfl
  -- outside a sweep any step may fail
  have hfailed : FaultyRun .plain {} SweepSpared failedPut.2 :=
    hlong.serve writesFail (.put (KeyCodec.bytesOf "a" .data [2]) [9] 20)
      fun _ hop => by cases hop
  have hspared : ∀ p, SweepSpared .sweep p
      (if writesFail p then some ⟨0, "disk full"⟩ else none) := by
    intro p _ hp
    unfold writesFail
    split
    · cases hp
    · rfl
  have hswept : FaultyRun .plain {} SweepSpared hamperedSweep.2 :=
    (FaultyRun.tick hfailed (by decide +kernel)
      (by decide +kernel)).serve writesFail .sweep hspared
  have hc := expiring_remembered .plain {} hamperedSweep.2 hswept
  exact ⟨by decide +kernel, by decide +kernel, by decide +kernel,
    by decide +kernel, hc, hc _ (ValueCodec.encode [8] (some 50)) 50
      (by decide +kernel) (by decide +kernel)⟩

/-- The node after a sweep at time 10 whose reads fail. -/
def blindSweep : World :=
  ((Op.sweep.prog {}).run (Prim.strike .plain readsFail)
    (shortLived.tick 10 10)).2

/-- The sweep has taken the key off the index, could not read the entry,
and nothing remembers it any more. -/
theorem sweep_forgets :
    FaultyRun .plain {} (fun _ _ _ => True) blindSweep
      ∧ blindSweep.storage.contents[KeyCodec.bytesOf "a" .data [1]]?
        = some (ValueCodec.encode [7] (some 5))
      ∧ stampOf (ValueCodec.encode [7] (some 5)) = some 5
      ∧ ∀ ts, ¬ blindSweep.ttl.Scheduled (KeyCodec.bytesOf "a" .data [1])
        ts := by
  have hput := (faultyRun_opened {} fun _ _ _ => True).serve (fun _ => false)
    (.put (KeyCodec.bytesOf "a" .data [1]) [7] 5) fun _ => trivial
  have htick : FaultyRun .plain {} (fun _ _ _ => True)
      (shortLived.tick 10 10) :=
    .tick hput (by decide +kernel) (by decide +kernel)
  refine ⟨htick.serve readsFail .sweep fun _ => trivial, by decide +kernel,
    by decide +kernel, fun ts hs => ?_⟩
  have hempty : blindSweep.ttl.byExpiry.isEmpty = true := by decide +kernel
  rw [TtlIndex.Scheduled, TtlIndex.bucket] at hs
  rw [ExtTreeMap.isEmpty_iff.mp hempty] at hs
  simp at hs

end FerrisKv
