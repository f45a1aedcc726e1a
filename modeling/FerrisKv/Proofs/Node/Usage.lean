/-
The usage counters are exact: over whole sequential runs, with I/O faults
and crashes anywhere, a tenant's counter holds what its stored data
counts for.

# The invariant

`Books g w` says that every counter is exact once the debt in the ledger
`g` of the call in progress is paid, and that an entry the call relies on
is the one stored. Between operations nothing is due. A fault before the
storage write leaves no debt, one after it cannot stop the payment, since
`adjust` touches no disk. The payment itself never saturates, because
what it leaves behind is a count of stored bytes. Recovery needs nothing:
`bootstrap_from_storage` sets every counter to the count, whatever the
crash left.
-/
import FerrisKv.Proofs.Node.Ledger

namespace FerrisKv

open Std WriteLog Prog NodeService LittleEndian TreeMapSum

-- =========================================================== the invariant

/-- Every counter is exact but for what `g` owes, and the entry `g` relies
on still counts the same. -/
def Books (g : Ledger) (w : World) : Prop :=
  (∀ t, (w.quotas.usedBytes t : Int) + g.debt t
      = storedBytes t w.storage.contents)
    ∧ ∀ key entry, g = .saw key entry →
      ∀ t, share t key w.storage.contents[key]? = share t key entry

/-- Every counter is exact. -/
def Exact (w : World) : Prop :=
  ∀ t, w.quotas.usedBytes t = storedBytes t w.storage.contents

/-- The two worlds have the same counters and the same data. -/
structure SameUsage (w w' : World) : Prop where
  usage : w'.quotas.usage = w.quotas.usage
  contents : w'.storage.contents = w.storage.contents

theorem SameUsage.refl (w : World) : SameUsage w w := ⟨rfl, rfl⟩

theorem SameUsage.trans {w w' w'' : World} (h : SameUsage w w')
    (h' : SameUsage w' w'') : SameUsage w w'' :=
  ⟨h'.usage.trans h.usage, h'.contents.trans h.contents⟩

private theorem tick_same (w : World) (now instant : Nat) :
    SameUsage w (w.tick now instant) := ⟨rfl, rfl⟩

/-- A step off the books moves neither counters nor data, whatever fails. -/
theorem Prim.Unaccounted.exec {p : Prim} (h : p.Unaccounted)
    (ext : Externals) (fault : Option Fault) (w : World) :
    SameUsage w (p.exec ext fault w).2 := by
  cases p with
  | now => exact .refl w
  | instant => exact .refl w
  | storage q =>
      cases q with
      | get k => exact h.elim
      | put k v => exact h.elim
      | delete k => exact h.elim
      | flush =>
          cases fault with
          | none => exact ⟨rfl, StorageBackend.contents_flush _⟩
          | some f => exact .refl w
      | isDurable => exact .refl w
      | scan pre => cases fault <;> exact ⟨rfl, rfl⟩
      | scanRange a b => cases fault <;> exact ⟨rfl, rfl⟩
  | quota q =>
      cases q with
      | adjust t d => exact h.elim
      | resetUsage totals => exact h.elim
      | _ => exact ⟨rfl, rfl⟩
  | _ => exact ⟨rfl, rfl⟩

-- ============================================================ one step's books

/-- A counter that is not asked below zero moves by exactly the delta. -/
theorem applyDelta_eq {current : Nat} {delta : Int}
    (h : 0 ≤ (current : Int) + delta) :
    (applyDelta current delta : Int) = current + delta := by
  unfold applyDelta
  split <;> omega

/-- `adjust` moves one counter. -/
theorem usedBytes_adjust (q : QuotaStore) (t t' : String) (d : Int) :
    (q.adjust t d).2.usedBytes t'
      = if t = t' then applyDelta (q.usedBytes t) d else q.usedBytes t' := by
  unfold QuotaStore.adjust QuotaStore.usedBytes
  simp only [ExtTreeMap.getElem?_insert, Std.compare_eq_iff_eq]
  split <;> rfl

section Books

variable {g : Ledger} {w : World}

/-- The books depend on counters and data only. -/
private theorem Books.of_same {w' : World} (h : Books g w)
    (hs : SameUsage w w') : Books g w' := by
  refine ⟨fun t => ?_, fun key entry hg t => ?_⟩
  · have ht := h.1 t
    unfold QuotaStore.usedBytes at *
    rwa [hs.usage, hs.contents]
  · rw [hs.contents]
    exact h.2 key entry hg t

/-- Books with nothing due and nothing relied on are exact counters. -/
theorem Books.exact (h : Books g w) (hg : g.Clear) : Exact w := by
  intro t
  have ht := h.1 t
  rw [hg t, add_zero] at ht
  exact_mod_cast ht

/-- Exact counters owe nothing. -/
private theorem Exact.books (h : Exact w) : Books .settled w := by
  refine ⟨fun t => ?_, nofun⟩
  rw [h t]
  exact add_zero _

/-- Reading an entry is relying on it. -/
theorem Books.get (h : Books g w) (hg : g.Clear) (key : Bytes) :
    Books (.saw key w.storage.contents[key]?) w := by
  refine ⟨fun t => ?_, fun key' entry he t => ?_⟩
  · have ht := h.1 t
    rwa [hg t] at ht
  · cases he
    rfl

/-- The storage write takes the debt on. -/
theorem Books.write {entry : Option Bytes} (wr : Write Bytes Bytes)
    (h : Books (.saw wr.key entry) w) :
    Books ((Ledger.saw wr.key entry).write wr.key wr.value)
      { w with storage := w.storage.write wr } := by
  refine ⟨fun t => ?_, fun key entry' he t => ?_⟩
  · have hmove := storedBytes_apply t w.storage.contents wr
    have hused : (w.quotas.usedBytes t : Int) + 0 = _ := h.1 t
    have hsaw := h.2 wr.key entry rfl t
    show (w.quotas.usedBytes t : Int) + _
      = storedBytes t (w.storage.write wr).contents
    rw [StorageBackend.contents_write, Ledger.debt_write]
    omega
  · -- only a write to no data leaves the entry relied on
    by_cases hd : IsData wr.key
    · obtain ⟨tenant, payload, hd⟩ := hd
      unfold Ledger.write at he
      simp only [hd, reduceCtorEq] at he
    · rw [Ledger.write_of_not_data hd] at he
      cases he
      rw [share_of_not_data hd, share_of_not_data hd]

/-- A write to no data moves no counter. -/
theorem Books.write_aside (wr : Write Bytes Bytes) (h : Books g w)
    (hd : ¬ IsData wr.key) :
    Books (g.write wr.key wr.value)
      { w with storage := w.storage.write wr } := by
  rw [Ledger.write_of_not_data hd]
  refine ⟨fun t => ?_, fun key entry hg t => ?_⟩
  · show _ = (storedBytes t (w.storage.write wr).contents : Int)
    rw [StorageBackend.contents_write, storedBytes_apply_of_not_data hd]
    exact h.1 t
  · have hs := h.2 key entry hg t
    show share t key (w.storage.write wr).contents[key]? = _
    rw [StorageBackend.contents_write, getElem?_apply]
    split
    · next hk =>
        subst hk
        rw [share_of_not_data hd] at hs ⊢
        exact hs
    · exact hs

/-- The counter update pays the debt. -/
theorem Books.adjust {tenant : String} {delta : Int}
    (h : Books (.owing tenant delta) w) :
    Books .settled { w with quotas := (w.quotas.adjust tenant delta).2 } := by
  refine ⟨fun t => ?_, nofun⟩
  have ht := h.1 t
  show (((w.quotas.adjust tenant delta).2.usedBytes t : Nat) : Int) + 0 = _
  rw [usedBytes_adjust]
  simp only [Ledger.debt] at ht
  by_cases he : tenant = t
  · subst he
    rw [if_pos rfl] at ht ⊢
    rw [applyDelta_eq (by omega), add_zero]
    exact ht
  · rw [if_neg he] at ht ⊢
    exact ht

end Books

-- ================================================================ the rules

/-- The steps of a node whose storage and log calls may fail at will and
whose clock is arbitrary. A counter must not be asked below zero. -/
def usageRules (ext : Externals) : Rules World Prim Prim.Resp :=
  .steps
    (fun w p => ∀ t d, p = .quota (.adjust t d) →
      0 ≤ (w.quotas.usedBytes t : Int) + d)
    (fun w p r w' => ∃ now instant fault,
      p.exec ext fault (w.tick now instant) = (r, w'))

section Programs

variable {ext : Externals} {α : Type}

/-- A step allowed by the ledger keeps the books, whatever fails. -/
theorem books_step (g : Ledger) (w : World) (p : Prim) (h : Books g w)
    (hok : g.Ok p) :
    (usageRules ext).post w p fun r w' => Books (g.advance p r) w' := by
  refine ⟨fun t d hp => ?_, ?_⟩
  -- a counter is adjusted by what is due, which leaves a count of bytes and
  -- so nothing below zero
  · subst hp
    cases hok with
    | adjust =>
        have ht := h.1 t
        simp only [Ledger.debt, if_true] at ht
        omega
    | other hp => exact hp.elim
  · rintro r w' ⟨now, instant, fault, he⟩
    -- a fault leaves the books as they were; without one each step does what
    -- its ledger entry says
    have ht := h.of_same (tick_same w now instant)
    cases hok with
    | get hg =>
        cases fault with
        | none =>
            cases he
            exact ht.get hg _
        | some f =>
            cases he
            exact ht
    | @put key value entry =>
        cases fault with
        | none =>
            cases he
            exact Books.write (.put key value) ht
        | some f =>
            cases he
            exact ht
    | @delete key entry =>
        cases fault with
        | none =>
            cases he
            exact Books.write (.delete key) ht
        | some f =>
            cases he
            exact ht
    | @putAside _ key value hd =>
        cases fault with
        | none =>
            cases he
            exact ht.write_aside (.put key value) hd
        | some f =>
            cases he
            exact ht
    | @deleteAside _ key hd =>
        cases fault with
        | none =>
            cases he
            exact ht.write_aside (.delete key) hd
        | some f =>
            cases he
            exact ht
    | adjust =>
        cases he
        exact ht.adjust
    | other hp =>
        have hs := hp.exec ext fault (w.tick now instant)
        rw [he] at hs
        rw [hp.advance]
        exact ht.of_same hs

/-- A program of unaccounted steps leaves counters and data alone. -/
theorem wp_same {x : NodeProg α} (hx : x.Uses Prim.Unaccounted)
    (w : World) :
    wp (usageRules ext) (fun w' _ => SameUsage w w') x w := by
  refine wp_of_uses (I := fun w' => SameUsage w w') ?_ (fun _ _ h => h) hx
    (.refl w)
  intro w₁ p hs hp
  refine ⟨fun t d he => ?_, ?_⟩
  · subst he
    exact hp.elim
  · rintro r w' ⟨now, instant, fault, he⟩
    have hexec := hp.exec ext fault (w₁.tick now instant)
    rw [he] at hexec
    exact hs.trans ((tick_same w₁ now instant).trans hexec)

/-- Every operation leaves the counters exact. -/
theorem wp_prog {cfg : NodeConfig} {w : World} (h : Exact w) (op : Op) :
    wp (usageRules ext) (fun w' _ => Exact w') (op.prog cfg) w :=
  wp_of_ghost books_step (fun _ _ _ hb hg => hb.exact hg)
    (prog_ledger cfg op) h.books

-- ================================================================= startup

/-- Anything but a counter update. -/
def Prim.NoAdjust : Prim → Prop
  | .quota (.adjust _ _) => False
  | _ => True

/-- Replay adjusts no counter. -/
private theorem replayLoop_uses (records : List WalRecord) :
    (replayLoop records).run.Uses Prim.NoAdjust := by
  induction records with
  | nil => exact trivial
  | cons r rest ih =>
      refine (wp_bindE _ _ _).mpr ?_
      unfold replayRecord
      cases r.op with
      | put =>
          refine ⟨trivial, fun a => ?_⟩
          cases a with
          | ok u => exact ih
          | error e => exact trivial
      | delete =>
          refine ⟨trivial, fun a => ?_⟩
          cases a with
          | ok u => exact ih
          | error e => exact trivial

private theorem replay_uses (records : List WalRecord) :
    (replay records).run.Uses Prim.NoAdjust := by
  refine (wp_bindE _ _ _).mpr (wp_mono ?_ (replayLoop_uses records))
  rintro _ (e | u) _ <;> exact trivial

theorem Prim.Rotates.noAdjust {p : Prim} (h : p.Rotates) : p.NoAdjust := by
  obtain rfl | rfl | rfl | rfl := h <;> exact trivial

theorem Prim.Loads.noAdjust {p : Prim} (h : p.Loads) : p.NoAdjust := by
  obtain rfl | ⟨pre, rfl⟩ | ⟨t, q, rfl⟩ := h <;> exact trivial

/-- Before the counters are rebuilt nothing about them matters. -/
theorem wp_noAdjust {x : NodeProg α} (hx : x.Uses Prim.NoAdjust)
    {Q : World → α → Prop} (hQ : ∀ w a, Q w a) (w : World) :
    wp (usageRules ext) Q x w := by
  refine wp_of_uses (I := fun _ => True) ?_ (fun w a _ => hQ w a) hx trivial
  intro _ _ _ hp
  refine ⟨fun t d he => ?_, fun _ _ _ => trivial⟩
  rw [he] at hp
  exact hp.elim

/-- One entry of the bootstrap scan adds its count to its tenant's. -/
private theorem addUsage_getD {k v : Bytes} {stored : StoredValue}
    (hv : ValueCodec.decode v = .ok stored) (usage : ExtTreeMap String Nat)
    (t : String) :
    (addUsage usage k stored)[t]?.getD 0
      = usage[t]?.getD 0 + entryCount t k v := by
  unfold addUsage
  split
  · next tenant payload hd =>
      have hcount : entryCount t k v = if tenant = t then
          payload.length + stored.value.length else 0 := by
        unfold entryCount
        simp only [hd, hv]
      rw [hcount, ExtTreeMap.getElem?_insert]
      by_cases ht : tenant = t
      · subst ht
        simp [entryBytes]
      · simp [ht]
  · next hd =>
      rw [entryCount_of_not_data (fun ⟨tenant, payload, h⟩ =>
        hd tenant payload h), add_zero]

/-- The totals the startup scan accumulates. -/
theorem wp_bootstrapLoop :
    ∀ (entries : List (Bytes × Bytes)) (usage : ExtTreeMap String Nat)
      (w : World),
      wp (usageRules ext)
        (fun w' u => SameUsage w w' ∧ ∀ t, u[t]?.getD 0 = usage[t]?.getD 0
          + (entries.map fun e => entryCount t e.1 e.2).sum)
        (bootstrapLoop entries usage) w
  | [], usage, w => ⟨.refl w, fun t => by simp⟩
  | (k, v) :: rest, usage, w => by
      unfold bootstrapLoop
      split
      · next e hv =>
          -- a value that does not decode counts for nothing
          refine wp_mono ?_ (wp_bootstrapLoop rest usage w)
          rintro w' u ⟨hs, hu⟩
          refine ⟨hs, fun t => ?_⟩
          have hz : entryCount t k v = 0 := by
            unfold entryCount
            rw [hv]
            split <;> simp
          rw [hu t, List.map_cons, List.sum_cons, hz, Nat.zero_add]
      · next stored hv =>
          refine (wp_bind _ _ _).mpr (wp_mono ?_ (wp_same
            ((scheduleExpiry_uses k _).mono fun _ hp => hp.unaccounted) w))
          intro w₁ _ hs₁
          refine wp_mono ?_
            (wp_bootstrapLoop rest (addUsage usage k stored) w₁)
          rintro w' u ⟨hs, hu⟩
          refine ⟨hs₁.trans hs, fun t => ?_⟩
          rw [hu t, addUsage_getD hv, List.map_cons, List.sum_cons,
            Nat.add_assoc]

/-- `bootstrap_from_storage` makes the counters exact, whatever they were. -/
theorem wp_bootstrapFromStorage (w : World) :
    wp (usageRules ext) (fun w' r => r = .ok () → Exact w')
      bootstrapFromStorage.run w := by
  refine ⟨fun _ _ he => (nomatch he), ?_⟩
  rintro r w₁ ⟨now, instant, fault, he⟩
  cases fault with
  | some f =>
      cases he
      exact fun h => nomatch h
  | none =>
      cases he
      refine (wp_bindE _ _ _).mpr ((wp_lift _ _).mpr (wp_mono ?_
        (wp_bootstrapLoop _ ∅ _)))
      rintro w₂ usage ⟨hs, hu⟩
      refine ⟨fun _ _ he => (nomatch he), ?_⟩
      rintro r w₃ ⟨now', instant', fault', he'⟩
      cases he'
      intro _ t
      have hcount := hu t
      have hscan : (w.tick now instant).storage.scan []
          = w.storage.contents.toList := by
        show (w.storage.contents.toList.filter _) = _
        rw [List.filter_eq_self]
        exact fun _ _ => rfl
      have hcontents : w₂.storage.contents = w.storage.contents :=
        hs.contents
      rw [hscan] at hcount
      show usage[t]?.getD 0 = storedBytes t w₂.storage.contents
      rw [hcount, hcontents]
      simp [storedBytes, sumBy]

/-- Startup leaves the counters exact, whatever it starts from. -/
theorem wp_open (w : World) :
    wp (usageRules ext) (fun w' r => r = .ok () → Exact w')
      (NodeService.open ext).run w := by
  unfold NodeService.open
  rw [wp_bindE]
  refine ⟨fun _ _ he => (nomatch he), ?_⟩
  rintro r w₁ -
  cases r with
  | error e => exact fun h => nomatch h
  | ok recovery =>
      refine (wp_bindE _ _ _).mpr (wp_noAdjust (replay_uses _) ?_ w₁)
      rintro w₂ (e | n)
      · exact fun h => nomatch h
      · refine (wp_bindE _ _ _).mpr (wp_noAdjust
          (retireSegment_uses.mono fun _ hp => hp.noAdjust) ?_ w₂)
        rintro w₃ (e | u)
        · exact fun h => nomatch h
        · refine (wp_bindE _ _ _).mpr (wp_noAdjust
          ((loadQuotas_uses ext).mono fun _ hp => hp.noAdjust) ?_ w₃)
          rintro w₄ (e | n)
          · exact fun h => nomatch h
          · exact wp_bootstrapFromStorage w₄

end Programs

-- ==================================================================== runs

/-- What holds of a node at every moment. -/
def UsageInv (ext : Externals) (m : Machine) : Prop :=
  match m.phase with
  | .opening x => wp (usageRules ext)
      (fun w r => r = .ok () → Exact w) x m.world
  | .idle => Exact m.world
  | .serving _ x => wp (usageRules ext) (fun w _ => Exact w) x m.world
  | .down _ => True

/-- Every call and every start keeps the counters exact, faults or not; a
crash in the middle needs nothing, as the next start counts anew. -/
private theorem usage_keeps (S : Setting) :
    Machine.Keeps S (usageRules S.ext) Exact where
  step _ h := h.2 _ _ ⟨_, _, _, rfl⟩
  tick _ _ h := by
    refine ⟨h.1, ?_⟩
    rintro r w' ⟨now', instant', fault, he⟩
    exact h.2 r w' ⟨now', instant', fault, he⟩
  idle _ h := h
  call _ h := wp_prog h _
  boot := wp_open

/-- So they are exact in every state a node reaches. -/
private theorem usageInv_reachable {S : Setting} {m : Machine}
    (h : (node S).Reachable m) : UsageInv S.ext m :=
  (usage_keeps S).reachable h

/-- Usage is exact over whole runs. In every reachable state of a node
whose I/O may fail and whose process may die at any point: between
operations each tenant's counter is what its stored data counts for, and
no counter update, inside an operation or not, is ever asked to go below
zero. -/
theorem usedBytes_exact (S : Setting) {m : Machine}
    (h : (node S).Reachable m) :
    (m.phase = .idle → ∀ t, m.world.quotas.usedBytes t
        = storedBytes t m.world.storage.contents)
      ∧ ∀ t d, m.phase.next = some (.quota (.adjust t d)) →
        0 ≤ (m.world.quotas.usedBytes t : Int) + d := by
  have hinv := usageInv_reachable h
  obtain ⟨w, ph⟩ := m
  constructor
  · rintro rfl
    exact hinv
  · intro t d hn
    cases ph with
    | opening x =>
        cases x with
        | ret a => cases hn
        | act p k => exact hinv.1 t d (Option.some.inj hn)
    | idle => cases hn
    | serving op x =>
        cases x with
        | ret a => cases hn
        | act p k => exact hinv.1 t d (Option.some.inj hn)
    | down e => cases hn

/-- A call in progress can meet any faults on its way to the end. -/
private theorem trace_struck {ext : Externals} {cfg : NodeConfig}
    {τ : List Label} {op : Op} (hit : Prim → Bool) :
    ∀ {x : NodeProg Answer} {w : World},
      (node (.hostile ext cfg)).Trace τ ⟨w, .serving op x⟩ →
      (node (.hostile ext cfg)).Trace τ ⟨(x.run (Prim.strike ext hit) w).2,
        .serving op (.ret (x.run (Prim.strike ext hit) w).1)⟩ := by
  intro x
  induction x with
  | ret a => exact fun h => h
  | act p k ih => exact fun h => ih _ (.internal h (.act trivial))

/-- Tenant `a` puts a value, overwrites it by a longer one, and fails to store
one under another key. -/
def shortValue : Op := .put (KeyCodec.bytesOf "a" .data [1]) [2] 0

def longerValue : Op := .put (KeyCodec.bytesOf "a" .data [1]) [2, 3, 4] 0

def failingPut : Op := .put (KeyCodec.bytesOf "a" .data [7]) [5] 0

/-- What these calls leave on a node just started. -/
def afterFailingPut : World :=
  ((failingPut.prog {}).run (Prim.strike .plain writesFail)
    ((longerValue.prog {}).run (Prim.exec .plain none)
      ((shortValue.prog {}).run (Prim.exec .plain none)
        ((NodeService.open .plain).run.run (Prim.exec .plain none)
          (.fresh {} 0 0)).2).2).2).2

/-- What a crash and a restart make of it. -/
def afterFailingPutRestarted : World :=
  ((NodeService.open .plain).run.run (Prim.exec .plain none)
    (afterFailingPut.crash {} [] afterFailingPut.wal.file)).2

/-- The overwritten entry counts four bytes, and the failed put none. A crash
then loses the storage writes, and the log brings all three back: counter and
count are both six. -/
theorem usedBytes_exact_restarted :
    (∃ m, (node (.hostile .plain {})).Reachable m ∧ m.phase = .idle
      ∧ m.world.quotas.usedBytes "a"
        = storedBytes "a" m.world.storage.contents
      ∧ m.world.quotas.usedBytes "a" = 4)
    ∧ ∃ m, (node (.hostile .plain {})).Reachable m ∧ m.phase = .idle
      ∧ m.world.quotas.usedBytes "a"
        = storedBytes "a" m.world.storage.contents
      ∧ m.world.quotas.usedBytes "a" = 6 := by
  have hopen := Machine.trace_opened (S := .hostile .plain {}) trivial
    (.start ⟨0, 0, rfl⟩) rfl
  have hshort := Machine.trace_served trivial shortValue trivial hopen rfl
  have hlonger := Machine.trace_served trivial longerValue trivial hshort rfl
  have hfails : (node (.hostile .plain {})).Trace _ ⟨afterFailingPut, .idle⟩ :=
    .visible (trace_struck writesFail
      (.visible hlonger (Machine.Step.call trivial))) Machine.Step.ret
  have hback : (node (.hostile .plain {})).Trace _
      ⟨afterFailingPutRestarted, .idle⟩ :=
    Machine.trace_opened trivial
      (.visible hfails (.crash (StorageBackend.mayKeep_nil _)))
      (by decide +kernel)
  exact ⟨⟨_, ⟨_, hfails⟩, rfl, (usedBytes_exact _ ⟨_, hfails⟩).1 rfl "a",
      by decide +kernel⟩,
    _, ⟨_, hback⟩, rfl, (usedBytes_exact _ ⟨_, hback⟩).1 rfl "a",
    by decide +kernel⟩

end FerrisKv
