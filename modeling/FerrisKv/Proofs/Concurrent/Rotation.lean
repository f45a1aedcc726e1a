/-
When rotation discards the only copy of a write, and when it cannot.

`rotate_wal_if_needed` flushes storage and then drops the segment, with
no lock against the append and the storage write of another call. A call
whose record is in the segment, but whose storage write is still to come
when the flush runs, loses the record to the rotation and then returns
success with its write in no durable place
(`rotation_drops_acknowledged_write`).

Runs in which no call is caught half-way keep every acknowledged write
(`acknowledged_kept`): at each flush no other call is between its append
and its storage write, and at each append no other call is between its
flush and its rotation.
-/
import FerrisKv.Proofs.Concurrent.Stage

namespace FerrisKv

open Prog NodeService

-- ======================================================= what is to be kept

/-- Call `i` made the storage write of `r`. -/
def StoredBy (log : List NodeEvent) (i : Nat) (r : WalRecord) : Prop :=
  ∃ e ∈ log, e.tid = i ∧ e.prim = .storage r.store

/-- Call `i` made the storage write of `r` before some flush. -/
def FlushedAfter (log : List NodeEvent) (i : Nat) (r : WalRecord) : Prop :=
  ∃ before after, log = before ++ after ∧ StoredBy before i r
    ∧ ∃ e ∈ after, e.prim = .storage .flush

/-- The mutation of call `i` is in the current segment, or its storage
write was completed before a flush. -/
def Kept (pool : NodePool) (i : Nat) : Prop :=
  ∃ r, (i, r) ∈ appends pool.log
    ∧ (r ∈ pool.world.wal.records ∨ FlushedAfter pool.log i r)

/-- No call is caught half-way by a flush or a rotation. -/
def RotationClear (pool : NodePool) (i : Nat) (p : Prim) : Prop :=
  (p = .storage .flush → ∀ j ≠ i, ∀ r, pool.stage j ≠ .logged r)
    ∧ ∀ op key value, p = .wal (.append op key value) →
      ∀ j ≠ i, ∀ r, pool.stage j ≠ .flushed r

section Kept

variable {log : List NodeEvent} {i : Nat} {r : WalRecord}

/-- What was stored stays so. -/
theorem StoredBy.snoc (h : StoredBy log i r) (e : NodeEvent) :
    StoredBy (log ++ [e]) i r := by
  obtain ⟨e', he', hr⟩ := h
  exact ⟨e', List.mem_append_left _ he', hr⟩

theorem FlushedAfter.snoc (h : FlushedAfter log i r) (e : NodeEvent) :
    FlushedAfter (log ++ [e]) i r := by
  obtain ⟨before, after, rfl, hs, e', he', hp⟩ := h
  exact ⟨before, after ++ [e], List.append_assoc .., hs, e',
    List.mem_append_left _ he', hp⟩

/-- A flush flushes what is stored. -/
theorem StoredBy.flush (h : StoredBy log i r) {e : NodeEvent}
    (he : e.prim = .storage .flush) : FlushedAfter (log ++ [e]) i r :=
  ⟨log, [e], rfl, h, e, List.mem_singleton_self e, he⟩

-- ============================================================ the invariant

/-- What is known of a call at each stage, with `records` in the
segment. -/
def InHand (log : List NodeEvent) (records : List WalRecord) (i : Nat) :
    Stage → Prop
  | .fresh => True
  | .logged r => (i, r) ∈ appends log ∧ r ∈ records
  | .stored r => (i, r) ∈ appends log ∧ StoredBy log i r
      ∧ (r ∈ records ∨ FlushedAfter log i r)
  | .flushed r => (i, r) ∈ appends log ∧ StoredBy log i r
      ∧ (r ∈ records ∨ FlushedAfter log i r)

/-- What is known of every call while one is about to rotate: the segment
may go. -/
def Sealed (log : List NodeEvent) (i : Nat) : Stage → Prop
  | .fresh => True
  | .logged _ => False
  | .stored r => FlushedAfter log i r
  | .flushed r => FlushedAfter log i r

/-- A record is in hand as long as the log or the store has it. -/
theorem InHand.snoc {records records' : List WalRecord} {s : Stage}
    (h : InHand log records i s) (e : NodeEvent)
    (hsub : ∀ r ∈ records, r ∈ records') :
    InHand (log ++ [e]) records' i s := by
  cases s with
  | fresh => exact trivial
  | logged r => exact ⟨mem_appends_snoc h.1 e, hsub r h.2⟩
  | stored r =>
      exact ⟨mem_appends_snoc h.1 e, h.2.1.snoc e, h.2.2.imp (hsub r) (·.snoc e)⟩
  | flushed r =>
      exact ⟨mem_appends_snoc h.1 e, h.2.1.snoc e, h.2.2.imp (hsub r) (·.snoc e)⟩

/-- A sealed record stays sealed. -/
theorem Sealed.snoc {s : Stage} (h : Sealed log i s) (e : NodeEvent) :
    Sealed (log ++ [e]) i s := by
  cases s with
  | fresh => exact trivial
  | logged r => exact h.elim
  | stored r => exact FlushedAfter.snoc h e
  | flushed r => exact FlushedAfter.snoc h e

/-- A sealed call needs no segment. -/
theorem InHand.drop {records : List WalRecord} {s : Stage}
    (h : InHand log records i s) (hs : Sealed log i s) :
    InHand log [] i s := by
  cases s with
  | fresh => exact trivial
  | logged r => exact hs.elim
  | stored r => exact ⟨h.1, h.2.1, .inr hs⟩
  | flushed r => exact ⟨h.1, h.2.1, .inr hs⟩

/-- A flush seals every call it does not catch half-way. -/
theorem InHand.flush {records : List WalRecord} {s : Stage}
    (h : InHand log records i s) (hs : ∀ r, s ≠ .logged r) {e : NodeEvent}
    (he : e.prim = .storage .flush) : Sealed (log ++ [e]) i s := by
  cases s with
  | fresh => exact trivial
  | logged r => exact absurd rfl (hs r)
  | stored r => exact h.2.1.flush he
  | flushed r => exact h.2.1.flush he

end Kept

/-- The segment holds, or a flush has settled, every write on its way; and
while some call is about to rotate, a flush has settled all of them. -/
def NothingLost (pool : NodePool) : Prop :=
  (∃ records, pool.world.wal.Holds records
      ∧ ∀ j, InHand pool.log records j (pool.stage j))
    ∧ ∀ i r, pool.stage i = .flushed r →
      ∀ j, Sealed pool.log j (pool.stage j)

-- ================================================================ the steps

section Steps

variable {ext : Externals} {pool : NodePool} {i : Nat} {p : Prim}
  {k : p.Resp → NodeProg Answer}

/-- A step that leaves the segment alone. -/
theorem NothingLost.keep (h : NothingLost pool)
    (hwal : (p.exec ext none pool.world).2.wal = pool.world.wal)
    (hhand : ∀ records, InHand pool.log records i (pool.stage i) →
      InHand (pool.log ++ [⟨i, p, (p.exec ext none pool.world).1⟩]) records i
        ((pool.stage i).advance p (p.exec ext none pool.world).1))
    (hseal : ∀ j r,
      (pool.after ext i p k).stage j = .flushed r →
      ∀ j', Sealed (pool.log ++ [⟨i, p, (p.exec ext none pool.world).1⟩]) j'
        ((pool.after ext i p k).stage j')) :
    NothingLost (pool.after ext i p k) := by
  obtain ⟨⟨records, hholds, hin⟩, -⟩ := h
  refine ⟨⟨records, ?_, fun j => ?_⟩, hseal⟩
  · show (p.exec ext none pool.world).2.wal.Holds records
    rw [hwal]
    exact hholds
  · by_cases hij : i = j
    · subst hij
      rw [stage_fire_self]
      exact hhand records (hin i)
    · rw [stage_fire_ne hij]
      exact (hin j).snoc _ fun _ hr => hr

/-- A step that also leaves the stage alone. -/
theorem NothingLost.quiet (h : NothingLost pool)
    (hwal : (p.exec ext none pool.world).2.wal = pool.world.wal)
    (hadv : ∀ a, (pool.stage i).advance p a = pool.stage i) :
    NothingLost (pool.after ext i p k) := by
  have hstage : ∀ j,
      (pool.after ext i p k).stage j
        = pool.stage j := by
    intro j
    by_cases hij : i = j
    · subst hij
      rw [stage_fire_self, hadv]
    · exact stage_fire_ne hij
  refine h.keep hwal (fun records hin => ?_) fun j r hj j' => ?_
  · rw [hadv]
    exact hin.snoc _ fun _ hr => hr
  · rw [hstage] at hj ⊢
    exact (h.2 j r hj j').snoc _

/-- A step loses no record, if a rotation waits until every logged one is
stored and flushed. -/
private theorem nothingLost_step (h : NothingLost pool)
    (hok : (pool.stage i).Ok p) (hc : RotationClear pool i p) :
    NothingLost (pool.after ext i p k) := by
  generalize hs : pool.stage i = s at hok
  cases hok with
  | @append op key value hk hv =>
      obtain ⟨⟨records, hholds, hin⟩, -⟩ := h
      refine ⟨⟨_, (hholds.append op hk hv).2, fun j => ?_⟩, fun j r hj => ?_⟩
      · by_cases hij : i = j
        · subst hij
          rw [stage_fire_self, hs]
          refine ⟨?_, List.mem_append_right _ (List.mem_singleton_self _)⟩
          exact mem_appends_of_some rfl
        · rw [stage_fire_ne hij]
          exact (hin j).snoc _ fun r hr => List.mem_append_left _ hr
      · -- nobody else is about to rotate, and this call has only logged
        by_cases hij : i = j
        · subst hij
          rw [stage_fire_self, hs] at hj
          cases hj
        · rw [stage_fire_ne hij] at hj
          exact absurd hj (hc.2 op key value rfl j (Ne.symm hij) r)
  | @store r =>
      have hseal := h.2
      refine h.keep ?_ (fun records hin => ?_) fun j r' hj => ?_
      · obtain ⟨seq, op, key, value⟩ := r
        cases op <;> rfl
      · rw [hs] at hin ⊢
        rw [Stage.advance_store]
        exact ⟨mem_appends_snoc hin.1 _, ⟨_, List.mem_append_right _
          (List.mem_singleton_self _), rfl, rfl⟩, .inl hin.2⟩
      · -- were anyone about to rotate, this call could not be half-way
        by_cases hij : i = j
        · subst hij
          rw [stage_fire_self, hs, Stage.advance_store] at hj
          cases hj
        · rw [stage_fire_ne hij] at hj
          have hi := hseal j r' hj i
          rw [hs] at hi
          exact hi.elim
  | usage hk => exact h.quiet rfl fun a => by rw [hs]; rfl
  | @flush r =>
      obtain ⟨⟨records, hholds, hin⟩, hseal⟩ := id h
      refine h.keep rfl (fun records hin => ?_) fun j r' hj j' => ?_
      -- the flush comes when every other call is done with its storage write,
      -- so what each has stored is flushed with this call's
      · rw [hs] at hin ⊢
        exact hin.snoc _ fun _ hr => hr
      · by_cases hij : i = j'
        · subst hij
          rw [stage_fire_self, hs]
          have hi := hin i
          rw [hs] at hi
          exact hi.2.1.flush rfl
        · rw [stage_fire_ne hij]
          exact (hin j').flush (hc.1 rfl j' (Ne.symm hij)) rfl
  | @rotate r =>
      obtain ⟨⟨records, hholds, hin⟩, hseal⟩ := h
      -- everything logged is sealed: it is stored and was flushed since; that
      -- is what makes an empty log good enough
      have hall := hseal i r hs
      have hi : InHand pool.log [] i (.flushed r) := by
        have hdrop := (hin i).drop (hall i)
        rwa [hs] at hdrop
      refine ⟨⟨[], hholds.rotate.2, fun j => ?_⟩, fun j r' hj j' => ?_⟩
      · by_cases hij : i = j
        · subst hij
          rw [stage_fire_self, hs]
          exact InHand.snoc (s := .stored r) hi _ fun _ hr => hr
        · rw [stage_fire_ne hij]
          exact ((hin j).drop (hall j)).snoc _ fun _ hr => hr
      · by_cases hij : i = j'
        · subst hij
          rw [stage_fire_self, hs]
          have hsi := hall i
          rw [hs] at hsi
          exact FlushedAfter.snoc hsi _
        · rw [stage_fire_ne hij]
          exact (hall j').snoc _
  | quiet hp => exact h.quiet (hp.exec ext pool.world).1 (hp.advance _)

end Steps

/-- The condition, checked on the calls that have moved. -/
def rotationClear (pool : NodePool) (i : Nat) (p : Prim) : Bool :=
  match p with
  | .storage .flush =>
      pool.log.all fun e => e.tid == i || !(pool.stage e.tid).isLogged
  | .wal (.append _ _ _) =>
      pool.log.all fun e => e.tid == i || !(pool.stage e.tid).isFlushed
  | _ => true

/-- The check is the condition. -/
private theorem rotationClear_sound {pool : NodePool} {i : Nat} {p : Prim}
    (h : rotationClear pool i p = true) : RotationClear pool i p := by
  have hothers : ∀ is : Stage → Bool,
      (pool.log.all fun e => e.tid == i || !is (pool.stage e.tid)) = true →
      is .fresh = false → ∀ j ≠ i, is (pool.stage j) = false := by
    intro is hall hfresh
    refine NodePool.forall_stage (fun _ s => is s = false) (fun _ => hfresh)
      fun e he hne => ?_
    simpa [hne] using List.all_eq_true.mp hall e he
  constructor
  · intro hp j hj r hr
    subst hp
    have hno := hothers Stage.isLogged h rfl j hj
    rw [hr] at hno
    cases hno
  · intro op key value hp j hj r hr
    subst hp
    have hno := hothers Stage.isFlushed h rfl j hj
    rw [hr] at hno
    cases hno

/-- So a run in which every rotation waits loses none. The induction is on the
steps, and the stage of each call says which of its records are at stake. -/
private theorem nothingLost_run {ext : Externals} {cfg : NodeConfig} {w : World}
    {ops : List Op} {pool : NodePool} (hops : ∀ op ∈ ops, op.Writes)
    (hwal : ∃ records, w.wal.Holds records)
    (h : NodePool.Run ext RotationClear (NodePool.calls cfg w ops) pool) :
    NothingLost pool := by
  induction h with
  | start =>
      obtain ⟨records, hholds⟩ := hwal
      exact ⟨⟨records, hholds, fun _ => trivial⟩, nofun⟩
  | step hrun hi hc ih =>
      exact nothingLost_step ih (NodePool.Run.staged hops hrun hi).1 hc
  | env _ he ih =>
      obtain ⟨now, instant, -, rfl⟩ := he
      exact ih

-- ================================================================= the law

/-- No acknowledged write is ever lost to a rotation, as long as no step
of the run catches another call half-way. -/
theorem acknowledged_kept (ext : Externals) (cfg : NodeConfig) {w : World}
    {ops : List Op} (hops : ∀ op ∈ ops, op.Writes)
    (hwal : ∃ records, w.wal.Holds records) {pool : NodePool}
    (h : NodePool.Run ext RotationClear (NodePool.calls cfg w ops) pool)
    {i : Nat} (hret : pool.result i = some (.done (.ok ()))) :
    Kept pool i := by
  obtain ⟨⟨records, hholds, hin⟩, -⟩ := nothingLost_run hops hwal h
  obtain ⟨-, hstored⟩ :=
    NodePool.Run.staged hops h (Pool.result_eq_some.mp hret)
  obtain ⟨r, hr⟩ := hstored rfl
  have hi := hin i
  rw [hr] at hi
  refine ⟨r, hi.1, ?_⟩
  rw [hholds.records_eq]
  exact hi.2.2

/-- The smallest segment size the configuration accepts. -/
def smallSegments : NodeConfig := { walRotateBytes := 4096 }

/-- One call puts a byte; another puts 4096. -/
def racingPuts : List Op :=
  [.put (KeyCodec.bytesOf "a" .data [1]) [2] 0,
    .put (KeyCodec.bytesOf "a" .data [3]) (List.replicate 4096 0) 0]

/-- The second call's whole way from its append over its storage write, the
flush and the rotation falls between the first call's storage write and its
return. -/
def rotationBetween : NodePool :=
  Pool.play (Prim.exec .plain none)
    (List.replicate 4 0 ++ List.replicate 11 1 ++ List.replicate 5 0)
    (NodePool.calls smallSegments (.opened smallSegments) racingPuts)

/-- Both calls return, the segment was rotated away under the first, and
both writes are kept. -/
theorem acknowledged_kept_rotated :
    NodePool.Run .plain RotationClear
        (NodePool.calls smallSegments (.opened smallSegments) racingPuts)
        rotationBetween
      ∧ rotationBetween.result 0 = some (.done (.ok ()))
      ∧ rotationBetween.result 1 = some (.done (.ok ()))
      ∧ rotationBetween.world.wal.records = []
      ∧ Kept rotationBetween 0 ∧ Kept rotationBetween 1 := by
  have hclear : Pool.Allowed (Prim.exec .plain none)
      (fun pool i p => rotationClear pool i p = true)
      (List.replicate 4 0 ++ List.replicate 11 1 ++ List.replicate 5 0)
      (NodePool.calls smallSegments (.opened smallSegments) racingPuts) := by
    decide +kernel
  have hrun : NodePool.Run .plain RotationClear
      (NodePool.calls smallSegments (.opened smallSegments) racingPuts)
      rotationBetween :=
    (Pool.run_play _ hclear).mono fun _ _ _ h => rotationClear_sound h
  have hops : ∀ op ∈ racingPuts, op.Writes := by
    intro op hop
    rcases List.mem_pair.mp hop with rfl | rfl
    · exact ⟨by decide, by decide⟩
    · refine ⟨by decide, ?_⟩
      rw [List.length_replicate]
      decide
  have hret : ∀ i < 2, rotationBetween.result i = some (.done (.ok ())) := by
    decide +kernel
  have hkept : ∀ i < 2, Kept rotationBetween i := fun i hi =>
    acknowledged_kept .plain smallSegments hops ⟨[], holds_opened _⟩ hrun
      (hret i hi)
  exact ⟨hrun, hret 0 (by decide), hret 1 (by decide), by decide +kernel,
    hkept 0 (by decide), hkept 1 (by decide)⟩

-- ============================================================ a lost write

/-- The first call appends its record; the second runs from start to end,
and its segment is full; then the first goes on. -/
def rotationRace : NodePool :=
  Pool.play (Prim.exec .plain none)
    (List.replicate 3 0 ++ List.replicate 11 1 ++ List.replicate 6 0)
    (NodePool.calls smallSegments (.opened smallSegments) racingPuts)

/-- The storage writes of call 0, and the flushes. -/
def markRace (e : NodeEvent) : Option Bool :=
  match e.prim with
  | .storage .flush => some false
  | .storage (.put _ _) => if e.tid = 0 then some true else none
  | .storage (.delete _) => if e.tid = 0 then some true else none
  | _ => none

/-- In the log of the race, a flush after the store leaves its mark. -/
private theorem FlushedAfter.marks {log : List NodeEvent} {r : WalRecord}
    (h : FlushedAfter log 0 r) :
    [true, false].Sublist (log.filterMap markRace) := by
  obtain ⟨before, after, rfl, ⟨e, he, hi, hp⟩, e', he', hp'⟩ := h
  have hsub : [e, e'].Sublist (before ++ after) :=
    List.Sublist.append (List.singleton_sublist.mpr he)
      (List.singleton_sublist.mpr he')
  have hmark : markRace e = some true := by
    obtain ⟨seq, op, key, value⟩ := r
    unfold markRace
    rw [hp]
    cases op <;> exact if_pos hi
  have hmark' : markRace e' = some false := by
    unfold markRace
    rw [hp']
  have hmarks := hsub.filterMap markRace
  rwa [List.filterMap_cons_some hmark, List.filterMap_cons_some hmark',
    List.filterMap_nil] at hmarks

/-- Rotation can discard the only copy of an acknowledged write: the first
call has returned success, the segment is empty, its storage write came
after the only flush, and a crash that keeps no unflushed write leaves
nothing under its key. -/
theorem rotation_drops_acknowledged_write :
    NodePool.Run .plain NodePool.anyStep
        (NodePool.calls smallSegments (.opened smallSegments) racingPuts)
        rotationRace
      ∧ rotationRace.result 0 = some (.done (.ok ()))
      ∧ ¬ Kept rotationRace 0
      ∧ (rotationRace.world.storage.survive []).contents[
          KeyCodec.bytesOf "a" .data [1]]? = none := by
  have hrecords : rotationRace.world.wal.records = [] := by decide +kernel
  have hmarks : rotationRace.log.filterMap markRace = [false, true, true] := by
    decide +kernel
  refine ⟨Pool.run_play _ (Pool.allowed_of_forall (fun _ _ _ => trivial) _ _),
    by decide +kernel, ?_, by decide +kernel⟩
  rintro ⟨r, -, hr | hr⟩
  · rw [hrecords] at hr
    cases hr
  · have hsub := hr.marks
    rw [hmarks] at hsub
    exact absurd hsub (by decide)

end FerrisKv
