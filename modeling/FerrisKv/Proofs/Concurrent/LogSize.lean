/-
How long the log can get.

Every write appends its record and, when it is done, looks how long the
segment has become; at `wal_rotate_bytes` it flushes storage and starts
the segment over. Nothing is locked in between, so any number of writes
can append before the first of them looks, and several can find the
segment full and rotate it one after the other. Still the segment never
outgrows the threshold by more than the records of the calls that are
still under way (`log_bounded`), and once they have all returned it is
within the threshold.

# The account

A call owes the bytes it has appended until it has looked and found the
segment short, or has rotated it (`Dues`). The segment is within the
threshold and what all calls owe:

- an append adds as much to the one as to the other;
- a look that finds the segment short settles a debt that is not needed,
  since the segment is then within the threshold whatever the others owe;
- a rotation leaves a header.
-/
import FerrisKv.Node.Concurrent
import FerrisKv.Proofs.Concurrent.Cap
import FerrisKv.Proofs.Node.Footprint
import FerrisKv.Proofs.Wal.Frames

namespace FerrisKv

open Prog NodeService

-- ================================================================= the dues

/-- The bytes of a record in the log. -/
def recordBytes (key value : Bytes) : Nat :=
  21 + key.length + value.length

/-- The most bytes a call can append. -/
def Op.recordBytes : Op → Nat
  | .put key value _ => FerrisKv.recordBytes key value + 9
  | .delete key => FerrisKv.recordBytes key []
  | _ => 0

/-- The most a call can append, and what it owes for; nothing is said once
storage or the log has failed, or storage is not durable. -/
structure Dues where
  budget : Nat
  bytes : Option Nat

namespace Dues

/-- What a step of the call does to its dues. -/
def advance (threshold : Nat) (g : Dues) : (p : Prim) → p.Resp → Dues
  | .wal (.append _ key value), .ok _ =>
      { g with bytes := g.bytes.map (· + recordBytes key value) }
  | .wal .segmentBytes, size =>
      if size < threshold then { g with bytes := g.bytes.map fun _ => 0 } else g
  | .wal .rotate, .ok _ => { g with bytes := g.bytes.map fun _ => 0 }
  | .wal .rotate, .error _ => { g with bytes := none }
  | .storage (.put _ _), .error _ => { g with bytes := none }
  | .storage (.delete _), .error _ => { g with bytes := none }
  | .storage .flush, .error _ => { g with bytes := none }
  | .storage .isDurable, false => { g with bytes := none }
  | _, _ => g

/-- The call owes for `n` bytes, if there was no failure. -/
def Is (g : Dues) (budget n : Nat) : Prop :=
  g.budget = budget ∧ ∀ m, g.bytes = some m → m = n

/-- A call appends when it owes for nothing, and within its budget. -/
def Ok (g : Dues) : Prim → Prop
  | .wal (.append _ key value) =>
      g.Is g.budget 0 ∧ recordBytes key value ≤ g.budget
  | .wal .open => False
  | _ => True

theorem Is.settled {g : Dues} {budget n : Nat} (h : g.Is budget n) :
    Is { g with bytes := g.bytes.map fun _ => 0 } budget 0 := by
  refine ⟨h.1, fun m hm => ?_⟩
  obtain ⟨_, -, hm⟩ := Option.map_eq_some_iff.mp hm
  exact hm.symm

theorem Is.failed {g : Dues} {budget n m : Nat} (h : g.Is budget n) :
    Is { g with bytes := none } budget m :=
  ⟨h.1, nofun⟩

end Dues

-- ============================================================= the programs

/-- The steps that leave the log alone. -/
def Prim.OffLog : Prim → Prop
  | .wal _ => False
  | _ => True

section Programs

variable {α : Type} {cfg : NodeConfig} {threshold budget n : Nat} {g : Dues}

/-- The account's rules. -/
abbrev duesRules (threshold : Nat) : Rules Dues Prim Prim.Resp :=
  .ghost Dues.Ok (Dues.advance threshold)

/-- A step off the log changes no dues. -/
theorem Dues.Is.offLog (h : g.Is budget n) {p : Prim} (hp : p.OffLog)
    (r : p.Resp) : (g.advance threshold p r).Is budget n := by
  cases p with
  | wal q => exact hp.elim
  | storage q =>
      cases q with
      | isDurable =>
          cases r with
          | false => exact h.failed
          | true => exact h
      | put key value =>
          cases r with
          | error e => exact h.failed
          | ok u => exact h
      | delete key =>
          cases r with
          | error e => exact h.failed
          | ok u => exact h
      | flush =>
          cases r with
          | error e => exact h.failed
          | ok u => exact h
      | _ => exact h
  | _ => exact h

theorem wp_offLog {x : NodeProg α} (hx : x.Uses Prim.OffLog)
    (h : g.Is budget n) :
    wp (duesRules threshold) (fun g' _ => g'.Is budget n) x g := by
  refine wp_of_uses (I := fun g' : Dues => g'.Is budget n) ?_
    (fun _ _ hI => hI) hx h
  intro g' p hg' hp
  refine ⟨?_, fun r => hg'.offLog hp r⟩
  cases p with
  | wal q => exact hp.elim
  | _ => exact trivial

theorem Prim.Looks.offLog {p : Prim} (h : p.Looks) : p.OffLog := by
  obtain ⟨key, rfl⟩ := h
  exact trivial

theorem Prim.ReadsQuota.offLog {p : Prim} (h : p.ReadsQuota) : p.OffLog := by
  rcases h with ⟨t, rfl⟩ | ⟨t, rfl⟩
  · exact trivial
  · exact trivial

theorem Prim.Schedules.offLog {p : Prim} (h : p.Schedules) : p.OffLog := by
  rcases h with ⟨k, e, rfl⟩ | rfl
  · exact trivial
  · exact trivial

theorem Prim.Pays.offLog {p : Prim} (h : p.Pays) : p.OffLog := by
  rcases h with ⟨t, d, rfl⟩ | ⟨t, key, value, -, rfl⟩
  · exact trivial
  · exact trivial

theorem Prim.OnWatch.offLog {p : Prim} (h : p.OnWatch) : p.OffLog := by
  obtain ⟨q, rfl⟩ := h
  exact trivial

/-- Whoever looks how long the segment is, and rotates it if it must, owes
nothing. -/
theorem wp_rotateWalIfNeeded_dues (h : g.Is budget n) :
    wp (duesRules cfg.walRotateBytes) (fun g' _ => g'.Is budget 0)
      (rotateWalIfNeeded cfg) g := by
  refine ⟨trivial, fun durable => ?_⟩
  cases durable with
  | false => exact h.failed
  | true =>
      refine ⟨trivial, fun size => ?_⟩
      show wp _ _ (if size < cfg.walRotateBytes then _ else _)
        (if size < cfg.walRotateBytes then _ else _)
      by_cases hsize : size < cfg.walRotateBytes
      · rw [if_pos hsize, if_pos hsize]
        exact h.settled
      · rw [if_neg hsize, if_neg hsize]
        refine ⟨trivial, fun r => ?_⟩
        cases r with
        | error e => exact h.failed
        | ok u =>
            refine ⟨trivial, fun r => ?_⟩
            cases r with
            | error e => exact h.failed
            | ok u => exact h.settled

/-- The end of every write. -/
theorem wp_settle_dues (plan : Option Accounting) {key value : Bytes}
    {kind : ChangeKind} (h : g.Is budget n) :
    wp (duesRules cfg.walRotateBytes) (fun g' _ => g'.Is budget 0)
      (ExceptT.run (do
        commitAccounting plan
        publishChange key kind value
        rotateWalIfNeeded cfg : NodeM Unit)) g := by
  simp only [wp_bindE, wp_lift, onResult_ok]
  refine wp_mono ?_ (wp_offLog
    ((commitAccounting_uses plan).mono fun _ hp => hp.offLog) h)
  intro g₁ _ h₁
  refine wp_mono ?_ (wp_offLog
    ((publishChange_uses key kind value).mono fun _ hp => hp.offLog) h₁)
  intro g₂ _ h₂
  exact wp_rotateWalIfNeeded_dues h₂

/-- An append, and what follows it. -/
theorem wp_append_dues {Q : Dues → Except Error α → Prop} {op : WalOp}
    {key value : Bytes} {rest : Nat → NodeM α} (h : g.Is budget 0)
    (hle : recordBytes key value ≤ budget)
    (hfail : ∀ e g', g'.Is budget 0 → Q g' (.error e))
    (hrest : ∀ seq g', g'.Is budget (recordBytes key value) →
      wp (duesRules threshold) Q (rest seq).run g') :
    wp (duesRules threshold) Q (walAppend op key value >>= rest).run g := by
  obtain ⟨rfl, hzero⟩ := h
  refine (wp_bindE _ _ _).mpr ⟨⟨⟨rfl, hzero⟩, hle⟩, fun r => ?_⟩
  cases r with
  | error e => exact hfail e g ⟨rfl, hzero⟩
  | ok seq =>
      refine hrest seq _ ⟨rfl, fun m hm => ?_⟩
      obtain ⟨m', hm', rfl⟩ := Option.map_eq_some_iff.mp hm
      rw [hzero m' hm', Nat.zero_add]

/-- A storage call, and what follows it. -/
theorem wp_offLog_bind {β : Type} {Q : Dues → Except Error α → Prop}
    {x : NodeM β} {rest : β → NodeM α} (hx : x.run.Uses Prim.OffLog)
    (h : g.Is budget n)
    (hfail : ∀ e g', g'.Is budget n → Q g' (.error e))
    (hrest : ∀ b g', g'.Is budget n →
      wp (duesRules threshold) Q (rest b).run g') :
    wp (duesRules threshold) Q (x >>= rest).run g := by
  refine (wp_bindE _ _ _).mpr (wp_mono ?_ (wp_offLog hx h))
  intro g' r hg'
  cases r with
  | error e => exact hfail e g' hg'
  | ok b => exact hrest b g' hg'

/-- A put appends one record, of a bounded size, and then sees to the
rotation. -/
private theorem putWithTtl_dues (k v : Bytes) (ttlMs : Nat)
    (h : g.Is (recordBytes k v + 9) 0) :
    wp (duesRules cfg.walRotateBytes)
      (fun g' _ => g'.Is (recordBytes k v + 9) 0)
      (putWithTtl cfg k v ttlMs).run g := by
  have hlen : ∀ exp, recordBytes k (ValueCodec.encode v exp)
      ≤ recordBytes k v + 9 := by
    intro exp
    cases exp with
    | none => simp [recordBytes, ValueCodec.encode]; omega
    | some e => simp [recordBytes, ValueCodec.encode]; omega
  unfold putWithTtl
  rw [wp_bindE, wp_lift]
  refine wp_mono ?_ (wp_offLog ((expiryStamp_uses ttlMs).mono ?_) h)
  swap
  · intro p hp
    subst hp
    exact trivial
  intro g₁ exp h₁
  rw [onResult_ok]
  refine wp_offLog_bind ((planAccounting_uses k v.length).mono
    fun _ hp => hp.offLog) h₁ (fun _ _ h => h) fun plan g₂ h₂ => ?_
  refine wp_offLog_bind ((checkAccounting_uses plan).mono
    fun _ hp => hp.offLog) h₂ (fun _ _ h => h) fun _ g₃ h₃ => ?_
  refine wp_append_dues h₃ (hlen exp) (fun _ _ h => h) fun seq g₄ h₄ => ?_
  refine (wp_bindE _ _ _).mpr ⟨trivial, fun r => ?_⟩
  cases r with
  | error e => exact h₄.failed
  | ok u =>
      refine (wp_bindE _ _ _).mpr ((wp_lift _ _).mpr ?_)
      refine wp_mono ?_ (wp_offLog
        ((scheduleExpiry_uses k exp).mono fun _ hp => hp.offLog) h₄)
      exact fun g₅ _ h₅ => wp_settle_dues plan h₅

/-- So does a delete. -/
private theorem delete_dues (k : Bytes) (h : g.Is (recordBytes k []) 0) :
    wp (duesRules cfg.walRotateBytes) (fun g' _ => g'.Is (recordBytes k []) 0)
      (delete cfg k).run g := by
  unfold delete
  refine wp_offLog_bind ((planDeleteAccounting_uses k).mono
    fun _ hp => hp.offLog) h (fun _ _ h => h) fun plan g₁ h₁ => ?_
  refine wp_append_dues h₁ le_rfl (fun _ _ h => h) fun seq g₂ h₂ => ?_
  refine (wp_bindE _ _ _).mpr ⟨trivial, fun r => ?_⟩
  cases r with
  | error e => exact h₂.failed
  | ok u => exact wp_settle_dues plan h₂

/-- Every call has settled when it returns. -/
theorem op_dues (op : Op) (hop : op.OfClient) :
    wp (duesRules cfg.walRotateBytes) (fun g' _ => g'.Is op.recordBytes 0)
      (op.prog cfg) ⟨op.recordBytes, some 0⟩ := by
  have hstart : Dues.Is ⟨op.recordBytes, some 0⟩ op.recordBytes 0 :=
    ⟨rfl, fun m hm => (Option.some.inj hm).symm⟩
  cases op with
  | put k v ttlMs => exact (wp_map _ _ _).mpr (putWithTtl_dues k v ttlMs hstart)
  | delete k => exact (wp_map _ _ _).mpr (delete_dues k hstart)
  | get k =>
      refine (wp_map _ _ _).mpr (wp_offLog ((get_uses_of k).mono ?_) hstart)
      rintro p (rfl | rfl) <;> exact trivial
  | scan pre =>
      refine (wp_map _ _ _).mpr (wp_offLog ((scan_uses_of pre).mono ?_) hstart)
      rintro p (rfl | rfl) <;> exact trivial
  | scanRange a b =>
      refine (wp_map _ _ _).mpr
        (wp_offLog ((scanRange_uses_of a b).mono ?_) hstart)
      rintro p (rfl | rfl) <;> exact trivial
  | sweep => exact hop.elim

end Programs

-- ============================================================ the invariant

/-- What call `j` owes for. -/
def NodePool.dues (pool : NodePool) (threshold : Nat) (ops : List Op)
    (j : Nat) : Dues :=
  Pool.ghost (Dues.advance threshold)
    (fun j => ⟨(callAt ops j).recordBytes, some 0⟩) pool.log j

/-- The log of a node on durable storage, in order: nothing is left in the
writer, and the counter is the length of the file as far as it can count. -/
structure LogFits (w : World) : Prop where
  durable : w.storage.isDurable = true
  flushed : w.wal.buffered = []
  counted : w.wal.segmentBytes = min w.wal.file.length u64Max

/-- Bytes a call owes for. -/
def Dues.owed (g : Dues) : Int := (g.bytes.getD 0 : Nat)

/-- The segment is within the threshold and what the calls owe for. -/
structure LogKept (threshold : Nat) (ops : List Op) (pool : NodePool) :
    Prop where
  fits : LogFits pool.world
  within : ∀ j, ∃ m, (pool.dues threshold ops j).bytes = some m
    ∧ m ≤ (callAt ops j).recordBytes
  total : (pool.world.wal.file.length : Int)
    ≤ threshold + ∑ j ∈ Finset.range ops.length,
      (pool.dues threshold ops j).owed

section Steps

variable {ext : Externals} {threshold : Nat} {ops : List Op}
  {pool : NodePool} {i : Nat} {p : Prim} {k : p.Resp → NodeProg Answer}

private theorem Dues.budget_advance (g : Dues) (p : Prim) (r : p.Resp) :
    (g.advance threshold p r).budget = g.budget := by
  unfold Dues.advance
  split
  all_goals first | rfl | (split <;> rfl)

/-- A call's budget is the size of its record. -/
private theorem dues_budget (j : Nat) :
    (pool.dues threshold ops j).budget = (callAt ops j).recordBytes := by
  unfold NodePool.dues
  induction pool.log using List.reverseRecOn with
  | nil => rfl
  | append_singleton log e ih =>
      rw [Pool.ghost_snoc]
      split
      · rw [Dues.budget_advance]
        exact ih
      · exact ih

/-- A step of call `i`, by what it leaves it owing and the log at. -/
theorem LogKept.after (h : LogKept threshold ops pool) (hi : i < ops.length)
    {m m' : Nat} (hm : (pool.dues threshold ops i).bytes = some m)
    (hm' : ((pool.dues threshold ops i).advance threshold p
      (p.exec ext none pool.world).1).bytes = some m')
    (hle : m' ≤ (callAt ops i).recordBytes)
    (hfits : LogFits (p.exec ext none pool.world).2)
    (hlen : ((p.exec ext none pool.world).2.wal.file.length : Int)
      ≤ threshold + ∑ j ∈ Finset.range ops.length,
        (pool.dues threshold ops j).owed + (m' - m)) :
    LogKept threshold ops (pool.after ext i p k) := by
  have hself : (pool.after ext i p k).dues threshold ops i
      = (pool.dues threshold ops i).advance threshold p
        (p.exec ext none pool.world).1 := Pool.ghost_snoc_self _ _ _ _
  refine ⟨hfits, fun j => ?_, ?_⟩
  · by_cases hij : i = j
    · subst hij
      exact ⟨m', by rw [hself]; exact hm', hle⟩
    · have hsame : (pool.after ext i p k).dues threshold ops j
          = pool.dues threshold ops j := Pool.ghost_snoc_ne _ hij _ _
      rw [hsame]
      exact h.within j
  -- only the stepping call's dues change, and the bound moves with them
  · have hsum : ∑ j ∈ Finset.range ops.length,
          ((pool.after ext i p k).dues threshold ops j).owed
        = ∑ j ∈ Finset.range ops.length, (pool.dues threshold ops j).owed
          + (((pool.dues threshold ops i).advance threshold p
              (p.exec ext none pool.world).1).owed
            - (pool.dues threshold ops i).owed) :=
      Pool.sum_ghost_snoc Dues.owed pool.log hi p _
    have hold : (pool.dues threshold ops i).owed = m := by
      unfold Dues.owed
      rw [hm]
      rfl
    have hnew : ((pool.dues threshold ops i).advance threshold p
        (p.exec ext none pool.world).1).owed = m' := by
      unfold Dues.owed
      rw [hm']
      rfl
    rw [hsum, hold, hnew, ← add_assoc]
    exact hlen

/-- Off the log nothing moves. -/
theorem LogFits.offLog {w : World} (h : LogFits w) (hp : p.OffLog)
    (ext : Externals) (threshold : Nat) (g : Dues) :
    g.advance threshold p (p.exec ext none w).1 = g
      ∧ (p.exec ext none w).2.wal = w.wal
      ∧ LogFits (p.exec ext none w).2 := by
  cases p with
  | wal q => exact hp.elim
  | storage q =>
      cases q with
      | isDurable =>
          refine ⟨?_, rfl, h⟩
          show g.advance threshold (.storage .isDurable) w.storage.isDurable = g
          rw [h.durable]
          rfl
      | put key value =>
          refine ⟨rfl, rfl, ?_, h.flushed, h.counted⟩
          exact (StorageBackend.isDurable_write _ _).trans h.durable
      | delete key =>
          refine ⟨rfl, rfl, ?_, h.flushed, h.counted⟩
          exact (StorageBackend.isDurable_write _ _).trans h.durable
      | flush =>
          refine ⟨rfl, rfl, ?_, h.flushed, h.counted⟩
          exact (StorageBackend.isDurable_flush _).trans h.durable
      | _ => exact ⟨rfl, rfl, h⟩
  | now => exact ⟨rfl, rfl, h⟩
  | instant => exact ⟨rfl, rfl, h⟩
  | ttl q => exact ⟨rfl, rfl, ⟨h.durable, h.flushed, h.counted⟩⟩
  | quota q => exact ⟨rfl, rfl, ⟨h.durable, h.flushed, h.counted⟩⟩
  | throttle q => exact ⟨rfl, rfl, ⟨h.durable, h.flushed, h.counted⟩⟩
  | watch q => exact ⟨rfl, rfl, ⟨h.durable, h.flushed, h.counted⟩⟩

/-- What one call owes for is part of what all do. -/
theorem owed_le_sum (hi : i < ops.length) {m : Nat}
    (hm : (pool.dues threshold ops i).bytes = some m) :
    (m : Int) ≤ ∑ j ∈ Finset.range ops.length,
      (pool.dues threshold ops j).owed := by
  have hone : (pool.dues threshold ops i).owed = m := by
    unfold Dues.owed
    rw [hm]
    rfl
  rw [← hone]
  exact Finset.single_le_sum (fun j _ => Int.natCast_nonneg _)
    (Finset.mem_range.mpr hi)

/-- An append lengthens the segment by what the call now owes for. -/
theorem LogKept.append (h : LogKept threshold ops pool) (hi : i < ops.length)
    {op : WalOp} {key value : Bytes}
    {k : (Prim.wal (.append op key value)).Resp → NodeProg Answer}
    (hok : (pool.dues threshold ops i).Ok (.wal (.append op key value))) :
    LogKept threshold ops
      (pool.after ext i (.wal (.append op key value)) k) := by
  obtain ⟨m, hm, -⟩ := h.within i
  obtain ⟨⟨-, hzero⟩, hfit⟩ := hok
  have hm0 := hzero m hm
  have htotal := h.total
  rw [dues_budget] at hfit
  have hbytes : (pool.world.wal.append none op key value).2.file.length
      = pool.world.wal.file.length + recordBytes key value := by
    show (pool.world.wal.file ++ (pool.world.wal.buffered
      ++ encodeFrame pool.world.wal.nextSeq op key value)).length = _
    rw [h.fits.flushed, List.nil_append, List.length_append,
      length_encodeFrame]
    rfl
  have hadv : ((pool.dues threshold ops i).advance threshold
      (.wal (.append op key value))
      ((Prim.wal (.append op key value)).exec ext none pool.world).1).bytes
        = some (m + recordBytes key value) := by
    show (pool.dues threshold ops i).bytes.map _ = _
    rw [hm]
    rfl
  refine h.after hi hm hadv (by omega) ⟨h.fits.durable, rfl, ?_⟩ ?_
  -- the size is a saturating sum, so it follows the length only up to the
  -- largest `u64`
  · show saturatingAdd pool.world.wal.segmentBytes
      (encodeFrame pool.world.wal.nextSeq op key value).length
      = min (pool.world.wal.append none op key value).2.file.length _
    rw [hbytes, h.fits.counted, length_encodeFrame, saturatingAdd, recordBytes]
    omega
  · show ((pool.world.wal.append none op key value).2.file.length : Int) ≤ _
    rw [hbytes]
    push_cast
    omega

/-- A look that finds the segment short settles the debt. -/
theorem LogKept.look (hmax : threshold ≤ u64Max)
    (h : LogKept threshold ops pool) (hi : i < ops.length)
    {k : (Prim.wal .segmentBytes).Resp → NodeProg Answer} :
    LogKept threshold ops (pool.after ext i (.wal .segmentBytes) k) := by
  obtain ⟨m, hm, hle⟩ := h.within i
  have htotal := h.total
  have hrest := owed_le_sum hi hm
  have hadv : (pool.dues threshold ops i).advance threshold
      (.wal .segmentBytes)
      ((Prim.wal .segmentBytes).exec ext none pool.world).1
        = if pool.world.wal.segmentBytes < threshold then
            { pool.dues threshold ops i with
              bytes := (pool.dues threshold ops i).bytes.map fun _ => 0 }
          else pool.dues threshold ops i := rfl
  by_cases hsize : pool.world.wal.segmentBytes < threshold
  · -- whatever the others owe for
    have hshort : pool.world.wal.file.length < threshold := by
      rw [h.fits.counted] at hsize
      omega
    refine h.after hi hm ?_ (Nat.zero_le _) h.fits ?_
    · rw [hadv, if_pos hsize, hm]
      rfl
    · show (pool.world.wal.file.length : Int) ≤ _
      push_cast
      omega
  · refine h.after hi hm ?_ hle h.fits ?_
    · rw [hadv, if_neg hsize]
      exact hm
    · show (pool.world.wal.file.length : Int) ≤ _
      omega

/-- A rotated log is its header. -/
private theorem length_rotate {wal : Wal} (h : wal.buffered = []) :
    (wal.rotate none).2.file.length = headerLen := by
  show (applyEffects wal.rotateEffects wal.file).length = _
  rw [Wal.rotateEffects, h]
  simp [FileEffect.apply]

/-- A rotation leaves a header. -/
theorem LogKept.rotate (hheader : headerLen ≤ threshold)
    (h : LogKept threshold ops pool) (hi : i < ops.length)
    {k : (Prim.wal .rotate).Resp → NodeProg Answer} :
    LogKept threshold ops (pool.after ext i (.wal .rotate) k) := by
  obtain ⟨m, hm, -⟩ := h.within i
  have hrest := owed_le_sum hi hm
  have hfile := length_rotate h.fits.flushed
  refine h.after hi hm ?_ (Nat.zero_le _)
    ⟨h.fits.durable, rfl, ?_⟩ ?_
  · show (pool.dues threshold ops i).bytes.map _ = _
    rw [hm]
    rfl
  · show headerLen = min (pool.world.wal.rotate none).2.file.length _
    rw [hfile]
    rfl
  · show ((pool.world.wal.rotate none).2.file.length : Int) ≤ _
    rw [hfile]
    push_cast
    omega

/-- Every step a call takes keeps the account. -/
theorem LogKept.step (hheader : headerLen ≤ threshold)
    (hmax : threshold ≤ u64Max) (h : LogKept threshold ops pool)
    (hi : i < ops.length) (hok : (pool.dues threshold ops i).Ok p) :
    LogKept threshold ops (pool.after ext i p k) := by
  by_cases hoff : p.OffLog
  · obtain ⟨m, hm, hle⟩ := h.within i
    obtain ⟨hg, hwal, hfits⟩ :=
      h.fits.offLog hoff ext threshold (pool.dues threshold ops i)
    refine h.after hi hm (by rw [hg]; exact hm) hle hfits ?_
    rw [hwal, sub_self, add_zero]
    exact h.total
  cases p with
  | wal q =>
      cases q with
      | «open» => exact hok.elim
      | append op key value => exact h.append hi hok
      | segmentBytes => exact h.look hmax hi
      | rotate => exact h.rotate hheader hi
  | _ => exact absurd trivial hoff

end Steps

-- ==================================================================== runs

section Runs

variable {ext : Externals} {cfg : NodeConfig} {w : World} {ops : List Op}
  {pool : NodePool}

/-- Every call, wherever it is, will have seen to the rotation at its end. -/
private theorem dues_of_run (hops : ∀ op ∈ ops, op.OfClient)
    {allow : NodePool → Nat → Prim → Prop}
    (h : NodePool.Run ext allow (NodePool.calls cfg w ops) pool) {i : Nat}
    {x : NodeProg Answer} (hx : pool.threads[i]? = some x) :
    wp (duesRules cfg.walRotateBytes)
      (fun g _ => g.Is (callAt ops i).recordBytes 0) x
      (pool.dues cfg.walRotateBytes ops i) := by
  have halone : ∀ (j : Nat) (y : NodeProg Answer),
      (ops.map (Op.prog cfg))[j]? = some y →
        wp (duesRules cfg.walRotateBytes)
          (fun g _ => g.Is (callAt ops j).recordBytes 0) y
          ⟨(callAt ops j).recordBytes, some 0⟩ := by
    intro j y hy
    rw [List.getElem?_map, Option.map_eq_some_iff] at hy
    obtain ⟨op, hop, rfl⟩ := hy
    have hcall : callAt ops j = op := by
      unfold callAt
      rw [hop]
      rfl
    rw [hcall]
    exact op_dues op (hops op (List.mem_of_getElem? hop))
  exact Pool.Run.discipline halone h i x hx

/-- Over a run, the log is within the threshold and what calls still have to
see to. -/
private theorem logKept_of_run (hops : ∀ op ∈ ops, op.OfClient)
    (hheader : headerLen ≤ cfg.walRotateBytes)
    (hmax : cfg.walRotateBytes ≤ u64Max) (hfits : LogFits w)
    (hstart : w.wal.file.length ≤ cfg.walRotateBytes)
    {allow : NodePool → Nat → Prim → Prop}
    (h : NodePool.Run ext allow (NodePool.calls cfg w ops) pool) :
    LogKept cfg.walRotateBytes ops pool := by
  induction h with
  | start =>
      refine ⟨hfits, fun j => ⟨0, rfl, Nat.zero_le _⟩, ?_⟩
      have hnone : ∑ j ∈ Finset.range ops.length,
          ((NodePool.calls cfg w ops).dues cfg.walRotateBytes ops j).owed
            = 0 := Finset.sum_eq_zero fun _ _ => rfl
      rw [hnone, add_zero]
      exact Int.ofNat_le.mpr hstart
  | @step pool i p k hrun hi _ ih =>
      have hlt : i < ops.length := by
        have hlt := (List.getElem?_eq_some_iff.mp hi).1
        rw [hrun.length] at hlt
        simpa [NodePool.calls, Pool.ready] using hlt
      exact ih.step hheader hmax hlt (dues_of_run hops hrun hi).1
  | env _ he ih =>
      obtain ⟨now, instant, -, rfl⟩ := he
      exact ⟨⟨ih.fits.durable, ih.fits.flushed, ih.fits.counted⟩, ih.within,
        ih.total⟩

/-- Replaying and reading storage keep the log as it is. -/
theorem wp_quiet_log {α : Type} {x : NodeProg α} (hx : x.Uses Prim.Quiet)
    (h : LogFits w ∧ w.wal.file.length = headerLen) :
    wp (.handler (Prim.exec ext none))
      (fun g _ => LogFits g ∧ g.wal.file.length = headerLen) x w := by
  refine wp_of_uses (I := fun g : World => LogFits g
    ∧ g.wal.file.length = headerLen) ?_ (fun _ _ hI => hI) hx h
  intro g p hg hp
  obtain ⟨hwal, hstorage⟩ := hp.exec ext g
  obtain ⟨⟨hd, hb, hc⟩, hlen⟩ := hg
  rw [← hwal] at hb hc hlen
  rw [← hstorage] at hd
  exact ⟨⟨hd, hb, hc⟩, hlen⟩

private theorem wp_replayLoop_log (records : List WalRecord) :
    ∀ {w : World}, w.storage.isDurable = true → w.wal.buffered = [] →
      wp (.handler (Prim.exec ext none))
        (fun g _ => g.storage.isDurable = true ∧ g.wal.buffered = [])
        (replayLoop records).run w := by
  induction records with
  | nil => exact fun hd hb => ⟨hd, hb⟩
  | cons r rest ih =>
      intro w hd hb
      refine (wp_bindE _ _ _).mpr ?_
      unfold replayRecord
      cases r.op with
      | put => exact ih ((StorageBackend.isDurable_write _ _).trans hd) hb
      | delete => exact ih ((StorageBackend.isDurable_write _ _).trans hd) hb

/-- A start leaves a log that is its header. -/
private theorem wp_retireSegment_log (hd : w.storage.isDurable = true)
    (hb : w.wal.buffered = []) :
    wp (.handler (Prim.exec ext none))
      (fun g _ => LogFits g ∧ g.wal.file.length = headerLen)
      retireSegment.run w := by
  have hlen := length_rotate hb
  refine (wp_bindE _ _ _).mpr ?_
  show wp _ _ (ExceptT.run (if w.storage.isDurable then _ else _)) w
  rw [hd, if_pos rfl]
  refine ⟨⟨?_, rfl, ?_⟩, hlen⟩
  · exact (StorageBackend.isDurable_flush _).trans hd
  · show headerLen = min (w.wal.rotate none).2.file.length u64Max
    rw [hlen]
    rfl

/-- A node on durable storage comes up with an empty segment. -/
theorem wp_open_log (ext : Externals) {w₀ : World}
    (hdurable : w₀.storage.isDurable = true) :
    wp (.handler (Prim.exec ext none)) (onResult
        (fun g _ => LogFits g ∧ g.wal.file.length = headerLen)
        fun _ _ => True)
      (NodeService.open ext).run w₀ := by
  unfold NodeService.open
  refine (wp_bindE _ _ _).mpr ?_
  cases hfile : Wal.open w₀.wal.file with
  | error e =>
      have hexec : Prim.exec ext none (.wal .open) w₀ = (.error e, w₀) := by
        simp only [Prim.exec, WalPrim.exec, hfile]
      exact wp_handler_step hexec trivial
  | ok out =>
      obtain ⟨wal, recovery⟩ := out
      have hexec : Prim.exec ext none (.wal .open) w₀
          = (.ok recovery, { w₀ with wal := wal }) := by
        simp only [Prim.exec, WalPrim.exec, hfile]
      have hbuffered : wal.buffered = [] := by
        unfold Wal.open at hfile
        split at hfile
        · cases hfile
        · cases hfile
          rfl
      refine wp_handler_step hexec ?_
      refine (wp_bindE _ _ _).mpr ((wp_bindE _ _ _).mpr (wp_mono ?_
        (wp_replayLoop_log recovery.records hdurable hbuffered)))
      intro w₁ r h₁
      cases r with
      | error e => exact trivial
      | ok u =>
          -- the records are in storage: flush it, and start the log over
          refine (wp_bindE _ _ _).mpr (wp_mono ?_
            (wp_retireSegment_log h₁.1 h₁.2))
          intro w₂ r h₂
          cases r with
          | error e => exact trivial
          | ok u =>
              refine (wp_bindE _ _ _).mpr (wp_mono ?_ (wp_quiet_log
                ((loadQuotas_uses ext).mono fun _ hp => hp.quiet) h₂))
              intro w₃ r h₃
              cases r with
              | error e => exact trivial
              | ok n =>
                  refine wp_mono ?_ (wp_quiet_log bootstrapFromStorage_uses h₃)
                  intro w₄ r h₄
                  cases r with
                  | error e => exact trivial
                  | ok u => exact h₄

end Runs

-- =============================================================== the result

/-- A node on durable storage comes up, and clients make any calls, in any
interleaving: the segment file is never longer than the rotation threshold
and the records of the calls that have not returned. -/
theorem log_bounded (ext : Externals) (cfg : NodeConfig)
    (hmin : 4096 ≤ cfg.walRotateBytes) (hmax : cfg.walRotateBytes ≤ u64Max)
    {w₀ w : World} (hdurable : w₀.storage.isDurable = true)
    (hopen : (NodeService.open ext).run.run (Prim.exec ext none) w₀
      = (.ok (), w))
    (ops : List Op) (hops : ∀ op ∈ ops, op.OfClient) {pool : NodePool}
    (h : NodePool.Run ext NodePool.anyStep (NodePool.calls cfg w ops) pool) :
    pool.world.wal.file.length ≤ cfg.walRotateBytes
      + ∑ j ∈ Finset.range ops.length,
        if (pool.result j).isNone then (callAt ops j).recordBytes else 0 := by
  have hheader : headerLen ≤ cfg.walRotateBytes := by
    have : headerLen = 14 := rfl
    omega
  have hpost := run_post (wp_open_log ext hdurable)
  rw [hopen] at hpost
  obtain ⟨hfits, hlen⟩ := hpost
  have hkept := logKept_of_run hops hheader hmax hfits (by omega) h
  have hdues : ∀ j ∈ Finset.range ops.length,
      (pool.dues cfg.walRotateBytes ops j).owed
        ≤ ((if (pool.result j).isNone then (callAt ops j).recordBytes
          else 0 : Nat) : Int) := by
    intro j _
    obtain ⟨m, hm, hle⟩ := hkept.within j
    unfold Dues.owed
    rw [hm, Option.getD_some]
    cases hres : pool.result j with
    | none => simpa using hle
    | some a =>
        -- a call that has returned has settled
        have hsettled : (pool.dues cfg.walRotateBytes ops j).Is
            (callAt ops j).recordBytes 0 :=
          dues_of_run hops h (Pool.result_eq_some.mp hres)
        simp [hsettled.2 m hm]
  have hsum := Finset.sum_le_sum hdues
  have htotal := hkept.total
  rw [← Nat.cast_sum] at hsum
  omega

/-- A node that rotates as early as one may. -/
def smallLog : NodeConfig := { walRotateBytes := 4096 }

/-- Two puts of one byte each. -/
def shortPuts : List Op :=
  [.put (KeyCodec.bytesOf "a" .data [1]) [5] 0,
    .put (KeyCodec.bytesOf "a" .data [2]) [6] 0]

/-- The second has returned, the first has appended its record. -/
def oneAppended : NodePool :=
  Pool.play (Prim.exec .plain none)
    (List.replicate 4 0 ++ List.replicate 12 1)
    (NodePool.calls smallLog (.opened smallLog) shortPuts)

/-- One put has appended and not yet looked; another is done. -/
theorem log_bounded_one_appended :
    oneAppended.result 0 = none ∧ oneAppended.result 1 = some (.done (.ok ()))
      ∧ oneAppended.world.wal.file.length = 68
      ∧ oneAppended.world.wal.file.length ≤ 4096 + 35 := by
  have h0 : oneAppended.result 0 = none := by decide +kernel
  have h1 : oneAppended.result 1 = some (.done (.ok ())) := by decide +kernel
  have hopen : (NodeService.open .plain).run.run (Prim.exec .plain none)
      (.fresh smallLog 0 0) = (.ok (), .opened smallLog) :=
    Prod.ext (by decide +kernel) rfl
  refine ⟨h0, h1, by decide +kernel, ?_⟩
  have hrun : NodePool.Run .plain NodePool.anyStep
      (NodePool.calls smallLog (.opened smallLog) shortPuts) oneAppended :=
    Pool.run_play _ (Pool.allowed_of_forall (fun _ _ _ => trivial) _ _)
  have hbound := log_bounded .plain smallLog (by decide) (by decide)
    (by decide +kernel) hopen shortPuts (by simp [shortPuts, Op.OfClient]) hrun
  have hsum : ∑ j ∈ Finset.range shortPuts.length,
      (if (oneAppended.result j).isNone then (callAt shortPuts j).recordBytes
        else 0) = 35 := by
    show ∑ j ∈ Finset.range 2, _ = 35
    rw [Finset.sum_range_succ, Finset.sum_range_one, h0, h1]
    rfl
  rw [hsum] at hbound
  exact hbound

end FerrisKv
