/-
Appends that fail.

`append` neither cuts the file back nor empties its buffer when a write
fails, and does not advance `next_seq` either. What the failed frame
leaves depends on its size. A frame that bypasses the `BufWriter` leaves a
torn prefix in the middle of the segment, and recovery stops there: what
later calls append is lost. A smaller one leaves its unwritten rest in the
buffer, where the next append finds it, completes it, and then writes its
own frame under the same number (`failed_append_damages`).

A log is `Whole` if nothing waits in its buffer and its file ends with a
frame. As long as every append finds the log so, the last call may fail as
it likes: `whole_appends_recover`.
-/
import FerrisKv.Proofs.Wal.Segment

namespace FerrisKv

-- ================================================================ the calls

/-- One call of `append`, and the fault it meets if it meets one. -/
structure AppendCall where
  op : WalOp
  key : Bytes
  value : Bytes
  fault : Option Fault
  deriving DecidableEq, Repr

/-- Make the call. -/
def AppendCall.make (c : AppendCall) (w : Wal) : Result Nat × Wal :=
  w.append c.fault c.op c.key c.value

/-- The record a call has acknowledged, by its answer. -/
def AppendCall.acked (c : AppendCall) : Result Nat → List WalRecord
  | .ok seq => [⟨seq, c.op, c.key, c.value⟩]
  | .error _ => []

/-- Make the calls one after the other: the records acknowledged, and the
log. -/
def Wal.appends (w : Wal) : List AppendCall → List WalRecord × Wal
  | [] => ([], w)
  | c :: rest =>
      let after := (c.make w).2.appends rest
      (c.acked (c.make w).1 ++ after.1, after.2)

-- ============================================================ the condition

/-- Nothing waits in the buffer and the file ends where its last frame
ends. -/
def Wal.Whole (w : Wal) : Prop :=
  w.buffered = []
    ∧ headerLen + (parseFrames (w.file.drop headerLen)).2 = w.file.length

/-- The call finds a whole log, a number left to give, and lengths that
their fields can hold. -/
structure AppendCall.Starts (c : AppendCall) (w : Wal) : Prop where
  whole : w.Whole
  seq : w.nextSeq < u64Max
  key : c.key.length < 2 ^ 32
  value : c.value.length < 2 ^ 32

/-- Every call of the sequence does. -/
def AllStart : Wal → List AppendCall → Prop
  | _, [] => True
  | w, c :: rest => c.Starts w ∧ AllStart (c.make w).2 rest

instance (w : Wal) : Decidable w.Whole := inferInstanceAs (Decidable (_ ∧ _))

instance (c : AppendCall) (w : Wal) : Decidable (c.Starts w) :=
  decidable_of_iff (w.Whole ∧ w.nextSeq < u64Max ∧ c.key.length < 2 ^ 32
      ∧ c.value.length < 2 ^ 32)
    ⟨fun h => ⟨h.1, h.2.1, h.2.2.1, h.2.2.2⟩,
      fun h => ⟨h.whole, h.seq, h.key, h.value⟩⟩

instance decidableAllStart : (w : Wal) → (calls : List AppendCall) →
    Decidable (AllStart w calls)
  | _, [] => isTrue trivial
  | w, c :: rest =>
      @instDecidableAnd _ _ _ (decidableAllStart (c.make w).2 rest)

-- ============================================================ the invariant

/-- The log holds `records`, under numbers it has left behind. -/
structure Wal.Counts (w : Wal) (records : List WalRecord) : Prop extends
    w.Holds records where
  below : ∀ r ∈ records, r.seq < w.nextSeq
  distinct : (records.map WalRecord.seq).Nodup

/-- What the calls so far have made of the log: it counts the acknowledged
records, or it did until the last call failed. -/
inductive Wal.Keeps : Wal → List WalRecord → Prop where
  | counts {w : Wal} {records : List WalRecord} (h : w.Counts records) :
      Keeps w records
  | struck {w : Wal} {records : List WalRecord} {c : AppendCall} {e : Error}
      (h : w.Counts records) (hc : c.Starts w)
      (he : (c.make w).1 = .error e) : Keeps (c.make w).2 records

section OneCall

variable {w : Wal} {records : List WalRecord} {c : AppendCall}

/-- The next number has not been used. -/
private theorem Wal.Counts.nodup_next (h : w.Counts records) (op : WalOp)
    (key value : Bytes) :
    ((records ++ [w.nextRecord op key value]).map WalRecord.seq).Nodup := by
  rw [List.map_append, List.nodup_append]
  refine ⟨h.distinct, List.nodup_singleton _, ?_⟩
  intro a ha b hb
  obtain ⟨r, hr, rfl⟩ := List.mem_map.mp ha
  have hlt := h.below r hr
  have hb' : b = w.nextSeq := List.mem_singleton.mp hb
  omega

/-- A call either has its record whole in the log, or fails. -/
theorem AppendCall.make_cases (c : AppendCall) (w : Wal) :
    c.make w = w.append none c.op c.key c.value
      ∨ ∃ f, c.fault = some f
        ∧ f.after < (w.buffered ++ encodeFrame w.nextSeq c.op c.key
          c.value).length
        ∧ (c.make w).1 = .error (.io f.text)
        ∧ (c.make w).2.file = w.file
          ++ (w.buffered ++ encodeFrame w.nextSeq c.op c.key c.value).take
            f.after
        ∧ (c.make w).2.buffered = Wal.leftover w.buffered
          (encodeFrame w.nextSeq c.op c.key c.value) f.after
        ∧ (c.make w).2.nextSeq = w.nextSeq := by
  unfold AppendCall.make Wal.append
  cases hf : c.fault with
  | none => exact .inl rfl
  | some f =>
      simp only
      split
      · next hlt => exact .inr ⟨f, rfl, hlt, rfl, rfl, rfl, rfl⟩
      · exact .inl rfl

/-- A call that is answered leaves the log counting its record too. -/
theorem Wal.Counts.append (h : w.Counts records) (hc : c.Starts w) :
    (w.append none c.op c.key c.value).2.Counts
      (records ++ [w.nextRecord c.op c.key c.value]) := by
  have hseq : (w.append none c.op c.key c.value).2.nextSeq
      = w.nextSeq + 1 := by
    have hroom := hc.seq
    exact saturatingAdd_eq (by omega)
  refine ⟨(h.toHolds.append c.op hc.key hc.value).2, ?_,
    h.nodup_next c.op c.key c.value⟩
  intro r hr
  rw [hseq]
  rcases List.mem_append.mp hr with hr | hr
  · have hlt := h.below r hr
    omega
  · rw [List.mem_singleton.mp hr]
    exact Nat.lt_succ_self _

/-- One call, whatever it answers. -/
theorem Wal.Counts.make (h : w.Counts records) (hc : c.Starts w) :
    (c.make w).2.Keeps (records ++ c.acked (c.make w).1) := by
  rcases c.make_cases w with hok | ⟨f, -, -, herr, -⟩
  · rw [hok]
    exact .counts (h.append hc)
  · have hacked : c.acked (c.make w).1 = [] := by rw [herr]; rfl
    rw [hacked, List.append_nil]
    exact .struck h hc herr

/-- What a failed call leaves in the file, together with as much of its
buffer as is written when the log is closed, is a crash inside it. -/
theorem AppendCall.closed_eq_cut (h : w.Counts records) {e : Error}
    (he : (c.make w).1 = .error e) (k : Nat) :
    ∃ n, (c.make w).2.file ++ (c.make w).2.buffered.take k
      = applyEffects ((w.appendEffects c.op c.key c.value).take n)
        w.file := by
  rcases c.make_cases w with hok | ⟨f, -, -, -, hfile, hbuf, -⟩
  · rw [hok] at he
    cases he
  · rw [hfile, hbuf, h.buffered, List.nil_append]
    unfold Wal.leftover Wal.appendEffects
    simp only [h.buffered, List.nil_append, List.drop_nil,
      List.length_nil, Nat.sub_zero]
    split
    · -- nothing is buffered
      refine ⟨f.after, ?_⟩
      rw [← List.map_take, applyEffects_write, List.take_nil,
        List.append_nil]
    · next hsmall =>
        refine ⟨f.after + k, ?_⟩
        rw [if_pos (by omega), ← List.map_take, applyEffects_write,
          List.append_assoc, List.take_add]

/-- A failed call after which the log is whole has done nothing to it. -/
theorem Wal.Counts.of_struck (h : w.Counts records) (hc : c.Starts w)
    {e : Error} (he : (c.make w).1 = .error e)
    (hw : (c.make w).2.Whole) : (c.make w).2.Counts records := by
  rcases c.make_cases w with hok | ⟨f, -, hlt, -, hfile, -, hseq⟩
  · rw [hok] at he
    cases he
  · obtain ⟨base, hb, hheld⟩ := h.file
    rw [h.buffered, List.nil_append] at hlt hfile
    have htorn : parseFrame ((encodeFrame w.nextSeq c.op c.key c.value).take
        f.after) = none :=
      parseFrame_torn (h.nextRecord_fits c.op hc.key hc.value) hlt
    -- the file ends with a frame, so no byte of this one is in it
    have hnone : ((encodeFrame w.nextSeq c.op c.key c.value).take
        f.after).length = 0 := by
      have hend := hw.2
      rw [hfile, hheld, List.append_assoc, ← length_encodeHeader base,
        List.drop_left, parseFrames_frames h.fits htorn] at hend
      simp only [List.length_append] at hend
      omega
    have hsame : (c.make w).2.file = w.file := by
      rw [hfile, List.eq_nil_of_length_eq_zero hnone, List.append_nil]
    refine ⟨⟨⟨base, hb, hsame.trans hheld⟩, h.fits, hw.1, ?_⟩, ?_,
      h.distinct⟩
    · rw [hseq]
      exact h.seq
    · rw [hseq]
      exact h.below

end OneCall

-- ================================================================= the runs

/-- A log that is whole counts its records. -/
theorem Wal.Keeps.counts_of_whole {w : Wal} {records : List WalRecord}
    (h : w.Keeps records) (hw : w.Whole) : w.Counts records := by
  cases h with
  | counts h => exact h
  | struck h hc he => exact h.of_struck hc he hw

/-- Any number of calls that each find a whole log. -/
theorem Wal.Keeps.appends {w : Wal} {records : List WalRecord}
    (h : w.Keeps records) {calls : List AppendCall}
    (hcalls : AllStart w calls) :
    (w.appends calls).2.Keeps (records ++ (w.appends calls).1) := by
  induction calls generalizing w records with
  | nil =>
      rw [Wal.appends, List.append_nil]
      exact h
  | cons c rest ih =>
      have hcounts := h.counts_of_whole hcalls.1.whole
      have hrest := ih (hcounts.make hcalls.1) hcalls.2
      rw [List.append_assoc] at hrest
      exact hrest

/-- Opening what such a log leaves finds every acknowledged record, and no
number twice. -/
theorem Wal.Keeps.recovers {w : Wal} {records : List WalRecord}
    (h : w.Keeps records) (k : Nat) :
    ∃ w' recovery, Wal.open (w.file ++ w.buffered.take k) = .ok (w', recovery)
      ∧ (∀ r ∈ records, r ∈ recovery.records)
      ∧ (recovery.records.map WalRecord.seq).Nodup := by
  cases h with
  | counts h =>
      rw [h.buffered, List.take_nil, List.append_nil]
      obtain ⟨w', recovery, hopen, rfl, -⟩ := h.fileHolds.open
      exact ⟨w', recovery, hopen, fun r hr => hr, h.distinct⟩
  | @struck w₀ _ c e h hc he =>
      obtain ⟨n, hcut⟩ := AppendCall.closed_eq_cut h he k
      rw [hcut]
      -- the failed record is out, or the closing flush completed it
      rcases h.append_cut c.op hc.key hc.value n with hfile | hfile
      · obtain ⟨w', recovery, hopen, rfl, -⟩ := hfile.open
        exact ⟨w', recovery, hopen, fun r hr => hr, h.distinct⟩
      · obtain ⟨w', recovery, hopen, hrec, -⟩ := hfile.open
        refine ⟨w', recovery, hopen, fun r hr => ?_, ?_⟩
        · rw [hrec]
          exact List.mem_append_left _ hr
        · rw [hrec]
          exact h.nodup_next c.op c.key c.value

/-- A segment counts its own records. -/
theorem Segment.counts (s : Segment) : s.wal.Counts s.records where
  file := ⟨s.base, s.base_lt, rfl⟩
  fits := s.fits
  buffered := rfl
  seq := s.nextSeq_lt
  below := fun r hr => s.seq_lt hr
  distinct := by
    refine List.nodup_iff_getElem?_ne_getElem?.mpr fun i j hij hj heq => ?_
    rw [List.length_map] at hj
    have hi := List.getElem?_eq_getElem (Nat.lt_trans hij hj)
    have hj' := List.getElem?_eq_getElem hj
    rw [List.getElem?_map, List.getElem?_map, hi, hj', Option.map_some,
      Option.map_some, Option.some.injEq, s.numbered i _ hi,
      s.numbered j _ hj'] at heq
    omega

/-- **A failed append leaves a log that can be read.** In every sequence of
appends that each find a whole log, whichever of them fail and after
however many bytes, the next open finds every record whose append was
answered and no sequence number twice. That holds for whatever part `k` of
the buffer is written when the log is closed. -/
theorem whole_appends_recover (s : Segment) (calls : List AppendCall)
    (h : AllStart s.wal calls) (k : Nat) :
    ∃ w recovery,
      Wal.open ((s.wal.appends calls).2.file
        ++ (s.wal.appends calls).2.buffered.take k) = .ok (w, recovery)
      ∧ (∀ r ∈ s.records ++ (s.wal.appends calls).1,
          r ∈ recovery.records)
      ∧ (recovery.records.map WalRecord.seq).Nodup :=
  (Wal.Keeps.appends (.counts s.counts) h).recovers k

/-- A call on a full disk, after one that is answered. -/
theorem whole_appends_recover_full :
    let calls : List AppendCall :=
      [⟨.put, [1], [5], none⟩, ⟨.put, [2], [6], some ⟨3, "disk full"⟩⟩]
    let out := (Segment.fresh 0 (by decide)).wal.appends calls
    AllStart (Segment.fresh 0 (by decide)).wal calls
      ∧ ∃ w recovery,
        Wal.open (out.2.file ++ out.2.buffered.take 0) = .ok (w, recovery)
        ∧ ⟨0, .put, [1], [5]⟩ ∈ recovery.records := by
  intro calls out
  have hstart : AllStart (Segment.fresh 0 (by decide)).wal calls := by
    decide +kernel
  obtain ⟨w, recovery, hopen, hall, -⟩ :=
    whole_appends_recover (Segment.fresh 0 (by decide)) calls hstart 0
  exact ⟨hstart, w, recovery, hopen, hall _ (by decide +kernel)⟩

/-- What recovery finds in the file the calls leave. -/
def recovered (calls : List AppendCall) : Option (List WalRecord) :=
  match Wal.open ((Segment.fresh 0 (by decide)).wal.appends calls).2.file with
  | .ok (_, recovery) => some recovery.records
  | .error _ => none

/-- Two calls, the first of which meets a full disk. A small frame is
completed by the second call, and both records have number 0. A frame of
the buffer's size leaves a byte behind, and the second record, which was
acknowledged, is lost. -/
theorem failed_append_damages :
    let calls := fun value : Bytes =>
      [⟨.put, [1], value, some ⟨1, "disk full"⟩⟩, ⟨.put, [2], [6], none⟩]
    ((Segment.fresh 0 (by decide)).wal.appends (calls [5])).1
        = [⟨0, .put, [2], [6]⟩]
      ∧ recovered (calls [5])
        = some [⟨0, .put, [1], [5]⟩, ⟨0, .put, [2], [6]⟩]
      ∧ ((Segment.fresh 0 (by decide)).wal.appends
          (calls (List.replicate bufCapacity 0))).1 = [⟨0, .put, [2], [6]⟩]
      ∧ recovered (calls (List.replicate bufCapacity 0)) = some [] := by
  refine ⟨?_, ?_, ?_, ?_⟩ <;> decide +kernel

end FerrisKv
