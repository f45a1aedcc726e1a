/-
A log file and the records it holds, without regard to their numbers.

Recovery, replay and rotation only depend on WHICH records a segment
holds and in what order. `FileHolds file records` says so of a file a
crash may have left, torn tail included; `Wal.Holds` of an open log.
Neither bounds the number of records: a sequence counter that saturates
still leaves a segment that reads back.
-/
import FerrisKv.Proofs.Wal.Frames

namespace FerrisKv

-- ============================================================ definitions

/-- The file is a segment that holds exactly `records`, followed by the
torn beginning of a frame if a crash left one. A path with no file yet
holds no record. -/
inductive FileHolds : Bytes → List WalRecord → Prop where
  | absent : FileHolds [] []
  | segment {base : Nat} {records : List WalRecord} {tail : Bytes}
      (hb : base < 2 ^ 64) (hf : ∀ r ∈ records, r.Fits)
      (ht : parseFrame tail = none) :
      FileHolds (encodeHeader base ++ (frames records ++ tail)) records

/-- The open log holds exactly `records` and nothing waits in its
buffer. -/
structure Wal.Holds (w : Wal) (records : List WalRecord) : Prop where
  file : ∃ base < 2 ^ 64, w.file = encodeHeader base ++ frames records
  fits : ∀ r ∈ records, r.Fits
  buffered : w.buffered = []
  seq : w.nextSeq < 2 ^ 64

-- ================================================================ opening

/-- What `Wal::open` finds in a segment with a torn tail, and how it mends
the file. -/
theorem recover_frames {base : Nat} {records : List WalRecord}
    {tail : Bytes} (hb : base < 2 ^ 64) (hf : ∀ r ∈ records, r.Fits)
    (ht : parseFrame tail = none) :
    Wal.recover (encodeHeader base ++ (frames records ++ tail))
      = let nextSeq := max
          ((records.getLast?.map fun r => saturatingAdd r.seq 1).getD base)
          base
        let validLen := (encodeHeader base ++ frames records).length
        .ok (⟨records, tail.length, nextSeq, validLen⟩,
          if tail.length > 0 then [.setLen validLen, .sync] else []) := by
  have hlen : (encodeHeader base ++ frames records).length
      = headerLen + (frames records).length := by
    rw [List.length_append, length_encodeHeader]
  have hdrop : (encodeHeader base ++ (frames records ++ tail)).drop headerLen
      = frames records ++ tail := by
    rw [← length_encodeHeader base, List.drop_left]
  have hcut : (encodeHeader base ++ (frames records ++ tail)).length
      - (encodeHeader base ++ frames records).length = tail.length := by
    simp only [List.length_append]
    omega
  have hne : (encodeHeader base ++ (frames records ++ tail)).length ≠ 0 := by
    rw [List.length_append, length_encodeHeader, headerLen]
    omega
  unfold Wal.recover
  rw [if_neg hne, hdrop, parseHeader_encodeHeader hb]
  simp only [parseFrames_frames hf ht, ← hlen, hcut]

/-- Cutting the file at the end of its frames drops the torn tail. -/
theorem setLen_frames (base : Nat) (records : List WalRecord)
    (tail : Bytes) :
    FileEffect.apply (encodeHeader base ++ (frames records ++ tail))
        (.setLen (encodeHeader base ++ frames records).length)
      = encodeHeader base ++ frames records := by
  rw [← List.append_assoc]
  exact List.take_left

/-- What `Wal::open` makes of a segment with a torn tail. -/
theorem open_frames {base : Nat} {records : List WalRecord} {tail : Bytes}
    (hb : base < 2 ^ 64) (hf : ∀ r ∈ records, r.Fits)
    (ht : parseFrame tail = none) :
    Wal.open (encodeHeader base ++ (frames records ++ tail))
      = let nextSeq := max
          ((records.getLast?.map fun r => saturatingAdd r.seq 1).getD base)
          base
        let bytes := encodeHeader base ++ frames records
        .ok (⟨bytes, [], nextSeq, bytes.length⟩,
          ⟨records, tail.length, nextSeq, bytes.length⟩) := by
  unfold Wal.open
  simp only [recover_frames hb hf ht]
  congr 3
  by_cases htail : tail.length > 0
  · rw [if_pos htail]
    exact setLen_frames base records tail
  · have hnil : tail = [] := List.eq_nil_of_length_eq_zero (by omega)
    subst hnil
    simp [applyEffects]

/-- Opening a file returns the records it holds, and a log that holds
them. -/
theorem FileHolds.open {file : Bytes} {records : List WalRecord}
    (h : FileHolds file records) :
    ∃ w recovery, Wal.open file = .ok (w, recovery)
      ∧ recovery.records = records ∧ w.Holds records := by
  cases h with
  | absent =>
      exact ⟨_, _, rfl, rfl, ⟨0, by decide, rfl⟩, by simp, rfl, by decide⟩
  | @segment base _ tail hb hf ht =>
      refine ⟨_, _, open_frames hb hf ht, rfl, ⟨base, hb, rfl⟩, hf, rfl, ?_⟩
      refine Nat.max_lt.mpr ⟨?_, hb⟩
      cases records.getLast? with
      | none => exact hb
      | some r => exact saturatingAdd_lt _ _

/-- A process that dies while mending a segment leaves its records. -/
theorem FileHolds.open_cut {w : Wal} {records : List WalRecord}
    (h : FileHolds w.file records) (hne : w.file ≠ []) (n : Nat) :
    FileHolds (applyEffects ((WalPrim.open.effects w).take n) w.file)
      records := by
  simp only [WalPrim.effects]
  generalize w.file = file at h hne ⊢
  cases h with
  | absent => exact absurd rfl hne
  | @segment base _ tail hb hf ht =>
      have hmended : FileHolds (encodeHeader base ++ frames records)
          records := by
        rw [← List.append_nil (frames records)]
        exact .segment hb hf parseFrame_nil
      simp only [recover_frames hb hf ht]
      split
      · -- before the cut, or after it
        match n with
        | 0 => exact .segment hb hf ht
        | 1 =>
            rw [applyEffects, List.take_succ_cons, List.foldl_cons,
              setLen_frames]
            exact hmended
        | n + 2 =>
            rw [applyEffects, List.take_succ_cons, List.foldl_cons,
              setLen_frames, List.take_succ_cons, List.take_nil]
            exact hmended
      · rw [List.take_nil]
        exact .segment hb hf ht

-- ================================================================ the file

/-- The file alone holds the records. -/
theorem Wal.Holds.fileHolds {w : Wal} {records : List WalRecord}
    (h : w.Holds records) : FileHolds w.file records := by
  obtain ⟨base, hb, hfile⟩ := h.file
  rw [hfile, ← List.append_nil (frames records)]
  exact .segment hb h.fits parseFrame_nil

/-- A log holds one list of records. -/
theorem Wal.Holds.records_eq {w : Wal} {records : List WalRecord}
    (h : w.Holds records) : w.records = records := by
  obtain ⟨base, hb, hfile⟩ := h.file
  rw [Wal.records, hfile, ← length_encodeHeader base, List.drop_left,
    ← List.append_nil (frames records), parseFrames_frames h.fits parseFrame_nil]

/-- The record an append writes. -/
def Wal.nextRecord (w : Wal) (op : WalOp) (key value : Bytes) : WalRecord :=
  ⟨w.nextSeq, op, key, value⟩

section Append

variable {w : Wal} {records : List WalRecord} {key value : Bytes}

/-- The record of a key and value that fit the length fields fits. -/
theorem Wal.Holds.nextRecord_fits (h : w.Holds records) (op : WalOp)
    (hk : key.length < 2 ^ 32) (hv : value.length < 2 ^ 32) :
    (w.nextRecord op key value).Fits := ⟨h.seq, hk, hv⟩

/-- A fault-free append answers its sequence number and adds its record. -/
theorem Wal.Holds.append (h : w.Holds records) (op : WalOp)
    (hk : key.length < 2 ^ 32) (hv : value.length < 2 ^ 32) :
    (w.append none op key value).1 = .ok w.nextSeq
      ∧ (w.append none op key value).2.Holds
        (records ++ [w.nextRecord op key value]) := by
  obtain ⟨base, hb, hfile⟩ := h.file
  refine ⟨rfl, ⟨base, hb, ?_⟩, ?_, rfl, saturatingAdd_lt _ _⟩
  · show w.file ++ (w.buffered ++ encodeFrame w.nextSeq op key value) = _
    rw [hfile, h.buffered, frames_append, List.append_assoc]
    simp [frames, WalRecord.frame, Wal.nextRecord]
  · intro r hr
    rcases List.mem_append.mp hr with hr | hr
    · exact h.fits r hr
    · rw [List.mem_singleton.mp hr]
      exact h.nextRecord_fits op hk hv

/-- A process that dies inside an append leaves the record out, or in. -/
theorem Wal.Holds.append_cut (h : w.Holds records) (op : WalOp)
    (hk : key.length < 2 ^ 32) (hv : value.length < 2 ^ 32) (n : Nat) :
    FileHolds
        (applyEffects ((w.appendEffects op key value).take n) w.file) records
      ∨ FileHolds
        (applyEffects ((w.appendEffects op key value).take n) w.file)
        (records ++ [w.nextRecord op key value]) := by
  obtain ⟨base, hb, hfile⟩ := h.file
  have hfits : (w.nextRecord op key value).Fits := h.nextRecord_fits op hk hv
  have heff : applyEffects ((w.appendEffects op key value).take n) w.file
      = encodeHeader base
        ++ (frames records ++ (w.nextRecord op key value).frame.take n) := by
    rw [Wal.appendEffects, h.buffered, List.nil_append, ← List.map_take,
      applyEffects_write, hfile, List.append_assoc]
    rfl
  rw [heff]
  by_cases hn : n < (w.nextRecord op key value).frame.length
  · exact .inl (.segment hb h.fits (parseFrame_torn hfits hn))
  · right
    have hholds : FileHolds (w.append none op key value).2.file _ :=
      (h.append op hk hv).2.fileHolds
    have hsame : (w.append none op key value).2.file = encodeHeader base
        ++ (frames records ++ (w.nextRecord op key value).frame.take n) := by
      rw [List.take_of_length_le (by omega)]
      show w.file ++ (w.buffered ++ encodeFrame w.nextSeq op key value) = _
      rw [hfile, h.buffered, List.append_assoc]
      rfl
    rwa [hsame] at hholds

/-- A completed rotation empties the segment. -/
theorem Wal.Holds.rotate (h : w.Holds records) :
    (w.rotate none).1 = .ok () ∧ (w.rotate none).2.Holds [] := by
  refine ⟨rfl, ⟨w.nextSeq, h.seq, ?_⟩, by simp, rfl, h.seq⟩
  show applyEffects w.rotateEffects w.file = _
  rw [Wal.rotateEffects, h.buffered]
  simp [FileEffect.apply, frames]

end Append

end FerrisKv
