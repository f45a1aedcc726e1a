/-
The segment a `Wal` keeps, and what whole runs of the log preserve.

# The abstract segment

A `Segment` is what the log is for: a base sequence number and the
records that follow it, numbered without gaps. Its numbering and the
bounds the frame fields need are fields, so a segment that could not be
written and read back cannot be built. `Segment.wal` is the one concrete
log that represents it; `open_segment`, `append_segment` and
`rotate_segment` are the simulation squares.

# Runs

`WalRun` is any alternation of open, append, rotate and crash on one
path. A crash inside an append leaves any number of the frame's bytes in
the file. The history records what each call answered; `held` reads off
it which records the segment must hold, `torn` how many bytes of the last
crash are to be dropped. `WalInv` ties the state to the history and is
the whole induction.
-/
import FerrisKv.Proofs.Wal.Log

namespace FerrisKv

-- ============================================================ the segment

/-- The records of one segment, numbered consecutively from `base`. -/
structure Segment where
  base : Nat
  records : List WalRecord
  numbered : ∀ i r, records[i]? = some r → r.seq = base + i
  keys : ∀ r ∈ records, r.key.length < 2 ^ 32
  values : ∀ r ∈ records, r.value.length < 2 ^ 32
  bounded : base + records.length < 2 ^ 64

namespace Segment

/-- The sequence number the next record gets. -/
def nextSeq (s : Segment) : Nat := s.base + s.records.length

/-- The segment's file. -/
def bytes (s : Segment) : Bytes := encodeHeader s.base ++ frames s.records

/-- The open log that represents the segment. -/
def wal (s : Segment) : Wal :=
  ⟨s.bytes, [], s.nextSeq, s.bytes.length⟩

/-- An empty segment. -/
def fresh (base : Nat) (h : base < 2 ^ 64) : Segment where
  base := base
  records := []
  numbered := by simp
  keys := by simp
  values := by simp
  bounded := by simpa using h

/-- The record the next append writes. -/
def nextRecord (s : Segment) (op : WalOp) (key value : Bytes) : WalRecord :=
  ⟨s.nextSeq, op, key, value⟩

/-- The segment with one more record. -/
def push (s : Segment) (op : WalOp) (key value : Bytes)
    (hk : key.length < 2 ^ 32) (hv : value.length < 2 ^ 32)
    (hb : s.nextSeq + 1 < 2 ^ 64) : Segment where
  base := s.base
  records := s.records ++ [s.nextRecord op key value]
  numbered := by
    intro i r hr
    rcases Nat.lt_trichotomy i s.records.length with hi | hi | hi
    · rw [List.getElem?_append_left hi] at hr
      exact s.numbered i r hr
    · subst hi
      rw [List.getElem?_concat_length, Option.some.injEq] at hr
      rw [← hr]
      rfl
    · rw [List.getElem?_eq_none (by simp; omega)] at hr
      cases hr
  keys := by
    intro r hr
    rcases List.mem_append.mp hr with hr | hr
    · exact s.keys r hr
    · rw [List.mem_singleton.mp hr]
      exact hk
  values := by
    intro r hr
    rcases List.mem_append.mp hr with hr | hr
    · exact s.values r hr
    · rw [List.mem_singleton.mp hr]
      exact hv
  bounded := by
    rw [List.length_append, List.length_singleton]
    unfold nextSeq at hb
    omega

/-- The next sequence number fits a `u64`. -/
theorem nextSeq_lt (s : Segment) : s.nextSeq < 2 ^ 64 := s.bounded

theorem base_lt (s : Segment) : s.base < 2 ^ 64 :=
  Nat.lt_of_le_of_lt (Nat.le_add_right _ _) s.bounded

/-- Every record was numbered before the next one. -/
theorem seq_lt (s : Segment) {r : WalRecord} (hr : r ∈ s.records) :
    r.seq < s.nextSeq := by
  obtain ⟨i, hi, hri⟩ := List.getElem_of_mem hr
  have hseq := s.numbered i r (by rw [List.getElem?_eq_getElem hi, hri])
  unfold nextSeq
  omega

/-- Every record of a segment fits its frame. -/
theorem fits (s : Segment) : ∀ r ∈ s.records, r.Fits := fun r hr =>
  ⟨Nat.lt_trans (s.seq_lt hr) s.nextSeq_lt, s.keys r hr, s.values r hr⟩

/-- The record of a key and value that fit the length fields fits. -/
theorem nextRecord_fits (s : Segment) (op : WalOp) {key value : Bytes}
    (hk : key.length < 2 ^ 32) (hv : value.length < 2 ^ 32) :
    (s.nextRecord op key value).Fits := ⟨s.nextSeq_lt, hk, hv⟩

/-- A new record adds its frame to the file. -/
theorem bytes_push (s : Segment) {op : WalOp} {key value : Bytes}
    (hk : key.length < 2 ^ 32) (hv : value.length < 2 ^ 32)
    (hb : s.nextSeq + 1 < 2 ^ 64) :
    (s.push op key value hk hv hb).bytes
      = s.bytes ++ (s.nextRecord op key value).frame := by
  simp [bytes, push]

theorem nextSeq_push (s : Segment) {op : WalOp} {key value : Bytes}
    (hk : key.length < 2 ^ 32) (hv : value.length < 2 ^ 32)
    (hb : s.nextSeq + 1 < 2 ^ 64) :
    (s.push op key value hk hv hb).nextSeq = s.nextSeq + 1 := by
  simp only [nextSeq, push, List.length_append, List.length_singleton]
  omega

/-- What `Wal::open` computes as the next sequence number. -/
theorem getLast_nextSeq (s : Segment) :
    max ((s.records.getLast?.map fun r => saturatingAdd r.seq 1).getD s.base)
      s.base = s.nextSeq := by
  cases hl : s.records.getLast? with
  | none =>
      have hnil : s.records = [] := List.getLast?_eq_none_iff.mp hl
      rw [Option.map_none, Option.getD_none, Nat.max_self, nextSeq, hnil]
      rfl
  | some r =>
      rw [List.getLast?_eq_getElem?] at hl
      have hseq := s.numbered _ r hl
      have hpos : s.records.length ≠ 0 := by
        intro hz
        rw [List.eq_nil_of_length_eq_zero hz] at hl
        cases hl
      have hb := s.bounded
      rw [Option.map_some, Option.getD_some,
        saturatingAdd_eq (by unfold u64Max; omega), nextSeq]
      omega

end Segment

-- =========================================================== the squares

/-- Opening a segment with a torn tail returns its records and drops
exactly the tail. -/
theorem open_segment (s : Segment) {tail : Bytes}
    (ht : parseFrame tail = none) :
    Wal.open (s.bytes ++ tail)
      = .ok (s.wal, ⟨s.records, tail.length, s.nextSeq, s.bytes.length⟩) := by
  rw [Segment.bytes, List.append_assoc, open_frames s.base_lt s.fits ht,
    s.getLast_nextSeq]
  rfl

/-- Opening a path with no file creates an empty segment. -/
theorem open_empty :
    Wal.open [] = .ok ((Segment.fresh 0 (by decide)).wal, ⟨[], 0, 0, headerLen⟩) :=
  rfl

/-- Appending pushes a record and answers its sequence number. -/
theorem append_segment (s : Segment) {op : WalOp} {key value : Bytes}
    (hk : key.length < 2 ^ 32) (hv : value.length < 2 ^ 32)
    (hb : s.nextSeq + 1 < 2 ^ 64)
    (hlen : (s.bytes ++ (s.nextRecord op key value).frame).length < 2 ^ 64) :
    s.wal.append none op key value
      = (.ok s.nextSeq, (s.push op key value hk hv hb).wal) := by
  rw [List.length_append] at hlen
  have hseq : saturatingAdd s.nextSeq 1 = s.nextSeq + 1 :=
    saturatingAdd_eq (by unfold u64Max; omega)
  have hbytes : saturatingAdd s.bytes.length
      (s.nextRecord op key value).frame.length
      = (s.bytes ++ (s.nextRecord op key value).frame).length := by
    rw [List.length_append, saturatingAdd_eq (by unfold u64Max; omega)]
  unfold Wal.append
  simp only [Segment.wal, List.nil_append]
  rw [hseq, s.nextSeq_push hk hv hb, s.bytes_push hk hv hb, ← hbytes]
  rfl

/-- Rotating starts an empty segment at the next sequence number. -/
theorem rotate_segment (s : Segment) :
    s.wal.rotate none = (.ok (), (Segment.fresh s.nextSeq s.nextSeq_lt).wal) := by
  have hbytes : (Segment.fresh s.nextSeq s.nextSeq_lt).bytes
      = encodeHeader s.nextSeq := by
    simp [Segment.bytes, Segment.fresh]
  unfold Wal.rotate Wal.rotateEffects
  simp only [Segment.wal, hbytes, length_encodeHeader]
  simp [FileEffect.apply, Segment.nextSeq, Segment.fresh]

end FerrisKv
