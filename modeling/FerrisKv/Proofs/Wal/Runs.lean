/-
Whole runs of the log, and the one place where a crash breaks it.

`walRun_law` is the segment invariant over every alternation of open,
append, rotate and crash, a crash inside an append included.

A crash inside `rotate` is a different matter. The truncating open comes
first and the header that carries `base_seq` over comes after it, so in
between the file is empty or holds part of a header: an empty file is
taken for a new log and counts from zero, a partial header is refused
(`rotate_crash_atomic_iff` says exactly when a crash does no harm).
-/
import FerrisKv.Proofs.Wal.Segment

namespace FerrisKv

-- ================================================================ histories

/-- What a run of the log shows: what each call answered, and for a crash
the record being appended with the number of its bytes that reached the
file. -/
inductive WalEvent where
  | opened (recovery : Recovery)
  | appended (r : WalRecord)
  | rotated
  | crashed (inFlight : Option (WalRecord × Nat))
  deriving DecidableEq, Repr

/-- The record an append was given its sequence number for, whether or
not the append returned. -/
def WalEvent.given : WalEvent → Option WalRecord
  | .appended r => some r
  | .crashed (some (r, _)) => some r
  | _ => none

/-- The records that reached the segment whole. -/
def WalEvent.completed : WalEvent → List WalRecord
  | .appended r => [r]
  | .crashed (some (r, n)) => if n = r.frame.length then [r] else []
  | _ => []

/-- The records the segment must hold: those completed since the last
rotation. -/
def held (h : List WalEvent) : List WalRecord :=
  h.foldl (fun acc e => if e = .rotated then [] else acc ++ e.completed) []

/-- The bytes of a torn frame at the end of the file: only a crash leaves
any, and the next open drops them. -/
def torn (h : List WalEvent) : Nat :=
  match h.getLast? with
  | some (.crashed (some (r, n))) => if n < r.frame.length then n else 0
  | _ => 0

/-- How many records were written in all. -/
def recordCount (h : List WalEvent) : Nat :=
  (h.map fun e => e.completed.length).sum

/-- The log between two calls: running, or only a file. -/
inductive WalState where
  | down (file : Bytes)
  | up (w : Wal)

/-- Runs of open, append, rotate and crash on one path, from no file at
all. `hfile` is part of the absence of I/O errors: no file grows past what
its length field can count. -/
inductive WalRun : List WalEvent → WalState → Prop
  | start : WalRun [] (.down [])
  | «open» {h : List WalEvent} {file : Bytes} {w : Wal}
      {recovery : Recovery} :
      WalRun h (.down file) → Wal.open file = .ok (w, recovery) →
      WalRun (h ++ [.opened recovery]) (.up w)
  | append {h : List WalEvent} {w w' : Wal} {seq : Nat} (op : WalOp)
      (key value : Bytes) :
      WalRun h (.up w) → key.length < 2 ^ 32 → value.length < 2 ^ 32 →
      (hfile : w'.file.length < 2 ^ 64) →
      w.append none op key value = (.ok seq, w') →
      WalRun (h ++ [.appended ⟨seq, op, key, value⟩]) (.up w')
  | rotate {h : List WalEvent} {w w' : Wal} :
      WalRun h (.up w) → w.rotate none = (.ok (), w') →
      WalRun (h ++ [.rotated]) (.up w')
  | crash {h : List WalEvent} {w : Wal} :
      WalRun h (.up w) → WalRun (h ++ [.crashed none]) (.down w.file)
  | crashIn {h : List WalEvent} {w : Wal} (op : WalOp)
      (key value : Bytes) (n : Nat) :
      WalRun h (.up w) → key.length < 2 ^ 32 → value.length < 2 ^ 32 →
      n ≤ (encodeFrame w.nextSeq op key value).length →
      WalRun (h ++ [.crashed (some (⟨w.nextSeq, op, key, value⟩, n))])
        (.down (applyEffects ((w.appendEffects op key value).take n) w.file))

-- ========================================================== history lemmas

/-- A rotation empties the file; an append adds what it completed. -/
theorem held_snoc (h : List WalEvent) (e : WalEvent) :
    held (h ++ [e]) = if e = .rotated then [] else held h ++ e.completed := by
  simp only [held, List.foldl_append, List.foldl_cons, List.foldl_nil]

/-- Only the last event can have left a torn frame. -/
theorem torn_snoc (h : List WalEvent) (e : WalEvent) :
    torn (h ++ [e]) = torn [e] := by
  simp [torn]

/-- Every completed append counts one, rotations or not. -/
theorem recordCount_snoc (h : List WalEvent) (e : WalEvent) :
    recordCount (h ++ [e]) = recordCount h + e.completed.length := by
  simp [recordCount]

/-- The law for sequence numbers, pairwise along a history. -/
def FreshAfter (e e' : WalEvent) : Prop :=
  ∀ r r', e = .appended r → e'.given = some r' → r.seq < r'.seq

-- ============================================================ the invariant

/-- The state stands for a segment that holds what the history says and
counts on from everything it ever returned. -/
structure WalInv (h : List WalEvent) (s : WalState) (seg : Segment) :
    Prop where
  records : seg.records = held h
  count : seg.nextSeq = recordCount h
  below : ∀ r, WalEvent.appended r ∈ h → r.seq < seg.nextSeq
  fresh : h.Pairwise FreshAfter
  state : match s with
    | .up w => w = seg.wal ∧ torn h = 0
    | .down file => (file = [] ∧ seg.bytes = encodeHeader 0 ∧ torn h = 0)
        ∨ ∃ tail, file = seg.bytes ++ tail ∧ parseFrame tail = none
            ∧ tail.length = torn h

/-- An event that gives out no number keeps the numbering law. -/
theorem freshAfter_snoc_none {h : List WalEvent} {e : WalEvent}
    (hf : h.Pairwise FreshAfter) (he : e.given = none) :
    (h ++ [e]).Pairwise FreshAfter := by
  rw [List.pairwise_append]
  refine ⟨hf, List.pairwise_singleton _ _, ?_⟩
  intro a _ b hb r r' _ hgiven
  rw [List.mem_singleton.mp hb, he] at hgiven
  cases hgiven

/-- An event that gives out the next number keeps it too. -/
theorem freshAfter_snoc_next {h : List WalEvent} {e : WalEvent} {n : Nat}
    (hf : h.Pairwise FreshAfter)
    (hbelow : ∀ r, WalEvent.appended r ∈ h → r.seq < n)
    (he : ∀ r, e.given = some r → r.seq = n) :
    (h ++ [e]).Pairwise FreshAfter := by
  rw [List.pairwise_append]
  refine ⟨hf, List.pairwise_singleton _ _, ?_⟩
  intro a ha b hb r r' hr hgiven
  rw [List.mem_singleton.mp hb] at hgiven
  rw [he r' hgiven]
  exact hbelow r (hr ▸ ha)

/-- An event that is no append leaves the returned numbers alone. -/
theorem below_snoc {h : List WalEvent} {e : WalEvent} {n : Nat}
    (hbelow : ∀ r, WalEvent.appended r ∈ h → r.seq < n)
    (he : ∀ r, e ≠ .appended r) :
    ∀ r, WalEvent.appended r ∈ h ++ [e] → r.seq < n := by
  intro r hr
  rcases List.mem_append.mp hr with hr | hr
  · exact hbelow r hr
  · exact absurd (List.mem_singleton.mp hr).symm (he r)

/-- The open step: the tail goes, the segment stays. -/
theorem walInv_open {h : List WalEvent} {file : Bytes} {w : Wal}
    {recovery : Recovery} {seg : Segment} (hi : WalInv h (.down file) seg)
    (ho : Wal.open file = .ok (w, recovery)) :
    WalInv (h ++ [WalEvent.opened recovery]) (.up w) seg := by
  have hw : w = seg.wal := by
    rcases hi.state with ⟨rfl, hbytes, -⟩ | ⟨tail, rfl, ht, -⟩
    · have hseq : seg.nextSeq = 0 := by
        have hbase : parseHeader seg.bytes = .ok seg.base :=
          parseHeader_encodeHeader seg.base_lt _
        have hzero : parseHeader (encodeHeader 0 ++ []) = .ok 0 :=
          parseHeader_encodeHeader (by decide) []
        rw [List.append_nil, ← hbytes, hbase, Except.ok.injEq] at hzero
        have hlen := congrArg List.length hbytes
        rw [Segment.bytes, List.length_append, length_encodeHeader,
          length_encodeHeader] at hlen
        cases hrec : seg.records with
        | nil => rw [Segment.nextSeq, hzero, hrec]; rfl
        | cons r rs =>
            rw [hrec, frames_cons, List.length_append, r.length_frame] at hlen
            omega
      rw [open_empty, Except.ok.injEq, Prod.mk.injEq] at ho
      rw [← ho.1, Segment.wal, Segment.wal, hbytes, hseq]
      rfl
    · rw [open_segment seg ht, Except.ok.injEq, Prod.mk.injEq] at ho
      exact ho.1.symm
  refine ⟨?_, ?_, below_snoc hi.below (by simp),
    freshAfter_snoc_none hi.fresh rfl, hw, ?_⟩
  · rw [held_snoc, if_neg (by simp), hi.records]
    simp [WalEvent.completed]
  · rw [recordCount_snoc, hi.count]
    rfl
  · rw [torn_snoc]
    rfl

/-- The append step: one record more, one number up. -/
theorem walInv_append {h : List WalEvent} {w w' : Wal} {op : WalOp}
    {key value : Bytes} {seq : Nat} {seg : Segment}
    (hi : WalInv h (.up w) seg) (hk : key.length < 2 ^ 32)
    (hv : value.length < 2 ^ 32) (hfile : w'.file.length < 2 ^ 64)
    (ha : w.append none op key value = (.ok seq, w'))
    (hn : recordCount (h ++ [WalEvent.appended ⟨seq, op, key, value⟩])
      < 2 ^ 64) :
    ∃ seg', WalInv (h ++ [WalEvent.appended ⟨seq, op, key, value⟩]) (.up w')
      seg' := by
  obtain ⟨hw, -⟩ := hi.state
  subst hw
  -- the sequence numbers count the records of the run, so the next one does
  -- not wrap
  have hb : seg.nextSeq + 1 < 2 ^ 64 := by
    rw [recordCount_snoc] at hn
    rw [hi.count]
    exact hn
  have hlen : (seg.bytes ++ (seg.nextRecord op key value).frame).length
      < 2 ^ 64 := by
    have hwfile : w'.file
        = seg.bytes ++ (seg.nextRecord op key value).frame := by
      have := congrArg (fun x => x.2.file) ha
      exact this.symm
    rw [← hwfile]
    exact hfile
  rw [append_segment seg hk hv hb hlen, Prod.mk.injEq, Except.ok.injEq] at ha
  obtain ⟨rfl, rfl⟩ := ha
  refine ⟨seg.push op key value hk hv hb, ?_, ?_, ?_, ?_, rfl, ?_⟩
  · rw [held_snoc, if_neg (by simp), ← hi.records]
    rfl
  · rw [seg.nextSeq_push hk hv hb, recordCount_snoc, hi.count]
    rfl
  · rw [seg.nextSeq_push hk hv hb]
    intro r hr
    -- the new record has the greatest number so far
    rcases List.mem_append.mp hr with hr | hr
    · exact Nat.lt_succ_of_lt (hi.below r hr)
    · have hr' := List.mem_singleton.mp hr
      rw [WalEvent.appended.injEq] at hr'
      rw [hr']
      exact Nat.lt_succ_self _
  · refine freshAfter_snoc_next hi.fresh hi.below ?_
    intro r hr
    cases hr
    rfl
  · rw [torn_snoc]
    rfl

/-- The rotate step: the records go, the count stays. -/
theorem walInv_rotate {h : List WalEvent} {w w' : Wal} {seg : Segment}
    (hi : WalInv h (.up w) seg) (hr : w.rotate none = (.ok (), w')) :
    WalInv (h ++ [WalEvent.rotated]) (.up w')
      (.fresh seg.nextSeq seg.nextSeq_lt) := by
  obtain ⟨hw, -⟩ := hi.state
  subst hw
  rw [rotate_segment, Prod.mk.injEq] at hr
  refine ⟨?_, ?_, below_snoc hi.below (by simp),
    freshAfter_snoc_none hi.fresh rfl, hr.2.symm, ?_⟩
  · rw [held_snoc, if_pos rfl]
    rfl
  · rw [recordCount_snoc, ← hi.count]
    rfl
  · rw [torn_snoc]
    rfl

/-- A crash between calls loses nothing. -/
theorem walInv_crash {h : List WalEvent} {w : Wal} {seg : Segment}
    (hi : WalInv h (.up w) seg) :
    WalInv (h ++ [WalEvent.crashed none]) (.down w.file) seg := by
  obtain ⟨hw, -⟩ := hi.state
  subst hw
  refine ⟨?_, ?_, below_snoc hi.below (by simp),
    freshAfter_snoc_none hi.fresh rfl, ?_⟩
  · rw [held_snoc, if_neg (by simp), hi.records]
    simp [WalEvent.completed]
  · rw [recordCount_snoc, hi.count]
    rfl
  · refine Or.inr ⟨[], ?_, parseFrame_nil, ?_⟩
    · exact (List.append_nil _).symm
    · rw [torn_snoc]
      rfl

/-- A crash inside an append adds the record if all of it arrived, and a
torn tail otherwise. -/
theorem walInv_crashIn {h : List WalEvent} {w : Wal} {op : WalOp}
    {key value : Bytes} {n : Nat} {seg : Segment}
    (hi : WalInv h (.up w) seg) (hk : key.length < 2 ^ 32)
    (hv : value.length < 2 ^ 32)
    (hle : n ≤ (encodeFrame w.nextSeq op key value).length)
    (hn : recordCount
        (h ++ [WalEvent.crashed (some (⟨w.nextSeq, op, key, value⟩, n))])
      < 2 ^ 64) :
    ∃ seg', WalInv
      (h ++ [WalEvent.crashed (some (⟨w.nextSeq, op, key, value⟩, n))])
      (.down (applyEffects ((w.appendEffects op key value).take n) w.file))
      seg' := by
  obtain ⟨hw, -⟩ := hi.state
  subst hw
  have hfile : applyEffects ((seg.wal.appendEffects op key value).take n)
      seg.wal.file
      = seg.bytes ++ (seg.nextRecord op key value).frame.take n := by
    rw [Wal.appendEffects, ← List.map_take, applyEffects_write]
    rfl
  have hfresh : (h ++ [WalEvent.crashed
      (some (⟨seg.wal.nextSeq, op, key, value⟩, n))]).Pairwise FreshAfter := by
    refine freshAfter_snoc_next hi.fresh hi.below ?_
    intro r hr
    cases hr
    rfl
  have hframe : (WalRecord.mk seg.wal.nextSeq op key value).frame.length
      = (seg.nextRecord op key value).frame.length := rfl
  rw [hfile]
  by_cases hfull : n = (seg.nextRecord op key value).frame.length
  · -- every byte arrived: the record counts although its append never returned
    have hcomp : (WalEvent.crashed
        (some (⟨seg.wal.nextSeq, op, key, value⟩, n))).completed
        = [seg.nextRecord op key value] := if_pos hfull
    have hb : seg.nextSeq + 1 < 2 ^ 64 := by
      rw [recordCount_snoc, hcomp, ← hi.count] at hn
      exact hn
    refine ⟨seg.push op key value hk hv hb, ?_, ?_, ?_, hfresh, ?_⟩
    · rw [held_snoc, if_neg (by simp), ← hi.records, hcomp]
      rfl
    · rw [seg.nextSeq_push hk hv hb, recordCount_snoc, hi.count, hcomp]
      rfl
    · rw [seg.nextSeq_push hk hv hb]
      exact below_snoc (fun r hr => Nat.lt_succ_of_lt (hi.below r hr)) (by simp)
    · refine Or.inr ⟨[], ?_, parseFrame_nil, ?_⟩
      · rw [List.append_nil, seg.bytes_push hk hv hb, hfull,
          List.take_of_length_le (Nat.le_refl _)]
      · rw [torn_snoc]
        simp [torn, hframe, hfull]
  -- some bytes are missing: the record does not count, and what is there does
  -- not parse
  · have hcomp : (WalEvent.crashed
        (some (⟨seg.wal.nextSeq, op, key, value⟩, n))).completed = [] :=
      if_neg hfull
    have hlt : n < (seg.nextRecord op key value).frame.length :=
      Nat.lt_of_le_of_ne hle hfull
    refine ⟨seg, ?_, ?_, below_snoc hi.below (by simp), hfresh, ?_⟩
    · rw [held_snoc, if_neg (by simp), hi.records, hcomp, List.append_nil]
    · rw [recordCount_snoc, hi.count, hcomp]
      rfl
    · refine Or.inr ⟨_, rfl,
        parseFrame_torn (seg.nextRecord_fits op hk hv) hlt, ?_⟩
      rw [torn_snoc, List.length_take, Nat.min_eq_left (Nat.le_of_lt hlt)]
      simp [torn, hframe, hlt]

/-- The invariant holds along every run. -/
theorem walInv_of_run {h : List WalEvent} {s : WalState} (hr : WalRun h s) :
    recordCount h < 2 ^ 64 → ∃ seg, WalInv h s seg := by
  -- a prefix of the history counts no more records than the whole
  have hpre : ∀ {h : List WalEvent} {e : WalEvent},
      recordCount (h ++ [e]) < 2 ^ 64 → recordCount h < 2 ^ 64 := by
    intro h e hn
    rw [recordCount_snoc] at hn
    omega
  induction hr with
  | start =>
      intro _
      refine ⟨.fresh 0 (by decide), rfl, rfl, by simp, List.Pairwise.nil, ?_⟩
      exact Or.inl ⟨rfl, by simp [Segment.bytes, Segment.fresh], rfl⟩
  | «open» _ ho ih =>
      intro hn
      obtain ⟨seg, hi⟩ := ih (hpre hn)
      exact ⟨seg, walInv_open hi ho⟩
  | append op key value _ hk hv hfile ha ih =>
      intro hn
      obtain ⟨seg, hi⟩ := ih (hpre hn)
      exact walInv_append hi hk hv hfile ha hn
  | rotate _ hrot ih =>
      intro hn
      obtain ⟨seg, hi⟩ := ih (hpre hn)
      exact ⟨_, walInv_rotate hi hrot⟩
  | crash _ ih =>
      intro hn
      obtain ⟨seg, hi⟩ := ih (hpre hn)
      exact ⟨seg, walInv_crash hi⟩
  | crashIn op key value n _ hk hv hle ih =>
      intro hn
      obtain ⟨seg, hi⟩ := ih (hpre hn)
      exact walInv_crashIn hi hk hv hle hn

-- ================================================================= the law

/-- The segment invariant over whole runs. Wherever the log is down the
next open succeeds, returns the records completed since the last rotation
in order and byte for byte, numbered consecutively from the header's base,
and drops exactly the torn bytes; wherever it is up its size counter is
the file's length; and a number an append returned is never given out
again. -/
theorem walRun_law {h : List WalEvent} {s : WalState} (hr : WalRun h s)
    (hn : recordCount h < 2 ^ 64) :
    (∀ file, s = .down file → ∃ w recovery base,
        Wal.open file = .ok (w, recovery)
        ∧ recovery.records = held h
        ∧ parseHeader w.file = .ok base
        ∧ (∀ i r, recovery.records[i]? = some r → r.seq = base + i)
        ∧ recovery.truncatedBytes = torn h
        ∧ (file ≠ [] → file = w.file ++ file.drop w.file.length
            ∧ file.length = w.file.length + recovery.truncatedBytes)
        ∧ recovery.segmentBytes = w.file.length
        ∧ w.segmentBytes = w.file.length)
    ∧ (∀ w, s = .up w → w.segmentBytes = w.file.length)
    ∧ h.Pairwise FreshAfter := by
  obtain ⟨seg, hi⟩ := walInv_of_run hr hn
  refine ⟨?_, ?_, hi.fresh⟩
  · rintro file rfl
    have hbase : parseHeader seg.bytes = .ok seg.base :=
      parseHeader_encodeHeader seg.base_lt _
    have hnum : ∀ i r, (held h)[i]? = some r → r.seq = seg.base + i := by
      rw [← hi.records]
      exact seg.numbered
    -- either nothing was ever written, or there is a segment with a torn tail
    -- behind it
    rcases hi.state with ⟨rfl, hbytes, htorn⟩ | ⟨tail, rfl, ht, htail⟩
    · have hheld : held h = [] := by
        have hlen := congrArg List.length hbytes
        rw [Segment.bytes, List.length_append, length_encodeHeader,
          length_encodeHeader] at hlen
        rw [← hi.records]
        cases hrec : seg.records with
        | nil => rfl
        | cons r rs =>
            rw [hrec, frames_cons, List.length_append, r.length_frame] at hlen
            omega
      refine ⟨_, _, 0, open_empty, hheld.symm, ?_, by simp, htorn.symm, ?_,
        rfl, rfl⟩
      · exact parseHeader_encodeHeader (by decide) []
      · intro hne
        exact absurd rfl hne
    · refine ⟨_, _, seg.base, open_segment seg ht, hi.records, hbase, ?_,
        htail, ?_, rfl, rfl⟩
      · intro i r hr
        exact seg.numbered i r hr
      · intro _
        refine ⟨?_, List.length_append⟩
        show seg.bytes ++ tail
          = seg.bytes ++ (seg.bytes ++ tail).drop seg.bytes.length
        rw [List.drop_left]
  · rintro w rfl
    obtain ⟨hw, -⟩ := hi.state
    rw [hw]
    rfl

/-- A run with a crash inside an append: the first record comes back, the
two bytes of the second are dropped. -/
theorem walRun_law_torn :
    ∃ file, WalRun
      [.opened ⟨[], 0, 0, headerLen⟩, .appended ⟨0, .put, [1], [2]⟩,
        .crashed (some (⟨1, .put, [3], [4]⟩, 2))] (.down file)
    ∧ ∃ w recovery, Wal.open file = .ok (w, recovery)
      ∧ recovery.records = [⟨0, .put, [1], [2]⟩]
      ∧ recovery.truncatedBytes = 2 := by
  have hopen := WalRun.open WalRun.start open_empty
  have happ := WalRun.append .put [1] [2] hopen
    (by decide) (by decide) (by decide) rfl
  have hrun := WalRun.crashIn .put [3] [4] 2 happ
    (by decide) (by decide) (by decide)
  refine ⟨_, hrun, ?_⟩
  obtain ⟨w, recovery, -, ho, hrec, -, -, ht, -⟩ :=
    (walRun_law hrun (by decide)).1 _ rfl
  exact ⟨w, recovery, ho, hrec, ht⟩

-- ================================================= a crash inside a rotation

/-- The file a process leaves that dies inside `Wal::rotate` after `n` of
its file effects. -/
def crashInRotate (w : Wal) (n : Nat) : Bytes :=
  applyEffects (w.rotateEffects.take n) w.file

/-- The next open succeeds and counts on from where the log was. -/
def RotateCrashSafe (w : Wal) (n : Nat) : Prop :=
  ∃ w' recovery, Wal.open (crashInRotate w n) = .ok (w', recovery)
    ∧ w.nextSeq ≤ recovery.nextSeq

/-- Up to the last header byte the file is a prefix of the new header. -/
theorem crashInRotate_header (seg : Segment) {m : Nat} (hm : m ≤ headerLen) :
    crashInRotate seg.wal (m + 1) = (encodeHeader seg.nextSeq).take m := by
  have heff : seg.wal.rotateEffects
      = .setLen 0 :: ((encodeHeader seg.nextSeq).map .write ++ [.sync]) := by
    simp [Wal.rotateEffects, Segment.wal]
  rw [crashInRotate, heff, List.take_succ_cons, applyEffects_cons,
    List.take_append_of_le_length (by simpa using hm), ← List.map_take,
    applyEffects_write]
  simp [FileEffect.apply]

/-- Past the last header byte the file is the new header. -/
theorem crashInRotate_done (seg : Segment) {n : Nat} (hn : 1 + headerLen ≤ n) :
    crashInRotate seg.wal n = encodeHeader seg.nextSeq := by
  have heff : seg.wal.rotateEffects
      = .setLen 0 :: ((encodeHeader seg.nextSeq).map .write ++ [.sync]) := by
    simp [Wal.rotateEffects, Segment.wal]
  rcases Nat.eq_or_lt_of_le hn with he | hlt
  · rw [← he, Nat.add_comm, crashInRotate_header seg (Nat.le_refl _),
      List.take_of_length_le (by simp)]
  · rw [crashInRotate, List.take_of_length_le (by rw [heff]; simp; omega),
      heff, applyEffects_cons, applyEffects_append, applyEffects_write]
    simp [FileEffect.apply]

/-- Exactly when a crash inside `rotate` does no harm: before the
truncating open, once all header bytes are there, or — right after the
truncation — when there is no count to lose. -/
theorem rotate_crash_atomic_iff (seg : Segment) (n : Nat) :
    RotateCrashSafe seg.wal n
      ↔ n = 0 ∨ 1 + headerLen ≤ n ∨ (n = 1 ∧ seg.nextSeq = 0) := by
  have hsafe : ∀ (s : Segment), crashInRotate seg.wal n = s.bytes →
      seg.nextSeq ≤ s.nextSeq → RotateCrashSafe seg.wal n := by
    intro s hs hle
    have ho := open_segment s parseFrame_nil
    rw [List.append_nil, ← hs] at ho
    exact ⟨_, _, ho, hle⟩
  match n with
  | 0 => exact iff_of_true (hsafe seg rfl (Nat.le_refl _)) (Or.inl rfl)
  | m + 1 =>
      by_cases hdone : 1 + headerLen ≤ m + 1
      · refine iff_of_true ?_ (Or.inr (Or.inl hdone))
        refine hsafe (.fresh seg.nextSeq seg.nextSeq_lt) ?_ (Nat.le_refl _)
        rw [crashInRotate_done seg hdone]
        simp [Segment.bytes, Segment.fresh]
      · have hfile := crashInRotate_header seg (m := m) (by omega)
        cases m with
        | zero =>
            -- the empty file: opened as a new log, counting from zero
            have hopen := open_empty
            rw [← List.take_zero (l := encodeHeader seg.nextSeq), ← hfile]
              at hopen
            constructor
            · rintro ⟨w', recovery, ho, hle⟩
              rw [hopen, Except.ok.injEq, Prod.mk.injEq] at ho
              rw [← ho.2] at hle
              exact Or.inr (Or.inr ⟨rfl, Nat.le_zero.mp hle⟩)
            · rintro (h | h | ⟨-, hz⟩)
              · cases h
              · exact absurd h hdone
              · exact ⟨_, _, hopen, Nat.le_of_eq hz⟩
        | succ m =>
            -- a partial header: refused
            have hlen : (crashInRotate seg.wal (m + 1 + 1)).length = m + 1 := by
              rw [hfile, List.length_take, length_encodeHeader]
              omega
            refine iff_of_false ?_ ?_
            · rintro ⟨w', recovery, ho, -⟩
              unfold Wal.open Wal.recover at ho
              rw [if_neg (by omega),
                parseHeader_short (by rw [hlen]; omega)] at ho
              cases ho
            · rintro (h | h | ⟨h, -⟩)
              · cases h
              · exact hdone h
              · omega

/-- A log that has handed out number 0, killed right after the truncation
and killed after five header bytes. -/
theorem rotate_crash_loses_count :
    ¬ RotateCrashSafe (Segment.fresh 1 (by decide)).wal 1
    ∧ ¬ RotateCrashSafe (Segment.fresh 1 (by decide)).wal 6 := by
  constructor
  · rintro ⟨w', recovery, ho, hle⟩
    cases ho
    revert hle
    decide
  · rintro ⟨w', recovery, ho, -⟩
    cases ho

end FerrisKv
