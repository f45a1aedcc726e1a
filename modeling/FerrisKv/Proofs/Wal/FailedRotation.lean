/-
Rotations that fail.

`rotate_wal_if_needed` drops a rotation's error on the understanding that
the segment then merely grows longer. It does if the truncating open itself
fails, and if the failure comes after the last byte of the new header. In
between the old records are gone and the header is not whole, while the old
writer goes on appending behind it. Whatever is appended then cannot be read
back: the frames start before the place where a header ends, so there is no
room left for them behind it (`failed_rotation_harmless_iff`).
-/
import FerrisKv.Proofs.Wal.Faults
import FerrisKv.Proofs.Wal.Opening
import FerrisKv.Proofs.Wal.Runs

namespace FerrisKv

/-- A call of `append` that does not fail, with lengths their fields can
hold. -/
structure AppendCall.Succeeds (c : AppendCall) : Prop where
  fault : c.fault = none
  key : c.key.length < 2 ^ 32
  value : c.value.length < 2 ^ 32

/-- The next open has the records `acked` as its last, and counts on from
`seq`. -/
def OpensWith (file : Bytes) (seq : Nat) (acked : List WalRecord) : Prop :=
  ∃ w recovery, Wal.open file = .ok (w, recovery)
    ∧ acked <:+ recovery.records ∧ (∀ r ∈ acked, seq ≤ r.seq)
    ∧ seq ≤ recovery.nextSeq

/-- The failed rotation only means a longer segment: what is appended
afterwards is there at the next open. -/
def RotationHarmless (w : Wal) (f : Fault) : Prop :=
  ∀ calls : List AppendCall, (∀ c ∈ calls, c.Succeeds) →
    OpensWith ((w.rotate (some f)).2.appends calls).2.file w.nextSeq
      ((w.rotate (some f)).2.appends calls).1

-- ============================================================ the appends

/-- What follows from appending with nothing left in the buffer: the
frames are in the file, in order, with numbers from `next_seq` on. -/
theorem appends_frames {calls : List AppendCall}
    (hcalls : ∀ c ∈ calls, c.Succeeds) :
    ∀ {w : Wal}, w.buffered = [] → w.nextSeq < 2 ^ 64 →
      (w.appends calls).2.file = w.file ++ frames (w.appends calls).1
        ∧ (∀ r ∈ (w.appends calls).1, r.Fits ∧ w.nextSeq ≤ r.seq) := by
  induction calls with
  | nil =>
      intro w _ _
      exact ⟨(List.append_nil _).symm, fun r hr => nomatch hr⟩
  | cons c rest ih =>
      intro w hbuf hseq
      have hc := hcalls c List.mem_cons_self
      have hmake : c.make w = w.append none c.op c.key c.value := by
        rw [AppendCall.make, hc.fault]
      have hnext : w.nextSeq ≤ saturatingAdd w.nextSeq 1 := by
        unfold saturatingAdd u64Max
        omega
      obtain ⟨hfile, hrec⟩ := ih
        (fun c' hc' => hcalls c' (List.mem_cons_of_mem _ hc'))
        (w := (w.append none c.op c.key c.value).2) rfl (saturatingAdd_lt _ _)
      simp only [Wal.appends, hmake]
      refine ⟨?_, fun r hr => ?_⟩
      · rw [hfile]
        show w.file ++ (w.buffered ++ _) ++ _ = w.file ++ frames (_ :: _)
        rw [hbuf, List.nil_append, List.append_assoc, frames_cons]
        rfl
      · rcases List.mem_cons.mp hr with rfl | hr
        · exact ⟨⟨hseq, hc.key, hc.value⟩, le_rfl⟩
        · exact ⟨(hrec r hr).1, hnext.trans (hrec r hr).2⟩

/-- A whole segment of the right number opens with what was appended. -/
theorem opensWith_segment (s : Segment) {seq : Nat} (hs : seq ≤ s.nextSeq)
    {acked : List WalRecord} (hacked : ∀ r ∈ acked, r.Fits ∧ seq ≤ r.seq) :
    OpensWith (s.bytes ++ frames acked) seq acked := by
  have hfile : s.bytes ++ frames acked
      = encodeHeader s.base ++ (frames (s.records ++ acked) ++ []) := by
    rw [Segment.bytes, frames_append, List.append_nil, List.append_assoc]
  have hfits : ∀ r ∈ s.records ++ acked, r.Fits := by
    intro r hr
    rcases List.mem_append.mp hr with hr | hr
    · exact s.fits r hr
    · exact (hacked r hr).1
  rw [hfile]
  refine ⟨_, _, open_frames s.base_lt hfits parseFrame_nil,
    List.suffix_append _ _, fun r hr => (hacked r hr).2, ?_⟩
  show seq ≤ max (((s.records ++ acked).getLast?.map _).getD s.base) s.base
  rcases List.eq_nil_or_concat acked with rfl | ⟨init, last, rfl⟩
  · rw [List.append_nil, s.getLast_nextSeq]
    exact hs
  · have hlast := hacked last (by simp)
    have hroom := hlast.1.seq
    rw [List.concat_eq_append, ← List.append_assoc, List.getLast?_concat]
    refine le_trans ?_ (Nat.le_max_left _ _)
    show seq ≤ saturatingAdd last.seq 1
    unfold saturatingAdd u64Max
    omega

/-- No open finds a record behind a header that is not whole. -/
theorem not_opensWith_torn {stub : Bytes}
    (hshort : stub.length < headerLen) (seq : Nat) (r : WalRecord) :
    ¬ OpensWith (stub ++ frames [r]) seq [r] := by
  rintro ⟨w, recovery, hopen, hsuffix, -⟩
  have hlen : (stub ++ frames [r]).length
      = stub.length + r.frame.length := by
    simp
  have hpos := r.length_frame
  unfold Wal.open Wal.recover at hopen
  rw [if_neg (by omega)] at hopen
  cases hh : parseHeader (stub ++ frames [r]) with
  | error e =>
      rw [hh] at hopen
      cases hopen
  | ok base =>
      simp only [hh, Except.ok.injEq, Prod.mk.injEq] at hopen
      obtain ⟨-, rfl⟩ := hopen
      obtain ⟨tail, hbody, -⟩ := parseFrames_sound
        ((stub ++ frames [r]).drop headerLen)
      obtain ⟨init, hinit⟩ := hsuffix
      dsimp only at hinit
      -- the record's frame would have to fit behind the header
      have hroom := congrArg List.length hbody
      rw [← hinit, List.length_drop, hlen, List.length_append,
        frames_append, List.length_append, frames_cons, frames_nil,
        List.append_nil] at hroom
      omega

-- ======================================================== the failed rotation

section Rotation

variable (s : Segment) (f : Fault)

/-- The log a failed rotation leaves. -/
theorem rotate_struck : (s.wal.rotate (some f)).2
    = { s.wal with file := crashInRotate s.wal f.after } := by
  show ({ s.wal with file := _, buffered := List.drop f.after [] } : Wal) = _
  rw [List.drop_nil]
  rfl

/-- Exactly which failures of a rotation do no harm: that of the truncating
open, and those after the last header byte. -/
theorem failed_rotation_harmless_iff :
    RotationHarmless s.wal f ↔ f.after = 0 ∨ 1 + headerLen ≤ f.after := by
  have happends : ∀ calls : List AppendCall, (∀ c ∈ calls, c.Succeeds) → _ :=
    fun calls hcalls => appends_frames hcalls
      (w := (s.wal.rotate (some f)).2) (by rw [rotate_struck]; rfl)
      (by rw [rotate_struck]; exact s.nextSeq_lt)
  constructor
  · intro h
    by_contra hbad
    -- the truncation came through and the header did not, so the file is a
    -- piece of it with the appended record behind
    obtain ⟨m, hm⟩ : ∃ m, f.after = m + 1 := ⟨f.after - 1, by omega⟩
    have hcalls : ∀ c ∈ [(⟨.put, [], [], none⟩ : AppendCall)],
        c.Succeeds := by
      intro c hc
      obtain rfl := List.mem_singleton.mp hc
      exact ⟨rfl, by decide, by decide⟩
    have hopen := h _ hcalls
    rw [(happends _ hcalls).1, rotate_struck, hm,
      crashInRotate_header s (by omega)] at hopen
    refine not_opensWith_torn ?_ _ _ hopen
    rw [List.length_take, length_encodeHeader]
    omega
  · intro hgood calls hcalls
    obtain ⟨hfile, hacked⟩ := happends calls hcalls
    rw [hfile]
    have hseq : (s.wal.rotate (some f)).2.nextSeq = s.nextSeq := by
      rw [rotate_struck]
      rfl
    rw [hseq] at hacked
    -- failed at the truncation the old segment is whole, and failed after the
    -- header the fresh one is
    rcases hgood with hzero | hdone
    · have hbytes : (s.wal.rotate (some f)).2.file = s.bytes := by
        rw [rotate_struck, hzero]
        rfl
      rw [hbytes]
      exact opensWith_segment s le_rfl hacked
    · have hbytes : (s.wal.rotate (some f)).2.file
          = (Segment.fresh s.nextSeq s.nextSeq_lt).bytes := by
        rw [rotate_struck]
        show crashInRotate s.wal f.after = _
        rw [crashInRotate_done s hdone]
        simp [Segment.bytes, Segment.fresh]
      rw [hbytes]
      exact opensWith_segment (.fresh s.nextSeq s.nextSeq_lt) le_rfl hacked

end Rotation

/-- A log that has handed out number 0 and whose rotation fails after five
bytes of the header: the put that follows is acknowledged as number 1, and
the next open refuses the file. -/
theorem failed_rotation_loses_append :
    ((Segment.fresh 1 (by decide)).wal.rotate (some ⟨6, "disk full"⟩)).1
        = .error (.io "disk full")
      ∧ (((Segment.fresh 1 (by decide)).wal.rotate
          (some ⟨6, "disk full"⟩)).2.appends [⟨.put, [1], [0, 2], none⟩]).1
        = [⟨1, .put, [1], [0, 2]⟩]
      ∧ Wal.open (((Segment.fresh 1 (by decide)).wal.rotate
          (some ⟨6, "disk full"⟩)).2.appends [⟨.put, [1], [0, 2], none⟩]).2.file
        = .error (.corrupt "unsupported wal format version") := by
  refine ⟨rfl, rfl, ?_⟩
  decide +kernel

end FerrisKv
