/-
One changed byte in a segment.

The parser walks the intact frames before the changed one
(`parseFrames_frames_append`), so all depends on what it makes of that frame
and what follows it. Outside the two length fields the frame keeps its
extent, and a CRC with one wrong byte on either side of it never matches:
the parser stops there (`parseFrame_altered`).

A changed length field is another matter. It moves the CRC into the value,
which is the client's to choose. Whatever parses then is not the record
that was written, so the records recovered are a prefix of those appended
exactly if nothing parses; `forged_records` is a value that makes a write to
another tenant out of one flipped length byte.
-/
import FerrisKv.Core.Key
import FerrisKv.Core.Value
import FerrisKv.Proofs.Wal.Opening

namespace FerrisKv

open LittleEndian

/-- The frames with one byte of the `i`-th, counted from 0, changed. -/
def corrupted (records : List WalRecord) (i pos : Nat) (b : UInt8) : Bytes :=
  (frames records).set ((frames (records.take i)).length + pos) b

/-- The position is in one of the two length fields of the frame. -/
def WalRecord.InLengths (r : WalRecord) (pos : Nat) : Prop :=
  (9 ≤ pos ∧ pos < 13)
    ∨ (13 + r.key.length ≤ pos ∧ pos < 13 + r.key.length + 4)

-- =============================================================== positions

/-- A changed byte outside a slice does not show in it. -/
private theorem slice_set {buf : Bytes} {p i j : Nat} (h : p < i ∨ j ≤ p)
    (b : UInt8) : slice (buf.set p b) i j = slice buf i j := by
  unfold slice
  rw [List.drop_set]
  split
  · rfl
  · rw [List.take_set_of_le (by omega)]

/-- A log around its record `i`. -/
private theorem frames_take_drop {records : List WalRecord} {i : Nat}
    (hi : i < records.length) : frames records
      = frames (records.take i)
        ++ (records[i].frame ++ frames (records.drop (i + 1))) := by
  rw [← frames_cons, ← frames_append, ← List.drop_eq_getElem_cons hi,
    List.take_append_drop]

/-- The change stays inside its frame. -/
theorem corrupted_eq {records : List WalRecord} {i pos : Nat}
    (hi : i < records.length) (hpos : pos < records[i].frame.length)
    (b : UInt8) : corrupted records i pos b
      = frames (records.take i)
        ++ (records[i].frame.set pos b ++ frames (records.drop (i + 1))) := by
  rw [corrupted, frames_take_drop hi, List.set_append_right _ _ (by omega),
    Nat.add_sub_cancel_left, List.set_append_left _ _ hpos]

/-- A byte that is changed is not what it was. -/
private theorem set_ne_self {l : Bytes} {pos : Nat} {b : UInt8}
    (hpos : pos < l.length) (hb : b ≠ l[pos]) : l.set pos b ≠ l := by
  intro he
  have hget : (l.set pos b)[pos]? = some b := List.getElem?_set_self hpos
  rw [he, List.getElem?_eq_getElem hpos, Option.some.injEq] at hget
  exact hb hget.symm

-- ================================================================ the frame

section Frame

variable {r : WalRecord} {pos : Nat} {b : UInt8} {rest : Bytes}

/-- Whatever the parser makes of a changed frame is another record. -/
theorem parseFrame_altered_ne (hpos : pos < r.frame.length)
    (hb : b ≠ r.frame[pos]) {r' : WalRecord} {len : Nat}
    (h : parseFrame (r.frame.set pos b ++ rest) = some (r', len)) :
    r' ≠ r := by
  rintro rfl
  obtain ⟨-, -, hbuf⟩ := parseFrame_sound h
  exact set_ne_self hpos hb (List.append_inj hbuf (List.length_set ..)).1

/-- The lengths are read from where they were written. -/
theorem altered_lengths (hr : r.Fits) (hpos : pos < r.frame.length)
    (hout : ¬ r.InLengths pos) {r' : WalRecord} {rest' : Bytes}
    (hr' : r'.Fits) (h : r.frame.set pos b ++ rest = r'.frame ++ rest') :
    r'.key.length = r.key.length ∧ r'.value.length = r.value.length := by
  have hset : r.frame.set pos b ++ rest = (r.frame ++ rest).set pos b :=
    (List.set_append_left _ _ hpos).symm
  rw [hset] at h
  unfold WalRecord.InLengths at hout
  have hklen : r'.key.length = r.key.length := by
    have hslice := congrArg (slice · 9 13) h
    simp only [slice_set (by omega : pos < 9 ∨ 13 ≤ pos),
      frame_slice_klen] at hslice
    exact leBytes_inj (n := 4) hr'.key hr.key hslice.symm
  refine ⟨hklen, ?_⟩
  have hslice := congrArg
    (slice · (13 + r.key.length) (13 + r.key.length + 4)) h
  simp only [slice_set (by omega : pos < 13 + r.key.length
    ∨ 13 + r.key.length + 4 ≤ pos), frame_slice_vlen] at hslice
  rw [← hklen, frame_slice_vlen] at hslice
  exact leBytes_inj (n := 4) hr'.value hr.value hslice.symm

/-- No frame is a frame with one byte changed. -/
theorem frame_set_ne (hpos : pos < r.frame.length)
    (hb : b ≠ r.frame[pos]) {r' : WalRecord}
    (hlen : r'.frame.length = r.frame.length) :
    r'.frame ≠ r.frame.set pos b := by
  intro h
  have hbody := length_frameBody r.seq r.op r.key r.value
  have hbody' := length_frameBody r'.seq r'.op r'.key r'.value
  have hframe := r.length_frame
  have hframe' := r'.length_frame
  -- the body and the CRC of the two frames
  have hsplit : frameBody r'.seq r'.op r'.key r'.value
        = (frameBody r.seq r.op r.key r.value).set pos b
      ∧ leBytes 4 r'.crc = (r.frame.set pos b).drop
        (frameBody r.seq r.op r.key r.value).length := by
    have hn : (frameBody r.seq r.op r.key r.value).length
        = (frameBody r'.seq r'.op r'.key r'.value).length := by omega
    constructor
    · have htake := congrArg (List.take
        (frameBody r.seq r.op r.key r.value).length) h
      rw [hn, WalRecord.frame, encodeFrame, List.take_left, ← hn,
        List.take_set, WalRecord.frame, encodeFrame, List.take_left] at htake
      exact htake
    · rw [← h, hn, WalRecord.frame, encodeFrame, List.drop_left]
      rfl
  by_cases hin : pos < (frameBody r.seq r.op r.key r.value).length
  · -- in the body: the CRC is the old one
    have hcrc : leBytes 4 r'.crc = leBytes 4 r.crc := by
      rw [hsplit.2, List.drop_set_of_lt hin, WalRecord.frame, encodeFrame,
        List.drop_left]
      rfl
    have heq : r'.crc = r.crc :=
      leBytes_inj (n := 4) (BitVec.isLt _) (BitVec.isLt _) hcrc
    have hold : b ≠ (frameBody r.seq r.op r.key r.value)[pos] := by
      have hget : r.frame[pos]
          = (frameBody r.seq r.op r.key r.value)[pos] :=
        List.getElem_append_left hin
      rwa [hget] at hb
    refine Crc32.hash_set_ne hin hold (BitVec.eq_of_toNat_eq ?_)
    rw [← hsplit.1]
    exact heq
  · -- in the CRC: the body is the old one, and so is its CRC
    have hsame : frameBody r'.seq r'.op r'.key r'.value
        = frameBody r.seq r.op r.key r.value := by
      rw [hsplit.1, List.set_eq_of_length_le (by omega)]
    have hframes : r'.frame = r.frame := by
      rw [WalRecord.frame, WalRecord.frame, encodeFrame, encodeFrame, hsame]
    exact set_ne_self hpos hb (h.symm.trans hframes)

/-- A byte changed outside the length fields stops the parser. -/
theorem parseFrame_altered (hr : r.Fits) (hpos : pos < r.frame.length)
    (hb : b ≠ r.frame[pos]) (hout : ¬ r.InLengths pos) (rest : Bytes) :
    parseFrame (r.frame.set pos b ++ rest) = none := by
  cases hp : parseFrame (r.frame.set pos b ++ rest) with
  | none => rfl
  | some rl =>
      obtain ⟨r', len⟩ := rl
      obtain ⟨hr', -, hbuf⟩ := parseFrame_sound hp
      obtain ⟨hk, hv⟩ := altered_lengths hr hpos hout hr' hbuf
      have hlen : r'.frame.length = r.frame.length := by
        rw [r.length_frame, r'.length_frame, hk, hv]
      have hframe := (List.append_inj hbuf
        (by rw [List.length_set, hlen])).1
      exact absurd hframe.symm (frame_set_ne hpos hb hlen)

end Frame

-- ============================================================== the segment

/-- Corruption of a frame's contents is caught at that frame. -/
theorem corruption_caught (records : List WalRecord)
    (hf : ∀ r ∈ records, r.Fits) (i : Nat) (hi : i < records.length)
    (pos : Nat) (hpos : pos < records[i].frame.length)
    (hout : ¬ records[i].InLengths pos) (b : UInt8)
    (hb : b ≠ records[i].frame[pos]) :
    parseFrames (corrupted records i pos b)
      = (records.take i, (frames (records.take i)).length) := by
  have hfits : ∀ r ∈ records.take i, r.Fits :=
    fun r hr => hf r (List.mem_of_mem_take hr)
  have hstop := parseFrame_altered (hf _ (List.getElem_mem hi)) hpos hb hout
    (frames (records.drop (i + 1)))
  rw [corrupted_eq hi hpos, parseFrames_frames_append hfits,
    parseFrames_none hstop, List.append_nil, Nat.add_zero]

/-- The op code of the second record is changed, and the first is left. -/
theorem corruption_caught_second :
    parseFrames (corrupted [⟨1, .put, [7], [8, 9]⟩, ⟨2, .delete, [7], []⟩] 1 8
      1) = ([⟨1, .put, [7], [8, 9]⟩], 24) :=
  corruption_caught _ (by
    intro r hr
    rcases List.mem_cons.mp hr with rfl | hr
    · exact ⟨by decide, by decide, by decide⟩
    · obtain rfl := List.mem_singleton.mp hr
      exact ⟨by decide, by decide, by decide⟩)
    1 (by decide) 8 (by decide) (by unfold WalRecord.InLengths; decide) 1
    (by decide)

/-- Corruption costs only the tail exactly if what follows the intact
frames does not parse. -/
theorem corruption_costs_tail (records : List WalRecord)
    (hf : ∀ r ∈ records, r.Fits) (i : Nat) (hi : i < records.length)
    (pos : Nat) (hpos : pos < records[i].frame.length) (b : UInt8)
    (hb : b ≠ records[i].frame[pos]) :
    (parseFrames (corrupted records i pos b)).1 <+: records
      ↔ parseFrame ((frames (records.drop i)).set pos b) = none := by
  have hfits : ∀ r ∈ records.take i, r.Fits :=
    fun r hr => hf r (List.mem_of_mem_take hr)
  have hrest : (frames (records.drop i)).set pos b
      = records[i].frame.set pos b ++ frames (records.drop (i + 1)) := by
    rw [List.drop_eq_getElem_cons hi, frames_cons,
      List.set_append_left _ _ hpos]
  rw [corrupted_eq hi hpos, parseFrames_frames_append hfits, hrest]
  cases hp : parseFrame (records[i].frame.set pos b
      ++ frames (records.drop (i + 1))) with
  | none =>
      rw [parseFrames_none hp, List.append_nil]
      exact iff_of_true (List.take_prefix i records) rfl
  | some rl =>
      obtain ⟨r', len⟩ := rl
      refine iff_of_false (fun hprefix => ?_) nofun
      -- the record in the changed frame's place would be the one written
      obtain ⟨more, hmore⟩ := hprefix
      rw [parseFrames_cons hp, List.append_assoc, List.cons_append] at hmore
      have hcancel := List.append_cancel_left
        (hmore.trans (List.take_append_drop i records).symm)
      rw [List.drop_eq_getElem_cons hi] at hcancel
      exact parseFrame_altered_ne hpos hb hp (List.cons.inj hcancel).1

/-- Three writes of one key. -/
def threeWrites : List WalRecord :=
  [⟨1, .put, [7], [8, 9]⟩, ⟨2, .put, [7], [5]⟩, ⟨3, .delete, [7], []⟩]

/-- A byte of the second one's value length is changed. The first is left, as
the rest does not parse. -/
theorem corruption_costs_tail_second :
    (parseFrames (corrupted threeWrites 1 14 2)).1 = [⟨1, .put, [7], [8, 9]⟩]
      ∧ (parseFrames (corrupted threeWrites 1 14 2)).1 <+: threeWrites := by
  refine ⟨by decide +kernel, (corruption_costs_tail threeWrites ?_ 1 (by decide)
    14 (by decide) 2 (by decide)).mpr (by decide +kernel)⟩
  intro r hr
  simp only [threeWrites, List.mem_cons, List.not_mem_nil, or_false] at hr
  rcases hr with rfl | rfl | rfl <;> exact ⟨by decide, by decide, by decide⟩

-- =================================================================== forgery

/-- A write that was never made, to a tenant of somebody else. -/
def forged : WalRecord :=
  ⟨1, .put, KeyCodec.bytesOf "b" .data [1], ValueCodec.encode [2] none⟩

/-- The write that was: its encoded value is the CRC of the frame with an
empty value, then the forged frame. -/
def carrier : WalRecord :=
  ⟨0, .put, KeyCodec.bytesOf "a" .data [83],
    ValueCodec.encode ([6, 16, 202] ++ forged.frame) none⟩

/-- One byte of a length field makes two writes of one, neither of them
appended. -/
theorem forged_records :
    carrier.Fits ∧ carrier.frame[13 + carrier.key.length]? = some 31
      ∧ (parseFrames (corrupted [carrier] 0 (13 + carrier.key.length) 0)).1
        = [⟨0, .put, KeyCodec.bytesOf "a" .data [83], []⟩, forged]
      ∧ ¬ (parseFrames (corrupted [carrier] 0 (13 + carrier.key.length) 0)).1
        <+: [carrier] := by
  have hparse : (parseFrames (corrupted [carrier] 0
      (13 + carrier.key.length) 0)).1
        = [⟨0, .put, KeyCodec.bytesOf "a" .data [83], []⟩, forged] := by
    decide +kernel
  refine ⟨⟨by decide, by decide +kernel, by decide +kernel⟩,
    by decide +kernel, hparse, ?_⟩
  rw [hparse]
  intro h
  exact absurd h.length_le (by decide)

end FerrisKv
