/-
Opening whatever is at the log's path.

Frames.lean and Log.lean read back what was written. Here nothing is known
of the file: it may be foreign, torn or garbage. What the parser accepts
is nevertheless always an encoding, byte for byte (`parseFrame_sound`,
`parseHeader_sound`), so a file that `Wal::open` takes IS a segment with a
tail that does not parse (`segment_of_parseHeader`), and the squares of
Log.lean apply to it.

# Why the second open finds the same

The mended file is the header and the frames of the records returned. Each
of them fits its fields, because its lengths were read from fields of that
width. So the mended file is a segment with an empty tail, and the parser
stops where the first open cut it.
-/
import FerrisKv.Proofs.Wal.Log

namespace FerrisKv

open LittleEndian

-- ================================================================== slices

/-- A slice within the buffer has its nominal length. -/
theorem length_slice {buf : Bytes} {i j : Nat} (hj : j ≤ buf.length) :
    (slice buf i j).length = j - i := by
  unfold slice
  rw [List.length_take, List.length_drop]
  omega

/-- A slice from the start is a prefix. -/
theorem slice_zero (buf : Bytes) (j : Nat) : slice buf 0 j = buf.take j := rfl

/-- Adjacent slices join. -/
theorem slice_append {buf : Bytes} {i j k : Nat} (hij : i ≤ j) (hjk : j ≤ k) :
    slice buf i j ++ slice buf j k = slice buf i k := by
  unfold slice
  have hdrop : buf.drop j = (buf.drop i).drop (j - i) := by
    rw [List.drop_drop]
    congr 1
    omega
  have hlen : k - i = (j - i) + (k - j) := by omega
  rw [hdrop, hlen, List.take_add]

/-- A slice of one byte. -/
private theorem slice_singleton {buf : Bytes} {i : Nat} {b : UInt8}
    (h : buf[i]? = some b) : slice buf i (i + 1) = [b] := by
  obtain ⟨hi, hb⟩ := List.getElem?_eq_some_iff.mp h
  unfold slice
  rw [Nat.add_sub_cancel_left, List.drop_eq_getElem_cons hi, hb]
  rfl

/-- Reading a field of `n` bytes and writing it gives its bytes back. -/
theorem leBytes_ofLe_slice {buf : Bytes} {i j n : Nat} (hn : j = i + n)
    (hj : j ≤ buf.length) :
    leBytes n (ofLe (slice buf i j)) = slice buf i j := by
  have hlen := length_slice (i := i) hj
  have hbytes := leBytes_ofLe (slice buf i j)
  rw [hlen, hn, Nat.add_sub_cancel_left] at hbytes
  rw [hn]
  exact hbytes

/-- A number read from `n` bytes is below `256 ^ n`. -/
theorem ofLe_slice_lt {buf : Bytes} {i j n : Nat} (hn : j = i + n)
    (hj : j ≤ buf.length) : ofLe (slice buf i j) < 256 ^ n := by
  have hlt := ofLe_lt (slice buf i j)
  rw [length_slice hj, hn, Nat.add_sub_cancel_left] at hlt
  rw [hn]
  exact hlt

-- ================================================================== frames

/-- An op code that is read is the one that would be written. -/
theorem WalOp.toU8_of_fromU8 {b : UInt8} {op : WalOp}
    (h : WalOp.fromU8 b = some op) : op.toU8 = b := by
  unfold WalOp.fromU8 at h
  split at h
  · next hb =>
      cases h
      exact hb.symm
  · split at h
    · next hb =>
        cases h
        exact hb.symm
    · cases h

/-- What `parse_frame` has checked when it accepts, field by field. -/
structure FrameFields (buf : Bytes) (r : WalRecord) (len : Nat) : Prop where
  op : buf[8]? = some r.op.toU8
  bound : 13 + r.key.length + 4 + r.value.length + 4 ≤ buf.length
  len : len = 13 + r.key.length + 4 + r.value.length + 4
  seq : r.seq = ofLe (slice buf 0 8)
  klen : r.key.length = ofLe (slice buf 9 13)
  key : r.key = slice buf 13 (13 + r.key.length)
  vlen : r.value.length
    = ofLe (slice buf (13 + r.key.length) (13 + r.key.length + 4))
  value : r.value = slice buf (13 + r.key.length + 4)
    (13 + r.key.length + 4 + r.value.length)
  crc : (Crc32.hash
      (buf.take (13 + r.key.length + 4 + r.value.length))).toNat
    = ofLe (slice buf (13 + r.key.length + 4 + r.value.length)
      (13 + r.key.length + 4 + r.value.length + 4))

/-- A frame that parses has its fields where they are written. -/
private theorem frameFields_of_parseFrame {buf : Bytes} {r : WalRecord}
    {len : Nat}
    (h : parseFrame buf = some (r, len)) : FrameFields buf r len := by
  unfold parseFrame at h
  simp only at h
  split at h
  · cases h
  · split at h
    · cases h
    · next op hop =>
        obtain ⟨b, hb, hfrom⟩ := Option.bind_eq_some_iff.mp hop
        split at h
        · cases h
        · next hkey =>
            split at h
            · cases h
            · next hval =>
                split at h
                · cases h
                · next hcrc =>
                    rw [not_not] at hcrc
                    cases h
                    -- the two slices are as long as their length fields say
                    have hk : (slice buf 13
                        (13 + ofLe (slice buf 9 13))).length
                        = ofLe (slice buf 9 13) := by
                      rw [length_slice (by omega)]
                      omega
                    have hv : (slice buf (13 + ofLe (slice buf 9 13) + 4)
                        (13 + ofLe (slice buf 9 13) + 4
                          + ofLe (slice buf (13 + ofLe (slice buf 9 13))
                            (13 + ofLe (slice buf 9 13) + 4)))).length
                        = ofLe (slice buf (13 + ofLe (slice buf 9 13))
                          (13 + ofLe (slice buf 9 13) + 4)) := by
                      rw [length_slice (by omega), Nat.add_sub_cancel_left]
                    constructor
                    · rw [hb, WalOp.toU8_of_fromU8 hfrom]
                    · simp only [hk, hv]
                      omega
                    · simp only [hk, hv]
                    · rfl
                    · exact hk
                    · simp only [hk]
                    · simp only [hk, hv]
                    · simp only [hk, hv]
                    · simp only [hk, hv]
                      exact hcrc

/-- What was read from length fields fits them. -/
theorem FrameFields.fits {buf : Bytes} {r : WalRecord} {len : Nat}
    (h : FrameFields buf r len) : r.Fits := by
  have hb := h.bound
  refine ⟨?_, ?_, ?_⟩
  · rw [h.seq]
    exact ofLe_slice_lt (n := 8) rfl (by omega)
  · rw [h.klen]
    exact ofLe_slice_lt (n := 4) rfl (by omega)
  · rw [h.vlen]
    exact ofLe_slice_lt (n := 4) rfl (by omega)

/-- The part the CRC covers. -/
theorem FrameFields.body {buf : Bytes} {r : WalRecord} {len : Nat}
    (h : FrameFields buf r len) :
    frameBody r.seq r.op r.key r.value
      = buf.take (13 + r.key.length + 4 + r.value.length) := by
  have hb := h.bound
  have hseq : leBytes 8 r.seq = slice buf 0 8 := by
    rw [h.seq]
    exact leBytes_ofLe_slice rfl (by omega)
  have hklen : leBytes 4 r.key.length = slice buf 9 13 := by
    rw [h.klen]
    exact leBytes_ofLe_slice rfl (by omega)
  have hvlen : leBytes 4 r.value.length
      = slice buf (13 + r.key.length) (13 + r.key.length + 4) := by
    conv_lhs => rw [h.vlen]
    exact leBytes_ofLe_slice rfl (by omega)
  calc frameBody r.seq r.op r.key r.value
      = slice buf 0 8 ++ slice buf 8 9 ++ slice buf 9 13
          ++ slice buf 13 (13 + r.key.length)
          ++ slice buf (13 + r.key.length) (13 + r.key.length + 4)
          ++ slice buf (13 + r.key.length + 4)
            (13 + r.key.length + 4 + r.value.length) := by
        rw [frameBody, hseq, hklen, hvlen, slice_singleton h.op, ← h.key,
          ← h.value]
    _ = slice buf 0 (13 + r.key.length + 4 + r.value.length) := by
        rw [slice_append (by omega) (by omega),
          slice_append (by omega) (by omega),
          slice_append (by omega) (by omega),
          slice_append (by omega) (by omega),
          slice_append (by omega) (by omega)]
    _ = _ := slice_zero _ _

/-- What `parse_frame` accepts is the frame of the record it returns. -/
theorem parseFrame_sound {buf : Bytes} {r : WalRecord} {len : Nat}
    (h : parseFrame buf = some (r, len)) :
    r.Fits ∧ len = r.frame.length ∧ buf = r.frame ++ buf.drop len := by
  have hf := frameFields_of_parseFrame h
  have hb := hf.bound
  have hframe : r.frame = buf.take len := by
    rw [WalRecord.frame, encodeFrame, hf.body, hf.crc,
      leBytes_ofLe_slice rfl hb, ← slice_zero, slice_append (by omega)
        (by omega), slice_zero, hf.len]
  refine ⟨hf.fits, ?_, ?_⟩
  · rw [r.length_frame, hf.len]
    omega
  · rw [hframe, List.take_append_drop]

/-- What the loop consumes is the frames of the records it returns, and it
stops where nothing parses. -/
theorem parseFrames_sound (body : Bytes) :
    ∃ tail, body = frames (parseFrames body).1 ++ tail
      ∧ (∀ r ∈ (parseFrames body).1, r.Fits) ∧ parseFrame tail = none := by
  -- on the length of what is left: a frame is never empty
  induction hn : body.length using Nat.strong_induction_on generalizing body with
  | _ n ih =>
      cases hp : parseFrame body with
      | none =>
          rw [parseFrames_none hp]
          exact ⟨body, rfl, fun r hr => (by cases hr), hp⟩
      | some rl =>
          obtain ⟨r, len⟩ := rl
          obtain ⟨hpos, hle⟩ := parseFrame_length_pos hp
          obtain ⟨hfits, -, hbody⟩ := parseFrame_sound hp
          obtain ⟨tail, hrest, hall, htail⟩ := ih (body.drop len).length
            (by rw [List.length_drop]; omega) (body.drop len) rfl
          rw [parseFrames_cons hp]
          refine ⟨tail, ?_, fun r' hr' => ?_, htail⟩
          · rw [frames_cons, List.append_assoc, ← hrest]
            exact hbody
          · rcases List.mem_cons.mp hr' with rfl | hr'
            · exact hfits
            · exact hall r' hr'

-- ================================================================== headers

/-- What `parse_header` accepts is the header of the number it returns. -/
theorem parseHeader_sound {buf : Bytes} {base : Nat}
    (h : parseHeader buf = .ok base) :
    base < 2 ^ 64 ∧ buf = encodeHeader base ++ buf.drop headerLen := by
  unfold parseHeader at h
  split at h
  · cases h
  · next hlen =>
      split at h
      · cases h
      · next hmagic =>
          split at h
          · cases h
          · next hversion =>
              rw [not_not] at hmagic hversion
              cases h
              unfold headerLen at hlen
              have hbytes : leBytes 2 formatVersion = slice buf 4 6 := by
                rw [← hversion]
                exact leBytes_ofLe_slice rfl (by omega)
              have hheader : encodeHeader (ofLe (slice buf 6 14))
                  = buf.take headerLen := by
                rw [encodeHeader, ← hmagic, hbytes,
                  leBytes_ofLe_slice rfl (by omega),
                  slice_append (by omega) (by omega),
                  slice_append (by omega) (by omega), slice_zero]
                rfl
              refine ⟨ofLe_slice_lt (n := 8) rfl (by omega), ?_⟩
              rw [hheader, List.take_append_drop]

/-- A file with a header is a segment, torn or not. -/
theorem segment_of_parseHeader {file : Bytes} {base : Nat}
    (h : parseHeader file = .ok base) :
    ∃ records tail, base < 2 ^ 64 ∧ (∀ r ∈ records, r.Fits)
      ∧ parseFrame tail = none
      ∧ file = encodeHeader base ++ (frames records ++ tail) := by
  obtain ⟨hbase, hfile⟩ := parseHeader_sound h
  obtain ⟨tail, hbody, hfits, htail⟩ := parseFrames_sound (file.drop headerLen)
  exact ⟨_, tail, hbase, hfits, htail, by rw [← hbody]; exact hfile⟩

-- ================================================================== opening

/-- Opening without a fault is `Wal::open`. -/
theorem exec_open {w w' : Wal} {recovery : Recovery}
    (h : Wal.open w.file = .ok (w', recovery)) :
    WalPrim.open.exec none w = (.ok recovery, w') := by
  simp only [WalPrim.exec, h]

/-- Opening is safe and idempotent on any file: it refuses and leaves the
bytes alone, or it leaves a header and the frames of the records it
returns, cut from the front of what was there, and a second open finds
exactly that and cuts nothing. -/
theorem open_any_file (w : Wal) :
    let opened := WalPrim.open.exec none w
    (∃ e, opened.1 = .error e ∧ opened.2.file = w.file)
      ∨ ∃ recovery base, opened.1 = .ok recovery ∧ base < 2 ^ 64
        ∧ opened.2.file = encodeHeader base ++ frames recovery.records
        ∧ (w.file ≠ [] → opened.2.file <+: w.file)
        ∧ opened.2.nextSeq = recovery.nextSeq
        ∧ opened.2.segmentBytes = opened.2.file.length
        ∧ recovery.segmentBytes = opened.2.file.length
        ∧ WalPrim.open.exec none opened.2
          = (.ok { recovery with truncatedBytes := 0 }, opened.2) := by
  intro opened
  by_cases hempty : w.file = []
  · -- nothing there: the header is written
    right
    have hopen : Wal.open w.file = .ok (⟨encodeHeader 0, [], 0, headerLen⟩,
        ⟨[], 0, 0, headerLen⟩) := by
      rw [hempty]
      rfl
    rw [show opened = _ from exec_open hopen]
    exact ⟨_, 0, rfl, by decide, rfl, fun h => absurd hempty h, rfl, rfl,
      rfl, rfl⟩
  · cases hheader : parseHeader w.file with
    | error e =>
        left
        have hlen : w.file.length ≠ 0 := fun h =>
          hempty (List.eq_nil_of_length_eq_zero h)
        have hopen : opened = (.error e, w) := by
          show WalPrim.open.exec none w = _
          simp only [WalPrim.exec, Wal.open, Wal.recover, if_neg hlen, hheader]
        rw [hopen]
        exact ⟨e, rfl, rfl⟩
    | ok base =>
        right
        obtain ⟨records, tail, hbase, hfits, htail, hfile⟩ :=
          segment_of_parseHeader hheader
        have hfirst := open_frames hbase hfits htail
        -- what is left after the cut has no tail, so the second opening cuts
        -- nothing
        have hagain := open_frames hbase hfits parseFrame_nil
        rw [List.append_nil] at hagain
        rw [← hfile] at hfirst
        rw [show opened = _ from exec_open hfirst]
        refine ⟨_, base, rfl, hbase, rfl, fun _ => ?_, rfl, rfl, rfl,
          exec_open hagain⟩
        rw [hfile, ← List.append_assoc]
        exact List.prefix_append _ _

end FerrisKv
