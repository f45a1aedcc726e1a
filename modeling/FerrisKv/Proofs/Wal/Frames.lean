/-
Frames and headers, round trip and torn.

# Why no strict prefix of a frame parses

The two length fields decide where a frame ends. A cut frame that still
holds both of them therefore announces an end past the bytes there are,
and one that does not is refused for its size before any length is
trusted (`parseFrame_torn`). The CRC plays no part in this: it is what
tells a CHANGED frame, not a short one.
-/
import FerrisKv.Node.Wal

namespace FerrisKv

open LittleEndian

-- ================================================================= slices

/-- The middle of three pieces, cut out by the outer lengths. -/
theorem slice_mid {buf a b c : Bytes} {i j : Nat} (hbuf : buf = a ++ (b ++ c))
    (hi : i = a.length) (hj : j = a.length + b.length) :
    slice buf i j = b := by
  subst hbuf hi hj
  unfold slice
  rw [List.drop_left, Nat.add_sub_cancel_left, List.take_left]

/-- A slice that ends before the cut does not see it. -/
theorem slice_take {buf : Bytes} {i j n : Nat} (hj : j ≤ n) :
    slice (buf.take n) i j = slice buf i j := by
  unfold slice
  rw [List.drop_take, List.take_take, Nat.min_eq_left (by omega)]

-- ================================================================= frames

/-- A record whose lengths fit the frame's fields. -/
structure WalRecord.Fits (r : WalRecord) : Prop where
  seq : r.seq < 2 ^ 64
  key : r.key.length < 2 ^ 32
  value : r.value.length < 2 ^ 32

@[simp] theorem WalOp.fromU8_toU8 (op : WalOp) :
    WalOp.fromU8 op.toU8 = some op := by
  cases op <;> rfl

/-- Seventeen bytes go to the sequence number, the op and the two lengths. -/
theorem length_frameBody (seq : Nat) (op : WalOp) (key value : Bytes) :
    (frameBody seq op key value).length
      = 17 + key.length + value.length := by
  simp only [frameBody, List.length_append, length_leBytes,
    List.length_singleton]
  omega

/-- Four more go to the CRC. -/
theorem length_encodeFrame (seq : Nat) (op : WalOp) (key value : Bytes) :
    (encodeFrame seq op key value).length
      = 21 + key.length + value.length := by
  rw [encodeFrame, List.length_append, length_frameBody, length_leBytes]
  omega

/-- A frame is as long as its lengths say. -/
theorem WalRecord.length_frame (r : WalRecord) :
    r.frame.length = 21 + r.key.length + r.value.length :=
  length_encodeFrame _ _ _ _

/-- The CRC a record's frame ends in. -/
def WalRecord.crc (r : WalRecord) : Nat :=
  (Crc32.hash (frameBody r.seq r.op r.key r.value)).toNat

/-- A frame, field by field. -/
theorem WalRecord.frame_append (r : WalRecord) (rest : Bytes) :
    r.frame ++ rest
      = leBytes 8 r.seq ++ ([r.op.toU8] ++ (leBytes 4 r.key.length
          ++ (r.key ++ (leBytes 4 r.value.length ++ (r.value
            ++ (leBytes 4 r.crc ++ rest)))))) := by
  simp only [WalRecord.frame, encodeFrame, frameBody, WalRecord.crc,
    List.append_assoc]

section Fields

variable (r : WalRecord) (rest : Bytes)

/-- The sequence number, where `parse_frame` looks for it. -/
private theorem frame_slice_seq :
    slice (r.frame ++ rest) 0 8 = leBytes 8 r.seq := by
  rw [r.frame_append]
  exact slice_mid (a := []) rfl rfl (by simp)

private theorem frame_op : (r.frame ++ rest)[8]? = some r.op.toU8 := by
  rw [r.frame_append, List.getElem?_append_right (by simp)]
  simp

theorem frame_slice_klen :
    slice (r.frame ++ rest) 9 13 = leBytes 4 r.key.length := by
  rw [r.frame_append, ← List.append_assoc]
  exact slice_mid rfl (by simp) (by simp)

private theorem frame_slice_key :
    slice (r.frame ++ rest) 13 (13 + r.key.length) = r.key := by
  rw [r.frame_append, ← List.append_assoc, ← List.append_assoc]
  exact slice_mid rfl (by simp) (by simp)

theorem frame_slice_vlen :
    slice (r.frame ++ rest) (13 + r.key.length) (13 + r.key.length + 4)
      = leBytes 4 r.value.length := by
  rw [r.frame_append, ← List.append_assoc, ← List.append_assoc,
    ← List.append_assoc]
  exact slice_mid rfl (by simp; omega) (by simp; omega)

private theorem frame_slice_value :
    slice (r.frame ++ rest) (13 + r.key.length + 4)
        (13 + r.key.length + 4 + r.value.length)
      = r.value := by
  rw [r.frame_append, ← List.append_assoc, ← List.append_assoc,
    ← List.append_assoc, ← List.append_assoc]
  exact slice_mid rfl (by simp; omega) (by simp; omega)

/-- The CRC, found behind the value. -/
private theorem frame_slice_crc :
    slice (r.frame ++ rest) (13 + r.key.length + 4 + r.value.length)
        (13 + r.key.length + 4 + r.value.length + 4)
      = leBytes 4 r.crc := by
  rw [r.frame_append, ← List.append_assoc, ← List.append_assoc,
    ← List.append_assoc, ← List.append_assoc, ← List.append_assoc]
  exact slice_mid rfl (by simp; omega) (by simp; omega)

/-- What the CRC is taken over. -/
private theorem frame_take_body :
    (r.frame ++ rest).take (13 + r.key.length + 4 + r.value.length)
      = frameBody r.seq r.op r.key r.value := by
  have hlen := length_frameBody r.seq r.op r.key r.value
  rw [WalRecord.frame, encodeFrame, List.append_assoc,
    List.take_append_of_le_length (by omega), List.take_of_length_le (by omega)]

end Fields

/-- A frame at the front of the buffer parses back to its record, and the
parser stops where the frame does. -/
theorem parseFrame_frame {r : WalRecord} (h : r.Fits) (rest : Bytes) :
    parseFrame (r.frame ++ rest) = some (r, r.frame.length) := by
  have hlen := r.length_frame
  have hseq : ofLe (leBytes 8 r.seq) = r.seq := ofLe_leBytes_of_lt h.seq
  have hklen : ofLe (leBytes 4 r.key.length) = r.key.length :=
    ofLe_leBytes_of_lt h.key
  have hvlen : ofLe (leBytes 4 r.value.length) = r.value.length :=
    ofLe_leBytes_of_lt h.value
  have hcrc : ofLe (leBytes 4 r.crc) = r.crc :=
    ofLe_leBytes_of_lt (BitVec.isLt _)
  have htotal : (r.frame ++ rest).length = r.frame.length + rest.length :=
    List.length_append
  unfold parseFrame
  rw [if_neg (by rw [htotal, minFrameLen]; omega)]
  simp only [frame_op, Option.bind_some, WalOp.fromU8_toU8,
    frame_slice_seq, frame_slice_klen, hseq, hklen]
  rw [if_neg (by omega)]
  simp only [frame_slice_vlen, hvlen]
  rw [if_neg (by omega)]
  simp only [frame_slice_crc, frame_take_body, hcrc, frame_slice_key,
    frame_slice_value]
  have hend : 13 + r.key.length + 4 + r.value.length + 4 = r.frame.length := by
    omega
  rw [if_neg (by simp [WalRecord.crc]), hend]

/-- No strict prefix of a frame parses. -/
theorem parseFrame_torn {r : WalRecord} (h : r.Fits) {n : Nat}
    (hn : n < r.frame.length) : parseFrame (r.frame.take n) = none := by
  have hlen := r.length_frame
  have htake : (r.frame.take n).length = n := by
    rw [List.length_take, Nat.min_eq_left (Nat.le_of_lt hn)]
  have hklen : ofLe (leBytes 4 r.key.length) = r.key.length :=
    ofLe_leBytes_of_lt h.key
  have hvlen : ofLe (leBytes 4 r.value.length) = r.value.length :=
    ofLe_leBytes_of_lt h.value
  unfold parseFrame
  rw [htake]
  -- the parser reads the lengths as far as they are there, and some bound it
  -- checks is past the cut
  by_cases hmin : n < minFrameLen
  · rw [if_pos hmin]
  · rw [if_neg hmin]
    unfold minFrameLen at hmin
    have hop : (r.frame.take n)[8]? = some r.op.toU8 := by
      rw [List.getElem?_take_of_lt (by omega)]
      simpa using frame_op r []
    have hsk : slice (r.frame.take n) 9 13 = leBytes 4 r.key.length := by
      rw [slice_take (by omega)]
      simpa using frame_slice_klen r []
    simp only [hop, Option.bind_some, WalOp.fromU8_toU8, hsk, hklen]
    by_cases hkey : 13 + r.key.length + 4 > n
    · rw [if_pos hkey]
    · rw [if_neg hkey]
      have hsv : slice (r.frame.take n) (13 + r.key.length)
          (13 + r.key.length + 4) = leBytes 4 r.value.length := by
        rw [slice_take (by omega)]
        simpa using frame_slice_vlen r []
      simp only [hsv, hvlen]
      rw [if_pos (by omega)]

/-- Nothing parses as no frame. -/
theorem parseFrame_nil : parseFrame [] = none := rfl

-- ============================================================== the loop

/-- A parsed frame takes at least one byte. -/
theorem parseFrame_length_pos {buf : Bytes} {r : WalRecord} {len : Nat}
    (h : parseFrame buf = some (r, len)) : 0 < len ∧ len ≤ buf.length := by
  unfold parseFrame at h
  simp only at h
  split at h
  · cases h
  · split at h
    · cases h
    · split at h
      · cases h
      · split at h
        · cases h
        · next hend =>
            split at h
            · cases h
            · cases h
              omega

/-- Fuel beyond the buffer's length changes nothing. -/
theorem parseFramesLoop_fuel :
    ∀ (fuel : Nat) (body : Bytes), body.length ≤ fuel →
      parseFramesLoop fuel body = parseFrames body := by
  intro fuel
  -- strong induction on the fuel: the loop restarts on what is left
  induction fuel using Nat.strong_induction_on with
  | _ fuel ih =>
      intro body hlen
      unfold parseFrames
      cases fuel with
      | zero =>
          have hz : body.length = 0 := by omega
          rw [hz]
      | succ fuel =>
          cases hb : body.length with
          | zero =>
              have hnil : body = [] := List.eq_nil_of_length_eq_zero hb
              subst hnil
              rfl
          | succ m =>
              unfold parseFramesLoop
              cases hp : parseFrame body with
              | none => rfl
              | some rl =>
                  obtain ⟨r, len⟩ := rl
                  obtain ⟨hpos, -⟩ := parseFrame_length_pos hp
                  have hdrop : (body.drop len).length ≤ m := by
                    rw [List.length_drop]
                    omega
                  simp only
                  rw [ih fuel (by omega) _ (by omega),
                    ih m (by omega) _ hdrop]

/-- The loop, one frame at a time. -/
theorem parseFrames_cons {body : Bytes} {r : WalRecord} {len : Nat}
    (h : parseFrame body = some (r, len)) :
    parseFrames body
      = (r :: (parseFrames (body.drop len)).1,
          len + (parseFrames (body.drop len)).2) := by
  obtain ⟨hpos, hle⟩ := parseFrame_length_pos h
  obtain ⟨m, hm⟩ : ∃ m, body.length = m + 1 := ⟨body.length - 1, by omega⟩
  rw [parseFrames, hm, parseFramesLoop, h]
  simp only
  rw [parseFramesLoop_fuel m _ (by rw [List.length_drop]; omega)]

/-- Where no frame parses the scan stops, having read nothing. -/
theorem parseFrames_none {body : Bytes} (h : parseFrame body = none) :
    parseFrames body = ([], 0) := by
  unfold parseFrames
  cases body.length with
  | zero => rfl
  | succ m => rw [parseFramesLoop, h]

@[simp] theorem frames_nil : frames [] = [] := rfl

@[simp] theorem frames_cons (r : WalRecord) (rs : List WalRecord) :
    frames (r :: rs) = r.frame ++ frames rs := by
  simp [frames]

@[simp] theorem frames_append (rs rs' : List WalRecord) :
    frames (rs ++ rs') = frames rs ++ frames rs' := by
  simp [frames]

/-- The parser walks whole frames. -/
theorem parseFrames_frames_append {records : List WalRecord}
    (h : ∀ r ∈ records, r.Fits) (rest : Bytes) :
    parseFrames (frames records ++ rest)
      = (records ++ (parseFrames rest).1,
          (frames records).length + (parseFrames rest).2) := by
  induction records with
  | nil => simp
  | cons r rs ih =>
      have hp := parseFrame_frame (h r List.mem_cons_self) (frames rs ++ rest)
      rw [frames_cons, List.append_assoc, parseFrames_cons hp, List.drop_left,
        ih fun r' hr' => h r' (List.mem_cons_of_mem _ hr')]
      simp only [List.cons_append, List.length_append, Nat.add_assoc]

/-- Whole frames followed by something that is not one parse to exactly
their records. -/
theorem parseFrames_frames {records : List WalRecord}
    (h : ∀ r ∈ records, r.Fits) {torn : Bytes} (ht : parseFrame torn = none) :
    parseFrames (frames records ++ torn)
      = (records, (frames records).length) := by
  rw [parseFrames_frames_append h, parseFrames_none ht, List.append_nil,
    Nat.add_zero]

-- ============================================================= the header

@[simp] theorem length_encodeHeader (base : Nat) :
    (encodeHeader base).length = headerLen := by
  simp [encodeHeader, magic, headerLen]

/-- A header reads back, whatever follows it. -/
theorem parseHeader_encodeHeader {base : Nat} (h : base < 2 ^ 64)
    (rest : Bytes) : parseHeader (encodeHeader base ++ rest) = .ok base := by
  have hbuf : encodeHeader base ++ rest
      = magic ++ (leBytes 2 formatVersion ++ (leBytes 8 base ++ rest)) := by
    simp only [encodeHeader, List.append_assoc]
  have hmagic : slice (encodeHeader base ++ rest) 0 4 = magic :=
    slice_mid (a := []) (by rw [hbuf]; rfl) rfl rfl
  have hversion : slice (encodeHeader base ++ rest) 4 6
      = leBytes 2 formatVersion :=
    slice_mid hbuf rfl rfl
  have hbase : slice (encodeHeader base ++ rest) 6 14 = leBytes 8 base := by
    rw [hbuf, ← List.append_assoc]
    exact slice_mid rfl rfl rfl
  unfold parseHeader
  rw [if_neg (by simp), hmagic, if_neg (by simp), hversion,
    ofLe_leBytes_of_lt (by decide), if_neg (by simp), hbase,
    ofLe_leBytes_of_lt h]

/-- A file shorter than a header is refused. -/
theorem parseHeader_short {buf : Bytes} (h : buf.length < headerLen) :
    parseHeader buf = .error (.corrupt "wal header is truncated") := by
  unfold parseHeader
  rw [if_pos h]

-- ================================================================ effects

@[simp] theorem applyEffects_nil (file : Bytes) :
    applyEffects [] file = file := rfl

@[simp] theorem applyEffects_cons (e : FileEffect) (es : List FileEffect)
    (file : Bytes) :
    applyEffects (e :: es) file = applyEffects es (e.apply file) := rfl

@[simp] theorem applyEffects_append (es es' : List FileEffect)
    (file : Bytes) :
    applyEffects (es ++ es') file = applyEffects es' (applyEffects es file) :=
  List.foldl_append

/-- Writing bytes appends them. -/
@[simp] theorem applyEffects_write (bs file : Bytes) :
    applyEffects (bs.map .write) file = file ++ bs := by
  induction bs generalizing file with
  | nil => simp
  | cons b bs ih =>
      rw [List.map_cons, applyEffects_cons, ih, FileEffect.apply,
        List.append_assoc, List.singleton_append]

end FerrisKv
