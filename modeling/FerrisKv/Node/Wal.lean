/-
The write-ahead log (`ferriskv-node/src/wal.rs`), byte for byte.

```text
header  MAGIC(4) | format_version(u16 LE) | base_seq(u64 LE)
frame   seq(u64 LE) | op(u8) | klen(u32 LE) | key | vlen(u32 LE) | value | crc32(u32 LE)
```

# The file and its effects

A segment is the byte string at the log's path. Every call that changes
it does so through a list of `FileEffect`s, one per byte written, in the
order the source issues them: a process that dies inside the call leaves
the file after some number of them (`applyEffects (effects.take n)`), a
call that fails does the same and reports it. `sync_data` changes no byte
a process crash could lose.

# The buffered writer

`append` goes through a `BufWriter`. It flushes before it returns, so
between successful calls the buffer is empty; `buffered` is what a failed
flush left behind, which std writes first at the next flush.
-/
import FerrisKv.Core.Error
import FerrisKv.Core.Storage
import FerrisKv.Lib.LittleEndian
import FerrisKv.Lib.Crc32

namespace FerrisKv

open LittleEndian

-- ============================================================== constants

/-- `MAGIC`: the bytes of `FKVW`. -/
def magic : Bytes := [0x46, 0x4B, 0x56, 0x57]

/-- `FORMAT_VERSION`. -/
def formatVersion : Nat := 1

/-- `HEADER_LEN`: magic, version and base sequence. -/
def headerLen : Nat := 4 + 2 + 8

/-- `MIN_FRAME_LEN`: seq, op, klen, vlen and crc. -/
def minFrameLen : Nat := 8 + 1 + 4 + 4 + 4

/-- The capacity `BufWriter::new` gives its buffer. -/
def bufCapacity : Nat := 8192

/-- `&buf[i..j]`. -/
def slice (buf : Bytes) (i j : Nat) : Bytes := (buf.drop i).take (j - i)

-- ================================================================ records

/-- `WalOp`. -/
inductive WalOp where
  | put
  | delete
  deriving DecidableEq, Repr

/-- The discriminant `op as u8`. -/
def WalOp.toU8 : WalOp → UInt8
  | .put => 1
  | .delete => 2

/-- `WalOp::from_u8`. -/
def WalOp.fromU8 (b : UInt8) : Option WalOp :=
  if b = 1 then some .put else if b = 2 then some .delete else none

/-- `WalRecord`. -/
structure WalRecord where
  seq : Nat
  op : WalOp
  key : Bytes
  value : Bytes
  deriving DecidableEq, Repr

/-- `Recovery`: what opening a segment found. -/
structure Recovery where
  records : List WalRecord
  truncatedBytes : Nat
  nextSeq : Nat
  segmentBytes : Nat
  deriving DecidableEq, Repr

-- ================================================================ parsing

/-- `parse_frame`. The `checked_add`s of the source cannot overflow: both
lengths are `u32` values in a 64-bit `usize`. -/
def parseFrame (buf : Bytes) : Option (WalRecord × Nat) :=
  if buf.length < minFrameLen then none
  else
    let seq := ofLe (slice buf 0 8)
    match buf[8]?.bind WalOp.fromU8 with
    | none => none
    | some op =>
        let klen := ofLe (slice buf 9 13)
        let keyEnd := 13 + klen
        let vlenEnd := keyEnd + 4
        if vlenEnd > buf.length then none
        else
          let vlen := ofLe (slice buf keyEnd vlenEnd)
          let valueEnd := vlenEnd + vlen
          let frameEnd := valueEnd + 4
          if frameEnd > buf.length then none
          else if (Crc32.hash (buf.take valueEnd)).toNat
              ≠ ofLe (slice buf valueEnd frameEnd) then none
          else some (⟨seq, op, slice buf 13 keyEnd,
            slice buf vlenEnd valueEnd⟩, frameEnd)

/-- The `while let` loop of `parse_frames`, bounded by the bytes left: a
frame is never empty. -/
def parseFramesLoop : Nat → Bytes → List WalRecord × Nat
  | 0, _ => ([], 0)
  | fuel + 1, body =>
      match parseFrame body with
      | none => ([], 0)
      | some (record, len) =>
          let (records, pos) := parseFramesLoop fuel (body.drop len)
          (record :: records, len + pos)

/-- `parse_frames`. -/
def parseFrames (body : Bytes) : List WalRecord × Nat :=
  parseFramesLoop body.length body

/-- `encode_header`. -/
def encodeHeader (baseSeq : Nat) : Bytes :=
  magic ++ leBytes 2 formatVersion ++ leBytes 8 baseSeq

/-- `parse_header`. -/
def parseHeader (buf : Bytes) : Result Nat :=
  if buf.length < headerLen then
    .error (.corrupt "wal header is truncated")
  else if slice buf 0 4 ≠ magic then
    .error (.corrupt "file is not a ferriskv wal segment")
  else if ofLe (slice buf 4 6) ≠ formatVersion then
    .error (.corrupt "unsupported wal format version")
  else .ok (ofLe (slice buf 6 14))

/-- The part of a frame its CRC covers. -/
def frameBody (seq : Nat) (op : WalOp) (key value : Bytes) : Bytes :=
  leBytes 8 seq ++ [op.toU8] ++ leBytes 4 key.length ++ key
    ++ leBytes 4 value.length ++ value

/-- The frame `append` assembles. -/
def encodeFrame (seq : Nat) (op : WalOp) (key value : Bytes) : Bytes :=
  frameBody seq op key value
    ++ leBytes 4 (Crc32.hash (frameBody seq op key value)).toNat

/-- A record's own frame. -/
def WalRecord.frame (r : WalRecord) : Bytes :=
  encodeFrame r.seq r.op r.key r.value

/-- The frames of a list of records. -/
def frames (records : List WalRecord) : Bytes :=
  (records.map WalRecord.frame).flatten

-- =========================================================== file effects

/-- One change of the segment file that a crash can fall before or
after. -/
inductive FileEffect where
  | write (b : UInt8)
  | setLen (n : Nat)
  | sync
  deriving DecidableEq, Repr

/-- What an effect does to the file. -/
def FileEffect.apply (file : Bytes) : FileEffect → Bytes
  | .write b => file ++ [b]
  | .setLen n => file.take n
  | .sync => file

/-- What a list of effects does to the file. -/
def applyEffects (effects : List FileEffect) (file : Bytes) : Bytes :=
  effects.foldl FileEffect.apply file

-- ================================================================ the log

/-- An open `Wal`: the segment file and the fields of `WalInner`. -/
structure Wal where
  file : Bytes
  buffered : Bytes
  nextSeq : Nat
  segmentBytes : Nat
  deriving DecidableEq, Repr

namespace Wal

/-- The body of `Wal::open`: what the file holds, and how it is mended. -/
def recover (file : Bytes) : Result (Recovery × List FileEffect) :=
  if file.length = 0 then
    .ok (⟨[], 0, 0, headerLen⟩, (encodeHeader 0).map .write ++ [.sync])
  else
    match parseHeader file with
    | .error e => .error e
    | .ok baseSeq =>
        let (records, consumed) := parseFrames (file.drop headerLen)
        let validLen := headerLen + consumed
        let truncatedBytes := file.length - validLen
        let nextSeq := max
          ((records.getLast?.map fun r => saturatingAdd r.seq 1).getD baseSeq)
          baseSeq
        .ok (⟨records, truncatedBytes, nextSeq, validLen⟩,
          if truncatedBytes > 0 then [.setLen validLen, .sync] else [])

/-- `Wal::open`. -/
def «open» (file : Bytes) : Result (Wal × Recovery) :=
  match recover file with
  | .error e => .error e
  | .ok (recovery, effects) =>
      .ok (⟨applyEffects effects file, [], recovery.nextSeq,
        recovery.segmentBytes⟩, recovery)

/-- What a `BufWriter` holding `buffered` still holds when writing `frame`
fails after `n` bytes reached the file. A frame of the buffer's capacity
or more bypasses the buffer; one that does not fit beside the old bytes
waits until these are flushed. -/
def leftover (buffered frame : Bytes) (n : Nat) : Bytes :=
  if frame.length ≥ bufCapacity then buffered.drop n
  else if frame.length ≤ bufCapacity - buffered.length then
    (buffered ++ frame).drop n
  else if n < buffered.length then buffered.drop n
  else frame.drop (n - buffered.length)

/-- `Wal::append`. A fault that strikes after the last byte is no fault:
flushing a `File` cannot fail by itself. -/
def append (fault : Option Fault) (w : Wal) (op : WalOp)
    (key value : Bytes) : Result Nat × Wal :=
  let seq := w.nextSeq
  let frame := encodeFrame seq op key value
  let done : Wal :=
    { file := w.file ++ (w.buffered ++ frame)
      buffered := []
      nextSeq := saturatingAdd seq 1
      segmentBytes := saturatingAdd w.segmentBytes frame.length }
  match fault with
  | none => (.ok seq, done)
  | some f =>
      if f.after < (w.buffered ++ frame).length then
        (.error (.io f.text),
          { w with
            file := w.file ++ (w.buffered ++ frame).take f.after
            buffered := leftover w.buffered frame f.after })
      else (.ok seq, done)

/-- The file effects of `Wal::append`. -/
def appendEffects (w : Wal) (op : WalOp) (key value : Bytes) :
    List FileEffect :=
  (w.buffered ++ encodeFrame w.nextSeq op key value).map .write

/-- The file effects of `Wal::rotate`: flush, truncating open, header,
sync. -/
def rotateEffects (w : Wal) : List FileEffect :=
  w.buffered.map .write ++ [.setLen 0]
    ++ (encodeHeader w.nextSeq).map .write ++ [.sync]

/-- `Wal::rotate`. Past the last file effect only reopening the file for
append can fail, and a failure anywhere leaves `next_seq`,
`segment_bytes` and the old writer in place. -/
def rotate (fault : Option Fault) (w : Wal) : Result Unit × Wal :=
  match fault with
  | none =>
      (.ok (),
        { w with
          file := applyEffects w.rotateEffects w.file
          buffered := []
          segmentBytes := headerLen })
  | some f =>
      (.error (.io f.text),
        { w with
          file := applyEffects (w.rotateEffects.take f.after) w.file
          buffered := w.buffered.drop f.after })

/-- The records the segment file holds. -/
def records (w : Wal) : List WalRecord :=
  (parseFrames (w.file.drop headerLen)).1

end Wal

-- ============================================================= primitives

/-- The log calls a program can make, each one atomic step. -/
inductive WalPrim where
  | «open»
  | append (op : WalOp) (key value : Bytes)
  | rotate
  | segmentBytes
  deriving DecidableEq, Repr

/-- What a log call answers. -/
@[reducible] def WalPrim.Resp : WalPrim → Type
  | .open => Result Recovery
  | .append _ _ _ => Result Nat
  | .rotate => Result Unit
  | .segmentBytes => Nat

/-- Perform a log call. -/
def WalPrim.exec (fault : Option Fault) : (p : WalPrim) → Wal → p.Resp × Wal
  | .open, w =>
      match fault with
      | some f => (.error (.io f.text), w)
      | none =>
          match Wal.open w.file with
          | .error e => (.error e, w)
          | .ok (w', recovery) => (.ok recovery, w')
  | .append op key value, w => w.append fault op key value
  | .rotate, w => w.rotate fault
  | .segmentBytes, w => (w.segmentBytes, w)

/-- The file effects of a log call, for a process that dies inside it. -/
def WalPrim.effects : WalPrim → Wal → List FileEffect
  | .open, w =>
      match Wal.recover w.file with
      | .error _ => []
      | .ok (_, effects) => effects
  | .append op key value, w => w.appendEffects op key value
  | .rotate, w => w.rotateEffects
  | .segmentBytes, _ => []

end FerrisKv
