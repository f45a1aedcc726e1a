/-
The stored-value codec (`ferriskv-core/src/value.rs`): one version byte,
an 8-byte big-endian expiry under version 1, then the caller's value.

The source parses the format three times — `decode`, `payload_len` and
`is_expired` — so that the hot paths need not build a `StoredValue`. The
three are kept apart here as they are there; `payloadLen_eq` and
`isExpired_eq` say that the two short ones agree with `decode`.
-/
import FerrisKv.Core.Error
import FerrisKv.Lib.LittleEndian

namespace FerrisKv

open LittleEndian

/-- `StoredValue`. -/
structure StoredValue where
  expiresAtMs : Option Nat
  value : Bytes
  deriving DecidableEq, Repr

/-- An expiry stamp at or before `now`. -/
def StoredValue.expiredAt (sv : StoredValue) (nowMs : Nat) : Bool :=
  match sv.expiresAtMs with
  | none => false
  | some exp => decide (exp ≤ nowMs)

namespace ValueCodec

/-- `VERSION_NO_TTL`. -/
def versionNoTtl : UInt8 := 0

/-- `VERSION_WITH_TTL`. -/
def versionWithTtl : UInt8 := 1

/-- `ValueCodec::encode`. -/
def encode (value : Bytes) (expiresAtMs : Option Nat) : Bytes :=
  match expiresAtMs with
  | none => versionNoTtl :: value
  | some exp => versionWithTtl :: (beBytes 8 exp ++ value)

/-- `ValueCodec::decode`. -/
def decode (raw : Bytes) : Result StoredValue :=
  match raw with
  | [] => .error (.corrupt "empty value")
  | v :: rest =>
      if v = versionNoTtl then .ok ⟨none, rest⟩
      else if v = versionWithTtl then
        if raw.length < 9 then .error (.corrupt "ttl value too short")
        else .ok ⟨some (ofBe (rest.take 8)), rest.drop 8⟩
      else .error (.corrupt "unknown value version")

/-- `ValueCodec::payload_len`. -/
def payloadLen (raw : Bytes) : Result Nat :=
  match raw with
  | [] => .error (.corrupt "empty value")
  | v :: _ =>
      if v = versionNoTtl then .ok (raw.length - 1)
      else if v = versionWithTtl then
        if raw.length < 9 then .error (.corrupt "ttl value too short")
        else .ok (raw.length - 9)
      else .error (.corrupt "unknown value version")

/-- `ValueCodec::is_expired`. -/
def isExpired (raw : Bytes) (nowMs : Nat) : Result Bool :=
  match raw with
  | [] => .error (.corrupt "empty value")
  | v :: rest =>
      if v = versionNoTtl then .ok false
      else if v = versionWithTtl then
        if raw.length < 9 then .error (.corrupt "ttl value too short")
        else .ok (decide (ofBe (rest.take 8) ≤ nowMs))
      else .error (.corrupt "unknown value version")

-- ==================================================== the three parsers

/-- `payload_len` is the length of what `decode` would return. -/
theorem payloadLen_eq (raw : Bytes) :
    payloadLen raw = (decode raw).map fun sv => sv.value.length := by
  cases raw with
  | nil => rfl
  | cons v rest =>
      unfold payloadLen decode
      simp only
      by_cases h0 : v = versionNoTtl
      · simp [h0, Except.map]
      · rw [if_neg h0, if_neg h0]
        by_cases h1 : v = versionWithTtl
        · rw [if_pos h1, if_pos h1]
          by_cases hl : (v :: rest).length < 9
          · rw [if_pos hl, if_pos hl]
            rfl
          · rw [if_neg hl, if_neg hl]
            simp [Except.map]
        · rw [if_neg h1, if_neg h1]
          rfl

/-- `is_expired` reads the stamp `decode` would return. -/
theorem isExpired_eq (raw : Bytes) (nowMs : Nat) :
    isExpired raw nowMs = (decode raw).map fun sv => sv.expiredAt nowMs := by
  cases raw with
  | nil => rfl
  | cons v rest =>
      unfold isExpired decode
      simp only
      by_cases h0 : v = versionNoTtl
      · simp [h0, Except.map, StoredValue.expiredAt]
      · rw [if_neg h0, if_neg h0]
        by_cases h1 : v = versionWithTtl
        · rw [if_pos h1, if_pos h1]
          by_cases hl : (v :: rest).length < 9
          · rw [if_pos hl, if_pos hl]
            rfl
          · rw [if_neg hl, if_neg hl]
            rfl
        · rw [if_neg h1, if_neg h1]
          rfl

-- =========================================================== round trips

/-- `decode` undoes `encode`, for any stamp that fits a `u64`. -/
theorem decode_encode (value : Bytes) {exp : Option Nat}
    (h : ∀ e ∈ exp, e < 2 ^ 64) :
    decode (encode value exp) = .ok ⟨exp, value⟩ := by
  cases exp with
  | none => rfl
  | some e =>
      have he : e < 256 ^ 8 := h e rfl
      have htake : (beBytes 8 e ++ value).take 8 = beBytes 8 e := by
        rw [List.take_append_of_le_length (by simp), List.take_of_length_le]
        simp
      have hdrop : (beBytes 8 e ++ value).drop 8 = value := by
        rw [List.drop_append_of_le_length (by simp), List.drop_of_length_le]
        · simp
        · simp
      unfold encode decode
      simp only
      rw [if_neg (by decide), if_pos trivial, if_neg (by simp), htake, hdrop,
        ofBe_beBytes_of_lt he]

theorem payloadLen_encode (value : Bytes) {exp : Option Nat}
    (h : ∀ e ∈ exp, e < 2 ^ 64) :
    payloadLen (encode value exp) = .ok value.length := by
  rw [payloadLen_eq, decode_encode value h]
  rfl

theorem encode_length_lt {value : Bytes} (h : value.length + 9 < 2 ^ 32)
    (exp : Option Nat) : (encode value exp).length < 2 ^ 32 := by
  unfold encode
  cases exp with
  | none =>
      rw [List.length_cons]
      omega
  | some e =>
      rw [List.length_cons, List.length_append, length_beBytes]
      omega

theorem isExpired_encode (value : Bytes) {exp : Option Nat} (nowMs : Nat)
    (h : ∀ e ∈ exp, e < 2 ^ 64) :
    isExpired (encode value exp) nowMs
      = .ok (StoredValue.expiredAt ⟨exp, value⟩ nowMs) := by
  rw [isExpired_eq, decode_encode value h]
  rfl

/-- What `decode` accepts is an encoded value, byte for byte. -/
theorem encode_decode {raw : Bytes} {sv : StoredValue}
    (h : decode raw = .ok sv) : encode sv.value sv.expiresAtMs = raw := by
  cases raw with
  | nil => cases h
  | cons v rest =>
      unfold decode at h
      simp only at h
      split at h
      · next hv =>
          cases h
          rw [hv]
          rfl
      · split at h
        · next hv =>
            split at h
            · cases h
            · next hlen =>
                cases h
                rw [List.length_cons] at hlen
                have hstamp : (rest.take 8).length = 8 := by
                  rw [List.length_take]
                  omega
                have hbytes := beBytes_ofBe (rest.take 8)
                rw [hstamp] at hbytes
                rw [encode, hbytes, List.take_append_drop, hv]
        · cases h

-- ============================================================== the format

/-- The three parsers accept the same byte strings and agree on what they
say of them, and `decode` and `encode` are inverse to each other. -/
theorem parsers_agree (raw : Bytes) (nowMs : Nat) (value : Bytes)
    (exp : Option UInt64) :
    (∀ sv, decode raw = .ok sv →
        payloadLen raw = .ok sv.value.length
          ∧ isExpired raw nowMs
            = .ok (sv.expiresAtMs.any fun e => decide (e ≤ nowMs))
          ∧ encode sv.value sv.expiresAtMs = raw)
      ∧ (∀ e, decode raw = .error e →
        (∃ e', payloadLen raw = .error e')
          ∧ ∃ e', isExpired raw nowMs = .error e')
      ∧ decode (encode value (exp.map UInt64.toNat))
        = .ok ⟨exp.map UInt64.toNat, value⟩ := by
  rw [payloadLen_eq, isExpired_eq]
  refine ⟨fun sv h => ?_, fun e h => ?_, ?_⟩
  · have hexp : sv.expiredAt nowMs
        = sv.expiresAtMs.any fun e => decide (e ≤ nowMs) := by
      unfold StoredValue.expiredAt
      cases sv.expiresAtMs <;> rfl
    rw [h, ← hexp]
    exact ⟨rfl, rfl, encode_decode h⟩
  · rw [h]
    exact ⟨⟨e, rfl⟩, ⟨e, rfl⟩⟩
  · refine decode_encode value fun e he => ?_
    obtain ⟨stamp, -, rfl⟩ := Option.mem_map.mp he
    exact stamp.toNat_lt

/-- A stamped value and a byte string no parser takes. -/
theorem parsers_agree_stamped :
    payloadLen (encode [5] (some 7)) = .ok 1
      ∧ isExpired (encode [5] (some 7)) 7 = .ok true
      ∧ ∃ e, isExpired [1, 0] 7 = .error e :=
  ⟨((parsers_agree (encode [5] (some 7)) 7 [5] (some 7)).1 ⟨some 7, [5]⟩
      (by decide)).1,
    ((parsers_agree (encode [5] (some 7)) 7 [5] (some 7)).1 ⟨some 7, [5]⟩
      (by decide)).2.1,
    ((parsers_agree [1, 0] 7 [5] none).2.1
      (.corrupt "ttl value too short") (by decide)).2⟩

end ValueCodec

end FerrisKv
