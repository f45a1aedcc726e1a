/-
The key codec (`ferriskv-core/src/key.rs`): `tenant_len | tenant |
subspace | payload`.

`decode` accepts exactly what `encode` produces and gives back what went
in (`decode_encode`, `encode_decode`), so an encoded key and the triple it
stands for are interchangeable, and two keys of different tenants or
subspaces are different keys.
-/
import FerrisKv.Core.Error

namespace FerrisKv

-- ================================================================ strings

/-- `str::as_bytes`. -/
def asBytes (s : String) : Bytes := s.toByteArray.data.toList

/-- `std::str::from_utf8`. -/
def fromUtf8 (b : Bytes) : Option String := String.fromUTF8? ⟨b.toArray⟩

theorem fromUtf8_asBytes (s : String) : fromUtf8 (asBytes s) = some s := by
  have harr : (⟨(asBytes s).toArray⟩ : ByteArray) = s.toByteArray := rfl
  rw [fromUtf8, harr, String.fromUTF8?, dif_pos s.isValidUTF8]
  rfl

theorem asBytes_of_fromUtf8 {b : Bytes} {s : String}
    (h : fromUtf8 b = some s) : asBytes s = b := by
  unfold fromUtf8 String.fromUTF8? at h
  split at h
  · rw [Option.some.injEq] at h
    rw [← h]
    rfl
  · cases h

theorem asBytes_inj {s t : String} (h : asBytes s = asBytes t) : s = t := by
  have hs := fromUtf8_asBytes s
  rw [h, fromUtf8_asBytes] at hs
  exact (Option.some.inj hs).symm

-- ============================================================== subspaces

/-- `Subspace`. -/
inductive Subspace where
  | metadata
  | data
  | index
  | stats
  deriving DecidableEq, Repr

/-- The discriminant `subspace as u8`. -/
def Subspace.toU8 : Subspace → UInt8
  | .metadata => 0
  | .data => 1
  | .index => 2
  | .stats => 3

/-- `Subspace::from_u8`. -/
def Subspace.fromU8 (b : UInt8) : Option Subspace :=
  if b = 0 then some .metadata
  else if b = 1 then some .data
  else if b = 2 then some .index
  else if b = 3 then some .stats
  else none

@[simp] theorem Subspace.fromU8_toU8 (s : Subspace) :
    Subspace.fromU8 s.toU8 = some s := by
  cases s <;> rfl

theorem Subspace.toU8_of_fromU8 {b : UInt8} {s : Subspace}
    (h : Subspace.fromU8 b = some s) : s.toU8 = b := by
  unfold Subspace.fromU8 at h
  split at h
  · next hb => cases h; exact hb.symm
  · split at h
    · next hb => cases h; exact hb.symm
    · split at h
      · next hb => cases h; exact hb.symm
      · split at h
        · next hb => cases h; exact hb.symm
        · cases h

-- ============================================================== the codec

/-- `MAX_TENANT_LEN`. -/
def maxTenantLen : Nat := 255

namespace KeyCodec

/-- `KeyCodec::write_tenant`. -/
def writeTenant (tenant : String) : Bytes :=
  UInt8.ofNat (asBytes tenant).length :: asBytes tenant

/-- The guard `encode` and `encode_tenant_prefix` share. -/
def checkTenant (tenant : String) : Result Unit :=
  let len := (asBytes tenant).length
  if len = 0 then .error (.config "empty tenant")
  else if len > maxTenantLen then
    .error (.config s!"tenant length {len} exceeds {maxTenantLen}")
  else .ok ()

/-- `KeyCodec::encode`. -/
def encode (tenant : String) (subspace : Subspace) (payload : Bytes) :
    Result Bytes := do
  checkTenant tenant
  return writeTenant tenant ++ [subspace.toU8] ++ payload

/-- `KeyCodec::encode_subspace_prefix`. -/
def encodeSubspacePrefix (tenant : String) (subspace : Subspace) :
    Result Bytes := encode tenant subspace []

/-- `KeyCodec::encode_tenant_prefix`. -/
def encodeTenantPrefix (tenant : String) : Result Bytes := do
  checkTenant tenant
  return writeTenant tenant

/-- `KeyCodec::decode`. -/
def decode (key : Bytes) : Result (String × Subspace × Bytes) :=
  match key with
  | [] => .error (.corrupt "empty key")
  | b :: rest =>
      let tlen := b.toNat
      if tlen = 0 then .error (.corrupt "empty tenant")
      else if 1 + tlen + 1 > key.length then .error (.corrupt "truncated key")
      else
        match fromUtf8 (rest.take tlen) with
        | none => .error (.corrupt "tenant utf8")
        | some tenant =>
            match rest.drop tlen with
            | [] => .error (.corrupt "subspace byte")
            | s :: payload =>
                match Subspace.fromU8 s with
                | none => .error (.corrupt "subspace byte")
                | some sub => .ok (tenant, sub, payload)

/-- A tenant name the codec takes. -/
def ValidTenant (tenant : String) : Prop :=
  0 < (asBytes tenant).length ∧ (asBytes tenant).length ≤ maxTenantLen

instance (tenant : String) : Decidable (ValidTenant tenant) :=
  inferInstanceAs (Decidable (_ ∧ _))

theorem checkTenant_eq_ok {t : String} :
    checkTenant t = .ok () ↔ ValidTenant t := by
  unfold checkTenant ValidTenant
  simp only
  split
  · next h => simp [h]
  · next h =>
      split
      · next h' =>
          simp only [reduceCtorEq, false_iff, not_and, not_le]
          exact fun _ => h'
      · next h' => simp; omega

/-- The bytes of an encoded key. -/
def bytesOf (t : String) (s : Subspace) (p : Bytes) : Bytes :=
  writeTenant t ++ [s.toU8] ++ p

theorem encode_of_valid {t : String} (h : ValidTenant t) (s : Subspace)
    (p : Bytes) : encode t s p = .ok (bytesOf t s p) := by
  unfold encode
  rw [checkTenant_eq_ok.mpr h]
  rfl

theorem encode_eq_ok {t : String} {s : Subspace} {p k : Bytes} :
    encode t s p = .ok k ↔ ValidTenant t ∧ k = bytesOf t s p := by
  constructor
  · intro h
    cases hc : checkTenant t with
    | error e =>
        rw [encode, hc] at h
        cases h
    | ok u =>
        have hv := checkTenant_eq_ok.mp hc
        rw [encode_of_valid hv] at h
        exact ⟨hv, (Except.ok.inj h).symm⟩
  · rintro ⟨hv, rfl⟩
    exact encode_of_valid hv s p

/-- `decode` undoes `encode`. -/
theorem decode_bytesOf {t : String} (h : ValidTenant t) (s : Subspace)
    (p : Bytes) : decode (bytesOf t s p) = .ok (t, s, p) := by
  obtain ⟨hpos, hle⟩ := h
  have hlen : (UInt8.ofNat (asBytes t).length).toNat = (asBytes t).length := by
    rw [UInt8.toNat_ofNat', Nat.mod_eq_of_lt]
    exact Nat.lt_of_le_of_lt hle (by decide)
  have hshape : bytesOf t s p
      = UInt8.ofNat (asBytes t).length :: (asBytes t ++ s.toU8 :: p) := by
    simp [bytesOf, writeTenant]
  rw [hshape, decode]
  simp only [hlen]
  rw [if_neg (by omega), if_neg (by simp; omega),
    List.take_left, fromUtf8_asBytes, List.drop_left]
  simp only [Subspace.fromU8_toU8]

theorem decode_encode {t : String} {s : Subspace} {p k : Bytes}
    (h : encode t s p = .ok k) : decode k = .ok (t, s, p) := by
  obtain ⟨hv, rfl⟩ := encode_eq_ok.mp h
  exact decode_bytesOf hv s p

/-- What `decode` accepts is an encoded key, byte for byte. -/
theorem decode_eq_ok {k : Bytes} {t : String} {s : Subspace} {p : Bytes} :
    decode k = .ok (t, s, p) ↔ ValidTenant t ∧ k = bytesOf t s p := by
  constructor
  · intro h
    cases k with
    | nil => cases h
    | cons b rest =>
        unfold decode at h
        simp only at h
        split at h
        · cases h
        · next hb =>
            split at h
            · cases h
            · next hlen =>
                split at h
                · cases h
                · next tenant hutf =>
                    split at h
                    · cases h
                    · next sb payload hdrop =>
                        split at h
                        · cases h
                        · next sub hsub =>
                            cases h
                            have hbytes := asBytes_of_fromUtf8 hutf
                            have hsplit := List.take_append_drop b.toNat rest
                            rw [hdrop, ← hbytes,
                              ← Subspace.toU8_of_fromU8 hsub] at hsplit
                            have hlt : b.toNat < 256 := b.toNat_lt
                            have hrest : (asBytes t).length = b.toNat := by
                              rw [hbytes, List.length_take]
                              simp only [List.length_cons] at hlen
                              omega
                            refine ⟨⟨by omega, ?_⟩, ?_⟩
                            · rw [hrest]
                              exact Nat.le_of_lt_succ hlt
                            · rw [bytesOf, writeTenant, hrest, ← hsplit]
                              simp
  · rintro ⟨hv, rfl⟩
    exact decode_bytesOf hv s p

theorem encode_decode {k : Bytes} {t : String} {s : Subspace} {p : Bytes}
    (h : decode k = .ok (t, s, p)) : encode t s p = .ok k :=
  encode_eq_ok.mpr (decode_eq_ok.mp h)

/-- The tenant, subspace and payload of an encoded key are its own. -/
theorem bytesOf_inj {t t' : String} {s s' : Subspace} {p p' : Bytes}
    (h : ValidTenant t) (h' : ValidTenant t')
    (he : bytesOf t s p = bytesOf t' s' p') : t = t' ∧ s = s' ∧ p = p' := by
  have hd := decode_bytesOf h s p
  rw [he, decode_bytesOf h'] at hd
  simp only [Except.ok.injEq, Prod.mk.injEq] at hd
  exact ⟨hd.1.symm, hd.2.1.symm, hd.2.2.symm⟩

end KeyCodec

end FerrisKv
