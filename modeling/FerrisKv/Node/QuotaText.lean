/-
The record `QuotaStore::set_quota` stores, in serde_json's words.

The proofs ask one thing of the JSON form of a quota: what is written reads
back. Here is the form itself, for the runs on concrete data: the fields in
the order `Quota` declares them, without blanks.
-/
import FerrisKv.Core.Key
import FerrisKv.Node.Config

namespace FerrisKv

-- ================================================================== numbers

/-- The decimal digits of a number, in ASCII. -/
def decimal (n : Nat) : Bytes :=
  if n = 0 then [48]
  else (Nat.digits 10 n).reverse.map fun d => UInt8.ofNat (d + 48)

/-- An ASCII digit. -/
def isDigit (b : UInt8) : Bool := 48 ≤ b && b ≤ 57

/-- The number a run of digits stands for. -/
def ofDecimal (digits : Bytes) : Nat :=
  digits.foldl (fun n d => 10 * n + (d.toNat - 48)) 0

/-- The number a text starts with, and what follows it. -/
def readNumber (b : Bytes) : Nat × Bytes :=
  (ofDecimal (b.takeWhile isDigit), b.dropWhile isDigit)

private theorem isDigit_decimal {n : Nat} {b : UInt8} (h : b ∈ decimal n) :
    isDigit b = true := by
  unfold decimal at h
  split at h
  · cases List.mem_singleton.mp h
    rfl
  · obtain ⟨d, hd, rfl⟩ := List.mem_map.mp h
    have hlt : d < 10 := Nat.digits_lt_base (by decide) (List.mem_reverse.mp hd)
    interval_cases d <;> rfl

private theorem ofDecimal_decimal (n : Nat) : ofDecimal (decimal n) = n := by
  unfold decimal
  split
  · next h =>
      rw [h]
      rfl
  · have hdigit : ∀ d ∈ Nat.digits 10 n,
        (UInt8.ofNat (d + 48)).toNat - 48 = d := by
      intro d hd
      have hlt : d < 10 := Nat.digits_lt_base (by decide) hd
      interval_cases d <;> rfl
    rw [ofDecimal, List.foldl_map, List.foldl_reverse]
    conv_rhs => rw [← Nat.ofDigits_digits 10 n, Nat.ofDigits_eq_foldr]
    refine List.foldr_ext _ _ _ fun d hd m => ?_
    simp only [hdigit d hd, Nat.cast_id]
    omega

/-- A number ends where its digits do. -/
private theorem readNumber_append (n : Nat) {c : UInt8} (hc : isDigit c = false)
    (rest : Bytes) : readNumber (decimal n ++ c :: rest) = (n, c :: rest) := by
  have hdigits : ∀ b ∈ decimal n, isDigit b = true := fun _ => isDigit_decimal
  rw [readNumber, List.takeWhile_append_of_pos hdigits,
    List.dropWhile_append_of_pos hdigits,
    List.takeWhile_cons_of_neg (by simp [hc]),
    List.dropWhile_cons_of_neg (by simp [hc]), List.append_nil,
    ofDecimal_decimal]

-- =================================================================== quotas

/-- What `serde_json::to_vec` makes of a quota. -/
def quotaText (q : Quota) : Bytes :=
  asBytes "\x7b\"max_bytes\":" ++ (decimal q.maxBytes
    ++ (asBytes ",\"max_ops_per_sec\":" ++ (decimal q.maxOpsPerSec
      ++ asBytes "\x7d")))

/-- What `serde_json::from_slice` makes of a text that `quotaText` wrote. The
other texts it reads, with blanks or the fields in another order, are left
out. -/
def readQuotaText (text : Bytes) : Option Quota := do
  let b ← text.dropPrefix? (asBytes "\x7b\"max_bytes\":")
  let (maxBytes, b) := readNumber b
  let b ← b.dropPrefix? (asBytes ",\"max_ops_per_sec\":")
  let quota : Quota := ⟨maxBytes, (readNumber b).1⟩
  if quotaText quota = text then some quota else none

theorem readQuotaText_quotaText (q : Quota) :
    readQuotaText (quotaText q) = some q := by
  -- Neither the comma nor the closing brace is a digit, so each number ends
  -- where it should.
  have hcomma : asBytes ",\"max_ops_per_sec\":"
      = 44 :: asBytes "\"max_ops_per_sec\":" := by decide +kernel
  have hclose : asBytes "\x7d" = [125] := by decide +kernel
  have hops : readNumber (decimal q.maxOpsPerSec ++ asBytes "\x7d")
      = (q.maxOpsPerSec, asBytes "\x7d") := by
    rw [hclose]
    exact readNumber_append _ (by decide) _
  have hbytes (rest : Bytes) : readNumber (decimal q.maxBytes
      ++ (asBytes ",\"max_ops_per_sec\":" ++ rest))
      = (q.maxBytes, asBytes ",\"max_ops_per_sec\":" ++ rest) := by
    rw [hcomma]
    exact readNumber_append _ (by decide) _
  simp only [readQuotaText, quotaText, List.dropPrefix?_append_of_beq _ BEq.rfl,
    Option.bind_eq_bind, Option.bind_some, hbytes, hops, if_true]

example : quotaText ⟨7, 120⟩
    = asBytes "\x7b\"max_bytes\":7,\"max_ops_per_sec\":120\x7d" := by
  decide +kernel

/-- Third-party code that keeps a quota as serde_json does. -/
def Externals.json : Externals :=
  { Externals.plain with
    quotaToVec := quotaText
    quotaFromSlice := readQuotaText }

theorem json_round_trip (q : Quota) :
    Externals.json.quotaFromSlice (Externals.json.quotaToVec q) = some q :=
  readQuotaText_quotaText q

end FerrisKv
