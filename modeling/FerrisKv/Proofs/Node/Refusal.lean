/-
What a write that is refused for its size leaves behind.

`put_with_ttl` checks the quota before it writes anything, so a `Put` that
is refused changes nothing. `batch_impl` is a loop of such writes: a refusal
stops it, and what the operations before it have written stays
(`batch_refused_halfway`). `quota_refusal_total` says that a batch answered
with the quota error has changed nothing exactly when its first operation is
the one refused.

Every step may meet an I/O fault. What tells a batch that got past its first
operation is the log's sequence number, which only goes up.
-/
import FerrisKv.Node.Session
import FerrisKv.Node.Concurrent
import FerrisKv.Proofs.Node.Footprint

namespace FerrisKv

open Prog NodeService

-- ================================================================== faults

/-- The request can be answered with `r`, leaving `w'`. -/
def Request.Serves (ext : Externals) (cfg : NodeConfig)
    (principal : Option Principal) (t : String) (req : Request)
    (w : World) (r : Response) (w' : World) : Prop :=
  Ends (Prim.May ext) (req.prog cfg principal t) w r w'

section StorageCalls

variable {ext : Externals} {w : World} {key value : Bytes}

/-- Reads leave the world alone even when they fail. -/
private theorem wp_faulty_reads {α : Type} {x : NodeProg α}
    {Q : World → α → Prop}
    (hx : x.Uses Prim.Reads) (hQ : ∀ a, Q w a) : wp (faulty ext) Q x w := by
  refine wp_of_uses (I := (· = w)) ?_ ?_ hx rfl
  · rintro g p rfl hp
    exact faulty_post fun fault => hp.exec fault
  · rintro g a rfl
    exact hQ a

/-- A read answers with the entry or fails. -/
private theorem wp_faulty_get {Q : World → Result (Option Bytes) → Prop}
    (hok : Q w (.ok (w.storage.get key)))
    (herr : ∀ text, Q w (.error (.storage text))) :
    wp (faulty ext) Q (storageGet key).run w := by
  refine faulty_post fun fault => ?_
  cases fault with
  | none => exact hok
  | some f => exact herr f.text

/-- A storage write happens or fails. -/
private theorem wp_faulty_put {Q : World → Result Unit → Prop}
    (hok : Q { w with storage := w.storage.put key value } (.ok ()))
    (herr : ∀ text, Q w (.error (.storage text))) :
    wp (faulty ext) Q (storagePut key value).run w := by
  refine faulty_post fun fault => ?_
  cases fault with
  | none => exact hok
  | some f => exact herr f.text

private theorem wp_faulty_delete {Q : World → Result Unit → Prop}
    (hok : Q { w with storage := w.storage.delete key } (.ok ()))
    (herr : ∀ text, Q w (.error (.storage text))) :
    wp (faulty ext) Q (storageDelete key).run w := by
  refine faulty_post fun fault => ?_
  cases fault with
  | none => exact hok
  | some f => exact herr f.text

end StorageCalls

-- ============================================================== the answers

/-- The status of a quota refusal. -/
def Response.IsQuotaExceeded (r : Response) : Prop :=
  ∃ t used limit, r = .done (.error (toStatus (.quotaExceeded t used limit)))

/-- Storage, log, index, counters, quotas and subscribers are as they were. -/
structure Unchanged (w w' : World) : Prop where
  storage : w'.storage = w.storage
  wal : w'.wal = w.wal
  ttl : w'.ttl = w.ttl
  quotas : w'.quotas = w.quotas
  watch : w'.watch = w.watch

/-- `check_write` refuses the growth. -/
def QuotaStore.Refuses (q : QuotaStore) (t : String) (delta : Int) : Prop :=
  (q.quota t).maxBytes ≠ 0 ∧ 0 < delta
    ∧ (q.quota t).maxBytes < saturatingAdd (q.usedBytes t) delta.toNat

/-- The put would take its tenant over the limit. -/
def Overdraws (w : World) (t : String) (key value : Bytes) : Prop :=
  ∃ prev, previousBytes key.length
      (w.storage.get (KeyCodec.bytesOf t .data key)) = .ok prev
    ∧ w.quotas.Refuses t
      ((entryBytes key.length value.length : Int) - prev)

/-- The first write of the request is the one that is refused. A put has
no other. -/
def RefusedFirst (w : World) (t : String) : Request → Prop
  | .put _ _ _ => True
  | .batch (o :: _) => o.op = opPut ∧ Overdraws w t o.key o.value
  | _ => False

-- ================================================================ the texts

section Texts

/-- The text of the refusal, number by number. -/
private theorem display_quotaExceeded (t : String) (used limit : Nat) :
    (Error.quotaExceeded t used limit).display
      = s!"tenant {t} would use {used} bytes, over its {limit} byte quota" :=
  rfl

/-- A quota refusal starts with a `t`, a refused size does not. -/
theorem quota_text_ne_size (t : String) (used limit n max : Nat)
    (what : String) (hwhat : what = "key" ∨ what = "value") :
    (Error.quotaExceeded t used limit).display
      ≠ s!"{what} size {n} exceeds limit {max}" := by
  intro h
  have hhead := congrArg (fun s => s.toList.head?) h
  have hquota : (toString "tenant ").toList.head? = some 't' := by decide
  have hsize : ∃ c, (toString what).toList.head? = some c ∧ c ≠ 't' := by
    rcases hwhat with rfl | rfl
    · exact ⟨'k', by decide, by decide⟩
    · exact ⟨'v', by decide, by decide⟩
  obtain ⟨c, hc, hne⟩ := hsize
  simp only [display_quotaExceeded, String.toList_append, List.head?_append,
    hquota, hc, Option.some_or, Option.some.injEq] at hhead
  exact hne hhead.symm

/-- They end in different letters. -/
theorem quota_text_ne_rate (t u : String) (used limit rate : Nat) :
    (Error.quotaExceeded t used limit).display
      ≠ (Error.rateLimited u rate).display := by
  intro h
  have hlast := congrArg (fun s => s.toList.getLast?) h
  have hrate : (Error.rateLimited u rate).display
      = s!"tenant {u} exceeded its rate limit of {rate} operations per second" :=
    rfl
  have hquota' : (toString " byte quota").toList.getLast? = some 'a' := by
    decide
  have hrate' : (toString " operations per second").toList.getLast?
      = some 'd' := by decide
  simp only [display_quotaExceeded, hrate, String.toList_append,
    List.getLast?_append, hquota', hrate', Option.some_or] at hlast
  cases hlast

end Texts

-- ================================================== what a write can answer

/-- A step that numbers no record. -/
def Prim.Unnumbered : Prim → Prop
  | .wal .open => False
  | .wal (.append _ _ _) => False
  | _ => True

/-- Such a step takes no sequence number, whatever fails. -/
theorem Prim.Unnumbered.exec {p : Prim} (h : p.Unnumbered) (ext : Externals)
    (fault : Option Fault) (w : World) :
    (p.exec ext fault w).2.wal.nextSeq = w.wal.nextSeq := by
  cases p with
  | wal q =>
      cases q with
      | rotate => cases fault <;> rfl
      | segmentBytes => rfl
      | «open» => exact h.elim
      | append op key value => exact h.elim
  | _ => rfl

theorem Prim.Schedules.unnumbered {p : Prim} (h : p.Schedules) :
    p.Unnumbered := by
  obtain ⟨k, e, rfl⟩ | rfl := h
  · exact trivial
  · exact trivial

theorem Prim.Settles.unnumbered {p : Prim} (h : p.Settles) :
    p.Unnumbered := by
  obtain (⟨t, d, rfl⟩ | ⟨t, k, v, _, rfl⟩) | ⟨q, rfl⟩
    | (rfl | rfl | rfl | rfl) := h
  all_goals exact trivial

section Writes

variable {ext : Externals} {cfg : NodeConfig} {w : World} {t : String}

/-- A program without such a step leaves the sequence number alone. -/
theorem wp_unnumbered {α : Type} {x : NodeProg α} {n : Nat}
    {Q : World → α → Prop} (hx : x.Uses Prim.Unnumbered)
    (hn : w.wal.nextSeq = n) (hQ : ∀ g a, g.wal.nextSeq = n → Q g a) :
    wp (faulty ext) Q x w := by
  refine wp_of_uses (I := fun g => g.wal.nextSeq = n) ?_ hQ hx hn
  intro g p hg hp
  refine faulty_post fun fault => ?_
  rw [hp.exec ext fault g, hg]

/-- What a write answers, and what it has done by then: one that succeeds
has taken a sequence number and was not over the limit; one that is
refused for the limit has done nothing. -/
def Booked (w : World) (refused : Prop) : World → Result Unit → Prop :=
  onResult
    (fun g _ => g.wal.nextSeq = saturatingAdd w.wal.nextSeq 1 ∧ ¬ refused)
    (fun g e => min w.wal.nextSeq u64Max ≤ g.wal.nextSeq
      ∧ ((toStatus e).code = .resourceExhausted → g = w ∧ refused))

/-- From the log record on. -/
theorem wp_logged {op : WalOp} {key value : Bytes} {rest : NodeM Unit}
    {refused : Prop} (hno : ¬ refused)
    (hrest : ∀ g n, g.wal.nextSeq = n → wp (faulty ext)
      (onResult (fun g' _ => g'.wal.nextSeq = n) fun g' e =>
        g'.wal.nextSeq = n ∧ (toStatus e).code ≠ .resourceExhausted)
      rest.run g) :
    wp (faulty ext) (Booked w refused)
      (ExceptT.run (walAppend op key value >>= fun _ => rest)) w := by
  have hlater : min w.wal.nextSeq u64Max
      ≤ saturatingAdd w.wal.nextSeq 1 := by
    unfold saturatingAdd
    omega
  have hdone : ∀ g, g.wal.nextSeq = saturatingAdd w.wal.nextSeq 1 →
      wp (faulty ext) (Booked w refused) rest.run g := by
    intro g hg
    refine wp_mono ?_ (hrest g _ hg)
    rintro g' (e | u) h
    · exact ⟨by rw [h.1]; exact hlater, fun hc => absurd hc h.2⟩
    · exact ⟨h, hno⟩
  refine (wp_bindE _ _ _).mpr (faulty_post fun fault => ?_)
  cases fault with
  | none => exact hdone _ rfl
  | some f =>
      simp only [Prim.exec, WalPrim.exec, Wal.append]
      split
      · exact ⟨Nat.min_le_left _ _, fun hc => by cases hc⟩
      · exact hdone _ rfl

/-- What follows the storage write always succeeds. -/
theorem wp_settle (plan : Option Accounting) (key value : Bytes)
    (kind : ChangeKind) {n : Nat} (hn : w.wal.nextSeq = n)
    {Q : World → Result Unit → Prop}
    (hQ : ∀ g, g.wal.nextSeq = n → Q g (.ok ())) :
    wp (faulty ext) Q (ExceptT.run (do
      commitAccounting plan
      publishChange key kind value
      rotateWalIfNeeded cfg : NodeM Unit)) w := by
  simp only [wp_bindE, wp_lift, onResult_ok]
  refine wp_unnumbered ((commitAccounting_uses plan).mono
    fun _ hp => Prim.Settles.unnumbered (.inl hp)) hn fun g₁ _ h₁ => ?_
  refine wp_unnumbered ((publishChange_uses key kind value).mono
    fun _ hp => Prim.Settles.unnumbered (.inr (.inl hp))) h₁
    fun g₂ _ h₂ => ?_
  exact wp_unnumbered ((rotateWalIfNeeded_uses cfg).mono
    fun _ hp => Prim.Settles.unnumbered (.inr (.inr hp))) h₂
    fun g₃ _ h₃ => hQ g₃ h₃

/-- An I/O error is not reported as exhaustion. -/
theorem storage_plain (text : String) :
    (toStatus (.storage text)).code ≠ .resourceExhausted := by
  rintro ⟨⟩

private theorem corrupt_plain (what : String) :
    (toStatus (.corrupt what)).code ≠ .resourceExhausted := by
  rintro ⟨⟩

/-- Nor an entry that cannot be sized. -/
private theorem previousBytes_plain {len : Nat} {o : Option Bytes} {e : Error}
    (h : previousBytes len o = .error e) :
    (toStatus e).code ≠ .resourceExhausted := by
  cases o with
  | none => cases h
  | some raw =>
      simp only [previousBytes, ValueCodec.payloadLen] at h
      split at h
      · cases h
        exact corrupt_plain _
      · split_ifs at h <;> cases h
        all_goals exact corrupt_plain _

/-- The entry a put of a data key is accounted with. -/
theorem wp_planAccounting {key : Bytes} (ht : KeyCodec.ValidTenant t)
    (len : Nat) :
    wp (faulty ext)
      (onResult
        (fun g plan => g = w ∧ ∃ prev, previousBytes key.length
            (w.storage.get (KeyCodec.bytesOf t .data key)) = .ok prev
          ∧ plan = some ⟨t, (entryBytes key.length len : Int) - prev⟩)
        (fun g e => g = w ∧ (toStatus e).code ≠ .resourceExhausted))
      (planAccounting (KeyCodec.bytesOf t .data key) len).run w := by
  have hd := KeyCodec.decode_bytesOf ht .data key
  refine wp_planAccounting_of (fun h => absurd hd (h _ _)) fun t' payload hd' => ?_
  rw [hd] at hd'
  cases hd'
  refine wp_faulty_get ?_ fun text => ⟨rfl, storage_plain text⟩
  show onResult _ _ w (putPlan t key len _)
  cases hp : previousBytes key.length
      (w.storage.get (KeyCodec.bytesOf t .data key)) with
  | ok prev =>
      rw [putPlan_of_ok hp]
      exact ⟨rfl, prev, rfl, rfl⟩
  | error e =>
      rw [putPlan_of_error hp]
      exact ⟨rfl, previousBytes_plain hp⟩

/-- `check_write` refuses what the counter and limit refuse, and changes
nothing. -/
private theorem wp_checkWrite (delta : Int) :
    wp (faulty ext)
      (onResult (fun g _ => g = w ∧ ¬ w.quotas.Refuses t delta)
        (fun g _ => g = w ∧ w.quotas.Refuses t delta))
      (checkWrite t delta).run w := by
  refine (wp_bindE _ _ _).mpr (faulty_post fun _ => ?_)
  show wp _ _ (ExceptT.run (if _ then _ else _)) w
  split
  · rename_i hfree
    refine ⟨rfl, fun h => ?_⟩
    obtain h0 | hd := hfree
    · exact h.1 h0
    · exact absurd h.2.1 (by omega)
  · rename_i hgrows
    refine (wp_bindE _ _ _).mpr (faulty_post fun _ => ?_)
    show wp _ _ (ExceptT.run (if _ then _ else _)) w
    split
    · rename_i hover
      exact ⟨rfl, fun h0 => hgrows (.inl h0), by omega, hover⟩
    · rename_i hfits
      exact ⟨rfl, fun h => hfits h.2.2⟩

/-- A put answered with a quota refusal overdraws, and has booked nothing. -/
private theorem wp_putWithTtl (ht : KeyCodec.ValidTenant t) (key value : Bytes)
    (ttlMs : Nat) :
    wp (faulty ext) (Booked w (Overdraws w t key value))
      (putWithTtl cfg (KeyCodec.bytesOf t .data key) value ttlMs).run w := by
  unfold putWithTtl
  refine (wp_bindE _ _ _).mpr ((wp_lift _ _).mpr (wp_faulty_reads
    ((expiryStamp_uses ttlMs).mono fun _ => .inl) fun exp => ?_))
  refine (wp_bindE _ _ _).mpr (wp_mono ?_ (wp_planAccounting ht value.length))
  rintro g (e | plan) h
  · obtain ⟨rfl, hplain⟩ := h
    exact ⟨Nat.min_le_left _ _, fun hc => absurd hc hplain⟩
  · obtain ⟨rfl, prev, hprev, rfl⟩ := h
    refine (wp_bindE _ _ _).mpr (wp_mono ?_ (wp_checkWrite _))
    rintro g' (e | u) h
    · obtain ⟨rfl, hr⟩ := h
      exact ⟨Nat.min_le_left _ _, fun _ => ⟨rfl, prev, hprev, hr⟩⟩
    · obtain ⟨rfl, hfits⟩ := h
      refine wp_logged ?_ fun g n hg => ?_
      · rintro ⟨prev', hprev', hr⟩
        rw [hprev] at hprev'
        cases hprev'
        exact hfits hr
      · refine (wp_bindE _ _ _).mpr (wp_faulty_put ?_ fun text => ?_)
        · refine (wp_bindE _ _ _).mpr ((wp_lift _ _).mpr ?_)
          refine wp_unnumbered ((scheduleExpiry_uses _ exp).mono
            fun _ hp => hp.unnumbered) hg fun g' _ hg' => ?_
          exact wp_settle _ _ _ _ hg' fun _ h => h
        · exact ⟨hg, storage_plain text⟩

/-- A delete is never refused for a quota. -/
private theorem wp_delete (key : Bytes) :
    wp (faulty ext) (Booked w False) (NodeService.delete cfg key).run w := by
  unfold NodeService.delete
  have hplan : wp (faulty ext)
      (onResult (fun g _ => g = w)
        (fun g e => g = w ∧ (toStatus e).code ≠ .resourceExhausted))
      (planDeleteAccounting key).run w := by
    refine wp_planDeleteAccounting_of (fun _ => rfl) fun t payload _ =>
      wp_faulty_get ?_ fun text => ⟨rfl, storage_plain text⟩
    cases w.storage.get key with
    | none => exact rfl
    | some raw =>
        show onResult _ _ w (deletePlan t payload (some raw))
        cases hb : previousBytes payload.length (some raw) with
        | ok freed =>
            rw [deletePlan_of_ok hb]
            exact rfl
        | error e =>
            rw [deletePlan_of_error hb]
            exact ⟨rfl, previousBytes_plain hb⟩
  refine (wp_bindE _ _ _).mpr (wp_mono ?_ hplan)
  rintro g (e | plan) h
  · obtain ⟨rfl, hplain⟩ := h
    exact ⟨Nat.min_le_left _ _, fun hc => absurd hc hplain⟩
  · cases h
    refine wp_logged id fun g n hg => ?_
    refine (wp_bindE _ _ _).mpr (wp_faulty_delete ?_ fun text => ?_)
    · rw [onResult_ok]
      refine wp_settle (n := n) _ _ _ _ ?_ ?_
      · exact hg
      · exact fun _ h => h
    · exact ⟨hg, storage_plain text⟩

end Writes

-- =============================================================== the batch

section Requests

variable {ext : Externals} {cfg : NodeConfig} {w : World} {t : String}

/-- The status of a quota refusal. -/
def Status.IsQuotaExceeded (st : Status) : Prop :=
  ∃ t used limit, st = toStatus (.quotaExceeded t used limit)

/-- `Booked`, for a handler. -/
def BookedRpc (w : World) (refused : Prop) :
    World → Except Status Unit → Prop :=
  onResult
    (fun g _ => g.wal.nextSeq = saturatingAdd w.wal.nextSeq 1 ∧ ¬ refused)
    (fun g st => min w.wal.nextSeq u64Max ≤ g.wal.nextSeq
      ∧ (st.IsQuotaExceeded → g = w ∧ refused))

/-- A check that is answered with another error. -/
theorem bookedRpc_check {st : Status} {refused : Prop}
    (h : ¬ st.IsQuotaExceeded) : BookedRpc w refused w (.error st) :=
  ⟨Nat.min_le_left _ _, fun hq => absurd hq h⟩

/-- The status of a call says whether it was refused. -/
theorem wp_mapStatus {x : NodeM Unit} {refused : Prop}
    (h : wp (faulty ext) (Booked w refused) x.run w) :
    wp (faulty ext) (BookedRpc w refused) (mapStatus x).run w := by
  refine (wp_bind _ _ _).mpr (wp_mono ?_ h)
  rintro g (e | u) hb
  · refine ⟨hb.1, fun hq => hb.2 ?_⟩
    obtain ⟨t, used, limit, he⟩ := hq
    show (toStatus e).code = _
    rw [he]
    rfl
  · exact hb

/-- A quota refusal is reported as exhaustion. -/
theorem not_quota_of_code {st : Status} (h : st.code ≠ .resourceExhausted) :
    ¬ st.IsQuotaExceeded := by
  rintro ⟨t, used, limit, rfl⟩
  exact h rfl

/-- A size check names what it measures, which the quota error does not. -/
theorem not_quota_of_size {code : Code} {what : String} {max : Nat}
    {bytes : Bytes} {st : Status} (hwhat : what = "key" ∨ what = "value")
    (h : enforceSize code what max bytes = .error st) :
    ¬ st.IsQuotaExceeded := by
  unfold enforceSize at h
  split at h
  · cases h
    rintro ⟨t, used, limit, he⟩
    exact quota_text_ne_size t used limit _ _ what hwhat
      (congrArg Status.message he).symm
  · cases h

/-- A valid tenant's data key encodes. -/
private theorem encodeDataKey_eq (ht : KeyCodec.ValidTenant t) (key : Bytes) :
    encodeDataKey t key = .ok (KeyCodec.bytesOf t .data key) := by
  unfold encodeDataKey
  rw [KeyCodec.encode_of_valid ht]
  rfl

/-- The operation is a put that is refused. -/
def OpRefused (w : World) (t : String) (o : BatchOp) : Prop :=
  o.op = opPut ∧ Overdraws w t o.key o.value

/-- One operation of a batch is refused as the call would be. -/
private theorem wp_batchOp (ht : KeyCodec.ValidTenant t) (o : BatchOp) :
    wp (faulty ext) (BookedRpc w (OpRefused w t o))
      (batchOp cfg t o).run w := by
  unfold batchOp
  cases hk : enforceKeySize cfg o.key with
  | error st => exact bookedRpc_check (not_quota_of_size (.inl rfl) hk)
  | ok u =>
      rw [encodeDataKey_eq ht]
      by_cases hput : o.op = opPut
      · simp only [if_pos hput]
        cases hv : enforceValueSize cfg o.value with
        | error st => exact bookedRpc_check (not_quota_of_size (.inr rfl) hv)
        | ok u =>
            have hiff : Overdraws w t o.key o.value = OpRefused w t o := by
              simp [OpRefused, hput]
            exact wp_mapStatus (hiff ▸ wp_putWithTtl ht o.key o.value 0)
      · have hnone : False = OpRefused w t o := by
          simp [OpRefused, hput]
        simp only [if_neg hput]
        by_cases hdel : o.op = opDelete
        · simp only [if_pos hdel]
          exact wp_mapStatus (hnone ▸ wp_delete _)
        · simp only [if_neg hdel]
          exact bookedRpc_check (not_quota_of_code fun h => by cases h)

/-- A batch answered with the quota error has stopped at its first
operation, or has gone past it. -/
theorem wp_batchLoop (ht : KeyCodec.ValidTenant t) :
    ∀ (ops : List BatchOp) (w : World), wp (faulty ext)
      (onResult (fun g _ => min w.wal.nextSeq u64Max ≤ g.wal.nextSeq)
        fun g st => min w.wal.nextSeq u64Max ≤ g.wal.nextSeq
          ∧ (st.IsQuotaExceeded →
            (g = w ∧ RefusedFirst w t (.batch ops))
              ∨ (saturatingAdd w.wal.nextSeq 1 ≤ g.wal.nextSeq
                ∧ ¬ RefusedFirst w t (.batch ops))))
      (batchLoop cfg t ops).run w
  | [], w => Nat.min_le_left _ _
  | o :: rest, w => by
      refine (wp_bindE _ _ _).mpr (wp_mono ?_ (wp_batchOp ht o))
      rintro g (st | u) h
      · exact ⟨h.1, fun hq => .inl (h.2 hq)⟩
      · obtain ⟨hseq, hno⟩ := h
        -- the first operation is logged, so a refusal further on leaves the
        -- log longer than it was
        have hmin : saturatingAdd w.wal.nextSeq 1
            = min g.wal.nextSeq u64Max := by
          rw [hseq]
          unfold saturatingAdd
          omega
        have hle : min w.wal.nextSeq u64Max
            ≤ saturatingAdd w.wal.nextSeq 1 := by
          unfold saturatingAdd
          omega
        refine wp_mono ?_ (wp_batchLoop ht rest g)
        rintro g' (st | u) h
        · have hpast := hmin ▸ h.1
          exact ⟨hle.trans hpast, fun _ => .inr ⟨hpast, hno⟩⟩
        · exact hle.trans (hmin ▸ h)

/-- `w`, but for the limiters. -/
def UpToLimiters (w g : World) : Prop := ∃ th, g = { w with throttle := th }

/-- Limiters aside, nothing has changed. -/
private theorem UpToLimiters.unchanged {g : World} (h : UpToLimiters w g) :
    Unchanged w g := by
  obtain ⟨th, rfl⟩ := h
  exact ⟨rfl, rfl, rfl, rfl, rfl⟩

/-- A step on the limiters. -/
theorem wp_throttle_step {p : ThrottlePrim} {Q : World → p.Resp → Prop}
    {g : World} (hg : UpToLimiters w g)
    (hQ : ∀ g' r, UpToLimiters w g' → Q g' r) :
    wp (faulty ext) Q p.call g := by
  obtain ⟨th, rfl⟩ := hg
  exact faulty_post fun _ => hQ _ _ ⟨_, rfl⟩

/-- Looking a limiter up may add it. -/
private theorem wp_throttleEntry (rate : Nat) :
    wp (faulty ext) (fun g _ => UpToLimiters w g) (throttleEntry t rate) w := by
  refine wp_of_uses (I := UpToLimiters w) ?_ (fun _ _ hg => hg)
    (throttleEntry_uses t rate) ⟨w.throttle, rfl⟩
  rintro g p ⟨th, rfl⟩ (rfl | ⟨rate, rfl⟩ | ⟨entry, cost, rfl⟩)
  · exact faulty_post fun _ => ⟨_, rfl⟩
  · exact faulty_post fun _ => ⟨_, rfl⟩
  · exact faulty_post fun _ => ⟨_, rfl⟩

/-- A request over its rate is refused, and not for a quota. -/
private theorem wp_throttleCheck (ops cost : Nat) :
    wp (faulty ext)
      (onResult (fun g _ => UpToLimiters w g)
        fun g e => UpToLimiters w g ∧ ¬ (toStatus e).IsQuotaExceeded)
      (throttleCheck cfg t ops cost).run w := by
  unfold throttleCheck
  obtain ⟨limit, hl⟩ : ∃ limit,
      limit = if ops > 0 then ops else cfg.quota.maxOpsPerSec := ⟨_, rfl⟩
  simp only [← hl]
  split
  · exact ⟨w.throttle, rfl⟩
  · refine (wp_bindE _ _ _).mpr ((wp_lift _ _).mpr
      (wp_mono (fun g i hg => ?_) (wp_throttleEntry _)))
    refine (wp_bindE _ _ _).mpr ((wp_lift _ _).mpr
      (wp_throttle_step hg fun g' v hg' => ?_))
    cases v with
    | ok => exact hg'
    | notYet =>
        refine ⟨hg', ?_⟩
        rintro ⟨t', used, limit, he⟩
        exact quota_text_ne_rate _ _ _ _ _ (congrArg Status.message he).symm
    | never => exact ⟨hg', not_quota_of_code fun h => by cases h⟩

/-- `admit` moves nothing but the limiters, and no error of its own is the
quota's. -/
theorem wp_admitRpc (cost : Nat) :
    wp (faulty ext)
      (onResult (fun g _ => UpToLimiters w g)
        fun g st => UpToLimiters w g ∧ ¬ st.IsQuotaExceeded)
      (admitRpc cfg t cost).run w := by
  have hops : wp (faulty ext)
      (onResult (fun g _ => UpToLimiters w g)
        fun g e => UpToLimiters w g ∧ ¬ (toStatus e).IsQuotaExceeded)
      (admitOps cfg t cost).run w :=
    (wp_bindE _ _ _).mpr (faulty_post fun _ => wp_throttleCheck _ cost)
  refine (wp_bind _ _ _).mpr (wp_mono ?_ hops)
  rintro g (e | u) h
  · exact h
  · exact h

/-- A check that fails answers at once. -/
theorem wp_ofCheck {α β : Type} {c : Except Status α} {f : α → GrpcM β}
    {Q : World → Except Status β → Prop}
    (herr : ∀ st, c = .error st → Q w (.error st))
    (hok : ∀ a, c = .ok a → wp (faulty ext) Q (f a).run w) :
    wp (faulty ext) Q (ExceptT.run (ofCheck c >>= f)) w := by
  cases c with
  | error st => exact herr st rfl
  | ok a => exact hok a rfl

-- the checks before the limiter do not answer with the quota's error

/-- A refused tenant name is no quota refusal. -/
private theorem checkTenant_plain {st : Status}
    (h : checkTenant t = .error st) : ¬ st.IsQuotaExceeded := by
  apply not_quota_of_code
  unfold checkTenant at h
  split_ifs at h
  all_goals
    cases h
    rintro ⟨⟩

/-- Neither is a missing permission. -/
private theorem authorize_plain {principal : Option Principal} {perm : String}
    {st : Status} (h : authorize principal t perm = .error st) :
    ¬ st.IsQuotaExceeded := by
  apply not_quota_of_code
  unfold authorize at h
  split at h
  · cases h
    rintro ⟨⟩
  · split_ifs at h
    all_goals
      cases h
      rintro ⟨⟩

private theorem batchSize_plain {n : Nat} {st : Status}
    (h : enforceBatchSize cfg n = .error st) : ¬ st.IsQuotaExceeded := by
  apply not_quota_of_code
  unfold enforceBatchSize at h
  split_ifs at h
  cases h
  rintro ⟨⟩

/-- The tenant check lets valid tenants pass only. -/
theorem validTenant_of_check (h : checkTenant t = .ok ()) :
    KeyCodec.ValidTenant t := by
  unfold checkTenant at h
  split_ifs at h with h0 h1
  exact ⟨by omega, by unfold maxTenantLen; omega⟩

/-- What comes before every handler changes limiters only, and refuses for no
quota. -/
theorem wp_enter (principal : Option Principal) (perm : String) :
    wp (faulty ext)
      (onResult (fun g _ => UpToLimiters w g ∧ KeyCodec.ValidTenant t)
        fun _ st => ¬ st.IsQuotaExceeded)
      (enter cfg principal t perm).run w := by
  refine wp_ofCheck (fun st h => checkTenant_plain h) fun _ ht => ?_
  refine wp_ofCheck (fun st h => authorize_plain h) fun _ _ => ?_
  refine wp_mono ?_ (wp_admitRpc 1)
  rintro g (st | u) h
  · exact h.2
  · exact ⟨h, validTenant_of_check ht⟩

/-- A put refused for the quota has changed nothing. -/
theorem wp_putImpl (principal : Option Principal) (key value : Bytes)
    (ttlMs : Nat) :
    wp (faulty ext)
      (onResult (fun _ _ => True)
        fun g st => st.IsQuotaExceeded → Unchanged w g)
      (putImpl cfg principal t key value ttlMs).run w := by
  refine (wp_bindE _ _ _).mpr (wp_mono ?_ (wp_enter principal permWrite))
  rintro g (st | u) h
  · exact fun hq => absurd hq h
  · obtain ⟨hg, ht⟩ := h
    refine wp_ofCheck (fun st h hq =>
      absurd hq (not_quota_of_size (.inl rfl) h)) fun _ _ => ?_
    refine wp_ofCheck (fun st h hq =>
      absurd hq (not_quota_of_size (.inr rfl) h)) fun _ _ => ?_
    rw [encodeDataKey_eq ht]
    refine wp_mono ?_ (wp_mapStatus (wp_putWithTtl ht key value ttlMs))
    rintro g' (st | u) h
    · exact fun hq => (h.2 hq).1 ▸ hg.unchanged
    · exact trivial

/-- What a batch answered with the quota error has done. -/
theorem wp_batchImpl (principal : Option Principal) (ops : List BatchOp) :
    wp (faulty ext)
      (onResult (fun _ _ => True) fun g st => st.IsQuotaExceeded →
        (Unchanged w g ∧ RefusedFirst w t (.batch ops))
          ∨ (saturatingAdd w.wal.nextSeq 1 ≤ g.wal.nextSeq
            ∧ ¬ RefusedFirst w t (.batch ops)))
      (batchImpl cfg principal t ops).run w := by
  have hperm : ∀ {b : Bool} {perm : String} {st : Status},
      (if b = true then authorize principal t perm else .ok ()) = .error st →
      ¬ st.IsQuotaExceeded := by
    intro b perm st h
    cases b with
    | true => exact authorize_plain h
    | false => cases h
  refine wp_ofCheck (fun st h hq => absurd hq (checkTenant_plain h))
    fun _ ht => ?_
  refine wp_ofCheck (fun st h hq => absurd hq (hperm h)) fun _ _ => ?_
  refine wp_ofCheck (fun st h hq => absurd hq (hperm h)) fun _ _ => ?_
  refine wp_ofCheck (fun st h hq => absurd hq (batchSize_plain h))
    fun _ _ => ?_
  refine (wp_bindE _ _ _).mpr (wp_mono ?_ (wp_admitRpc _))
  rintro g (st | u) h
  · exact fun hq => absurd hq h.2
  · obtain ⟨th, rfl⟩ := h
    refine wp_mono ?_ (wp_batchLoop (validTenant_of_check ht) ops _)
    rintro g' (st | u) h
    · intro hq
      obtain ⟨rfl, hfirst⟩ | hpast := h.2 hq
      · exact .inl ⟨⟨rfl, rfl, rfl, rfl, rfl⟩, hfirst⟩
      · exact .inr hpast
    · exact trivial

/-- A `Put` or `Batch` that is answered with the quota error: if its first
write is the one refused, nothing has changed; and unless the log has run
out of sequence numbers, nothing has changed only then. -/
theorem quota_refusal_total (ext : Externals) (cfg : NodeConfig)
    (principal : Option Principal) (t : String) (req : Request)
    (w : World) (r : Response) (w' : World)
    (hserve : req.Serves ext cfg principal t w r w')
    (hquota : r.IsQuotaExceeded) :
    (RefusedFirst w t req → Unchanged w w')
      ∧ (w.wal.nextSeq < u64Max → Unchanged w w' → RefusedFirst w t req) := by
  obtain ⟨t', used, limit, rfl⟩ := hquota
  have hstatus : (toStatus (.quotaExceeded t' used limit)).IsQuotaExceeded :=
    ⟨t', used, limit, rfl⟩
  -- only `Put` and `Batch` answer with a bare acknowledgement
  cases req with
  | put key value ttlMs =>
      obtain ⟨a, hends, ha⟩ := hserve.of_map
      cases ha
      exact ⟨fun _ => hends.post (wp_putImpl principal key value ttlMs) hstatus,
        fun _ _ => trivial⟩
  | batch ops =>
      obtain ⟨a, hends, ha⟩ := hserve.of_map
      cases ha
      obtain ⟨hsame, hfirst⟩ | ⟨hpast, hno⟩ :=
        hends.post (wp_batchImpl principal ops) hstatus
      · exact ⟨fun _ => hsame, fun _ _ => hfirst⟩
      · refine ⟨fun h => absurd h hno, fun hlt hsame => ?_⟩
        rw [hsame.wal, saturatingAdd_eq (by omega)] at hpast
        omega
  | get key =>
      obtain ⟨a, -, ha⟩ := hserve.of_map
      cases ha
  | delete key =>
      obtain ⟨a, -, ha⟩ := hserve.of_map
      cases ha
  | scan userPrefix limit =>
      obtain ⟨a, -, ha⟩ := hserve.of_map
      cases ha
  | watch keyPrefix =>
      obtain ⟨a, -, ha⟩ := hserve.of_map
      cases ha

end Requests

-- ============================================================ half a batch

/-- Three bytes for every tenant. -/
def threeBytes : NodeConfig := { quota := { maxBytes := 3 } }

/-- A put of two bytes and one of three. -/
def twoWrites : Request := .batch [⟨opPut, [1], [5]⟩, ⟨opPut, [2], [6, 7]⟩]

/-- The node after the batch. -/
def afterTwoWrites : World :=
  (twoWrites.serve .plain threeBytes (some .anonymous) "a"
    (.opened threeBytes)).2

/-- The request as served without faults is one of the ways to serve it. -/
private theorem serves_of_serve (ext : Externals) (cfg : NodeConfig)
    (principal : Option Principal) (t : String) (req : Request) (w : World) :
    req.Serves ext cfg principal t w (req.serve ext cfg principal t w).1
      (req.serve ext cfg principal t w).2 :=
  ends_run (fun _ _ => ⟨none, rfl⟩) _ _

/-- The batch is refused for the quota and its first write stays. -/
theorem batch_refused_halfway :
    twoWrites.Serves .plain threeBytes (some .anonymous) "a"
        (.opened threeBytes)
        (.done (.error (toStatus (.quotaExceeded "a" 5 3)))) afterTwoWrites
      ∧ afterTwoWrites.storage.get (KeyCodec.bytesOf "a" .data [1])
        = some (ValueCodec.encode [5] none)
      ∧ afterTwoWrites.quotas.usedBytes "a" = 2 := by
  refine ⟨?_, by decide +kernel, by decide +kernel⟩
  have hanswer : (twoWrites.serve .plain threeBytes (some .anonymous) "a"
      (.opened threeBytes)).1
        = .done (.error (toStatus (.quotaExceeded "a" 5 3))) := by
    decide +kernel
  rw [← hanswer]
  exact serves_of_serve ..

/-- A put that is refused at the start of its batch leaves nothing. -/
theorem first_refused_unchanged :
    Unchanged (.opened threeBytes)
      (Request.serve .plain threeBytes (some .anonymous) "a"
        (.batch [⟨opPut, [2], [6, 7, 8]⟩]) (.opened threeBytes)).2 := by
  refine (quota_refusal_total .plain threeBytes (some .anonymous) "a" _ _ _ _
    (serves_of_serve ..) ⟨"a", 4, 3, ?_⟩).1 ⟨rfl, 0, ?_, ?_⟩
  · decide +kernel
  · decide +kernel
  · exact ⟨by decide +kernel, by decide, by decide +kernel⟩

end FerrisKv
