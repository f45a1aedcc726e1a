/-
What a put or a delete answers where nothing fails, and what it has done
by then.

The answer is a function of the store the call starts from: `planned` is
what sizing the entry comes to, `verdict` what the check makes of the plan.
A call that is refused has changed nothing. One that is not answers `Ok`
and has changed its own entry, no other data and no limit (`Rewrote`).
-/
import FerrisKv.Proofs.Node.Coverage
import FerrisKv.Proofs.Node.Durable

namespace FerrisKv

open Std Prog NodeService WriteLog

-- ================================================================ the answer

/-- The plan for a put of `n` bytes. -/
def planned (w : World) (key : Bytes) (n : Nat) :
    Result (Option Accounting) :=
  match KeyCodec.decode key with
  | .ok (tenant, .data, payload) =>
      (previousBytes payload.length w.storage.contents[key]?).map
        fun previous : Nat =>
          some ⟨tenant, (entryBytes payload.length n : Int) - previous⟩
  | _ => .ok none

/-- The plan for a delete. -/
def plannedDelete (w : World) (key : Bytes) : Result (Option Accounting) :=
  match KeyCodec.decode key with
  | .ok (tenant, .data, payload) =>
      match w.storage.contents[key]? with
      | some raw => (previousBytes payload.length (some raw)).map
          fun freed : Nat => some ⟨tenant, -(freed : Int)⟩
      | none => .ok none
  | _ => .ok none

section Plans

variable {w : World} {key payload : Bytes} {t : String}

/-- For data the plan compares with the entry. -/
theorem planned_of_data
    (hd : KeyCodec.decode key = .ok (t, .data, payload)) (n : Nat) :
    planned w key n = putPlan t payload n w.storage.contents[key]? := by
  rw [planned, hd]
  rfl

/-- For anything else there is none. -/
private theorem planned_aside (h : ¬ IsData key) (n : Nat) :
    planned w key n = .ok none := by
  unfold planned
  split
  · next t payload hd => exact absurd ⟨t, payload, hd⟩ h
  · rfl

/-- For data a delete plans to give the entry back. -/
theorem plannedDelete_of_data
    (hd : KeyCodec.decode key = .ok (t, .data, payload)) :
    plannedDelete w key = deletePlan t payload w.storage.contents[key]? := by
  rw [plannedDelete, hd]
  cases w.storage.contents[key]? <;> rfl

/-- For anything else there is no plan. -/
private theorem plannedDelete_aside (h : ¬ IsData key) :
    plannedDelete w key = .ok none := by
  unfold plannedDelete
  split
  · next t payload hd => exact absurd ⟨t, payload, hd⟩ h
  · rfl

end Plans

/-- What the quota check makes of a plan. -/
def verdict (q : QuotaStore) : Option Accounting → Result Unit
  | none => .ok ()
  | some plan =>
      let limit := (q.quota plan.tenant).maxBytes
      let after := saturatingAdd (q.usedBytes plan.tenant) plan.delta.toNat
      if limit = 0 ∨ plan.delta ≤ 0 then .ok ()
      else if after > limit then
        .error (.quotaExceeded plan.tenant after limit)
      else .ok ()

/-- A plan is refused if it grows past a limit. -/
theorem verdict_some (q : QuotaStore) (plan : Accounting) :
    verdict q (some plan)
      = if (q.quota plan.tenant).maxBytes = 0 ∨ plan.delta ≤ 0 then .ok ()
        else if saturatingAdd (q.usedBytes plan.tenant) plan.delta.toNat
          > (q.quota plan.tenant).maxBytes then
          .error (.quotaExceeded plan.tenant
            (saturatingAdd (q.usedBytes plan.tenant) plan.delta.toNat)
            (q.quota plan.tenant).maxBytes)
        else .ok () := rfl

/-- Without a limit every plan passes. -/
theorem verdict_unlimited {q : QuotaStore} {plan : Accounting}
    (h : (q.quota plan.tenant).maxBytes = 0) :
    verdict q (some plan) = .ok () := by
  rw [verdict_some, if_pos (.inl h)]

/-- Where no limit is set, only an entry that does not parse is in the way
of a put. -/
theorem planned_unlimited {w : World} {key payload : Bytes} {t : String}
    (hd : KeyCodec.decode key = .ok (t, .data, payload))
    (hfree : (w.quotas.quota t).maxBytes = 0) (n : Nat) :
    (planned w key n).bind (verdict w.quotas)
      = (previousBytes payload.length w.storage.contents[key]?).map
        fun _ => () := by
  rw [planned_of_data hd]
  cases hp : previousBytes payload.length w.storage.contents[key]? with
  | error e =>
      rw [putPlan_of_error hp]
      rfl
  | ok previous =>
      rw [putPlan_of_ok hp]
      exact verdict_unlimited hfree

-- =============================================================== the effects

/-- Neither the store nor the quotas have moved. -/
structure Unmoved (w g : World) : Prop where
  storage : g.storage = w.storage
  quotas : g.quotas = w.quotas

/-- The data is what the write makes of it, the limits are the same. -/
structure Rewrote (write : Write Bytes Bytes) (w g : World) : Prop where
  quota : ∀ t, g.quotas.quota t = w.quotas.quota t
  data : ∀ k : Bytes, IsData k → g.storage.contents[k]?
    = rewrite (w.storage.contents[·]?) write k

section Steps

variable {ext : Externals} {cfg : NodeConfig} {w g : World} {α : Type}

theorem Unmoved.refl (w : World) : Unmoved w w := ⟨rfl, rfl⟩

theorem Unmoved.trans {g' : World} (h : Unmoved w g) (h' : Unmoved g g') :
    Unmoved w g' :=
  ⟨h'.storage.trans h.storage, h'.quotas.trans h.quotas⟩

/-- What reading leaves. -/
theorem wp_unmoved {x : NodeProg α} (hx : x.Uses Prim.Reads) (w : World) :
    wp (calm ext) (fun g _ => Unmoved w g) x w := by
  refine wp_of_uses (I := Unmoved w) ?_ (fun _ _ h => h) hx (.refl w)
  intro g p h hp
  refine calm_post fun now instant => h.trans ?_
  rw [hp.exec none]
  exact ⟨rfl, rfl⟩

/-- `plan_accounting` answers with the plan. -/
private theorem wp_planAccounting_planned (w : World) (key : Bytes) (n : Nat) :
    wp (calm ext) (fun g r => r = planned w key n ∧ Unmoved w g)
      (planAccounting key n).run w := by
  refine wp_planAccounting_of (fun h => ⟨?_, .refl w⟩) fun t payload hd =>
    calm_post fun now instant => ⟨(planned_of_data hd n).symm, rfl, rfl⟩
  exact (planned_aside (not_isData_iff.mpr h) n).symm

/-- `plan_delete_accounting` too. -/
private theorem wp_planDeleteAccounting_planned (w : World) (key : Bytes) :
    wp (calm ext) (fun g r => r = plannedDelete w key ∧ Unmoved w g)
      (planDeleteAccounting key).run w := by
  refine wp_planDeleteAccounting_of (fun h => ⟨?_, .refl w⟩) fun t payload hd =>
    calm_post fun now instant => ⟨(plannedDelete_of_data hd).symm, rfl, rfl⟩
  exact (plannedDelete_aside (not_isData_iff.mpr h)).symm

/-- `check_accounting` answers with the verdict. -/
private theorem wp_checkAccounting_verdict (w : World)
    (plan : Option Accounting) :
    wp (calm ext) (fun g r => r = verdict w.quotas plan ∧ Unmoved w g)
      (checkAccounting plan).run w := by
  cases plan with
  | none => exact ⟨rfl, .refl w⟩
  | some plan =>
      refine calm_post fun now instant => ?_
      show wp _ _ (ExceptT.run (if (w.quotas.quota plan.tenant).maxBytes = 0
        ∨ plan.delta ≤ 0 then _ else _)) _
      rw [verdict_some]
      by_cases hfree : (w.quotas.quota plan.tenant).maxBytes = 0
          ∨ plan.delta ≤ 0
      · rw [if_pos hfree, if_pos hfree]
        exact ⟨rfl, rfl, rfl⟩
      · rw [if_neg hfree, if_neg hfree]
        refine calm_post fun now' instant' => ?_
        show wp _ _ (ExceptT.run (if saturatingAdd
          (w.quotas.usedBytes plan.tenant) plan.delta.toNat
            > (w.quotas.quota plan.tenant).maxBytes then _ else _)) _
        by_cases hover : saturatingAdd (w.quotas.usedBytes plan.tenant)
            plan.delta.toNat > (w.quotas.quota plan.tenant).maxBytes
        · rw [if_pos hover, if_pos hover]
          exact ⟨rfl, rfl, rfl⟩
        · rw [if_neg hover, if_neg hover]
          exact ⟨rfl, rfl, rfl⟩

-- ================================================================= the calls

/-- The storage write. -/
theorem Unmoved.rewrote (h : Unmoved w g) (write : Write Bytes Bytes)
    {g' : World} (hs : g'.storage = g.storage.write write)
    (hq : g'.quotas = g.quotas) : Rewrote write w g' := by
  refine ⟨fun t => ?_, fun k _ => ?_⟩
  · rw [hq, h.quotas]
  · rw [hs, h.storage, StorageBackend.contents_write, getElem?_apply]
    rfl

/-- Bookkeeping moves no limit and no data. -/
theorem Rewrote.step {write : Write Bytes Bytes} {p : Prim}
    (h : Rewrote write w g) (hp : p.Settles ∨ p.Schedules) :
    (calm ext).post g p fun _ g' => Rewrote write w g' := by
  refine calm_post fun now instant => ?_
  obtain ((⟨t, delta, rfl⟩ | ⟨t, key, value, hk, rfl⟩) | ⟨q, rfl⟩ |
    (rfl | rfl | rfl | rfl)) | (⟨key, exp, rfl⟩ | rfl) := hp
  · exact ⟨h.quota, h.data⟩
  · refine ⟨h.quota, fun k hd => ?_⟩
    show (g.storage.write (.put key value)).contents[k]? = _
    rw [getElem?_write_aside _ _ (not_isData_encode hk (by decide)) hd]
    exact h.data k hd
  · exact ⟨h.quota, h.data⟩
  · exact ⟨h.quota, h.data⟩
  · exact ⟨h.quota, h.data⟩
  · refine ⟨h.quota, fun k hd => ?_⟩
    show g.storage.flush.contents[k]? = _
    rw [StorageBackend.contents_flush]
    exact h.data k hd
  · exact ⟨h.quota, h.data⟩
  · exact ⟨h.quota, h.data⟩
  · exact ⟨h.quota, h.data⟩

/-- The end of every write answers `Ok`. -/
theorem wp_settle_rewrote {write : Write Bytes Bytes}
    (plan : Option Accounting) (key value : Bytes) (kind : ChangeKind)
    (h : Rewrote write w g) :
    wp (calm ext) (fun g' r => r = .ok () ∧ Rewrote write w g')
      (ExceptT.run (do
        commitAccounting plan
        publishChange key kind value
        rotateWalIfNeeded cfg : NodeM Unit)) g := by
  have hkeep : ∀ {x : NodeProg Unit}, x.Uses Prim.Settles →
      x.Preserves (calm ext) (Rewrote write w) :=
    fun hx => hx.preserves fun _ _ h hp => h.step (.inl hp)
  simp only [wp_bindE, wp_lift, onResult_ok]
  refine wp_mono ?_ (hkeep ((commitAccounting_uses plan).mono fun _ => .inl)
    g h)
  intro g₁ _ h₁
  refine wp_mono ?_ (hkeep ((publishChange_uses key kind value).mono
    fun _ hp => .inr (.inl hp)) g₁ h₁)
  intro g₂ _ h₂
  refine wp_mono ?_ (hkeep ((rotateWalIfNeeded_uses cfg).mono
    fun _ hp => .inr (.inr hp)) g₂ h₂)
  exact fun g₃ _ h₃ => ⟨trivial, h₃⟩

/-- What a put leaves: the entry if it went through, nothing if not. -/
def PutLeaves (key value : Bytes) (ttlMs : Nat) (w g : World) :
    Result Unit → Prop
  | .ok () => ∃ exp, (∀ e ∈ exp, e < 2 ^ 64) ∧ (ttlMs = 0 → exp = none)
      ∧ Rewrote (.put key (ValueCodec.encode value exp)) w g
  | .error _ => Unmoved w g

/-- A stamp is only made for a lifetime. -/
private theorem wp_expiryStamp_unmoved (ttlMs : Nat) (w : World) :
    wp (calm ext) (fun g exp => Unmoved w g ∧ (∀ e ∈ exp, e < 2 ^ 64)
      ∧ (ttlMs = 0 → exp = none)) (expiryStamp ttlMs) w := by
  unfold expiryStamp
  split
  · next hpos =>
    refine calm_post fun now instant => ⟨⟨rfl, rfl⟩, ?_, fun h => by omega⟩
    rintro e ⟨⟩
    exact saturatingAdd_lt _ _
  · exact ⟨.refl w, (fun e he => nomatch he), fun _ => rfl⟩

/-- What a put answers is decided by what is stored and what is allowed; a
refused one has written nothing. -/
theorem wp_put_outcome (w : World) (key value : Bytes) (ttlMs : Nat) :
    wp (calm ext) (fun g r =>
        r = (planned w key value.length).bind (verdict w.quotas)
          ∧ PutLeaves key value ttlMs w g r)
      (putWithTtl cfg key value ttlMs).run w := by
  refine (wp_bindE _ _ _).mpr ((wp_lift _ _).mpr (wp_mono ?_
    (wp_expiryStamp_unmoved ttlMs w)))
  rintro w₁ exp ⟨h₁, hexp, hnone⟩
  -- the clock may have moved in between, but the plan is made from the
  -- storage only
  have hplanned : planned w₁ key value.length = planned w key value.length := by
    unfold planned
    rw [h₁.storage]
  refine (wp_bindE _ _ _).mpr (wp_mono ?_
    (wp_planAccounting_planned w₁ key value.length))
  rintro w₂ r ⟨hr, h₂⟩
  rw [hplanned] at hr
  rw [← hr]
  replace h₂ := h₁.trans h₂
  cases r with
  | error e => exact ⟨rfl, h₂⟩
  | ok plan =>
      refine (wp_bindE _ _ _).mpr (wp_mono ?_
        (wp_checkAccounting_verdict w₂ plan))
      rintro w₃ r ⟨hr, h₃⟩
      rw [h₂.quotas] at hr
      show onResult _ _ _ _
      replace h₃ := h₂.trans h₃
      cases r with
      | error e => exact ⟨hr, h₃⟩
      | ok u =>
          -- log, then storage; without a fault nothing of the put can fail
          -- from here on
          refine (wp_bindE _ _ _).mpr (calm_post fun now instant => ?_)
          refine (wp_bindE _ _ _).mpr (calm_post fun now' instant' => ?_)
          have hw : Rewrote (.put key (ValueCodec.encode value exp)) w
              (Prim.exec ext none (.storage (.put key
                (ValueCodec.encode value exp)))
                ((Prim.exec ext none (.wal (.append .put key
                  (ValueCodec.encode value exp)))
                  (w₃.tick now instant)).2.tick now' instant')).2 :=
            h₃.rewrote _ rfl rfl
          refine (wp_bindE _ _ _).mpr ((wp_lift _ _).mpr (wp_mono ?_
            ((scheduleExpiry_uses key exp).preserves
              (fun _ _ h hp => h.step (.inr hp)) _ hw)))
          intro w₄ _ h₄
          refine wp_mono ?_ (wp_settle_rewrote plan key value .put h₄)
          rintro w₅ _ ⟨rfl, h₅⟩
          exact ⟨hr, exp, hexp, hnone, h₅⟩

/-- A delete is only refused when the entry cannot be sized. -/
theorem wp_delete_outcome (w : World) (key : Bytes) :
    wp (calm ext) (fun g r => r = (plannedDelete w key).map (fun _ => ())
        ∧ match r with
          | .ok () => Rewrote (.delete key) w g
          | .error _ => Unmoved w g)
      (NodeService.delete cfg key).run w := by
  refine (wp_bindE _ _ _).mpr (wp_mono ?_
    (wp_planDeleteAccounting_planned w key))
  rintro w₁ r ⟨hr, h₁⟩
  rw [← hr]
  cases r with
  | error e => exact ⟨rfl, h₁⟩
  | ok plan =>
      refine (wp_bindE _ _ _).mpr (calm_post fun now instant => ?_)
      refine (wp_bindE _ _ _).mpr (calm_post fun now' instant' => ?_)
      have hw : Rewrote (.delete key) w
          (Prim.exec ext none (.storage (.delete key))
            ((Prim.exec ext none (.wal (.append .delete key []))
              (w₁.tick now instant)).2.tick now' instant')).2 :=
        h₁.rewrote _ rfl rfl
      show wp _ _ (ExceptT.run (do
        commitAccounting plan
        publishChange key .delete []
        rotateWalIfNeeded cfg : NodeM Unit)) _
      refine wp_mono ?_ (wp_settle_rewrote plan key [] .delete hw)
      rintro w₂ _ ⟨rfl, h₂⟩
      exact ⟨rfl, h₂⟩

end Steps

end FerrisKv
