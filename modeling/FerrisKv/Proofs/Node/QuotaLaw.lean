/-
Which writes a byte limit refuses.

`check_write` decides on a counter and a signed difference. Over every
sequential run without I/O errors, restarts included, the decision is the
one on the data: a put is refused exactly if there is a limit, the entry
grows, and with the new entry in place of the old one the tenant's stored
bytes would pass the limit (`quota_refuses_exactly`). So a limit that is
never set below what is stored is never exceeded, and whoever is over it
can shrink and delete.

The runs are those whose keys and values fit the length fields of a log
frame. A value that does not wraps its length, and what a restart makes of
its frame is the client's choice: `quota_refusal_missed` leaves an entry
that no put can size, whatever the limit.
-/
import FerrisKv.Proofs.Node.Legible
import FerrisKv.Proofs.Node.Outcome
import FerrisKv.Proofs.Node.Overrides
import FerrisKv.Proofs.Node.Usage

namespace FerrisKv

open Std Prog NodeService WriteLog LittleEndian

-- ================================================================== the law

namespace World

/-- The byte limit in force for a tenant, 0 for none. -/
def limit (w : World) (t : String) : Nat := (w.quotas.quota t).maxBytes

/-- The bytes of the keys and values a tenant has stored. -/
def stored (w : World) (t : String) : Nat := storedBytes t w.storage.contents

/-- Those of one entry of its, expired or not. -/
def entry (w : World) (t : String) (u : Bytes) : Nat :=
  share t (KeyCodec.bytesOf t .data u)
    w.storage.contents[KeyCodec.bytesOf t .data u]?

end World

/-- The entry would grow, to more than the limit leaves room for. -/
def NoRoom (w : World) (t : String) (u v : Bytes) : Prop :=
  w.limit t ≠ 0 ∧ w.entry t u < u.length + v.length
    ∧ w.limit t < w.stored t - w.entry t u + (u.length + v.length)

instance (w : World) (t : String) (u v : Bytes) : Decidable (NoRoom w t u v) :=
  inferInstanceAs (Decidable (_ ∧ _ ∧ _))

/-- The stored bytes keep to the limit, if there is one. -/
def Within (t : String) (w : World) : Prop :=
  w.limit t = 0 ∨ w.stored t ≤ w.limit t

/-- The tenant's limit is not set below what it has stored. -/
def NotCut (t : String) (w w' : World) : Prop :=
  w'.limit t = w.limit t ∨ w'.limit t = 0 ∨ w.stored t ≤ w'.limit t

/-- What can happen to a node that meets no I/O error and is given the
calls `calls`. -/
inductive QuotaEvent (ext : Externals) (cfg : NodeConfig)
    (calls : Op → Prop) (w : World) : World → Prop where
  | call {op : Op} {answer : Answer} {w' : World} (hop : calls op)
      (h : Ends (Prim.Goes ext faultless) (op.prog cfg) w answer w') :
      QuotaEvent ext cfg calls w w'
  | set {t : String} {q : Quota} {r : Result Unit} {w' : World}
      (h : Ends (Prim.Goes ext faultless) (setQuota ext t q).run w r w') :
      QuotaEvent ext cfg calls w w'
  | clear {t : String} {r : Result Unit} {w' : World}
      (h : Ends (Prim.Goes ext faultless) (clearQuota t).run w r w') :
      QuotaEvent ext cfg calls w w'
  | tick {now instant : Nat} (hn : w.now ≤ now) (hi : w.instant ≤ instant) :
      QuotaEvent ext cfg calls w (w.tick now instant)
  | restart {kept : List (Write Bytes Bytes)} {w' : World}
      (hk : w.storage.MayKeep kept)
      (h : Ends (Prim.Goes ext faultless) (NodeService.open ext).run
        (w.crash cfg kept w.wal.file) (.ok ()) w') :
      QuotaEvent ext cfg calls w w'

/-- A node just started on an empty data directory. -/
def Started (ext : Externals) (cfg : NodeConfig) (w : World) : Prop :=
  ∃ now instant, Ends (Prim.Goes ext faultless) (NodeService.open ext).run
    (.fresh cfg now instant) (.ok ()) w

/-- Some time later. -/
def QuotaReached (ext : Externals) (cfg : NodeConfig) (calls : Op → Prop)
    (w : World) : Prop :=
  ∃ w₀, Started ext cfg w₀
    ∧ Relation.ReflTransGen (QuotaEvent ext cfg calls) w₀ w

-- ============================================================= the decision

section Decision

variable {ext : Externals} {cfg : NodeConfig} {w g : World} {t : String}
  {u : Bytes}

/-- A legible entry can be sized. -/
theorem previousBytes_entry (h : Intact w) (ht : KeyCodec.ValidTenant t)
    (u : Bytes) : previousBytes u.length
      w.storage.contents[KeyCodec.bytesOf t .data u]? = .ok (w.entry t u) := by
  have hd := KeyCodec.decode_bytesOf ht .data u
  unfold World.entry
  cases hraw : w.storage.contents[KeyCodec.bytesOf t .data u]? with
  | none => rfl
  | some raw =>
      obtain ⟨sv, hsv⟩ := (h.legible hraw).2 raw rfl
      have hlen : ValueCodec.payloadLen raw = .ok sv.value.length := by
        rw [ValueCodec.payloadLen_eq, hsv]
        rfl
      have hprev := previousBytes_of_payloadLen hlen u.length
      rw [hprev, share_of_previousBytes hd hprev, if_pos rfl]

/-- The plan for a legible entry is its growth. -/
private theorem planned_entry (h : Intact w) (ht : KeyCodec.ValidTenant t)
    (u : Bytes) (n : Nat) :
    planned w (KeyCodec.bytesOf t .data u) n
      = .ok (some ⟨t, (entryBytes u.length n : Int) - w.entry t u⟩) := by
  rw [planned_of_data (KeyCodec.decode_bytesOf ht .data u),
    putPlan_of_ok (previousBytes_entry h ht u)]

/-- A legible entry can be deleted. -/
private theorem plannedDelete_entry (h : Intact w) (ht : KeyCodec.ValidTenant t)
    (u : Bytes) : ∃ plan,
      plannedDelete w (KeyCodec.bytesOf t .data u) = .ok plan := by
  have hprev := previousBytes_entry h ht u
  rw [plannedDelete_of_data (KeyCodec.decode_bytesOf ht .data u)]
  cases hraw : w.storage.contents[KeyCodec.bytesOf t .data u]? with
  | none => exact ⟨none, rfl⟩
  | some raw =>
      rw [hraw] at hprev
      exact ⟨_, deletePlan_of_ok hprev⟩

/-- An entry that does not grow passes any limit. -/
theorem verdict_shrinks {q : QuotaStore} {plan : Accounting}
    (h : plan.delta ≤ 0) : verdict q (some plan) = .ok () := by
  rw [verdict_some, if_pos (.inr h)]

/-- The check on the counter is the check on the data. -/
theorem verdict_entry (h : Exact w) {v : Bytes}
    (hs : w.stored t < 2 ^ 63) (hv : u.length + v.length < 2 ^ 63) :
    verdict w.quotas (some ⟨t, (entryBytes u.length v.length : Int)
        - w.entry t u⟩)
      = if NoRoom w t u v then
          .error (.quotaExceeded t (w.stored t
            + (u.length + v.length - w.entry t u)) (w.limit t))
        else .ok () := by
  have hle : w.entry t u ≤ w.stored t := share_le_storedBytes t _ _
  have hused : w.quotas.usedBytes t = w.stored t := h t
  have hdelta : ((entryBytes u.length v.length : Int) - w.entry t u).toNat
      = u.length + v.length - w.entry t u := by
    unfold entryBytes
    omega
  have hlimit : (w.quotas.quota t).maxBytes = w.limit t := rfl
  have hgrows : (entryBytes u.length v.length : Int) - w.entry t u ≤ 0
      ↔ u.length + v.length ≤ w.entry t u := by
    unfold entryBytes
    omega
  rw [verdict_some]
  simp only [hdelta, hused, hlimit, hgrows]
  rw [saturatingAdd_eq (by unfold u64Max; omega)]
  by_cases hno : NoRoom w t u v
  · rw [if_pos hno]
    obtain ⟨hlimit, hgrows, hover⟩ := hno
    rw [if_neg (by omega), if_pos (by omega)]
  · rw [if_neg hno]
    unfold NoRoom at hno
    split
    · rfl
    · rw [if_neg (by omega)]

end Decision

-- =============================================================== the effects

/-- The limits are the same and nobody has more stored. -/
structure Shrunk (w g : World) : Prop where
  limit : ∀ t, g.limit t = w.limit t
  stored : ∀ t, g.stored t ≤ w.stored t

section Effects

variable {ext : Externals} {cfg : NodeConfig} {w g : World} {t : String}

theorem Shrunk.refl (w : World) : Shrunk w w := ⟨fun _ => rfl, fun _ => le_rfl⟩

theorem Shrunk.trans {g' : World} (h : Shrunk w g) (h' : Shrunk g g') :
    Shrunk w g' :=
  ⟨fun t => (h'.limit t).trans (h.limit t),
    fun t => (h'.stored t).trans (h.stored t)⟩

/-- A node that has not moved has not grown. -/
theorem Unmoved.shrunk (h : Unmoved w g) : Shrunk w g := by
  refine ⟨fun t => ?_, fun t => ?_⟩
  · unfold World.limit
    rw [h.quotas]
  · unfold World.stored
    rw [h.storage]

/-- Shrinking keeps a tenant within its limit. -/
theorem Shrunk.within (h : Shrunk w g) (hw : Within t w) : Within t g := by
  have hl := h.limit t
  have hs := h.stored t
  unfold Within at hw ⊢
  omega

/-- The write trades one entry for another. -/
theorem Rewrote.stored {write : Write Bytes Bytes} (h : Rewrote write w g)
    (t : String) :
    g.stored t + share t write.key w.storage.contents[write.key]?
      = w.stored t + share t write.key write.value := by
  have hcongr : g.stored t
      = storedBytes t (apply w.storage.contents write) := by
    refine storedBytes_congr (fun k hk => ?_) t
    rw [h.data k hk, getElem?_apply]
    rfl
  rw [hcongr]
  exact storedBytes_apply t _ write

/-- A write changes no limit. -/
theorem Rewrote.limit {write : Write Bytes Bytes} (h : Rewrote write w g)
    (t : String) : g.limit t = w.limit t := by
  unfold World.limit
  rw [h.quota t]

/-- A delete makes nobody's data larger. -/
theorem Rewrote.shrunk {key : Bytes} (h : Rewrote (.delete key) w g) :
    Shrunk w g := by
  refine ⟨h.limit, fun t => ?_⟩
  have hs : g.stored t + share t key w.storage.contents[key]?
      = w.stored t + 0 := h.stored t
  omega

/-- A delete, refused or not, only shrinks. -/
private theorem wp_delete_shrunk (w : World) (key : Bytes) :
    wp (calm ext) (fun g _ => Shrunk w g) (NodeService.delete cfg key).run
      w := by
  refine wp_mono ?_ (wp_delete_outcome w key)
  rintro g (e | u) ⟨-, hg⟩
  · exact Unmoved.shrunk hg
  · exact Rewrote.shrunk hg

/-- Reading and scheduling neither grow nor shrink. -/
private theorem shrunk_index {p : Prim} (h : Shrunk w g)
    (hp : p.Sweeps ∨ p.Schedules) :
    (calm ext).post g p fun _ g' => Shrunk w g' := by
  refine calm_post fun now instant => ?_
  obtain (rfl | ⟨now', rfl⟩ | ⟨key, rfl⟩) | (⟨key, exp, rfl⟩ | rfl) := hp <;>
    exact ⟨h.limit, h.stored⟩

/-- A sweep only shrinks. -/
private theorem sweepOnce_shrunk :
    (sweepOnce cfg).Preserves (calm ext) (Shrunk w) := by
  refine sweepOnce_preserves (fun _ _ h hp => shrunk_index h (.inl hp))
    (fun key raw => (reschedule_uses key raw).preserves
      fun _ _ h hp => shrunk_index h (.inr hp)) fun key g hg => ?_
  exact wp_mono (fun _ _ h => hg.trans h) (wp_delete_shrunk g key)

/-- Reads do not grow anything. -/
private theorem wp_unmoved_shrunk {α : Type} {x : NodeProg α}
    (hx : x.Uses Prim.Reads) (w : World) :
    wp (calm ext) (fun g _ => Shrunk w g) x w :=
  wp_mono (fun _ _ h => h.shrunk) (wp_unmoved hx w)

/-- A put that passes the check stays within the limit. -/
theorem Rewrote.within {key value : Bytes} {exp : Option Nat}
    (h : Rewrote (.put key (ValueCodec.encode value exp)) w g)
    (hexp : ∀ e ∈ exp, e < 2 ^ 64) (hexact : Exact w)
    (hok : (planned w key value.length).bind (verdict w.quotas) = .ok ())
    (hw : Within t w) (hsize : g.stored t < 2 ^ 63) : Within t g := by
  have hl := h.limit t
  have hmove : g.stored t + share t key w.storage.contents[key]?
      = w.stored t + share t key (some (ValueCodec.encode value exp)) :=
    h.stored t
  have hused : w.quotas.usedBytes t = w.stored t := hexact t
  have hle : share t key w.storage.contents[key]? ≤ w.stored t :=
    share_le_storedBytes t _ _
  unfold Within at hw ⊢
  -- a write counts for this tenant only if the key is one of their data keys
  by_cases hd : ∃ payload, KeyCodec.decode key = .ok (t, .data, payload)
  · obtain ⟨payload, hd⟩ := hd
    have hnew : share t key (some (ValueCodec.encode value exp))
        = payload.length + value.length := by
      show entryCount t key _ = _
      unfold entryCount
      simp only [hd, ValueCodec.decode_encode value hexp, if_true]
    rw [planned_of_data hd] at hok
    cases hprev : previousBytes payload.length w.storage.contents[key]? with
    | error e =>
        rw [putPlan_of_error hprev] at hok
        cases hok
    | ok previous =>
        rw [share_of_previousBytes hd hprev, if_pos rfl] at hmove hle
        rw [putPlan_of_ok hprev] at hok
        replace hok : verdict w.quotas (some ⟨t,
          (entryBytes payload.length value.length : Int) - previous⟩)
            = .ok () := hok
        rw [verdict_some] at hok
        unfold entryBytes at hok
        dsimp only at hok
        split at hok
        · next hfree =>
          change w.limit t = 0 ∨ _ at hfree
          omega
        · split at hok
          · cases hok
          -- the quota held against what is used, which is what is stored: the
          -- new entry replaces the old one in both sums
          · next hover =>
            rw [saturatingAdd_eq (by unfold u64Max; omega), hused] at hover
            change ¬ _ > w.limit t at hover
            omega
  · have hz : ∀ o, share t key o = 0 := by
      intro o
      by_cases hdata : IsData key
      · obtain ⟨t', payload, hd'⟩ := hdata
        refine share_of_ne hd' ?_ o
        rintro rfl
        exact hd ⟨payload, hd'⟩
      · exact share_of_not_data hdata t o
    rw [hz, hz] at hmove
    omega

/-- No call leads past the limit. -/
theorem wp_prog_within (hexact : Exact w) (hw : Within t w) (op : Op) :
    wp (calm ext) (fun g _ => g.stored t < 2 ^ 63 → Within t g)
      (op.prog cfg) w := by
  have hshrunk : ∀ {α : Type} {x : NodeProg α} {f : α → Answer},
      wp (calm ext) (fun g _ => Shrunk w g) x w →
      wp (calm ext) (fun g _ => g.stored t < 2 ^ 63 → Within t g) (f <$> x)
        w := by
    intro α x f hx
    refine (wp_map _ _ _).mpr (wp_mono ?_ hx)
    exact fun g _ h _ => h.within hw
  have hsame : ∀ {w' : World}, w'.quotas = w.quotas → w'.storage = w.storage →
      Shrunk w w' := fun hq hs => Unmoved.shrunk ⟨hs, hq⟩
  cases op with
  | put key value ttlMs =>
      refine (wp_map _ _ _).mpr (wp_mono ?_ (wp_put_outcome w key value ttlMs))
      rintro g r ⟨hr, hg⟩ hsize
      match r, hr, hg with
      | .error e, _, hg => exact (Unmoved.shrunk hg).within hw
      | .ok (), hr, ⟨exp, hexp, _, hg⟩ =>
          exact hg.within hexp hexact hr.symm hw hsize
  | delete key => exact hshrunk (wp_delete_shrunk w key)
  | get key => exact hshrunk (wp_unmoved_shrunk (get_uses key) w)
  | scan pre =>
      refine hshrunk ((wp_bindE _ _ _).mpr (calm_post fun _ _ =>
        (wp_lift _ _).mpr (calm_post fun _ _ => ?_)))
      show Shrunk w _
      exact hsame rfl rfl
  | scanRange start stop =>
      refine hshrunk ((wp_bindE _ _ _).mpr (calm_post fun _ _ =>
        (wp_lift _ _).mpr (calm_post fun _ _ => ?_)))
      show Shrunk w _
      exact hsame rfl rfl
  | sweep => exact hshrunk (sweepOnce_shrunk w (.refl w))

-- ============================================================ administration

/-- The counters are the same, and everybody has as much stored. -/
structure SameCount (w g : World) : Prop where
  usage : g.quotas.usage = w.quotas.usage
  stored : ∀ t, g.stored t = w.stored t

/-- Counters that were exact are. -/
theorem SameCount.exact (h : SameCount w g) (hw : Exact w) : Exact g := by
  intro t
  refine Eq.trans ?_ ((hw t).trans (h.stored t).symm)
  unfold QuotaStore.usedBytes
  rw [h.usage]

/-- A write to no data changes nobody's stored bytes. -/
private theorem stored_aside (write : Write Bytes Bytes)
    (hd : ¬ IsData write.key) (w : World) (t : String) :
    storedBytes t (w.storage.write write).contents = w.stored t := by
  rw [StorageBackend.contents_write, storedBytes_apply_of_not_data hd]
  rfl

/-- Setting a quota counts nothing. -/
private theorem wp_setQuota_sameCount (w : World) (t : String) (q : Quota) :
    wp (calm ext) (fun g _ => SameCount w g) (setQuota ext t q).run w := by
  unfold setQuota
  cases hk : KeyCodec.encode t .metadata quotaKey with
  | error e => exact ⟨rfl, fun _ => rfl⟩
  | ok key =>
      refine calm_post fun now instant => calm_post fun now' instant' => ?_
      exact ⟨rfl, fun t' => stored_aside (.put key _)
        (not_isData_encode hk (by decide)) w t'⟩

private theorem wp_clearQuota_sameCount (w : World) (t : String) :
    wp (calm ext) (fun g _ => SameCount w g) (clearQuota t).run w := by
  unfold clearQuota
  cases hk : KeyCodec.encode t .metadata quotaKey with
  | error e => exact ⟨rfl, fun _ => rfl⟩
  | ok key =>
      refine calm_post fun now instant => calm_post fun now' instant' => ?_
      exact ⟨rfl, fun t' => stored_aside (.delete key)
        (not_isData_encode hk (by decide)) w t'⟩

end Effects

-- ==================================================================== runs

section Runs

variable {ext : Externals} {cfg : NodeConfig} {w w' : World} {t : String}

/-- What the books say of a program, they say of a run without errors. -/
theorem wp_calm_of_usage {α : Type} {x : NodeProg α}
    {Q : World → α → Prop} (h : wp (usageRules ext) Q x w) :
    wp (calm ext) Q x w := by
  refine wp_of_steps (fun g p r g' hp => ?_) h
  obtain ⟨now, instant, fault, -, -, -, he⟩ := hp
  exact ⟨now, instant, fault, he⟩

/-- The counters are exact once the node has started. -/
theorem Started.exact (h : Started ext cfg w) : Exact w := by
  obtain ⟨now, instant, hends⟩ := h
  exact hends.post (wp_calm_of_usage (wp_open _)) rfl

/-- They stay so whatever the calls are: a restart counts the data it
finds. -/
theorem QuotaEvent.exact {calls : Op → Prop}
    (h : QuotaEvent ext cfg calls w w') (hexact : Exact w) : Exact w' := by
  cases h with
  | call _ h => exact h.post (wp_calm_of_usage (wp_prog hexact _))
  | set h => exact (h.post (wp_setQuota_sameCount w _ _)).exact hexact
  | clear h => exact (h.post (wp_clearQuota_sameCount w _)).exact hexact
  | tick => exact hexact
  | restart _ h => exact h.post (wp_calm_of_usage (wp_open _)) rfl

/-- One call at a time and no I/O error: the counters are exact. -/
theorem QuotaReached.exact {calls : Op → Prop}
    (h : QuotaReached ext cfg calls w) : Exact w := by
  obtain ⟨w₀, hstart, hrun⟩ := h
  induction hrun with
  | refl => exact hstart.exact
  | tail _ hstep ih => exact hstep.exact ih

/-- A node starts with a legible store and nobody's data in it. -/
theorem Started.inv (h : Started ext cfg w) :
    Intact w ∧ ∀ t, w.stored t = 0 := by
  obtain ⟨now, instant, hends⟩ := h
  obtain ⟨hintact, hdata⟩ :=
    hends.post (wp_open_restored (found_fresh cfg now instant)) rfl
  refine ⟨hintact, fun t => ?_⟩
  have hempty : w.stored t = storedBytes t ∅ := by
    refine storedBytes_congr (fun k hk => ?_) t
    rw [hdata k hk]
    exact ExtTreeMap.getElem?_empty.symm
  rw [hempty]
  rfl

/-- Calls that fit a log frame keep the store legible, and what a restart
reads of the log with it. -/
theorem QuotaEvent.intact (h : QuotaEvent ext cfg Op.Fits w w')
    (hintact : Intact w) : Intact w' := by
  cases h with
  | call hop h => exact h.post (prog_intact hop w hintact)
  | set h => exact h.post (setQuota_intact _ _ w hintact)
  | clear h => exact h.post (clearQuota_intact _ w hintact)
  | tick hn hi => exact hintact.tick _ _
  | restart hk h => exact (h.post (wp_open_restored (hintact.found hk)) rfl).1

/-- So it is in every state reached by such calls. -/
theorem QuotaReached.intact (h : QuotaReached ext cfg Op.Fits w) : Intact w := by
  obtain ⟨w₀, hstart, hrun⟩ := h
  induction hrun with
  | refl => exact hstart.inv.1
  | tail _ hstep ih => exact hstep.intact ih

/-- One event keeps a tenant within a limit that is not cut. -/
theorem QuotaEvent.within (h : QuotaEvent ext cfg Op.Fits w w')
    (hintact : Intact w) (hexact : Exact w) (hcut : NotCut t w w')
    (hsize : w'.stored t < 2 ^ 63) (hw : Within t w) : Within t w' := by
  have hsame : w'.stored t = w.stored t → Within t w' := by
    intro hs
    unfold NotCut at hcut
    unfold Within at hw ⊢
    omega
  cases h with
  | call hop h => exact h.post (wp_prog_within hexact hw _) hsize
  | set h => exact hsame ((h.post (wp_setQuota_sameCount w _ _)).stored t)
  | clear h => exact hsame ((h.post (wp_clearQuota_sameCount w _)).stored t)
  | tick hn hi => exact hw
  | restart hk h =>
      exact hsame (storedBytes_congr
        (h.post (wp_open_restored (hintact.found hk)) rfl).2 t)

/-- A tenant stays within a limit that is not cut below what is stored. The
induction carries the counters too: one that is off would let a put past the
limit. -/
private theorem within_of_events {w₀ : World} (hstart : Started ext cfg w₀)
    (hrun : Relation.ReflTransGen (fun a b => QuotaEvent ext cfg Op.Fits a b
      ∧ NotCut t a b ∧ b.stored t < 2 ^ 63) w₀ w) :
    (Intact w ∧ Exact w) ∧ Within t w := by
  obtain ⟨hintact, hzero⟩ := hstart.inv
  induction hrun with
  | refl =>
      refine ⟨⟨hintact, hstart.exact⟩, .inr ?_⟩
      rw [hzero t]
      exact Nat.zero_le _
  | tail _ hstep ih =>
      obtain ⟨hevent, hcut, hsize⟩ := hstep
      obtain ⟨⟨hkept, hexact⟩, hwithin⟩ := ih
      exact ⟨⟨hevent.intact hkept, hevent.exact hexact⟩,
        hevent.within hkept hexact hcut hsize hwithin⟩

/-- Quota refusals are the writes that would not fit, in every state a
sequential run without I/O errors reaches whose keys and values fit the
length fields of a log frame. A limit that is never set below the stored
bytes is never exceeded, and shrinking and deleting never fail. -/
theorem quota_refuses_exactly (ext : Externals) (cfg : NodeConfig) :
    (∀ w, QuotaReached ext cfg Op.Fits w →
      ∀ t, KeyCodec.ValidTenant t → ∀ (u v : Bytes) (ttlMs : Nat),
      w.stored t < 2 ^ 63 → u.length + v.length < 2 ^ 63 →
      ∀ r w', Ends (Prim.Goes ext faultless)
        (putWithTtl cfg (KeyCodec.bytesOf t .data u) v ttlMs).run w r w' →
      ((∃ used limit, r = .error (.quotaExceeded t used limit))
          ↔ NoRoom w t u v)
        ∧ (¬ NoRoom w t u v → r = .ok ()))
    ∧ (∀ t w₀ w, Started ext cfg w₀ → Relation.ReflTransGen
        (fun a b => QuotaEvent ext cfg Op.Fits a b ∧ NotCut t a b
          ∧ b.stored t < 2 ^ 63) w₀ w → Within t w)
    ∧ (∀ w, QuotaReached ext cfg Op.Fits w →
      ∀ t, KeyCodec.ValidTenant t → ∀ u : Bytes,
      (∀ (v : Bytes) (ttlMs : Nat), u.length + v.length ≤ w.entry t u →
        ∀ r w', Ends (Prim.Goes ext faultless)
          (putWithTtl cfg (KeyCodec.bytesOf t .data u) v ttlMs).run w r w' →
        r = .ok ())
      ∧ ∀ r w', Ends (Prim.Goes ext faultless)
          (NodeService.delete cfg (KeyCodec.bytesOf t .data u)).run w r w' →
        r = .ok ()) := by
  refine ⟨?_, ?_, ?_⟩
  · intro w hreach t ht u v ttlMs hs hv r w' hput
    -- the answer is the verdict on the plan, and both are known from what is
    -- stored
    obtain ⟨rfl, -⟩ := hput.post (wp_put_outcome w _ v ttlMs)
    rw [planned_entry hreach.intact ht, Except.bind,
      verdict_entry hreach.exact hs hv]
    by_cases hno : NoRoom w t u v
    · rw [if_pos hno]
      exact ⟨⟨fun _ => hno, fun _ => ⟨_, _, rfl⟩⟩, fun h => absurd hno h⟩
    · rw [if_neg hno]
      exact ⟨⟨(fun ⟨_, _, he⟩ => nomatch he), fun h => absurd h hno⟩,
        fun _ => rfl⟩
  · intro t w₀ w hstart hrun
    exact (within_of_events hstart hrun).2
  · intro w hreach t ht u
    have hintact := hreach.intact
    refine ⟨fun v ttlMs hle r w' hput => ?_, fun r w' hdelete => ?_⟩
    · obtain ⟨rfl, -⟩ := hput.post (wp_put_outcome w _ v ttlMs)
      -- a put that does not grow the entry is not held against the limit at
      -- all
      rw [planned_entry hintact ht]
      refine verdict_shrinks ?_
      show ((entryBytes u.length v.length : Nat) : Int) - _ ≤ 0
      unfold entryBytes
      omega
    · obtain ⟨rfl, -⟩ := hdelete.post (wp_delete_outcome w _)
      obtain ⟨plan, hplan⟩ := plannedDelete_entry hintact ht u
      rw [hplan]
      rfl

/-- The empty node of a backend. -/
def idleNode (backend : Backend) : World :=
  ((NodeService.open .json).run.run (Prim.exec .json none)
    (.fresh { backend := backend } 0 0)).2

theorem idleNode_started (backend : Backend) :
    Started .json { backend := backend } (idleNode backend) := by
  have hends := ends_run (goes_exec .json) (NodeService.open .json).run
    (.fresh { backend := backend } 0 0)
  have hok : ((NodeService.open .json).run.run (Prim.exec .json none)
      (.fresh { backend := backend } 0 0)).1 = .ok () := by
    cases backend <;> decide +kernel
  rw [hok] at hends
  exact ⟨0, 0, hends⟩

/-- A limit of one byte. -/
def limited (w : World) : World :=
  ((setQuota .json "a" ⟨1, 0⟩).run.run (Prim.exec .json none) w).2

/-- The operator can set such a limit at any time. -/
theorem limited_event (cfg : NodeConfig) (calls : Op → Prop) (w : World) :
    QuotaEvent .json cfg calls w (limited w) :=
  .set (ends_run (goes_exec .json) _ w)

/-- A node with a limit of four bytes. -/
def roomy : World :=
  ((setQuota .json "a" ⟨4, 0⟩).run.run (Prim.exec .json none)
    (idleNode .fjall)).2

/-- It stores two bytes under a one-byte key. -/
def filled : World :=
  (((Op.put (KeyCodec.bytesOf "a" .data [1]) [2, 3] 0).prog {}).run
    (Prim.exec .json none) roomy).2

/-- Five bytes are refused where three of four are in use. Once the limit is
cut to one byte, the entry can still shrink to two, and go. -/
theorem quota_refuses_exactly_filled :
    (∃ used limit, ((putWithTtl {} (KeyCodec.bytesOf "a" .data [1])
        [2, 3, 4, 5] 0).run.run (Prim.exec .json none) filled).1
      = .error (.quotaExceeded "a" used limit))
    ∧ (filled.stored "a" = 3 ∧ Within "a" filled)
    ∧ ((limited filled).limit "a" = 1
      ∧ ((putWithTtl {} (KeyCodec.bytesOf "a" .data [1]) [2] 0).run.run
        (Prim.exec .json none) (limited filled)).1 = .ok ()
      ∧ ((NodeService.delete {} (KeyCodec.bytesOf "a" .data [1])).run.run
        (Prim.exec .json none) (limited filled)).1 = .ok ()) := by
  have hset : QuotaEvent .json {} Op.Fits (idleNode .fjall) roomy :=
    .set (ends_run (goes_exec .json) _ _)
  have hfits : Op.Fits (.put (KeyCodec.bytesOf "a" .data [1]) [2, 3] 0) :=
    ⟨by decide +kernel, by decide +kernel⟩
  have hput : QuotaEvent .json {} Op.Fits roomy filled :=
    .call hfits (ends_run (goes_exec .json) _ _)
  have hfilled : QuotaReached .json {} Op.Fits filled :=
    ⟨_, idleNode_started .fjall, .tail (.single hset) hput⟩
  have hcut : QuotaReached .json {} Op.Fits (limited filled) :=
    ⟨_, idleNode_started .fjall,
      .tail (.tail (.single hset) hput) (limited_event _ _ _)⟩
  obtain ⟨hrefuse, hwithin, hshrink⟩ := quota_refuses_exactly .json {}
  obtain ⟨hsmaller, hdelete⟩ := hshrink _ hcut "a" (by decide) [1]
  refine ⟨?_, ⟨by decide +kernel, ?_⟩, by decide +kernel, ?_, ?_⟩
  · exact ((hrefuse _ hfilled "a" (by decide) [1] [2, 3, 4, 5] 0
      (by decide +kernel) (by decide) _ _
      (ends_run (goes_exec .json) _ _)).1).mpr (by decide +kernel)
  · exact hwithin "a" _ _ (idleNode_started .fjall) (.tail
      (.single ⟨hset, .inr (.inr (by decide +kernel)), by decide +kernel⟩)
      ⟨hput, .inl (by decide +kernel), by decide +kernel⟩)
  · exact hsmaller [2] 0 (by decide +kernel) _ _
      (ends_run (goes_exec .json) _ _)
  · exact hdelete _ _ (ends_run (goes_exec .json) _ _)

end Runs

-- ========================================================= a wrapped length

/-- A key whose empty put has a CRC that starts with a zero byte. -/
def wrapKey : Bytes := KeyCodec.bytesOf "a" .data [83]

/-- Its first record, with an empty value. -/
def wrapRecord : WalRecord := ⟨0, .put, wrapKey, []⟩

/-- Encoded, this is the CRC of that record followed by zeros, `2 ^ 32` bytes
in all. -/
def wrapValue : Bytes := [6, 16, 202] ++ List.replicate (2 ^ 32 - 4) 0

/-- The long value starts with the CRC of the record with an empty one. -/
private theorem encode_wrapValue : ValueCodec.encode wrapValue none
    = leBytes 4 wrapRecord.crc ++ List.replicate (2 ^ 32 - 4) 0 := by
  have hcrc : leBytes 4 wrapRecord.crc = [0, 6, 16, 202] := by decide +kernel
  rw [hcrc, ValueCodec.encode, wrapValue]
  simp only [List.cons_append, List.nil_append, ValueCodec.versionNoTtl]

/-- The frame of the long value starts with the whole frame of the empty
one. -/
theorem encodeFrame_wrapValue : ∃ tail, parseFrame tail = none
    ∧ encodeFrame 0 .put wrapKey (ValueCodec.encode wrapValue none)
      = frames [wrapRecord] ++ tail := by
  have hlen : (ValueCodec.encode wrapValue none).length = 2 ^ 32 := by
    rw [encode_wrapValue, List.length_append, length_leBytes,
      List.length_replicate]
    norm_num
  have hzero : leBytes 4 (2 ^ 32) = leBytes 4 0 := by decide
  generalize hc : leBytes 4 (Crc32.hash (frameBody 0 .put wrapKey
    (ValueCodec.encode wrapValue none))).toNat = crc
  refine ⟨List.replicate (2 ^ 32 - 4) 0 ++ crc, ?_, ?_⟩
  · have hop : (List.replicate (2 ^ 32 - 4) (0 : UInt8) ++ crc)[8]?
        = some 0 := by
      rw [List.getElem?_append_left (by rw [List.length_replicate]; omega),
        List.getElem?_replicate, if_pos (by omega)]
    unfold parseFrame
    rw [hop]
    split <;> rfl
  · rw [encodeFrame, hc, frameBody, hlen, hzero, encode_wrapValue, frames_cons,
      frames_nil, WalRecord.frame, encodeFrame, frameBody]
    simp only [wrapRecord, List.length_nil, List.append_nil, WalRecord.crc,
      frameBody, List.append_assoc]

section Wrapped

variable {ext : Externals} {cfg : NodeConfig} {w : World} {v : Wal}

/-- A memory node with the log `v`. -/
def Logs (v : Wal) (w : World) : Prop :=
  w.storage.isDurable = false ∧ w.wal = v

/-- Quiet steps and payments leave the log alone. -/
private theorem logs_step {p : Prim} (h : Logs v w) (hp : p.Quiet ∨ p.Pays) :
    (calm ext).post w p fun _ w' => Logs v w' := by
  refine calm_post fun now instant => ?_
  obtain hp | ⟨t, delta, rfl⟩ | ⟨t, key, value, -, rfl⟩ := hp
  · obtain ⟨hwal, hstorage⟩ := hp.exec ext (w.tick now instant)
    exact ⟨by rw [hstorage]; exact h.1, hwal.trans h.2⟩
  · exact h
  · exact ⟨(StorageBackend.isDurable_write _ _).trans h.1, h.2⟩

theorem logs_quiet {α : Type} {x : NodeProg α} (hx : x.Uses Prim.Quiet) :
    x.Preserves (calm ext) (Logs v) :=
  hx.preserves fun _ _ h hp => logs_step h (.inl hp)

/-- A memory node never rotates. -/
private theorem rotateWalIfNeeded_logs :
    (rotateWalIfNeeded cfg).Preserves (calm ext) (Logs v) := by
  intro w h
  refine calm_post fun now instant => ?_
  show wp _ _ (if w.storage.isDurable = true then _ else _) _
  rw [if_neg (by rw [h.1]; decide)]
  exact h

/-- The end of a put leaves its log as the append left it. -/
private theorem settle_logs (plan : Option Accounting) (key value : Bytes) :
    (ExceptT.run (do
      commitAccounting plan
      publishChange key .put value
      rotateWalIfNeeded cfg : NodeM Unit)).Preserves (calm ext) (Logs v) := by
  refine preserves_bindE (preserves_lift ((commitAccounting_uses plan).preserves
    fun _ _ h hp => logs_step h (.inr hp))) fun _ => ?_
  refine preserves_bindE (preserves_lift (logs_quiet
    ((publishChange_uses key .put value).mono fun _ hp => hp.quiet)))
    fun _ => ?_
  exact preserves_lift rotateWalIfNeeded_logs

/-- What the log of a memory node is after a put without a stamp. -/
theorem wp_put_log {key value : Bytes} (hd : w.storage.isDurable = false) :
    wp (calm ext) (fun g r => r = .ok () → Logs
        (w.wal.append none .put key (ValueCodec.encode value none)).2 g)
      (putWithTtl cfg key value 0).run w := by
  show wp _ _ (ExceptT.run (planAccounting key value.length >>= _)) w
  have hw : Logs w.wal w := ⟨hd, rfl⟩
  refine (wp_bindE _ _ _).mpr (wp_mono ?_ (logs_quiet
    ((planAccounting_uses key value.length).mono fun _ hp => hp.quiet) w hw))
  rintro w₁ (e | plan) h₁
  · exact nofun
  refine (wp_bindE _ _ _).mpr (wp_mono ?_ (logs_quiet
    ((checkAccounting_uses plan).mono fun _ hp => hp.quiet) w₁ h₁))
  rintro w₂ (e | u) h₂
  · exact nofun
  refine (wp_bindE _ _ _).mpr (calm_post fun now instant => ?_)
  refine (wp_bindE _ _ _).mpr (calm_post fun now' instant' => ?_)
  have h₃ : Logs (w.wal.append none .put key
      (ValueCodec.encode value none)).2
      (Prim.exec ext none (.storage (.put key (ValueCodec.encode value none)))
        ((Prim.exec ext none (.wal (.append .put key
          (ValueCodec.encode value none)))
          (w₂.tick now instant)).2.tick now' instant')).2 := by
    refine ⟨(StorageBackend.isDurable_write _ _).trans h₂.1, ?_⟩
    rw [← h₂.2]
    rfl
  show wp _ _ (ExceptT.run (do
    commitAccounting plan
    publishChange key .put value
    rotateWalIfNeeded cfg : NodeM Unit)) _
  exact wp_mono (fun _ r h (_ : r = .ok ()) => h)
    (settle_logs plan key value _ h₃)

/-- The clock stands still. -/
theorem run_clock {α : Type} (x : NodeProg α) (w : World) :
    (x.run (Prim.exec ext none) w).2.now = w.now
      ∧ (x.run (Prim.exec ext none) w).2.instant = w.instant := by
  induction x generalizing w with
  | ret a => exact ⟨rfl, rfl⟩
  | act p k ih =>
      obtain ⟨hn, hi⟩ := ih _ (p.exec ext none w).2
      have hexec : (p.exec ext none w).2.now = w.now
          ∧ (p.exec ext none w).2.instant = w.instant := by
        cases p with
        | wal q => cases q <;> exact ⟨rfl, rfl⟩
        | _ => exact ⟨rfl, rfl⟩
      exact ⟨hn.trans hexec.1, hi.trans hexec.2⟩

/-- Only the file is left of a memory node. -/
theorem Logs.crash (h : Logs v w) : w.crash cfg [] w.wal.file
    = .boot cfg w.now w.instant (.memory ⟨∅⟩) v.file := by
  have hs : w.storage.survive [] = .memory ⟨∅⟩ := by
    have hd := h.1
    revert hd
    cases w.storage with
    | memory m => exact fun _ => rfl
    | fjall s => exact fun h => nomatch h
  rw [World.crash, hs, h.2]

/-- A start does not care what follows the last frame. -/
theorem run_open_tail {base now instant : Nat} {s : StorageBackend}
    {records : List WalRecord} {tail tail' : Bytes} (hb : base < 2 ^ 64)
    (hf : ∀ r ∈ records, r.Fits) (ht : parseFrame tail = none)
    (ht' : parseFrame tail' = none) :
    (NodeService.open ext).run.run (Prim.exec ext none)
        (.boot cfg now instant s (encodeHeader base ++ (frames records ++ tail)))
      = (NodeService.open ext).run.run (Prim.exec ext none)
        (.boot cfg now instant s
          (encodeHeader base ++ (frames records ++ tail'))) := by
  have hopen := open_frames hb hf ht
  have hopen' := open_frames hb hf ht'
  unfold NodeService.open
  rw [run_bindE, run_bindE]
  simp only [walOpen, WalPrim.call, ExceptT.run_mk, run_step, Prim.exec,
    WalPrim.exec, World.boot, hopen, hopen']

end Wrapped

/-- The memory node after a put of the value. -/
def lengthy (value : Bytes) : World :=
  ((putWithTtl { backend := .memory } wrapKey value 0).run.run
    (Prim.exec .json none) (idleNode .memory)).2

/-- A put of any value is an event. -/
private theorem lengthy_event (value : Bytes) :
    QuotaEvent .json { backend := .memory } (fun _ => True)
      (idleNode .memory) (lengthy value) := by
  have hends := ends_run (goes_exec .json)
    (Op.prog { backend := .memory } (.put wrapKey value 0)) (idleNode .memory)
  have hend : ((Op.prog { backend := .memory } (.put wrapKey value 0)).run
      (Prim.exec .json none) (idleNode .memory)).2 = lengthy value := by
    rw [Op.prog, run_map, lengthy]
  rw [hend] at hends
  exact .call trivial hends

/-- It leaves the log its append made. -/
private theorem lengthy_logs (value : Bytes) :
    Logs ((idleNode .memory).wal.append none .put wrapKey
      (ValueCodec.encode value none)).2 (lengthy value) := by
  have hends := ends_run (goes_exec .json)
    (putWithTtl { backend := .memory } wrapKey value 0).run (idleNode .memory)
  have hok := (hends.post (wp_put_outcome _ _ _ _)).1
  have hdecode : KeyCodec.decode wrapKey = .ok ("a", .data, [83]) := by
    decide +kernel
  have hlimit : ((idleNode .memory).quotas.quota "a").maxBytes = 0 := by
    decide +kernel
  have habsent : (idleNode .memory).storage.contents[wrapKey]? = none := by
    decide +kernel
  rw [planned_unlimited hdecode hlimit, habsent] at hok
  exact hends.post (wp_put_log (by decide +kernel)) hok

/-- What a restart makes of a frame that begins with the frame of the empty
value. -/
def misread : World :=
  ((NodeService.open .json).run.run (Prim.exec .json none)
    (.boot { backend := .memory } 0 0 (.memory ⟨∅⟩)
      (encodeHeader 0 ++ (frames [wrapRecord] ++ [])))).2

/-- A crash then leaves the frame, and a restart reads another record in it.
-/
private theorem lengthy_restart {value tail : Bytes}
    (htail : parseFrame tail = none)
    (hframe : encodeFrame 0 .put wrapKey (ValueCodec.encode value none)
      = frames [wrapRecord] ++ tail) :
    QuotaEvent .json { backend := .memory } (fun _ => True) (lengthy value)
      misread := by
  have hfile : ((idleNode .memory).wal.append none .put wrapKey
      (ValueCodec.encode value none)).2.file
        = encodeHeader 0 ++ (frames [wrapRecord] ++ tail) := by
    have hfile₀ : (idleNode .memory).wal.file = encodeHeader 0 := by
      decide +kernel
    have hbuf : (idleNode .memory).wal.buffered = [] := by decide +kernel
    have hseq : (idleNode .memory).wal.nextSeq = 0 := by decide +kernel
    rw [← hframe]
    simp only [Wal.append, hfile₀, hbuf, hseq, List.nil_append]
  have hfits : ∀ r ∈ [wrapRecord], r.Fits := by
    intro r hr
    obtain rfl := List.mem_singleton.mp hr
    exact ⟨by decide, by decide +kernel, by decide⟩
  have hclock := @run_clock .json _
    (putWithTtl { backend := .memory } wrapKey value 0).run (idleNode .memory)
  have hnow : (lengthy value).now = 0 := hclock.1.trans (by decide +kernel)
  have hinstant : (lengthy value).instant = 0 :=
    hclock.2.trans (by decide +kernel)
  have hcrash : (lengthy value).crash { backend := .memory } []
      (lengthy value).wal.file = .boot { backend := .memory } 0 0 (.memory ⟨∅⟩)
        (encodeHeader 0 ++ (frames [wrapRecord] ++ tail)) := by
    rw [(lengthy_logs value).crash, hfile, hnow, hinstant]
  have hends := ends_run (goes_exec .json) (NodeService.open .json).run
    ((lengthy value).crash { backend := .memory } [] (lengthy value).wal.file)
  have hok : ((NodeService.open .json).run.run (Prim.exec .json none)
      (.boot { backend := .memory } 0 0 (.memory ⟨∅⟩)
        (encodeHeader 0 ++ (frames [wrapRecord] ++ [])))).1 = .ok () := by
    decide +kernel
  rw [hcrash, run_open_tail (by decide) hfits htail parseFrame_nil, hok]
    at hends
  rw [← hcrash] at hends
  exact .restart (StorageBackend.mayKeep_nil _) hends

/-- A write that would not fit need not be refused for that: the entry
left by a value whose length wrapped does not parse. -/
theorem quota_refusal_missed :
    ∃ w, QuotaReached .json { backend := .memory } (fun _ => True) w
      ∧ NoRoom w "a" [83] [1]
      ∧ ((putWithTtl { backend := .memory } (KeyCodec.bytesOf "a" .data [83])
          [1] 0).run.run (Prim.exec .json none) w).1
        = .error (.corrupt "empty value") := by
  obtain ⟨tail, htail, hframe⟩ := encodeFrame_wrapValue
  refine ⟨limited misread, ⟨_, idleNode_started .memory, ?_⟩, ?_, ?_⟩
  · exact .tail (.tail (.single (lengthy_event wrapValue))
      (lengthy_restart htail hframe)) (limited_event _ _ _)
  · decide +kernel
  · decide +kernel

end FerrisKv
