/-
The sweeper misses no wake-up.

A call that schedules a key decides under the lock whether the sweeper has
to know, and tells it after the lock is released. Until it has, the loop
may be waiting for a moment that is too late; what holds at every moment is
that somebody still owes the loop a notification or a permit is there
(`Owed`), or that the target is right for every entry of the index
(`Trusted`). An insertion that owes nothing is no earlier than an entry
that was there, so the target is right for it too.

The same is kept of a wake-up that is still being computed, from the moment
the index was read (`Computes`).

`Trusted` compares in the clock's own unit: at the target the clock shows
at most the entry's millisecond, or the entry was due when the target was
computed and the target is that very instant.
-/
import FerrisKv.Node.Sweeper
import FerrisKv.Proofs.Node.Footprint
import FerrisKv.Proofs.Node.TtlIndex

namespace FerrisKv

open Std Prog NodeService

-- ============================================================== discipline

/-- Whether a call has a notification to give, after the step `p` was
answered. -/
def owesAfter : Bool → (p : Prim) → p.Resp → Bool
  | _, .ttl (.insert _ _), wake => wake
  | _, _, _ => false

/-- An insertion that asks for a notification is followed by it. -/
abbrev notifying : Rules Bool Prim Prim.Resp :=
  .ghost (fun owes p => owes = true → p = .ttl .notifyOne) owesAfter

/-- The program keeps to this, and owes nothing at its end. -/
def Notifying {α : Type} (x : NodeProg α) (owes : Bool) : Prop :=
  wp notifying (fun owes' _ => owes' = false) x owes

/-- A step that schedules nothing. -/
def Prim.Unscheduled : Prim → Prop
  | .ttl (.insert _ _) => False
  | _ => True

/-- A step off the index owes no notification. -/
private theorem owesAfter_unscheduled {p : Prim} (h : p.Unscheduled)
    (owes : Bool) (r : p.Resp) : owesAfter owes p r = false := by
  cases p with
  | ttl q =>
      cases q with
      | insert key exp => exact h.elim
      | _ => rfl
  | _ => rfl

section Discipline

variable {α : Type} {cfg : NodeConfig}

/-- The program owes nothing before and after. -/
abbrev OwesNothing (x : NodeProg α) : Prop :=
  x.Preserves notifying fun owes => owes = false

theorem settled_of_uses {x : NodeProg α} (hx : x.Uses Prim.Unscheduled) :
    OwesNothing x := by
  refine hx.preserves fun owes p howes hp => ⟨fun h => ?_, fun r =>
    owesAfter_unscheduled hp owes r⟩
  rw [howes] at h
  cases h

/-- `schedule` notifies whenever its insertion asks for it. -/
private theorem schedule_settled (key : Bytes) (exp : Nat) :
    OwesNothing (schedule key exp) := by
  rintro _ rfl
  refine ⟨nofun, fun wake => ?_⟩
  cases wake with
  | true => exact ⟨fun _ => rfl, fun _ => rfl⟩
  | false => exact rfl

private theorem scheduleExpiry_settled (key : Bytes) (exp : Option Nat) :
    OwesNothing (scheduleExpiry key exp) := by
  cases exp with
  | none => exact preserves_ret _
  | some e => exact schedule_settled key e

theorem Prim.Looks.unscheduled {p : Prim} (h : p.Looks) : p.Unscheduled := by
  obtain ⟨key, rfl⟩ := h
  exact trivial

theorem Prim.Reads.unscheduled {p : Prim} (h : p.Reads) : p.Unscheduled := by
  obtain rfl | ⟨key, rfl⟩ | ⟨t, rfl⟩ | ⟨t, rfl⟩ := h <;> exact trivial

theorem Prim.Settles.unscheduled {p : Prim} (h : p.Settles) :
    p.Unscheduled := by
  obtain (⟨t, d, rfl⟩ | ⟨t, key, value, hk, rfl⟩) | ⟨q, rfl⟩
    | (rfl | rfl | rfl | rfl) := h <;> exact trivial

/-- So does a put. -/
private theorem putWithTtl_settled (key value : Bytes) (ttlMs : Nat) :
    OwesNothing (putWithTtl cfg key value ttlMs).run := by
  refine preserves_bindE (preserves_lift (settled_of_uses
    ((expiryStamp_uses ttlMs).mono fun p hp => hp ▸ trivial))) fun exp => ?_
  refine preserves_bindE (settled_of_uses
    ((planAccounting_uses key _).mono fun _ hp => hp.unscheduled))
    fun plan => ?_
  refine preserves_bindE (settled_of_uses ((checkAccounting_uses plan).mono
    fun _ hp => Prim.Reads.unscheduled (.inr (.inr hp)))) fun _ => ?_
  refine preserves_bindE (settled_of_uses
    ((wp_step _).mpr ⟨trivial, fun _ => trivial⟩)) fun _ => ?_
  refine preserves_bindE (settled_of_uses
    ((wp_step _).mpr ⟨trivial, fun _ => trivial⟩)) fun _ => ?_
  refine preserves_bindE (preserves_lift (scheduleExpiry_settled key exp))
    fun _ => ?_
  exact settled_of_uses ((settle_uses plan key value .put cfg).mono
    fun _ hp => hp.unscheduled)

/-- A delete has nothing to notify of. -/
private theorem delete_settled (key : Bytes) :
    OwesNothing (NodeService.delete cfg key).run := by
  refine preserves_bindE (settled_of_uses
    ((planDeleteAccounting_uses key).mono fun _ hp => hp.unscheduled))
    fun plan => ?_
  refine preserves_bindE (settled_of_uses
    ((wp_step _).mpr ⟨trivial, fun _ => trivial⟩)) fun _ => ?_
  refine preserves_bindE (settled_of_uses
    ((wp_step _).mpr ⟨trivial, fun _ => trivial⟩)) fun _ => ?_
  exact settled_of_uses ((settle_uses plan key [] .delete cfg).mono
    fun _ hp => hp.unscheduled)

/-- A key put back is scheduled like any other. -/
private theorem reschedule_settled (key raw : Bytes) :
    OwesNothing (reschedule key raw) := by
  unfold reschedule
  split
  · exact preserves_ret _
  · exact scheduleExpiry_settled key _

private theorem sweepOnce_settled : OwesNothing (sweepOnce cfg) := by
  refine sweepOnce_preserves ?_ reschedule_settled delete_settled
  have hstep : ∀ p : Prim, p.Sweeps → p.Unscheduled := by
    rintro p (rfl | ⟨now, rfl⟩ | hp)
    · exact trivial
    · exact trivial
    · exact hp.unscheduled
  rintro _ p rfl hp
  exact ⟨nofun, fun r => owesAfter_unscheduled (hstep p hp) false r⟩

/-- No call does. -/
private theorem prog_settled (op : Op) : OwesNothing (op.prog cfg) := by
  cases op with
  | put key value ttlMs => exact preserves_map _ (putWithTtl_settled key value ttlMs)
  | delete key => exact preserves_map _ (delete_settled key)
  | get key =>
      exact preserves_map _ (settled_of_uses
        ((get_uses key).mono fun _ hp => hp.unscheduled))
  | scan pre =>
      refine preserves_map _ (settled_of_uses ?_)
      exact uses_bindE ((wp_step _).mpr ⟨trivial, fun _ => trivial⟩)
        fun raw => uses_lift ⟨trivial, fun _ => trivial⟩
  | scanRange start stop =>
      refine preserves_map _ (settled_of_uses ?_)
      exact uses_bindE ((wp_step _).mpr ⟨trivial, fun _ => trivial⟩)
        fun raw => uses_lift ⟨trivial, fun _ => trivial⟩
  | sweep => exact preserves_map _ sweepOnce_settled

end Discipline

-- =========================================================== the invariant

namespace SweeperNode

variable {S : SweeperSetting} {s s' : SweeperNode}

/-- A permit is there or about to be. -/
def Owed (s : SweeperNode) : Prop :=
  s.world.ttl.permit = true ∨ ∃ x ∈ s.calls, AboutToNotify x

/-- At `wakeAt` the clock shows at most `ts`, or `wakeAt` is the moment it
was computed. -/
def InTime (S : SweeperSetting) (s : SweeperNode) (wakeAt ts : Nat) : Prop :=
  (wakeAt + s.offset) / S.perMs ≤ ts ∨ wakeAt = s.since

/-- The target is right for every entry of the index. -/
def Trusted (S : SweeperSetting) (s : SweeperNode) (wakeAt : Nat) : Prop :=
  ∀ ts, s.world.ttl.Holds ts → InTime S s wakeAt ts

/-- A target that goes with the state. -/
structure Target (S : SweeperSetting) (s : SweeperNode) (wakeAt : Nat) :
    Prop where
  fallback : wakeAt ≤ s.since + S.fallback
  index : Owed s ∨ Trusted S s wakeAt

/-- The rest of `compute_wakeup` once the index was read. -/
def afterDue (S : SweeperSetting) (now : Nat) : Option Nat → WakeupProg Nat
  | some dueMs => .act .nowMs fun clockNow => .ret (if dueMs ≤ clockNow then now
      else min (now + (dueMs - clockNow) * S.perMs) (now + S.fallback))
  | none => .ret (now + S.fallback)

/-- The sweeper's computation, step by step: the clock, the next due stamp,
and the rest. -/
private theorem computeWakeup_eq : computeWakeup S.perMs S.fallback
    = .act .instantNow fun now => .act .nextDueMs (afterDue S now) := by
  refine congrArg _ (funext fun now => congrArg _ (funext fun due => ?_))
  cases due with
  | none => rfl
  | some dueMs =>
      refine congrArg (Prog.act WakeupPrim.nowMs) (funext fun clockNow => ?_)
      show (if _ then _ else _) = Prog.ret (if _ then _ else _)
      split <;> rfl

/-- How far a wake-up has been computed. -/
inductive Computes (S : SweeperSetting) (s : SweeperNode) :
    WakeupProg Nat → Prop where
  | start : Computes S s (computeWakeup S.perMs S.fallback)
  | instant : Computes S s (.act .nextDueMs (afterDue S s.since))
  | due {dueMs : Nat} (h : Owed s ∨ ∀ ts, s.world.ttl.Holds ts → dueMs ≤ ts) :
      Computes S s (afterDue S s.since (some dueMs))
  | done {wakeAt : Nat} (h : Target S s wakeAt) : Computes S s (.ret wakeAt)

/-- The loop will not oversleep. -/
def Alert (S : SweeperSetting) (s : SweeperNode) : Prop :=
  match s.phase with
  | .computing x => Computes S s x
  | .waiting wakeAt => Target S s wakeAt
  | .sweeping _ => True
  | .stopped => True

/-- What holds at every moment. -/
structure Attended (S : SweeperSetting) (s : SweeperNode) : Prop where
  clock : s.world.now = (s.world.instant + s.offset) / S.perMs
  since : s.since ≤ s.world.instant
  calls : ∀ x ∈ s.calls, ∃ owes, Notifying x owes
  alert : Alert S s

-- ============================================================ interference

/-- What anybody but the loop can do to it: every entry of the index is at
or after one that was there, or the loop is told. -/
structure Interferes (s s' : SweeperNode) : Prop where
  since : s'.since = s.since
  offset : s'.offset ≤ s.offset
  owed : Owed s → Owed s'
  index : Owed s' ∨ ∀ ts, s'.world.ttl.Holds ts →
    ∃ prev, s.world.ttl.Holds prev ∧ prev ≤ ts

/-- A wakeup in time for a stamp is in time for a later one. -/
theorem InTime.mono {wakeAt ts ts' : Nat} (h : InTime S s wakeAt ts)
    (hts : ts ≤ ts') (hsince : s'.since = s.since)
    (hoffset : s'.offset ≤ s.offset) : InTime S s' wakeAt ts' := by
  rcases h with h | h
  · have hle : wakeAt + s'.offset ≤ wakeAt + s.offset := by omega
    exact .inl ((Nat.div_le_div_right hle).trans (h.trans hts))
  · exact .inr (h.trans hsince.symm)

/-- What others do leaves the sweeper's target good. -/
theorem Interferes.target {wakeAt : Nat} (h : Interferes s s')
    (ht : Target S s wakeAt) : Target S s' wakeAt := by
  refine ⟨h.since ▸ ht.fallback, ?_⟩
  rcases ht.index with ho | htrust
  · exact .inl (h.owed ho)
  · refine h.index.imp_right fun hindex ts hts => ?_
    obtain ⟨prev, hprev, hle⟩ := hindex ts hts
    exact (htrust prev hprev).mono hle h.since h.offset

/-- It leaves the computation of one on course. -/
private theorem Interferes.computes {x : WakeupProg Nat} (h : Interferes s s')
    (hx : Computes S s x) : Computes S s' x := by
  cases hx with
  | start => exact .start
  | instant => exact h.since ▸ .instant
  | due hdue =>
      rw [← h.since]
      refine .due ?_
      rcases hdue with ho | hall
      · exact .inl (h.owed ho)
      · refine h.index.imp_right fun hindex ts hts => ?_
        obtain ⟨prev, hprev, hle⟩ := hindex ts hts
        exact (hall prev hprev).trans hle
  | done ht => exact .done (h.target ht)

/-- An alert sweeper stays alert. -/
theorem Interferes.alert (h : Interferes s s') (hphase : s'.phase = s.phase)
    (ha : Alert S s) : Alert S s' := by
  unfold Alert at *
  rw [hphase]
  cases hp : s.phase with
  | computing x => rw [hp] at ha; exact h.computes ha
  | waiting wakeAt => rw [hp] at ha; exact h.target ha
  | sweeping x => exact trivial
  | stopped => exact trivial

/-- A step of the loop that only moves it. -/
theorem interferes_phase (ph : SweeperPhase) :
    Interferes s { s with phase := ph } :=
  ⟨rfl, le_rfl, id, .inr fun ts hts => ⟨ts, hts, le_rfl⟩⟩

/-- A new call changes nothing yet. -/
theorem interferes_spawn (x : NodeProg Unit) :
    Interferes s { s with calls := s.calls ++ [x] } where
  since := rfl
  offset := le_rfl
  owed := Or.imp_right fun ⟨y, hy, hn⟩ =>
    ⟨y, List.mem_append_left _ hy, hn⟩
  index := .inr fun ts hts => ⟨ts, hts, le_rfl⟩

/-- What one step of a call does to the index. -/
theorem index_exec (ext : Externals) (fault : Option Fault) (p : Prim)
    (w : World) : (∃ key exp, p = .ttl (.insert key exp))
      ∨ p = .ttl .notifyOne
      ∨ (p ≠ .ttl .notifyOne
        ∧ (p.exec ext fault w).2.ttl.permit = w.ttl.permit
        ∧ ∀ ts, (p.exec ext fault w).2.ttl.Holds ts → w.ttl.Holds ts) := by
  cases p with
  | ttl q =>
      cases q with
      | insert key exp => exact .inl ⟨key, exp, rfl⟩
      | notifyOne => exact .inr (.inl rfl)
      | drainDue now =>
          exact .inr (.inr
            ⟨nofun, rfl, fun ts h => TtlIndex.Holds.of_drainDue h⟩)
  | _ => exact .inr (.inr ⟨nofun, rfl, fun ts h => h⟩)

/-- A call that owes a notification gives it next. -/
theorem aboutToNotify_of_owes {x : NodeProg Unit} (h : Notifying x true) :
    AboutToNotify x := by
  cases x with
  | ret a => cases h
  | act p k =>
      obtain rfl := h.1 rfl
      exact ⟨k, rfl⟩

/-- One step of a call. -/
theorem interferes_act {i : Nat} {p : Prim} {k : p.Resp → NodeProg Unit}
    (ext : Externals) (fault : Option Fault)
    (hi : s.calls[i]? = some (.act p k))
    (hn : ∃ owes, Notifying (.act p k) owes) :
    Interferes s { s with
      world := (p.exec ext fault s.world).2
      calls := s.calls.set i (k (p.exec ext fault s.world).1) } := by
  obtain ⟨hlt, -⟩ := List.getElem?_eq_some_iff.mp hi
  -- the notification another call owes is still owed
  have hothers : p ≠ .ttl .notifyOne → ∀ x ∈ s.calls, AboutToNotify x →
      x ∈ s.calls.set i (k (p.exec ext fault s.world).1) := by
    intro hp x hx hnx
    obtain ⟨j, hj⟩ := List.mem_iff_getElem?.mp hx
    have hij : i ≠ j := by
      rintro rfl
      rw [hi] at hj
      cases hj
      obtain ⟨k', hk'⟩ := hnx
      cases hk'
      exact hp rfl
    exact List.mem_iff_getElem?.mpr ⟨j, by rw [List.getElem?_set_ne hij, hj]⟩
  rcases index_exec ext fault p s.world with
    ⟨key, exp, rfl⟩ | rfl | ⟨hp, hpermit, hindex⟩
  · -- an insertion owes a notification, or was no earlier than another entry
    refine ⟨rfl, le_rfl, Or.imp id fun ⟨x, hx, hnx⟩ =>
      ⟨x, hothers nofun x hx hnx, hnx⟩, ?_⟩
    obtain ⟨owes, hn⟩ := hn
    have hrest : Notifying (k (s.world.ttl.insert key exp).1)
      (s.world.ttl.insert key exp).1 := hn.2 _
    have hmem : k (s.world.ttl.insert key exp).1
      ∈ s.calls.set i (k (s.world.ttl.insert key exp).1) := List.mem_set hlt _
    cases hw : (s.world.ttl.insert key exp).1 with
    | true =>
        rw [hw] at hrest hmem
        exact .inl (.inr ⟨k true, hw ▸ hmem, aboutToNotify_of_owes hrest⟩)
    | false =>
        refine .inr fun ts hts => ?_
        rcases TtlIndex.holds_insert.mp hts with rfl | hts
        · exact TtlIndex.le_of_insert hw
        · exact ⟨ts, hts, le_rfl⟩
  · exact ⟨rfl, le_rfl, fun _ => .inl rfl, .inl (.inl rfl)⟩
  · refine ⟨rfl, le_rfl, ?_, .inr fun ts hts => ⟨ts, hindex ts hts, le_rfl⟩⟩
    exact Or.imp hpermit.trans fun ⟨x, hx, hnx⟩ =>
      ⟨x, hothers hp x hx hnx, hnx⟩

-- ================================================================ the steps

/-- What is left of a call after a step keeps to the discipline. -/
theorem notifying_set {i : Nat} {p : Prim} {k : p.Resp → NodeProg Unit}
    (h : ∀ x ∈ s.calls, ∃ owes, Notifying x owes)
    (hi : s.calls[i]? = some (.act p k)) (r : p.Resp) :
    ∀ x ∈ s.calls.set i (k r), ∃ owes, Notifying x owes := by
  intro x hx
  rcases List.mem_or_eq_of_mem_set hx with hx | rfl
  · exact h x hx
  · obtain ⟨owes, hn⟩ := h _ (List.mem_of_getElem? hi)
    exact ⟨_, hn.2 r⟩

/-- A new call owes nothing yet. -/
private theorem notifying_spawn {x : NodeProg Unit}
    (h : ∀ x ∈ s.calls, ∃ owes, Notifying x owes) (hx : OwesNothing x) :
    ∀ y ∈ s.calls ++ [x], ∃ owes, Notifying y owes := by
  intro y hy
  rcases List.mem_append.mp hy with hy | hy
  · exact h y hy
  · obtain rfl := List.mem_singleton.mp hy
    exact ⟨false, hx false rfl⟩

/-- No step moves a clock. -/
private theorem exec_clocks (ext : Externals) (fault : Option Fault) (p : Prim)
    (w : World) : (p.exec ext fault w).2.now = w.now
      ∧ (p.exec ext fault w).2.instant = w.instant := by
  cases p <;> exact ⟨rfl, rfl⟩

/-- The wake-up computed from an entry and the clock. -/
theorem Attended.target_due {dueMs : Nat} (h : Attended S s)
    (hdue : Owed s ∨ ∀ ts, s.world.ttl.Holds ts → dueMs ≤ ts) :
    Target S s (if dueMs ≤ s.world.now then s.since
      else min (s.since + (dueMs - s.world.now) * S.perMs)
        (s.since + S.fallback)) := by
  split
  · exact ⟨Nat.le_add_right _ _, .inr fun _ _ => .inr rfl⟩
  · next hlate =>
    refine ⟨min_le_right _ _, hdue.imp_right fun hall ts hts => .inl ?_⟩
    -- the clock has shown `now` since the instant was read
    have hle : min (s.since + (dueMs - s.world.now) * S.perMs)
          (s.since + S.fallback) + s.offset
        ≤ s.world.instant + s.offset + (dueMs - s.world.now) * S.perMs := by
      have hmin := min_le_left (s.since + (dueMs - s.world.now) * S.perMs)
        (s.since + S.fallback)
      have hsince := h.since
      omega
    refine (Nat.div_le_div_right hle).trans ?_
    rcases Nat.eq_zero_or_pos S.perMs with hzero | hpos
    · rw [hzero, Nat.div_zero]
      exact Nat.zero_le ts
    · rw [Nat.add_mul_div_right _ _ hpos, ← h.clock]
      have hts := hall ts hts
      omega

/-- One read of `compute_wakeup`. -/
theorem Attended.read {p : WakeupPrim} {k : p.Resp → WakeupProg Nat}
    (h : Attended S s) (hphase : s.phase = .computing (.act p k)) :
    Attended S { s with
      phase := .computing (k (p.exec s.world))
      since := if p = .instantNow then s.world.instant else s.since } := by
  have halert := h.alert
  rw [Alert, hphase] at halert
  refine ⟨h.clock, ?_, h.calls, ?_⟩
  · show (if _ then _ else _) ≤ _
    split
    · exact le_rfl
    · exact h.since
  generalize hx : Prog.act p k = x at halert
  cases halert with
  | start =>
      rw [computeWakeup_eq] at hx
      cases hx
      exact .instant
  | instant =>
      cases hx
      show Computes S _ (afterDue S s.since s.world.ttl.nextDueMs)
      cases hd : s.world.ttl.nextDueMs with
      | none =>
          exact .done ⟨le_rfl, .inr fun ts hts =>
            absurd hts (TtlIndex.not_holds_of_nextDueMs hd ts)⟩
      | some dueMs =>
          exact .due (.inr fun ts hts => TtlIndex.nextDueMs_le hd hts)
  | due hdue =>
      cases hx
      exact .done ((interferes_phase _).target (h.target_due hdue))
  | done ht => cases hx

/-- Every step leaves each scheduled stamp attended to: by the sweeper's
target, by a permit, or by a call that still has to notify. -/
private theorem attended_step (h : Attended S s) (hs : Step S s s') :
    Attended S s' := by
  cases hs with
  | schedule key exp =>
      exact ⟨h.clock, h.since,
        notifying_spawn h.calls (schedule_settled key exp),
        (interferes_spawn _).alert rfl h.alert⟩
  | call op =>
      exact ⟨h.clock, h.since,
        notifying_spawn h.calls (preserves_map _ (prog_settled op)),
        (interferes_spawn _).alert rfl h.alert⟩
  | @act i p k fault hi =>
      obtain ⟨hnow, hinstant⟩ := exec_clocks S.ext fault p s.world
      refine ⟨?_, ?_, notifying_set h.calls hi _, ?_⟩
      · exact (hnow.trans h.clock).trans (by rw [hinstant])
      · exact h.since.trans hinstant.ge
      · exact (interferes_act S.ext fault hi
          (h.calls _ (List.mem_of_getElem? hi))).alert rfl h.alert
  | @tick instant offset hi ho =>
      have hinterferes : Interferes s { s with
          world := s.world.tick ((instant + offset) / S.perMs) instant
          offset := offset } :=
        ⟨rfl, ho, id, .inr fun ts hts => ⟨ts, hts, le_rfl⟩⟩
      exact ⟨rfl, h.since.trans hi, h.calls, hinterferes.alert rfl h.alert⟩
  | read hphase => exact h.read hphase
  | wait hphase =>
      -- the loop goes to sleep on the target read before; whatever was
      -- scheduled since is owed a notification
      have halert := h.alert
      rw [Alert, hphase] at halert
      refine ⟨h.clock, h.since, h.calls, ?_⟩
      generalize hx : Prog.ret _ = x at halert
      cases halert with
      | start => cases hx
      | instant => cases hx
      | due hdue => cases hx
      | done ht =>
          cases hx
          exact (interferes_phase _).target ht
  | timeout hphase hdue => exact ⟨h.clock, h.since, h.calls, trivial⟩
  | notified hphase hpermit => exact ⟨h.clock, h.since, h.calls, trivial⟩
  | shutdown hphase => exact ⟨h.clock, h.since, h.calls, trivial⟩
  | @sweep p k fault hphase =>
      obtain ⟨hnow, hinstant⟩ := exec_clocks S.ext fault p s.world
      refine ⟨?_, h.since.trans hinstant.ge, h.calls, trivial⟩
      exact (hnow.trans h.clock).trans (by rw [hinstant])
  | swept hphase => exact ⟨h.clock, h.since, h.calls, .start⟩

/-- So every stamp is attended to in every reached state. -/
private theorem attended_reached (h : Reached S s) : Attended S s := by
  obtain ⟨s₀, ⟨hcalls, hphase, hsince, hclock⟩, hrun⟩ := h
  induction hrun with
  | refl =>
      refine ⟨hclock, hsince, fun x hx => ?_, ?_⟩
      · rw [hcalls] at hx
        cases hx
      · rw [Alert, hphase, SweeperSetting.enter]
        by_cases hoff : S.fallback = 0
        · rw [if_pos hoff]
          exact trivial
        · rw [if_neg hoff]
          exact .start
  | tail _ hs ih => exact attended_step ih hs

end SweeperNode

open SweeperNode

/-- Whenever the sweeper is waiting, no permit is pending and no call is
between its insertion and its `notify_one`, the sweeper will wake no later
than the fallback interval allows, and no later than the earliest expiry of
the index: at its target the clock shows at most that expiry, or the expiry
had passed when the target was computed and the target is that moment. -/
theorem sweeper_wakes_in_time (S : SweeperSetting) (s : SweeperNode)
    (hs : Reached S s) (wakeAt : Nat) (hwait : s.phase = .waiting wakeAt)
    (hpermit : s.world.ttl.permit = false)
    (hcalls : ∀ x ∈ s.calls, ¬ AboutToNotify x) :
    wakeAt ≤ s.since + S.fallback
      ∧ ∀ dueMs, s.world.ttl.nextDueMs = some dueMs →
        (wakeAt + s.offset) / S.perMs ≤ dueMs
          ∨ wakeAt = s.since ∧ wakeAt ≤ s.world.instant := by
  have hattended := attended_reached hs
  have halert := hattended.alert
  rw [Alert, hwait] at halert
  refine ⟨halert.fallback, fun dueMs hd => ?_⟩
  rcases halert.index with (ho | ⟨x, hx, hn⟩) | htrust
  · rw [hpermit] at ho
    cases ho
  · exact absurd hn (hcalls x hx)
  · refine (htrust dueMs (TtlIndex.holds_nextDueMs hd)).imp_right fun he => ?_
    exact ⟨he, he.trans_le hattended.since⟩

/-- The loop reads and waits undisturbed. -/
theorem SweeperNode.Reached.waits {S : SweeperSetting} {s : SweeperNode}
    {dueMs : Nat} (h : Reached S s)
    (hphase : s.phase = .computing (computeWakeup S.perMs S.fallback))
    (hdue : s.world.ttl.nextDueMs = some dueMs) :
    Reached S { s with
      phase := .waiting (if dueMs ≤ s.world.now then s.world.instant
        else min (s.world.instant + (dueMs - s.world.now) * S.perMs)
          (s.world.instant + S.fallback))
      since := s.world.instant } := by
  obtain ⟨s₀, hstart, hrun⟩ := h
  rw [computeWakeup_eq] at hphase
  have hread := ((hrun.tail (.read hphase)).tail (.read rfl))
  have hrest : WakeupPrim.exec .nextDueMs s.world = some dueMs := hdue
  simp only [hrest] at hread
  exact ⟨s₀, hstart, (hread.tail (.read rfl)).tail (.wait rfl)⟩

/-- A sweeper that looks at least every minute, by a microsecond timer. -/
def everyMinute : SweeperSetting := ⟨.plain, {}, 1000, 60000000⟩

/-- A node whose index holds one key, for five milliseconds, when the
sweeper starts. -/
def oneScheduled : SweeperNode where
  world := { World.fresh {} 0 0 with ttl := (TtlIndex.new.insert [1] 5).2 }
  offset := 0
  calls := []
  phase := everyMinute.enter
  since := 0

/-- The sweeper waits for the key, while a call is about to schedule
another. -/
theorem sweeper_wakes_in_time_for_key :
    ∃ s, Reached everyMinute s ∧ s.phase = .waiting 5000 ∧ s.calls ≠ []
      ∧ s.world.ttl.nextDueMs = some 5 ∧ 5000 ≤ s.since + 60000000
      ∧ ((5000 + s.offset) / 1000 ≤ 5
        ∨ 5000 = s.since ∧ 5000 ≤ s.world.instant) := by
  have hdue : oneScheduled.world.ttl.nextDueMs = some 5 := by decide +kernel
  have hstart : Reached everyMinute oneScheduled :=
    ⟨_, ⟨rfl, rfl, le_rfl, rfl⟩, .refl⟩
  obtain ⟨s₀, hs₀, hrun⟩ := hstart.waits rfl hdue
  have hs := hrun.tail (.schedule _ [2] 3)
  refine ⟨_, ⟨s₀, hs₀, hs⟩, rfl, nofun, hdue, ?_⟩
  have hcalls : ∀ x ∈ [NodeService.schedule [2] 3], ¬ AboutToNotify x := by
    intro x hx
    rw [List.mem_singleton.mp hx]
    rintro ⟨k, hk⟩
    cases hk
  obtain ⟨hfallback, hnext⟩ := sweeper_wakes_in_time everyMinute _
    ⟨s₀, hs₀, hs⟩ 5000 rfl rfl hcalls
  exact ⟨hfallback, hnext 5 hdue⟩

end FerrisKv
