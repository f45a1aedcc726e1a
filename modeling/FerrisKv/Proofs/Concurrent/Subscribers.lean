/-
When a live subscriber is left without its channel, and when it cannot be.

`WatchHub::publish` counts the receivers in one step and, when it found
none, removes the tenant's entry in another. A subscriber that joins the
channel in between is left on a channel nobody sends on, and its stream
ends (`orphaned_by_remove`).

The channel of every live receiver is the registered one in every state
of a run in which `remove` is only ever taken while the registered channel
has no receiver (`live_registered`). No other step of the hub can orphan a
receiver, so the invariant is about the hub alone and holds of any number
of calls of any kind.
-/
import FerrisKv.Node.Concurrent
import FerrisKv.Proofs.Node.Channels

namespace FerrisKv

open Prog NodeService

-- ================================================================ the calls

/-- What the hub and its receivers are asked to do. -/
inductive HubCall where
  | subscribe (tenant : String)
  | publish (tenant : String) (change : KeyChange)
  | recv (tenant : String) (rx : Rx)
  | drop (tenant : String) (rx : Rx)
  deriving DecidableEq, Repr

/-- What they answer. -/
inductive HubAnswer where
  | subscribed (rx : Rx)
  | received (out : RecvOutcome)
  | done
  deriving DecidableEq, Repr

/-- The program of a hub call. -/
def HubCall.prog : HubCall → NodeProg HubAnswer
  | .subscribe t => .subscribed <$> NodeService.subscribe t
  | .publish t change => (fun _ => .done) <$> NodeService.publish t change
  | .recv t rx => .received <$> (WatchPrim.recv t rx).call
  | .drop t rx => (fun _ => .done) <$> (WatchPrim.drop t rx).call

/-- Hub calls in progress. -/
abbrev HubPool := Pool World Prim Prim.Resp HubAnswer

/-- All calls are made on `w`. -/
def HubPool.calls (w : World) (ops : List HubCall) : HubPool :=
  .ready w (ops.map HubCall.prog)

/-- The pools the calls can reach, when each step meets `allow`. -/
abbrev HubPool.Run (ext : Externals) (allow : HubPool → Nat → Prim → Prop) :=
  Pool.Run (Prim.exec ext none) Ticks allow

-- ===================================================================== runs

/-- A channel is only removed while nobody listens to it. -/
def RemovesAbandoned (pool : HubPool) (_ : Nat) : Prim → Prop
  | .watch (.remove t) => (pool.world.watch.tenant t).abandoned = true
  | _ => True

instance (pool : HubPool) (i : Nat) (p : Prim) :
    Decidable (RemovesAbandoned pool i p) := by
  unfold RemovesAbandoned
  split <;> infer_instance

section Runs

variable {ext : Externals} {w : World} {t : String}

/-- The hub is in order. -/
structure HubSound (h : WatchHub) : Prop where
  anchored : ∀ t, (h.tenant t).Anchored
  inStep : ∀ t, (h.tenant t).InStep

/-- A new hub is sound. -/
private theorem hubSound_new (n : Nat) : HubSound (.new n) := by
  have hnone : ∀ t, (WatchHub.new n).tenant t = ⟨none, []⟩ := by
    intro t
    simp [WatchHub.tenant, WatchHub.new]
  refine ⟨fun t rx hl => ?_, fun t i c hc => ?_⟩
  · rw [hnone] at hl
    obtain ⟨c, hc, -⟩ := hl
    cases hc
  · rw [hnone] at hc
    cases hc

/-- A step keeps it so, if only abandoned channels are removed. -/
theorem HubSound.exec {h : WatchHub} (hs : HubSound h) (p : WatchPrim)
    (hp : ∀ t, p = .remove t → (h.tenant t).abandoned = true) :
    HubSound (p.exec ext h).2 := by
  have hp : ∀ t, p = .remove t → (h.tenant p.tenant).abandoned = true := by
    rintro t rfl
    exact hp t rfl
  constructor
  · intro t
    show ((h.set p.tenant _).tenant t).Anchored
    rw [WatchHub.tenant_set]
    split
    · exact (hs.anchored _).exec p _ hp
    · exact hs.anchored t
  · intro t
    show ((h.set p.tenant _).tenant t).InStep
    rw [WatchHub.tenant_set]
    split
    · exact (hs.inStep _).exec p _
    · exact hs.inStep t

/-- So it is sound over a whole run. -/
theorem hubSound_of_run {ops : List HubCall} {pool : HubPool} {n : Nat}
    (hw : w.watch = .new n)
    (h : HubPool.Run ext RemovesAbandoned (HubPool.calls w ops) pool) :
    HubSound pool.world.watch := by
  induction h with
  | start =>
      show HubSound w.watch
      rw [hw]
      exact hubSound_new n
  | @step pool i p k _ _ ha ih =>
      cases p with
      | watch q =>
          refine ih.exec q fun t hq => ?_
          subst hq
          exact ha
      | _ => exact ih
  | env _ he ih =>
      obtain ⟨now, instant, -, rfl⟩ := he
      exact ih

/-- In every state of a run in which channels are only removed while nobody
listens to them, the channel of every live receiver is the registered one:
the next message published is one the receiver gets, and the receiver is
not told that its stream has ended. -/
theorem live_registered (ext : Externals) (w : World) (n : Nat)
    (hw : w.watch = .new n) (ops : List HubCall) {pool : HubPool}
    (h : HubPool.Run ext RemovesAbandoned (HubPool.calls w ops) pool)
    (t : String) (rx : Rx) (hlive : (pool.world.watch.tenant t).Live rx) :
    (pool.world.watch.tenant t).registered = some rx.channel
      ∧ (∀ change, ((WatchPrim.send t change).exec ext
            pool.world.watch).1 = .sent
          ∧ (((WatchPrim.send t change).exec ext
              pool.world.watch).2.tenant t).pending rx
            = (pool.world.watch.tenant t).pending rx ++ [change])
      ∧ ((WatchPrim.recv t rx).exec ext pool.world.watch).1 ≠ .closed := by
  have hsound := hubSound_of_run hw h
  have hanch := hsound.anchored t
  refine ⟨hanch rx hlive, fun change => ?_, hanch.recv_ne_closed hlive t _⟩
  obtain ⟨hsent, hpend⟩ := hanch.send (hsound.inStep t) hlive t change
    (ext.broadcastBuffer pool.world.watch.capacity)
  refine ⟨hsent, ?_⟩
  show ((WatchHub.set _ t _).tenant t).pending rx = _
  rw [WatchHub.tenant_set, if_pos rfl]
  exact hpend

end Runs

-- ================================================================== orphans

/-- The channel's only receiver is dropped while another one joins. -/
def changingHands : List HubCall :=
  [.subscribe "a", .drop "a" ⟨0, 0⟩, .publish "a" ⟨.put, [1], [2]⟩,
    .subscribe "a"]

/-- In turn: the publisher finds the channel abandoned and removes it, then
the second subscriber opens a new one. -/
theorem live_registered_in_turn :
    ∃ pool, HubPool.Run .plain RemovesAbandoned
        (HubPool.calls (.fresh {} 0 0) changingHands) pool
      ∧ pool.result 3 = some (.subscribed ⟨1, 0⟩)
      ∧ (pool.world.watch.tenant "a").registered = some 1 := by
  have hrun : HubPool.Run .plain RemovesAbandoned
      (HubPool.calls (.fresh {} 0 0) changingHands) _ :=
    Pool.run_play [0, 0, 1, 2, 2, 3, 3] (by decide +kernel)
  refine ⟨_, hrun, by decide +kernel, ?_⟩
  exact (live_registered .plain (.fresh {} 0 0) 1024 rfl changingHands hrun "a"
    ⟨1, 0⟩ ⟨⟨[], [⟨0, true⟩]⟩, by decide +kernel, ⟨0, true⟩, rfl, rfl⟩).1

/-- The second subscriber joins between the count and the removal. -/
def orphaning : HubPool :=
  Pool.play (Prim.exec .plain none) [0, 0, 1, 2, 3, 2]
    (HubPool.calls (.fresh {} 0 0) changingHands)

/-- A subscriber can be orphaned: its receiver is live, its channel is not
registered, the next message is not sent to it and its stream ends. -/
theorem orphaned_by_remove :
    HubPool.Run .plain (fun _ _ _ => True)
        (HubPool.calls (.fresh {} 0 0) changingHands) orphaning
      ∧ orphaning.result 3 = some (.subscribed ⟨0, 1⟩)
      ∧ (orphaning.world.watch.tenant "a").Live ⟨0, 1⟩
      ∧ (orphaning.world.watch.tenant "a").registered = none
      ∧ ((WatchPrim.send "a" ⟨.put, [1], [2]⟩).exec .plain
          orphaning.world.watch).1 = .absent
      ∧ ((WatchPrim.recv "a" ⟨0, 1⟩).exec .plain orphaning.world.watch).1
        = .closed :=
  ⟨Pool.run_play _ (Pool.allowed_of_forall (fun _ _ _ => trivial) _ _),
    by decide +kernel,
    ⟨⟨[], [⟨0, false⟩, ⟨0, true⟩]⟩, by decide +kernel, ⟨0, true⟩, rfl, rfl⟩,
    by decide +kernel, by decide +kernel, by decide +kernel⟩

end FerrisKv
