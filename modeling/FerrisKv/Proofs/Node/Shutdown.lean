/-
How long the node serves.

`main` puts one deadline around the whole life of the server, not around
its shutdown: `timeout(shutdown_timeout + 5s, serve)` starts to count when
the server does. So a node nobody has told to stop gives up after that time
and one told late has only what is left of it to drain; `gives_up_unasked`
has a run of either kind. `serves_until_told` says when this cannot be
seen: when the signal comes within the first five seconds, or the server
has ended by itself before the deadline.

After it has given up, `main` waits for the sweeper, which waits for the
signal: the process stays, serving nothing (`returns_only_told`).
-/
import FerrisKv.Node.Shutdown

namespace FerrisKv

open Lts

namespace Main

-- ============================================================ the property

/-- If the serve future was dropped, a signal had been received, and the
requests that were cut off had had the whole timeout since. -/
def Served (cfg : MainConfig) (m : Main) : Prop :=
  ∀ e, m.ended = some e → e.outcome = .elapsed →
    ∃ s, e.signal = some s
      ∧ ∀ r ∈ e.inFlight, s + cfg.shutdownTimeoutSecs * 1000 ≤ e.time

/-- The signal came early, or the deadline is still to come, or the server
ended before it. -/
def Timely (cfg : MainConfig) (m : Main) : Prop :=
  (∃ s, m.signalled = some s ∧ s ≤ 5000)
    ∨ m.now < deadlineMs cfg
    ∨ ∃ e, m.ended = some e ∧ e.time < deadlineMs cfg

-- =========================================================== the invariant

/-- What is known of a serve future that has ended. A signal that had not
come by then came later, if at all. -/
structure Past (cfg : MainConfig) (m : Main) (e : ServeEnd) : Prop where
  past : e.time ≤ m.now
  late : e.outcome = .elapsed → deadlineMs cfg ≤ e.time
  signal : ∀ s, m.signalled = some s → e.signal = some s ∨ e.time ≤ s

/-- The serve future has not ended while `main` is serving, and what is
known of it afterwards stays known. -/
structure Inv (cfg : MainConfig) (m : Main) : Prop where
  serving : m.phase = .serving → m.ended = none
  ended : ∀ e, m.ended = some e → m.Past cfg e

variable {cfg : MainConfig} {m m' : Main}

/-- The invariant holds at the start. -/
private theorem inv_start (h : start cfg = some m) : m.Inv cfg := by
  unfold start at h
  split at h
  · cases h
  · cases h
    exact ⟨fun _ => rfl, fun _ he => by cases he⟩

/-- An event that neither ends the serve future nor brings a signal. -/
theorem Inv.of_eq (h : m.Inv cfg) (hnow : m.now ≤ m'.now)
    (hended : m'.ended = m.ended) (hsignal : m'.signalled = m.signalled)
    (hphase : m'.phase = .serving → m.phase = .serving) : m'.Inv cfg where
  serving hp := by rw [hended, h.serving (hphase hp)]
  ended e he :=
    have hpast := h.ended e (hended ▸ he)
    ⟨hpast.past.trans hnow, hpast.late,
      fun s hs => hpast.signal s (hsignal ▸ hs)⟩

/-- A signal keeps it. -/
theorem Inv.signal (h : m.Inv cfg) :
    Inv cfg { m with told := m.told.or (some m.now),
                     signalled := m.signalled.or (some m.now) } where
  serving hp := h.serving hp
  ended e he := by
    have hpast := h.ended e he
    refine ⟨hpast.past, hpast.late, fun s hs => ?_⟩
    cases hm : m.signalled with
    | none =>
        have hnow : some m.now = some s := by
          simpa only [hm, Option.none_or] using hs
        cases hnow
        exact .inr hpast.past
    | some s' =>
        have hsame : some s' = some s := by
          simpa only [hm, Option.some_or] using hs
        cases hsame
        exact hpast.signal s hm

theorem Inv.finish {outcome : ServeOutcome}
    (hlate : outcome = .elapsed → deadlineMs cfg ≤ m.now) :
    (m.finish outcome).Inv cfg where
  serving hp := by cases hp
  ended e he := by
    cases he
    exact ⟨le_rfl, hlate, fun s hs => .inl hs⟩

/-- Every event keeps the invariant. -/
theorem Inv.step (h : m.Inv cfg) {e : MainEvent}
    (hs : m.step cfg e = some m') : m'.Inv cfg := by
  cases e with
  | tick ms =>
      cases hs
      exact h.of_eq (Nat.le_add_right _ _) rfl rfl id
  | signal =>
      cases hs
      exact h.signal
  | handlerError =>
      cases hs
      exact h.of_eq le_rfl rfl rfl id
  | arrive r =>
      obtain ⟨-, ⟨⟩⟩ := Option.ite_none_right_eq_some.mp hs
      exact h.of_eq le_rfl rfl rfl id
  | complete r =>
      obtain ⟨-, ⟨⟩⟩ := Option.ite_none_right_eq_some.mp hs
      exact h.of_eq le_rfl rfl rfl id
  | listenerError =>
      obtain ⟨-, ⟨⟩⟩ := Option.ite_none_right_eq_some.mp hs
      exact .finish fun ho => by cases ho
  | drained =>
      obtain ⟨-, ⟨⟩⟩ := Option.ite_none_right_eq_some.mp hs
      exact .finish fun ho => by cases ho
  | deadline =>
      obtain ⟨hp, ⟨⟩⟩ := Option.ite_none_right_eq_some.mp hs
      -- the one event that drops the serve future, and it needs the deadline
      -- to be past
      exact .finish fun _ => hp.2.1
  | adminEnds =>
      obtain ⟨-, ⟨⟩⟩ := Option.ite_none_right_eq_some.mp hs
      exact h.of_eq le_rfl rfl rfl id
  | sweeperEnds =>
      obtain ⟨-, ⟨⟩⟩ := Option.ite_none_right_eq_some.mp hs
      exact h.of_eq le_rfl rfl rfl id
  | proceed =>
      replace hs : m.proceed = some m' := hs
      unfold Main.proceed at hs
      split at hs
      · cases hs
      · obtain ⟨-, ⟨⟩⟩ := Option.ite_none_left_eq_some.mp hs
        exact h.of_eq le_rfl rfl rfl fun hp => by cases hp
      · obtain ⟨-, ⟨⟩⟩ := Option.ite_none_left_eq_some.mp hs
        exact h.of_eq le_rfl rfl rfl fun hp => by cases hp
      · cases hs
        exact h.of_eq le_rfl rfl rfl fun hp => by cases hp
      · cases hs

/-- It holds in every state of the process. -/
private theorem inv_reachable (h : (mainLts cfg).Reachable m) : m.Inv cfg := by
  refine h.induction (fun m hm => inv_start (show start cfg = some m from hm)) ?_
  rintro m e m' hinv ⟨event, -, hs⟩
  exact hinv.step hs

end Main

-- ================================================================ the life

/-- In every run in which the signal comes in the first five seconds, or
the server ends by itself before the deadline, the serve future is not
dropped before a signal, and no request is cut off before the timeout has
passed since the signal. -/
theorem serves_until_told (cfg : MainConfig) (hvalid : cfg.validate = .ok ())
    (m : Main) (h : (mainLts cfg).Reachable m) (htimely : m.Timely cfg) :
    m.Served cfg := by
  have hinv := Main.inv_reachable h
  have hpos : 0 < cfg.shutdownTimeoutSecs := by
    unfold MainConfig.validate at hvalid
    split at hvalid
    · cases hvalid
    · omega
  intro e he ho
  have hpast := hinv.ended e he
  have hlate := hpast.late ho
  have hnow := hpast.past
  unfold Main.deadlineMs at hlate
  -- the drop came after the deadline, so only an early signal is left
  rcases htimely with ⟨s, hs, hle⟩ | hlt | ⟨e', he', hlt⟩
  · rcases hpast.signal s hs with hbefore | hafter
    · exact ⟨s, hbefore, fun _ _ => by omega⟩
    · omega
  · unfold Main.deadlineMs at hlt
    omega
  · rw [he, Option.some.injEq] at he'
    subst he'
    unfold Main.deadlineMs at hlt
    omega

-- ======================================================= runs that fail it

/-- Playing events is taking steps. -/
private theorem Main.trace_play {cfg : MainConfig} :
    ∀ {events τ : List MainEvent} {m m' : Main},
      (mainLts cfg).Trace τ m → m.play cfg events = some m' →
        (mainLts cfg).Trace (τ ++ events) m' := by
  intro events
  induction events with
  | nil =>
      intro τ m m' h hp
      cases hp
      rw [List.append_nil]
      exact h
  | cons e rest ih =>
      intro τ m m' h hp
      obtain ⟨m₁, hs, hp⟩ := Option.bind_eq_some_iff.mp hp
      have hrest := ih (.visible h ⟨e, rfl, hs⟩) hp
      rw [List.append_assoc] at hrest
      exact hrest

/-- What can be played can be reached. -/
theorem Main.reachable_play {cfg : MainConfig} (events : List MainEvent)
    {m : Main} (h : (Main.start cfg).bind (play cfg events) = some m) :
    (mainLts cfg).Reachable m := by
  obtain ⟨m₀, hstart, hplay⟩ := Option.bind_eq_some_iff.mp h
  exact ⟨_, Main.trace_play (.start hstart) hplay⟩

/-- The default configuration. -/
def tenSeconds : MainConfig := { shutdownTimeoutSecs := 10 }

/-- A quarter of a minute and no signal. -/
def quietRun : List MainEvent := [.tick 15000, .deadline]

/-- A request under way when the signal comes, a second before the
deadline. -/
def lateSignal : List MainEvent :=
  [.arrive 7, .tick 14000, .signal, .tick 1000, .deadline]

/-- The node stops serving although nobody told it to and nothing failed;
and a request in flight is cut off one second after the signal, where ten
were promised. -/
theorem gives_up_unasked :
    tenSeconds.validate = .ok ()
      ∧ (∃ m, (mainLts tenSeconds).Reachable m
        ∧ m.ended = some ⟨.elapsed, 15000, none, []⟩
        ∧ ¬ m.Served tenSeconds)
      ∧ ∃ m, (mainLts tenSeconds).Reachable m
        ∧ m.ended = some ⟨.elapsed, 15000, some 14000, [7]⟩
        ∧ ¬ m.Served tenSeconds := by
  refine ⟨rfl, ⟨⟨15000, none, none, [], some ⟨.elapsed, 15000, none, []⟩,
      .joiningAdmin, false, true⟩, Main.reachable_play quietRun
      (by decide +kernel), rfl, ?_⟩,
    ⟨15000, some 14000, some 14000, [],
      some ⟨.elapsed, 15000, some 14000, [7]⟩, .joiningAdmin, false, true⟩,
    Main.reachable_play lateSignal (by decide +kernel), rfl, ?_⟩
  · intro h
    obtain ⟨s, hs, -⟩ := h _ rfl rfl
    cases hs
  · intro h
    obtain ⟨s, hs, htime⟩ := h _ rfl rfl
    cases hs
    exact absurd (htime 7 (.head _)) (by decide)

/-- A signal in the third second, and a request that is still cut off
after more than ten. -/
def earlySignal : List MainEvent :=
  [.arrive 7, .tick 3000, .signal, .tick 12000, .deadline]

/-- A signal at three seconds, a connection that does not end, and the process
ends when the deadline has passed. -/
theorem serves_until_told_early :
    ∃ m, (mainLts tenSeconds).Reachable m
      ∧ m.ended = some ⟨.elapsed, 15000, some 3000, [7]⟩
      ∧ m.Served tenSeconds := by
  have hreach : (mainLts tenSeconds).Reachable
      ⟨15000, some 3000, some 3000, [],
        some ⟨.elapsed, 15000, some 3000, [7]⟩, .joiningAdmin, false, true⟩ :=
    Main.reachable_play earlySignal (by decide +kernel)
  exact ⟨_, hreach, rfl, serves_until_told tenSeconds rfl _ hreach
    (.inl ⟨3000, rfl, by decide⟩)⟩

-- ========================================================= after giving up

/-- What `main` has passed on its way. -/
structure Main.Waits (cfg : MainConfig) (m : Main) : Prop where
  asleep : m.sweeper = false → cfg.ttlSweepIntervalSecs ≠ 0 →
    m.told.isSome
  joined : m.phase = .syncing ∨ m.phase = .returned → m.sweeper = false

/-- Who waits goes on waiting until told. -/
theorem Main.Waits.step {cfg : MainConfig} {m m' : Main} (h : m.Waits cfg)
    {e : MainEvent} (hs : m.step cfg e = some m') : m'.Waits cfg := by
  have hphase : m'.phase = m.phase → m'.sweeper = m.sweeper →
      (m.told.isSome → m'.told.isSome) → m'.Waits cfg := by
    intro hp hw ht
    exact ⟨fun hs hn => ht (h.asleep (hw ▸ hs) hn),
      fun hj => by rw [hw]; exact h.joined (hp ▸ hj)⟩
  have hor : ∀ n, m.told.isSome → (m.told.or (some n)).isSome := by
    intro n ht
    rw [Option.isSome_or, ht, Bool.true_or]
  cases e with
  | tick ms =>
      cases hs
      exact hphase rfl rfl id
  | signal =>
      cases hs
      exact hphase rfl rfl (hor _)
  | handlerError =>
      cases hs
      exact hphase rfl rfl (hor _)
  | arrive r =>
      obtain ⟨-, ⟨⟩⟩ := Option.ite_none_right_eq_some.mp hs
      exact hphase rfl rfl id
  | complete r =>
      obtain ⟨-, ⟨⟩⟩ := Option.ite_none_right_eq_some.mp hs
      exact hphase rfl rfl id
  | listenerError =>
      obtain ⟨-, ⟨⟩⟩ := Option.ite_none_right_eq_some.mp hs
      exact ⟨h.asleep, fun hj => by rcases hj with hj | hj <;> cases hj⟩
  | drained =>
      obtain ⟨-, ⟨⟩⟩ := Option.ite_none_right_eq_some.mp hs
      exact ⟨h.asleep, fun hj => by rcases hj with hj | hj <;> cases hj⟩
  | deadline =>
      obtain ⟨-, ⟨⟩⟩ := Option.ite_none_right_eq_some.mp hs
      exact ⟨h.asleep, fun hj => by rcases hj with hj | hj <;> cases hj⟩
  | adminEnds =>
      obtain ⟨-, ⟨⟩⟩ := Option.ite_none_right_eq_some.mp hs
      exact hphase rfl rfl id
  | sweeperEnds =>
      -- the sweeper ends only once it has been told
      obtain ⟨ht, ⟨⟩⟩ := Option.ite_none_right_eq_some.mp hs
      exact ⟨fun _ _ => ht.2, fun _ => rfl⟩
  | proceed =>
      replace hs : m.proceed = some m' := hs
      unfold Main.proceed at hs
      split at hs
      · cases hs
      · obtain ⟨-, ⟨⟩⟩ := Option.ite_none_left_eq_some.mp hs
        exact ⟨h.asleep, fun hj => by rcases hj with hj | hj <;> cases hj⟩
      -- the join: `main` goes on only when the sweeper has ended
      · obtain ⟨hw, ⟨⟩⟩ := Option.ite_none_left_eq_some.mp hs
        exact ⟨h.asleep, fun _ => Bool.eq_false_iff.mpr hw⟩
      · next hp =>
          cases hs
          exact ⟨h.asleep, fun _ => h.joined (.inl hp)⟩
      · cases hs

/-- With the sweeper on, `main` returns only once it has been told to,
even if it stopped serving long before. -/
theorem returns_only_told {cfg : MainConfig} {m : Main}
    (h : (mainLts cfg).Reachable m) (hsweep : cfg.ttlSweepIntervalSecs ≠ 0)
    (hreturned : m.phase = .returned) : m.told.isSome := by
  have hwaits : m.Waits cfg := by
    refine h.induction ?_ ?_
    · intro m hm
      replace hm : Main.start cfg = some m := hm
      unfold Main.start at hm
      split at hm
      · cases hm
      · cases hm
        refine ⟨fun hs hn => ?_, fun hj => by rcases hj with hj | hj <;> cases hj⟩
        exact absurd hs (by simpa using hn)
    · rintro m e m' hwaits ⟨event, -, hs⟩
      exact hwaits.step hs
  exact hwaits.asleep (hwaits.joined (.inr hreturned)) hsweep

end FerrisKv
