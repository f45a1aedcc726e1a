/-
`main` from the moment the gRPC server starts (`ferriskv-node/src/main.rs`):
the deadline around the serve future, the signals, and what `main` waits for
before it returns.

Time is in milliseconds since the call of `tokio::time::timeout`. The
events that are not under `main`'s control, signals, requests, errors and
the clock, come in any order; a timer may fire late but not early. `serve`
stops once it is told to and its requests have finished, and takes its
requests with it when it fails or is dropped. `timeout` polls it before it
looks at its deadline.
-/
import FerrisKv.Core.Error
import FerrisKv.Lib.Lts

namespace FerrisKv

/-- The fields of the configuration that `main` reads here. -/
structure MainConfig where
  shutdownTimeoutSecs : Nat
  ttlSweepIntervalSecs : Nat := 60
  adminListen : Bool := false
  deriving DecidableEq, Repr

/-- The check `NodeConfig::validate` makes of the timeout. -/
def MainConfig.validate (cfg : MainConfig) : Except String Unit :=
  if cfg.shutdownTimeoutSecs = 0 then
    .error "shutdown_timeout_secs must be > 0"
  else .ok ()

/-- How `timeout(.., serve).await` came out: `Ok(Ok(()))`, `Ok(Err(e))` or
`Err(_)`. -/
inductive ServeOutcome where
  | stopped
  | failed
  | elapsed
  deriving DecidableEq, Repr

/-- What `main` is waiting for. -/
inductive MainPhase where
  | serving
  | joiningAdmin
  | joiningSweeper
  | syncing
  | returned
  deriving DecidableEq, Repr

/-- The end of the serve future: how and when, the signal received by then,
and the requests that were in flight. -/
structure ServeEnd where
  outcome : ServeOutcome
  time : Nat
  signal : Option Nat
  inFlight : List Nat
  deriving DecidableEq, Repr

/-- The state of the process. `told` is when `shutdown_signal` resolved,
`signalled` when the first SIGINT or SIGTERM arrived. `admin` and `sweeper`
say whether the spawned tasks still run. -/
structure Main where
  now : Nat
  told : Option Nat
  signalled : Option Nat
  inFlight : List Nat
  ended : Option ServeEnd
  phase : MainPhase
  admin : Bool
  sweeper : Bool
  deriving DecidableEq, Repr

/-- What can happen next. `handlerError` is a signal handler that cannot be
installed, which `shutdown_signal` takes for a signal. -/
inductive MainEvent where
  | tick (ms : Nat)
  | signal
  | handlerError
  | arrive (request : Nat)
  | complete (request : Nat)
  | listenerError
  | drained
  | deadline
  | adminEnds
  | sweeperEnds
  | proceed
  deriving DecidableEq, Repr

namespace Main

/-- `shutdown_timeout + Duration::from_secs(5)`. -/
def deadlineMs (cfg : MainConfig) : Nat :=
  (cfg.shutdownTimeoutSecs + 5) * 1000

/-- The server starts; `none` is the panic of a `Duration` that overflows. -/
def start (cfg : MainConfig) : Option Main :=
  if cfg.shutdownTimeoutSecs + 5 > u64Max then none
  else some
    { now := 0
      told := none
      signalled := none
      inFlight := []
      ended := none
      phase := .serving
      admin := cfg.adminListen
      sweeper := decide (cfg.ttlSweepIntervalSecs ≠ 0) }

/-- The serve future is gone: resolved, or dropped at its deadline. -/
def finish (m : Main) (outcome : ServeOutcome) : Main :=
  { m with ended := some ⟨outcome, m.now, m.signalled, m.inFlight⟩
           phase := .joiningAdmin
           inFlight := [] }

/-- `serve` would resolve if it were polled. -/
def isDrained (m : Main) : Bool := m.told.isSome && m.inFlight.isEmpty

/-- What follows the serve future: the two handles are awaited, the log is
synced, and `main` returns. -/
def proceed (m : Main) : Option Main :=
  match m.phase with
  | .serving => none
  | .joiningAdmin =>
      if m.admin then none else some { m with phase := .joiningSweeper }
  | .joiningSweeper =>
      if m.sweeper then none else some { m with phase := .syncing }
  | .syncing => some { m with phase := .returned }
  | .returned => none

/-- One event, if it can happen. -/
def step (cfg : MainConfig) (m : Main) : MainEvent → Option Main
  | .tick ms => some { m with now := m.now + ms }
  | .signal => some { m with told := m.told.or (some m.now),
                             signalled := m.signalled.or (some m.now) }
  | .handlerError => some { m with told := m.told.or (some m.now) }
  | .arrive r =>
      if m.phase = .serving ∧ r ∉ m.inFlight then
        some { m with inFlight := m.inFlight ++ [r] }
      else none
  | .complete r =>
      if r ∈ m.inFlight then some { m with inFlight := m.inFlight.erase r }
      else none
  | .listenerError =>
      if m.phase = .serving then some (m.finish .failed) else none
  | .drained =>
      if m.phase = .serving ∧ m.isDrained then some (m.finish .stopped)
      else none
  | .deadline =>
      if m.phase = .serving ∧ deadlineMs cfg ≤ m.now ∧ ¬ m.isDrained then
        some (m.finish .elapsed)
      else none
  | .adminEnds => if m.admin then some { m with admin := false } else none
  | .sweeperEnds =>
      if m.sweeper ∧ m.told.isSome then some { m with sweeper := false }
      else none
  | .proceed => m.proceed

/-- The events in turn. -/
def play (cfg : MainConfig) : List MainEvent → Main → Option Main
  | [], m => some m
  | e :: rest, m => (m.step cfg e).bind (play cfg rest)

end Main

/-- The process as a transition system. -/
def mainLts (cfg : MainConfig) : Lts Main MainEvent where
  init m := Main.start cfg = some m
  step m e m' := ∃ event, e = some event ∧ m.step cfg event = some m'

end FerrisKv
