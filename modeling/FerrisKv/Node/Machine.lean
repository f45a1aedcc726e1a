/-
A node that serves one call at a time, dies, and starts again.

`Machine` is the world and what the process is doing: starting up,
waiting for a call, in the middle of one, or stopped by a failed start.
Its steps are the atomic steps of the program in progress, so a crash can
fall between any two of them, or inside a log call after some of its file
effects. The clock may advance at any moment.

What can go wrong is a parameter: `Setting.fault` says which I/O faults a
step may meet, `Setting.cut` inside which log calls, and after how many
of their file effects, the process may die.
-/
import FerrisKv.Lib.Lts
import FerrisKv.Node.Service

namespace FerrisKv

open WriteLog

/-- The calls of a node. -/
inductive Op where
  | put (key value : Bytes) (ttlMs : Nat)
  | delete (key : Bytes)
  | get (key : Bytes)
  | scan (pre : Bytes)
  | scanRange (start stop : Bytes)
  | sweep
  deriving DecidableEq, Repr

/-- What a call answers. -/
inductive Answer where
  | done (r : Result Unit)
  | value (r : Result (Option Bytes))
  | entries (r : Result (List (Bytes × Bytes)))
  | swept (removed : Nat)
  deriving DecidableEq

/-- The program of a call. -/
def Op.prog (cfg : NodeConfig) : Op → NodeProg Answer
  | .put key value ttlMs => .done <$> (NodeService.putWithTtl cfg key value ttlMs).run
  | .delete key => .done <$> (NodeService.delete cfg key).run
  | .get key => .value <$> (NodeService.get key).run
  | .scan pre => .entries <$> (NodeService.scan pre).run
  | .scanRange start stop => .entries <$> (NodeService.scanRange start stop).run
  | .sweep => .swept <$> NodeService.sweepOnce cfg

/-- What the process is doing. -/
inductive Phase where
  | opening (rest : NodeProg (Result Unit))
  | idle
  | serving (op : Op) (rest : NodeProg Answer)
  | down (e : Error)

/-- A node: the world and what the process is doing in it. -/
structure Machine where
  world : World
  phase : Phase

/-- What an observer sees. -/
inductive Label where
  | call (op : Op)
  | ret (op : Op) (answer : Answer)
  | tick (now instant : Nat)
  | crash
  | opened
  | refused (e : Error)

/-- The environment a node runs in: its configuration, the calls made, the
I/O faults and the crash points to expect. -/
structure Setting where
  ext : Externals
  cfg : NodeConfig
  call : Op → Prop
  fault : Option Fault → Prop
  cut : WalPrim → Wal → Nat → Prop

/-- An environment in which anything may be called, fail or die. -/
def Setting.hostile (ext : Externals) (cfg : NodeConfig) : Setting :=
  ⟨ext, cfg, fun _ => True, fun _ => True, fun _ _ _ => True⟩

/-- Advance the clocks. -/
def World.tick (w : World) (now instant : Nat) : World :=
  { w with now := now, instant := instant }

/-- A step of the node that meets a fault of the given kind or none; the
clocks may have moved before it. -/
def Prim.Goes (ext : Externals) (ok : Prim → Option Fault → Prop) (w : World)
    (p : Prim) (r : p.Resp) (w' : World) : Prop :=
  ∃ now instant fault, w.now ≤ now ∧ w.instant ≤ instant ∧ ok p fault
    ∧ p.exec ext fault (w.tick now instant) = (r, w')

/-- No step fails. -/
def faultless (_ : Prim) (fault : Option Fault) : Prop := fault = none

/-- A step that does not fail, the clock standing still. -/
theorem goes_exec (ext : Externals) (w : World) (p : Prim) :
    Prim.Goes ext faultless w p (p.exec ext none w).1 (p.exec ext none w).2 :=
  ⟨w.now, w.instant, none, le_rfl, le_rfl, rfl, rfl⟩

-- ============================================================= their rules

/-- The rules of a node that meets no other faults. -/
abbrev restless (ext : Externals) (ok : Prim → Option Fault → Prop) :
    Prog.Rules World Prim Prim.Resp :=
  .steps (fun _ _ => True) (Prim.Goes ext ok)

/-- A node whose steps do not fail, the clock free to move between them. -/
abbrev calm (ext : Externals) : Prog.Rules World Prim Prim.Resp :=
  restless ext faultless

section Rules

variable {ext : Externals} {w : World} {p : Prim}
  {K : p.Resp → World → Prop}

theorem restless_post {ok : Prim → Option Fault → Prop}
    (h : ∀ now instant fault, ok p fault →
      K (p.exec ext fault (w.tick now instant)).1
        (p.exec ext fault (w.tick now instant)).2) :
    (restless ext ok).post w p K := by
  refine ⟨trivial, fun r w' hp => ?_⟩
  obtain ⟨now, instant, fault, -, -, hok, he⟩ := hp
  have hk := h now instant fault hok
  rw [he] at hk
  exact hk

theorem calm_post (h : ∀ now instant,
      K (p.exec ext none (w.tick now instant)).1
        (p.exec ext none (w.tick now instant)).2) :
    (calm ext).post w p K := by
  refine restless_post fun now instant fault hok => ?_
  obtain rfl : fault = none := hok
  exact h now instant

end Rules

/-- The step the process is about to take, if it is in a program. -/
def Phase.next : Phase → Option Prim
  | .opening (.act p _) => some p
  | .serving _ (.act p _) => some p
  | _ => none

/-- The process that starts on `w`. -/
def Machine.boot (ext : Externals) (w : World) : Machine :=
  ⟨w, .opening (NodeService.open ext).run⟩

/-- The steps of a node. -/
inductive Machine.Step (S : Setting) :
    Machine → Option Label → Machine → Prop where
  | call {w : World} {op : Op} (h : S.call op) :
      Step S ⟨w, .idle⟩ (some (.call op)) ⟨w, .serving op (op.prog S.cfg)⟩
  | act {w : World} {op : Op} {p : Prim} {k : p.Resp → NodeProg Answer}
      {fault : Option Fault} (h : S.fault fault) :
      Step S ⟨w, .serving op (.act p k)⟩ none
        ⟨(p.exec S.ext fault w).2, .serving op (k (p.exec S.ext fault w).1)⟩
  | ret {w : World} {op : Op} {answer : Answer} :
      Step S ⟨w, .serving op (.ret answer)⟩ (some (.ret op answer)) ⟨w, .idle⟩
  | openAct {w : World} {p : Prim} {k : p.Resp → NodeProg (Result Unit)}
      {fault : Option Fault} (h : S.fault fault) :
      Step S ⟨w, .opening (.act p k)⟩ none
        ⟨(p.exec S.ext fault w).2, .opening (k (p.exec S.ext fault w).1)⟩
  | opened {w : World} :
      Step S ⟨w, .opening (.ret (.ok ()))⟩ (some .opened) ⟨w, .idle⟩
  | refused {w : World} {e : Error} :
      Step S ⟨w, .opening (.ret (.error e))⟩ (some (.refused e)) ⟨w, .down e⟩
  | tick {w : World} {ph : Phase} {now instant : Nat} (hn : w.now ≤ now)
      (hi : w.instant ≤ instant) :
      Step S ⟨w, ph⟩ (some (.tick now instant)) ⟨w.tick now instant, ph⟩
  | crash {w : World} {ph : Phase} {kept : List (Write Bytes Bytes)}
      (hk : w.storage.MayKeep kept) :
      Step S ⟨w, ph⟩ (some .crash)
        (.boot S.ext (w.crash S.cfg kept w.wal.file))
  | crashInside {w : World} {ph : Phase} {kept : List (Write Bytes Bytes)}
      {p : WalPrim} {n : Nat} (hk : w.storage.MayKeep kept)
      (hp : ph.next = some (.wal p)) (hn : S.cut p w.wal n) :
      Step S ⟨w, ph⟩ (some .crash)
        (.boot S.ext (w.crash S.cfg kept
          (applyEffects ((p.effects w.wal).take n) w.wal.file)))

/-- The node as a transition system, from an empty data directory on. -/
def node (S : Setting) : Lts Machine Label where
  init m := ∃ now instant,
    m = .boot S.ext (.fresh S.cfg now instant)
  step := Machine.Step S

-- ======================================================== fault-free runs

namespace Machine

variable {S : Setting} {τ : List Label}

/-- A call in progress can run to its end. -/
theorem trace_run {op : Op} (hf : S.fault none) :
    ∀ {x : NodeProg Answer} {w : World},
      (node S).Trace τ ⟨w, .serving op x⟩ →
      (node S).Trace τ ⟨(x.run (Prim.exec S.ext none) w).2, .serving op
        (.ret (x.run (Prim.exec S.ext none) w).1)⟩ := by
  intro x
  induction x with
  | ret a => exact fun h => h
  | act p k ih => exact fun h => ih _ (.internal h (.act hf))

/-- Startup can run to its end. -/
theorem trace_open (hf : S.fault none) :
    ∀ {x : NodeProg (Result Unit)} {w : World},
      (node S).Trace τ ⟨w, .opening x⟩ →
      (node S).Trace τ ⟨(x.run (Prim.exec S.ext none) w).2, .opening
        (.ret (x.run (Prim.exec S.ext none) w).1)⟩ := by
  intro x
  induction x with
  | ret a => exact fun h => h
  | act p k ih => exact fun h => ih _ (.internal h (.openAct hf))

/-- A process that comes up. -/
theorem trace_opened (hf : S.fault none) {w : World}
    (h : (node S).Trace τ (.boot S.ext w))
    (hok : ((NodeService.open S.ext).run.run (Prim.exec S.ext none) w).1
      = .ok ()) :
    (node S).Trace (τ ++ [.opened])
      ⟨((NodeService.open S.ext).run.run (Prim.exec S.ext none) w).2,
        .idle⟩ := by
  have ht := trace_open hf h
  rw [hok] at ht
  exact .visible ht .opened

/-- A call served without faults. -/
theorem trace_served (hf : S.fault none) (op : Op) (hc : S.call op)
    {w : World} (h : (node S).Trace τ ⟨w, .idle⟩) {a : Answer}
    (ha : ((op.prog S.cfg).run (Prim.exec S.ext none) w).1 = a) :
    (node S).Trace (τ ++ [.call op] ++ [.ret op a])
      ⟨((op.prog S.cfg).run (Prim.exec S.ext none) w).2, .idle⟩ := by
  have ht := trace_run hf (.visible h (.call hc))
  rw [ha] at ht
  exact .visible ht .ret

/-- Time passes. -/
theorem trace_tick {w : World} {ph : Phase} (now instant : Nat)
    (h : (node S).Trace τ ⟨w, ph⟩) (hn : w.now ≤ now)
    (hi : w.instant ≤ instant) :
    (node S).Trace (τ ++ [.tick now instant]) ⟨w.tick now instant, ph⟩ :=
  .visible h (.tick hn hi)

-- ================================================ invariants between calls

/-- What holds of a node at every moment: `Idle` between calls, and inside
a call that its end will be `Idle` again. -/
def Holds (L : Prog.Rules World Prim Prim.Resp) (Idle : World → Prop)
    (m : Machine) : Prop :=
  match m.phase with
  | .opening x => Prog.wp L (fun w r => r = .ok () → Idle w) x m.world
  | .idle => Idle m.world
  | .serving _ x => Prog.wp L (fun w _ => Idle w) x m.world
  | .down _ => True

/-- The rules cover what the setting permits, and every program of the node
keeps `Idle` under them. -/
structure Keeps (S : Setting) (L : Prog.Rules World Prim Prim.Resp)
    (Idle : World → Prop) : Prop where
  step : ∀ {w : World} {p : Prim} {K : p.Resp → World → Prop}
    {fault : Option Fault}, S.fault fault → L.post w p K →
      K (p.exec S.ext fault w).1 (p.exec S.ext fault w).2
  tick : ∀ {w : World} {p : Prim} {K : p.Resp → World → Prop}
    {now instant : Nat}, w.now ≤ now → w.instant ≤ instant →
      L.post w p K → L.post (w.tick now instant) p K
  idle : ∀ {w : World} {now instant : Nat}, w.now ≤ now →
    Idle w → Idle (w.tick now instant)
  call : ∀ {w : World} {op : Op}, S.call op → Idle w →
    Prog.wp L (fun w' _ => Idle w') (op.prog S.cfg) w
  boot : ∀ w : World, Prog.wp L (fun w' r => r = .ok () → Idle w')
    (NodeService.open S.ext).run w

section Keeps

variable {L : Prog.Rules World Prim Prim.Resp} {Idle : World → Prop}
  {m m' : Machine}

/-- The clock may move before a step, or after the last. -/
theorem Keeps.wp_tick (h : Keeps S L Idle) {α : Type}
    {Q : World → α → Prop} {w : World} {now instant : Nat}
    (hn : w.now ≤ now) (hi : w.instant ≤ instant)
    (hQ : ∀ a, Q w a → Q (w.tick now instant) a) {x : NodeProg α}
    (hx : Prog.wp L Q x w) : Prog.wp L Q x (w.tick now instant) := by
  cases x with
  | ret a => exact hQ a hx
  | act p k => exact h.tick hn hi hx

theorem Keeps.holds_step (h : Keeps S L Idle) {l : Option Label}
    (hm : Holds L Idle m) (hs : Machine.Step S m l m') :
    Holds L Idle m' := by
  cases hs with
  | call hop => exact h.call hop hm
  | act hf => exact h.step hf hm
  | ret => exact hm
  | openAct hf => exact h.step hf hm
  | opened => exact hm rfl
  | refused => exact trivial
  | @tick w ph now instant hn hi =>
      cases ph with
      | opening x => exact h.wp_tick hn hi (fun _ hq hr => h.idle hn (hq hr)) hm
      | idle => exact h.idle hn hm
      | serving op x => exact h.wp_tick hn hi (fun _ hq => h.idle hn hq) hm
      | down e => exact trivial
  | crash hk => exact h.boot _
  | crashInside hk hp hn => exact h.boot _

theorem Keeps.reachable (h : Keeps S L Idle) (hm : (node S).Reachable m) :
    Holds L Idle m := by
  refine hm.induction ?_ fun _ _ _ => h.holds_step
  rintro _ ⟨now, instant, rfl⟩
  exact h.boot _

end Keeps

end Machine

end FerrisKv
