/-
Writes that are answered with an error.

A `put_with_ttl` or `delete` can fail while it reads the old entry, at the
quota check, in its log append, or at the storage write; what comes later
only logs its errors. Up to the quota check nothing has been written. From
the append on it has: the record stays in the segment when the storage
write fails, and the next start replays it (`failed_put_comes_back`). An
append that fails half way leaves bytes in the file or in the buffer, which
later appends complete or trip over.

`failed_writes_forgotten`: where no failed call got that far, a run can be
had without its failed calls, down to the state of the world.
-/
import FerrisKv.Node.Machine
import FerrisKv.Node.Concurrent
import FerrisKv.Proofs.Node.Footprint

namespace FerrisKv

open Prog NodeService WriteLog

-- ==================================================================== runs

/-- What happens to a node: calls with their answers, time, and restarts
after a crash. -/
inductive Doing where
  | call (op : Op) (answer : Answer)
  | tick (now instant : Nat)
  | restart (kept : List (Write Bytes Bytes))

/-- A put or delete that was answered with an error. -/
def Doing.failed : Doing → Bool
  | .call (.put _ _ _) (.done (.error _)) => true
  | .call (.delete _) (.done (.error _)) => true
  | _ => false

/-- Runs of a node in which any step may meet a fault; the steps of a
failed write go as `struck` permits. -/
inductive Life (ext : Externals) (cfg : NodeConfig)
    (struck : World → (p : Prim) → p.Resp → World → Prop) (w₀ : World) :
    List Doing → World → Prop where
  | start : Life ext cfg struck w₀ [] w₀
  | call {h : List Doing} {w w' : World} {op : Op} {a : Answer}
      (hr : Life ext cfg struck w₀ h w)
      (hd : Ends (Prim.May ext) (op.prog cfg) w a w')
      (hf : (Doing.call op a).failed = true →
        Ends struck (op.prog cfg) w a w') :
      Life ext cfg struck w₀ (h ++ [.call op a]) w'
  | tick {h : List Doing} {w : World} {now instant : Nat}
      (hr : Life ext cfg struck w₀ h w) (hn : w.now ≤ now)
      (hi : w.instant ≤ instant) :
      Life ext cfg struck w₀ (h ++ [.tick now instant])
        (w.tick now instant)
  | restart {h : List Doing} {w w' : World}
      {kept : List (Write Bytes Bytes)} (hr : Life ext cfg struck w₀ h w)
      (hk : w.storage.MayKeep kept)
      (hopen : Ends (Prim.May ext) (NodeService.open ext).run
        (w.crash cfg kept w.wal.file) (.ok ()) w') :
      Life ext cfg struck w₀ (h ++ [.restart kept]) w'

-- ============================================================ the condition

/-- The faults that leave nothing behind: no storage write fails, and an
append fails only at its first byte and with a frame too large to be
buffered. Reading may fail as it likes. -/
def Prim.Traceless (w : World) : Prim → Option Fault → Prop
  | .storage (.put _ _), fault => fault = none
  | .storage (.delete _), fault => fault = none
  | .wal (.append op key value), fault => ∀ f ∈ fault, f.after = 0
      ∧ bufCapacity ≤ (encodeFrame w.wal.nextSeq op key value).length
  | _, _ => True

/-- A step of the node that meets such a fault or none. -/
def Prim.Untraced (ext : Externals) (w : World) (p : Prim) (r : p.Resp)
    (w' : World) : Prop :=
  ∃ fault, p.Traceless w fault ∧ p.exec ext fault w = (r, w')

/-- The rules of a node that meets no others. -/
abbrev traceless (ext : Externals) : Rules World Prim Prim.Resp :=
  .steps (fun _ _ => True) (Prim.Untraced ext)

-- ================================================================= one call

section OneCall

variable {ext : Externals} {cfg : NodeConfig} {w : World}

/-- What holds for every fault without a trace holds for such a step. -/
theorem traceless_post {p : Prim} {K : p.Resp → World → Prop}
    (h : ∀ fault, p.Traceless w fault →
      K (p.exec ext fault w).1 (p.exec ext fault w).2) :
    (traceless ext).post w p K := by
  refine ⟨trivial, fun r w' hp => ?_⟩
  obtain ⟨fault, hs, hf⟩ := hp
  have hk := h fault hs
  rw [hf] at hk
  exact hk

/-- An append that fails before its first byte, and does not buffer, has
not happened. -/
theorem Wal.append_struck_at_once {v : Wal} {op : WalOp} {key value : Bytes}
    {f : Fault} (hf : f.after = 0)
    (hlarge : bufCapacity ≤ (encodeFrame v.nextSeq op key value).length) :
    v.append (some f) op key value = (.error (.io f.text), v) := by
  have hlt : f.after
      < (v.buffered ++ encodeFrame v.nextSeq op key value).length := by
    rw [List.length_append, hf]
    unfold bufCapacity at hlarge
    omega
  simp only [Wal.append]
  rw [if_pos hlt]
  simp only [Wal.leftover]
  rw [if_pos hlarge, hf, List.take_zero, List.append_nil, List.drop_zero]

theorem wp_reads {α : Type} {x : NodeProg α} {Q : World → α → Prop}
    (hx : x.Uses Prim.Reads) (hQ : ∀ a, Q w a) : wp (traceless ext) Q x w := by
  refine wp_of_uses (I := (· = w)) ?_ ?_ hx rfl
  · rintro g p rfl hp
    exact traceless_post fun fault _ => hp.exec fault
  · rintro g a rfl
    exact hQ a

/-- What is asked of a write that began in `w`. -/
def Forgets (w : World) (g : World) (r : Result Unit) : Prop :=
  ∀ e, r = .error e → g = w

/-- From the append on, a write that fails has failed there. -/
theorem wp_append_forgets {op : WalOp} {key value : Bytes}
    {rest : NodeM Unit}
    (hrest : ∀ g, wp (traceless ext) (Forgets w) rest.run g) :
    wp (traceless ext) (Forgets w)
      (ExceptT.run (walAppend op key value >>= fun _ => rest)) w := by
  refine (wp_bindE _ _ _).mpr (traceless_post fun fault hs => ?_)
  cases fault with
  | none => exact hrest _
  | some f =>
      obtain ⟨hf, hlarge⟩ := hs f rfl
      simp only [Prim.exec, WalPrim.exec, Wal.append_struck_at_once hf hlarge]
      exact fun _ _ => rfl

/-- What follows the storage write never fails. -/
theorem wp_settle_forgets (plan : Option Accounting) (key value : Bytes)
    (kind : ChangeKind) (g : World) :
    wp (traceless ext) (Forgets w) (ExceptT.run (do
      commitAccounting plan
      publishChange key kind value
      rotateWalIfNeeded cfg : NodeM Unit)) g := by
  simp only [wp_bindE, wp_lift, onResult_ok]
  refine wp_any fun _ _ => wp_any fun _ _ => wp_any fun _ _ e he => ?_
  cases he

/-- A put that fails on such a fault leaves the world as it was. -/
private theorem wp_put_forgets (key value : Bytes) (ttlMs : Nat) :
    wp (traceless ext) (Forgets w) (putWithTtl cfg key value ttlMs).run w := by
  unfold putWithTtl
  refine (wp_bindE _ _ _).mpr ((wp_lift _ _).mpr ?_)
  refine wp_reads ((expiryStamp_uses ttlMs).mono fun _ => .inl)
    fun exp => ?_
  refine (wp_bindE _ _ _).mpr (wp_reads ((planAccounting_uses key
    value.length).mono fun _ hp => .inr (.inl hp)) fun plan => ?_)
  cases plan with
  | error e => exact fun _ _ => rfl
  | ok plan =>
      refine (wp_bindE _ _ _).mpr (wp_reads ((checkAccounting_uses
        plan).mono fun _ hp => .inr (.inr hp)) fun checked => ?_)
      cases checked with
      | error e => exact fun _ _ => rfl
      | ok u =>
          refine wp_append_forgets fun g => ?_
          refine (wp_bindE _ _ _).mpr (traceless_post fun fault hs => ?_)
          cases hs
          refine (wp_bindE _ _ _).mpr ((wp_lift _ _).mpr ?_)
          exact wp_any fun g' _ => wp_settle_forgets plan key value .put g'

/-- So does a delete. -/
private theorem wp_delete_forgets (key : Bytes) :
    wp (traceless ext) (Forgets w) (NodeService.delete cfg key).run w := by
  unfold NodeService.delete
  refine (wp_bindE _ _ _).mpr (wp_reads ((planDeleteAccounting_uses
    key).mono fun _ hp => .inr (.inl hp)) fun plan => ?_)
  cases plan with
  | error e => exact fun _ _ => rfl
  | ok plan =>
      refine wp_append_forgets fun g => ?_
      refine (wp_bindE _ _ _).mpr (traceless_post fun fault hs => ?_)
      cases hs
      exact wp_settle_forgets plan key [] .delete _

/-- A failed write that met only faults that leave nothing has changed nothing. -/
theorem failed_write_unchanged {op : Op} {a : Answer} {w' : World}
    (hf : (Doing.call op a).failed = true)
    (h : Ends (Prim.Untraced ext) (op.prog cfg) w a w') : w' = w := by
  cases op with
  | put key value ttlMs =>
      obtain ⟨r, hr, rfl⟩ := Ends.of_map h
      cases r with
      | ok u => cases hf
      | error e => exact hr.post (wp_put_forgets key value ttlMs) e rfl
  | delete key =>
      obtain ⟨r, hr, rfl⟩ := Ends.of_map h
      cases r with
      | ok u => cases hf
      | error e => exact hr.post (wp_delete_forgets key) e rfl
  | _ => cases hf

end OneCall

-- ================================================================= the runs

/-- **A write reported as failed stays failed.** In every run, with any
faults, restarts and later calls, in which the failed puts and deletes met
only faults that leave nothing behind: the run without the failed calls
ends in the same world, the recovered data of every tenant included. -/
theorem failed_writes_forgotten (ext : Externals) (cfg : NodeConfig)
    {w₀ w : World} {h : List Doing}
    (hr : Life ext cfg (Prim.Untraced ext) w₀ h w) :
    Life ext cfg (Prim.Untraced ext) w₀ (h.filter fun d => !d.failed) w := by
  induction hr with
  | start => exact .start
  | @call h w w' op a hr hd hf ih =>
      rw [List.filter_append]
      cases hfail : (Doing.call op a).failed with
      | true =>
          rw [List.filter_cons_of_neg (by rw [hfail]; decide),
            List.filter_nil, List.append_nil,
            failed_write_unchanged hfail (hf hfail)]
          exact ih
      | false =>
          rw [List.filter_cons_of_pos (by rw [hfail]; rfl), List.filter_nil]
          exact .call ih hd hf
  | tick hr hn hi ih =>
      rw [List.filter_append]
      exact .tick ih hn hi
  | restart hr hk hopen ih =>
      rw [List.filter_append]
      exact .restart ih hk hopen

-- ============================================================ chosen faults

section Struck

variable {ext : Externals} {cfg : NodeConfig} {w₀ w : World}
  {struck : World → (p : Prim) → p.Resp → World → Prop} {h : List Doing}

/-- A call served by such a handler. -/
theorem Life.serve (hr : Life ext cfg struck w₀ h w) (hit : Prim → Bool)
    (op : Op) {a : Answer}
    (ha : ((op.prog cfg).run (Prim.strike ext hit) w).1 = a)
    (hf : (Doing.call op a).failed = true → ∀ v p,
      struck v p (p.strike ext hit v).1 (p.strike ext hit v).2) :
    Life ext cfg struck w₀ (h ++ [.call op a])
      ((op.prog cfg).run (Prim.strike ext hit) w).2 := by
  subst ha
  exact .call hr (ends_run (fun _ _ => ⟨_, rfl⟩) _ w)
    fun hfail => ends_run (hf hfail) _ w

/-- A crash that keeps `kept`, and a start without faults. -/
theorem Life.reopen (hr : Life ext cfg struck w₀ h w)
    {kept : List (Write Bytes Bytes)} (hk : w.storage.MayKeep kept)
    (hok : ((NodeService.open ext).run.run (Prim.exec ext none)
      (w.crash cfg kept w.wal.file)).1 = .ok ()) :
    Life ext cfg struck w₀ (h ++ [.restart kept])
      ((NodeService.open ext).run.run (Prim.exec ext none)
        (w.crash cfg kept w.wal.file)).2 := by
  have hmay : ∀ v p, Prim.May ext v p (Prim.exec ext none p v).1
      (Prim.exec ext none p v).2 := fun _ _ => ⟨none, rfl⟩
  have hopen := ends_run hmay (NodeService.open ext).run
    (w.crash cfg kept w.wal.file)
  rw [hok] at hopen
  exact .restart hr hk hopen

end Struck

/-- A put, one whose first step fails, a crash that loses what is not
flushed, and a read. -/
theorem failed_writes_forgotten_restarted :
    let put := fun v : Bytes => Op.put (KeyCodec.bytesOf "a" .data [1]) v 0
    let read := Doing.call (.get (KeyCodec.bytesOf "a" .data [1]))
      (.value (.ok (some [6])))
    ∃ w, Life .plain {} (Prim.Untraced .plain) (.opened {})
        [.call (put [6]) (.done (.ok ())),
          .call (put [5]) (.done (.error (.storage "disk full"))),
          .restart [], read] w
      ∧ Life .plain {} (Prim.Untraced .plain) (.opened {})
        [.call (put [6]) (.done (.ok ())), .restart [], read] w := by
  intro put read
  have huntraced : ∀ v (p : Prim), Prim.Untraced .plain v p
      (p.strike .plain readsFail v).1 (p.strike .plain readsFail v).2 := by
    intro v p
    refine ⟨_, ?_, rfl⟩
    cases p with
    | storage q => cases q <;> first | exact trivial | exact rfl
    | wal q => cases q <;> first | exact trivial | exact fun f hf => nomatch hf
    | _ => exact trivial
  have hput := Life.serve (.start : Life .plain {} (Prim.Untraced .plain)
    (.opened {}) [] (.opened {})) (fun _ => false) (put [6])
    (a := .done (.ok ())) (by decide +kernel) fun h => nomatch h
  have hfailed := hput.serve readsFail (put [5])
    (a := .done (.error (.storage "disk full"))) (by decide +kernel)
    fun _ => huntraced
  have hback := hfailed.reopen (StorageBackend.mayKeep_nil _)
    (by decide +kernel)
  have hread := hback.serve (fun _ => false)
    (.get (KeyCodec.bytesOf "a" .data [1])) (a := .value (.ok (some [6])))
    (by decide +kernel) fun h => nomatch h
  exact ⟨_, hread, failed_writes_forgotten .plain {} hread⟩

/-- A put whose storage write fails is answered with the error. After a
crash it is there, on either backend. -/
theorem failed_put_comes_back :
    let key := KeyCodec.bytesOf "a" .data [1]
    let failed := Doing.call (.put key [5] 0)
      (.done (.error (.storage "disk full")))
    let read := fun v => Doing.call (.get key) (.value (.ok v))
    ∀ backend, ∃ w w',
      Life .plain { backend := backend } (Prim.May .plain)
        (.opened { backend := backend })
        [failed, .restart [], read (some [5])] w
      ∧ Life .plain { backend := backend } (Prim.May .plain)
        (.opened { backend := backend }) [.restart [], read none] w' := by
  intro key failed read backend
  have hstart : Life .plain { backend := backend } (Prim.May .plain)
      (.opened { backend := backend }) [] (.opened { backend := backend }) :=
    .start
  have hput := hstart.serve writesFail (.put key [5] 0)
    (a := .done (.error (.storage "disk full")))
    (by cases backend <;> decide +kernel) fun _ _ _ => ⟨_, rfl⟩
  have hback := hput.reopen (StorageBackend.mayKeep_nil _)
    (by cases backend <;> decide +kernel)
  have hread := hback.serve (fun _ => false) (.get key)
    (a := .value (.ok (some [5]))) (by cases backend <;> decide +kernel)
    fun h => nomatch h
  have hback' := hstart.reopen (StorageBackend.mayKeep_nil _)
    (by cases backend <;> decide +kernel)
  have hread' := hback'.serve (fun _ => false) (.get key)
    (a := .value (.ok none)) (by cases backend <;> decide +kernel)
    fun h => nomatch h
  exact ⟨_, _, hread, hread'⟩

end FerrisKv
