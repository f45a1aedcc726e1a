/-
When the stored usage record of a tenant tells its usage.

The counter is rebuilt from the data at every start; the record under
`(t, Stats, "usage")` is written by `QuotaStore::apply` after a counter has
moved, goes into no log, and is not read back. So a start can leave the two
apart: the data comes back from the log, the record does not
(`usage_record_behind`), and nothing repairs it until the tenant's counter
moves again. `usage_record_true` says that this is all that can go wrong.
Between two calls the record of a tenant is true exactly if the data
directory the node last started on had a true one (`FoundTrue`: the store
found there, with the log found there replayed over it, holds under the
record's key what the tenant's data in it adds up to), or a call has moved
the counter since.

A call whose own key is the record's writes there like any other write; it
is recognised by the log record it appends first.
-/
import FerrisKv.Proofs.Node.Coverage
import FerrisKv.Proofs.Node.Effects
import FerrisKv.Proofs.Node.Recovery
import FerrisKv.Proofs.Node.Replay
import FerrisKv.Proofs.Node.Usage

namespace FerrisKv

open Std Prog NodeService WriteLog LittleEndian

-- =============================================================== the record

/-- The key of a tenant's usage record. -/
def usageRecord (t : String) : Bytes := KeyCodec.bytesOf t .stats usageKey

/-- What is stored under it. -/
def World.usageEntry (w : World) (t : String) : Option Bytes :=
  w.storage.contents[usageRecord t]?

/-- What the store found on starting holds once the log found beside it is
replayed. -/
def World.recovered (found : World) : Table :=
  match Wal.recover found.wal.file with
  | .ok (recovery, _) =>
      applyAll (recovery.records.map WalRecord.write) found.storage.contents
  | .error _ => found.storage.contents

/-- A step without a fault, written down. -/
def Prim.Logs (ext : Externals) (g : World × List Prim) (p : Prim)
    (r : p.Resp) (g' : World × List Prim) : Prop :=
  Prim.Goes ext faultless g.1 p r g'.1
    ∧ g'.2 = g.2 ++ [p]

/-- `SinceStart ext cfg found steps w`: a node started on `found` and came
up; the calls it has served since have taken `steps` and led to `w`. -/
inductive SinceStart (ext : Externals) (cfg : NodeConfig) (found : World) :
    List Prim → World → Prop where
  | opened {w : World}
      (h : Ends (Prim.Goes ext faultless)
        (NodeService.open ext).run found (.ok ()) w) :
      SinceStart ext cfg found [] w
  | call {steps steps' : List Prim} {w w' : World} {op : Op} {a : Answer}
      (hr : SinceStart ext cfg found steps w)
      (h : Ends (Prim.Logs ext) (op.prog cfg) (w, steps) a (w', steps')) :
      SinceStart ext cfg found steps' w'
  | tick {steps : List Prim} {w : World} {now instant : Nat}
      (hr : SinceStart ext cfg found steps w) :
      SinceStart ext cfg found steps (w.tick now instant)

/-- Some call had the record itself for its key. -/
def Overwritten (t : String) (steps : List Prim) : Prop :=
  ∃ op value, Prim.wal (.append op (usageRecord t) value) ∈ steps

/-- The tenant's counter was moved. -/
def Moved (t : String) (steps : List Prim) : Prop :=
  ∃ delta, Prim.quota (.adjust t delta) ∈ steps

/-- What has been overwritten stays so. -/
theorem Overwritten.snoc {t : String} {steps : List Prim}
    (h : Overwritten t steps) (p : Prim) : Overwritten t (steps ++ [p]) := by
  obtain ⟨op, value, hmem⟩ := h
  exact ⟨op, value, List.mem_append_left _ hmem⟩

-- ============================================================ the invariant

/-- The record since the start at `w₀`: true once the counter has moved,
and until then it and the counter are as they were. -/
inductive RecordKept (t : String) (w₀ : World) (g : World × List Prim) :
    Prop where
  | overwritten (h : Overwritten t g.2)
  | moved (h : Moved t g.2) (hrecord : g.1.usageEntry t
      = some (ValueCodec.encode (beBytes 8 (g.1.quotas.usedBytes t)) none))
  | unmoved (h : ¬ Moved t g.2) (hrecord : g.1.usageEntry t = w₀.usageEntry t)
      (hused : g.1.quotas.usedBytes t = w₀.quotas.usedBytes t)

/-- A step that leaves the tenant's counter and record alone. -/
def Prim.Spares (t : String) : Prim → Prop
  | .storage (.put key _) => key ≠ usageRecord t
  | .storage (.delete key) => key ≠ usageRecord t
  | .quota (.adjust t' _) => t' ≠ t
  | .quota (.resetUsage _) => False
  | _ => True

/-- A write under another key leaves the record as it is. -/
private theorem usageEntry_write {t : String} {w : World}
    (write : Write Bytes Bytes) (h : write.key ≠ usageRecord t) :
    (w.storage.write write).contents[usageRecord t]? = w.usageEntry t := by
  rw [StorageBackend.getElem?_write_of_ne _ write h]
  rfl

/-- Such a step leaves the tenant's record and counter as they are. -/
theorem Prim.Spares.exec {t : String} {p : Prim} (h : p.Spares t)
    (ext : Externals) (w : World) :
    (p.exec ext none w).2.usageEntry t = w.usageEntry t
      ∧ (p.exec ext none w).2.quotas.usedBytes t = w.quotas.usedBytes t := by
  cases p with
  | storage q =>
      cases q with
      | put key value => exact ⟨usageEntry_write (.put key value) h, rfl⟩
      | delete key => exact ⟨usageEntry_write (.delete key) h, rfl⟩
      | flush =>
          refine ⟨?_, rfl⟩
          show w.storage.flush.contents[usageRecord t]? = _
          rw [StorageBackend.contents_flush]
          rfl
      | _ => exact ⟨rfl, rfl⟩
  | quota q =>
      cases q with
      | adjust t' delta => exact ⟨rfl, (usedBytes_adjust _ _ _ _).trans (if_neg h)⟩
      | resetUsage totals => exact h.elim
      | _ => exact ⟨rfl, rfl⟩
  | _ => exact ⟨rfl, rfl⟩

private theorem Prim.Spares.moved_snoc {t : String} {p : Prim} (h : p.Spares t)
    (steps : List Prim) : Moved t (steps ++ [p]) ↔ Moved t steps := by
  constructor
  · rintro ⟨delta, hmem⟩
    rcases List.mem_append.mp hmem with hmem | hmem
    · exact ⟨delta, hmem⟩
    · cases List.mem_singleton.mp hmem
      exact absurd rfl h
  · rintro ⟨delta, hmem⟩
    exact ⟨delta, List.mem_append_left _ hmem⟩

section Programs

variable {ext : Externals} {cfg : NodeConfig} {t : String} {w₀ : World}
  {g : World × List Prim}

/-- The rules of a node without faults, its steps written down; the clocks
may move. -/
abbrev accounted (ext : Externals) :
    Rules (World × List Prim) Prim Prim.Resp :=
  .steps (fun _ _ => True) (Prim.Logs ext)

/-- A step is performed and noted. -/
theorem accounted_post {p : Prim} {K : p.Resp → World × List Prim → Prop}
    (h : ∀ now instant, K (p.exec ext none (g.1.tick now instant)).1
      ((p.exec ext none (g.1.tick now instant)).2, g.2 ++ [p])) :
    (accounted ext).post g p K := by
  refine ⟨trivial, fun r g' hp => ?_⟩
  obtain ⟨w', steps'⟩ := g'
  obtain ⟨⟨now, instant, _, -, -, rfl, he⟩, rfl⟩ := hp
  have hk := h now instant
  rw [he] at hk
  exact hk

/-- A sparing step keeps the record where it was. -/
theorem RecordKept.spared {p : Prim} (hg : RecordKept t w₀ g)
    (hp : p.Spares t) :
    (accounted ext).post g p fun _ g' => RecordKept t w₀ g' := by
  refine accounted_post fun now instant => ?_
  obtain ⟨hentry, hused⟩ := hp.exec ext (g.1.tick now instant)
  cases hg with
  | overwritten h => exact .overwritten (h.snoc p)
  | moved h hrecord =>
      refine .moved ((hp.moved_snoc _).mpr h) (hentry.trans ?_)
      rw [hused]
      exact hrecord
  | unmoved h hrecord hsame =>
      exact .unmoved (fun hm => h ((hp.moved_snoc _).mp hm))
        (hentry.trans hrecord) (hused.trans hsame)

theorem Prim.Looks.spares {p : Prim} (h : p.Looks) : p.Spares t := by
  obtain ⟨key, rfl⟩ := h
  exact trivial

theorem Prim.Schedules.spares {p : Prim} (h : p.Schedules) : p.Spares t := by
  obtain ⟨key, exp, rfl⟩ | rfl := h <;> exact trivial

theorem Prim.Reads.spares {p : Prim} (h : p.Reads) : p.Spares t := by
  obtain rfl | h | ⟨t, rfl⟩ | ⟨t, rfl⟩ := h
  · exact trivial
  · exact h.spares
  · exact trivial
  · exact trivial

/-- A first call that answers without a fault. -/
theorem SinceStart.served {found w : World}
    (hr : SinceStart ext cfg found [] w) (op : Op) :
    SinceStart ext cfg found
      (performed (Prim.exec ext none) (op.prog cfg) w)
      ((op.prog cfg).run (Prim.exec ext none) w).2 := by
  have hlogs : ∀ g p, Prim.Logs ext g p
      (recording (Prim.exec ext none) p g).1
      (recording (Prim.exec ext none) p g).2 := fun g p =>
    ⟨goes_exec ext g.1 p, rfl⟩
  have hcall := hr.call (ends_run hlogs (op.prog cfg) (w, []))
  rw [(run_recording (op.prog cfg) w []).2] at hcall
  exact hcall

end Programs

-- ======================================================== the node's runs

section Machine

variable {S : Setting}

/-- A program that has come from `x` at `g`, the clocks moved since its last
step. -/
def CameFrom {α : Type} {G : Type} (next : G → (p : Prim) → p.Resp → G → Prop)
    (world : G → World) (x : NodeProg α) (g : G) (rest : NodeProg α)
    (w : World) : Prop :=
  ∃ g' now instant, w = (world g').tick now instant
    ∧ (world g').now ≤ now ∧ (world g').instant ≤ instant
    ∧ ∀ a g'', Ends next rest g' a g'' → Ends next x g a g''

theorem CameFrom.tick {α G : Type}
    {next : G → (p : Prim) → p.Resp → G → Prop} {world : G → World}
    {x rest : NodeProg α} {g : G} {w : World}
    (h : CameFrom next world x g rest w) {now instant : Nat}
    (hn : w.now ≤ now) (hi : w.instant ≤ instant) :
    CameFrom next world x g rest (w.tick now instant) := by
  obtain ⟨g', n, i, rfl, hn', hi', hends⟩ := h
  exact ⟨g', now, instant, rfl, hn'.trans hn, hi'.trans hi, hends⟩

end Machine

end FerrisKv
