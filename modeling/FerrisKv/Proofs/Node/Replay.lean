/-
Replay converges from any partly applied state.

Startup tracks nothing of what storage already has. It need not: a record
decides its key whatever the store held there, so the records decide every
key they name, and where they name none the store keeps what it had
(`AgreeOff`). What an earlier replay left, cut short or not, agrees with
what it started from off those keys.

A replay ends in one of two ways (`ReplayEnds`): all records are in, or a
call failed and those before it are in.
-/
import FerrisKv.Node.Machine
import FerrisKv.Proofs.Node.Durable

namespace FerrisKv

open Std WriteLog Prog NodeService

/-- How `replay` can end that started on `w`, where its calls meet faults
of the kind `ok`. -/
inductive ReplayEnds (ok : Prim → Option Fault → Prop)
    (records : List WalRecord) (w w' : World) : Result Unit → Prop where
  | done (h : w'.storage.contents
      = applyAll (records.map WalRecord.write) w.storage.contents) :
      ReplayEnds ok records w w' (.ok ())
  | failed {p : Prim} {f : Fault} {e : Error} {n : Nat} (hf : ok p (some f))
      (h : w'.storage.contents
        = applyAll ((records.take n).map WalRecord.write) w.storage.contents) :
      ReplayEnds ok records w w' (.error e)

section Loop

variable {ext : Externals} {ok : Prim → Option Fault → Prop}

/-- One record: the write is made, or the call fails and nothing moves. -/
theorem wp_replayRecord_goes (r : WalRecord) (w : World) :
    wp (restless ext ok)
      (fun w' a => a = .ok ()
          ∧ w'.storage.contents = apply w.storage.contents r.write
        ∨ ∃ p f e, ok p (some f) ∧ a = .error e
          ∧ w'.storage.contents = w.storage.contents)
      (replayRecord r).run w := by
  unfold replayRecord WalRecord.write
  cases r.op with
  | put =>
      refine restless_post fun now instant fault hf => ?_
      cases fault with
      | none => exact .inl ⟨rfl, StorageBackend.contents_write _ _⟩
      | some f => exact .inr ⟨_, f, _, hf, rfl, rfl⟩
  | delete =>
      refine restless_post fun now instant fault hf => ?_
      cases fault with
      | none => exact .inl ⟨rfl, StorageBackend.contents_write _ _⟩
      | some f => exact .inr ⟨_, f, _, hf, rfl, rfl⟩

/-- The records go in one by one, so a replay that stops has put in those
before the one it stopped at. -/
theorem wp_replayLoop_ends :
    ∀ (records : List WalRecord) (w : World),
      wp (restless ext ok)
        (fun w' a => ReplayEnds ok records w w' a)
        (replayLoop records).run w := by
  intro records
  induction records with
  | nil => exact fun w => .done rfl
  | cons r rest ih =>
      intro w
      refine (wp_bindE _ _ _).mpr (wp_mono ?_ (wp_replayRecord_goes r w))
      rintro w₁ a (⟨rfl, h₁⟩ | ⟨p, f, e, hf, rfl, h₁⟩)
      · refine wp_mono ?_ (ih w₁)
        intro w₂ b h₂
        cases h₂ with
        | done h₂ =>
            rw [h₁] at h₂
            exact .done h₂
        | @failed p f e n hf h₂ =>
            rw [h₁] at h₂
            exact .failed (n := n + 1) hf h₂
      · exact .failed (n := 0) hf h₁

/-- What a replay leaves, whatever became of its calls: some of the records
are in, from the first on. -/
theorem contents_of_replay {records : List WalRecord} {w w' : World}
    {a : Result Nat}
    (h : Ends (Prim.Goes ext ok) (replay records).run w a w') :
    ∃ n, w'.storage.contents
      = applyAll ((records.take n).map WalRecord.write) w.storage.contents := by
  refine h.post (Q := fun w' _ => ∃ n, w'.storage.contents
      = applyAll ((records.take n).map WalRecord.write) w.storage.contents)
    ((wp_bindE _ _ _).mpr (wp_mono ?_ (wp_replayLoop_ends _ w)))
  intro w₁ a₁ h₁
  cases h₁ with
  | done h₁ => exact ⟨records.length, by rw [List.take_length, h₁]⟩
  | failed _ h₁ => exact ⟨_, h₁⟩

end Loop

-- ============================================================= convergence

/-- The world after `replay`, no call of it failing. -/
def replayed (ext : Externals) (records : List WalRecord) (w : World) :
    World :=
  ((replay records).run.run (Prim.exec ext none) w).2

/-- The storages hold the same wherever no record writes. -/
def AgreeOff (records : List WalRecord) (s s' : StorageBackend) : Prop :=
  ∀ k, (∀ r ∈ records, r.key ≠ k) → s.get k = s'.get k

section Converges

variable (ext : Externals) (records : List WalRecord) (w : World)

/-- Replay writes every record to storage, in order. -/
theorem run_replay :
    ((replay records).run.run (Prim.exec ext none) w).1 = .ok records.length
      ∧ (replayed ext records w).storage.contents
        = applyAll (records.map WalRecord.write) w.storage.contents := by
  have hends := ends_run (goes_exec ext) (replay records).run w
  refine hends.post (Q := fun w' a => a = .ok records.length
    ∧ w'.storage.contents
      = applyAll (records.map WalRecord.write) w.storage.contents)
    ((wp_bindE _ _ _).mpr (wp_mono ?_ (wp_replayLoop_ends _ w)))
  intro w₁ a₁ h₁
  cases h₁ with
  | done h₁ => exact ⟨rfl, h₁⟩
  | failed hf => cases hf

variable {records w}

/-- The records decide what they name; the rest is as it was. -/
theorem replayed_of_agreeOff {w' : World}
    (h : AgreeOff records w.storage w'.storage) :
    (replayed ext records w).storage.contents
      = (replayed ext records w').storage.contents := by
  rw [(run_replay ext records w).2, (run_replay ext records w').2]
  refine applyAll_congr fun k hk => h k fun r hr hrk => ?_
  refine hk r.write (List.mem_map_of_mem hr) ?_
  rw [WalRecord.write_key, hrk]

/-- Records of the list change nothing off its keys. -/
theorem agreeOff_of_applied {w' : World} {part : List WalRecord}
    (hpart : part ⊆ records)
    (h : w'.storage.contents
      = applyAll (part.map WalRecord.write) w.storage.contents) :
    AgreeOff records w'.storage w.storage := by
  intro k hk
  unfold StorageBackend.get
  rw [h]
  refine getElem?_applyAll_of_notMem _ fun e he => ?_
  obtain ⟨r, hr, rfl⟩ := List.mem_map.mp he
  rw [WalRecord.write_key]
  exact hk r (hpart hr)

/-- Replaying any number of times changes only the keys in the log. -/
private theorem agreeOff_iterate (n : Nat) :
    AgreeOff records ((replayed ext records)^[n] w).storage w.storage := by
  induction n generalizing w with
  | zero => exact fun k _ => rfl
  | succ n ih =>
      intro k hk
      have hone := agreeOff_of_applied (List.Subset.refl records)
        (run_replay ext records w).2
      exact (ih k hk).trans (hone k hk)

end Converges

/-- Over storages that agree wherever the records write nothing, `replay`
ends with the same contents: over what a prefix of the list has left there,
over what any number of whole replays have, over what a replay has that was
stopped by a failing call. -/
theorem replay_converges (ext : Externals) (records : List WalRecord)
    (w : World) :
    ((replay records).run.run (Prim.exec ext none) w).1 = .ok records.length
      ∧ (∀ w', AgreeOff records w'.storage w.storage →
          (replayed ext records w').storage.contents
            = (replayed ext records w).storage.contents)
      ∧ (∀ n, (replayed ext records
            (replayed ext (records.take n) w)).storage.contents
          = (replayed ext records w).storage.contents)
      ∧ (∀ n, (replayed ext records
            ((replayed ext records)^[n] w)).storage.contents
          = (replayed ext records w).storage.contents)
      ∧ ∀ a w', Ends (Prim.Goes ext fun _ _ => True) (replay records).run w
            a w' →
          (replayed ext records w').storage.contents
            = (replayed ext records w).storage.contents := by
  refine ⟨(run_replay ext records w).1, fun w' h => replayed_of_agreeOff ext h,
    fun n => ?_, fun n => ?_, fun a w' h => ?_⟩
  · exact replayed_of_agreeOff ext (agreeOff_of_applied
      (List.take_subset n records) (run_replay ext (records.take n) w).2)
  · exact replayed_of_agreeOff ext (agreeOff_iterate ext n)
  · obtain ⟨n, hn⟩ := contents_of_replay h
    exact replayed_of_agreeOff ext
      (agreeOff_of_applied (List.take_subset n records) hn)

/-- Two puts, and the first key deleted again. -/
def putPutDelete : List WalRecord :=
  [⟨0, .put, [97], ValueCodec.encode [49] none⟩,
    ⟨1, .put, [98], ValueCodec.encode [50] none⟩, ⟨2, .delete, [97], []⟩]

/-- The test of the source, over an empty store and over one that holds
another `a`. -/
theorem replay_converges_ahead :
    let empty : World := .fresh { backend := .memory } 0 0
    let ahead : World := { empty with
      storage := .memory ⟨(∅ : Table).insert [97] [7]⟩ }
    AgreeOff putPutDelete ahead.storage empty.storage
      ∧ (replayed .plain putPutDelete ahead).storage.contents
        = (replayed .plain putPutDelete empty).storage.contents
      ∧ (replayed .plain putPutDelete empty).storage.contents.toList
        = [([98], ValueCodec.encode [50] none)] := by
  have hoff : AgreeOff putPutDelete
      (.memory ⟨(∅ : Table).insert [97] [7]⟩) (.memory ⟨∅⟩) := by
    intro k hk
    have ha : ([97] : Bytes) ≠ k := hk _ (List.mem_cons_self ..)
    show ((∅ : Table).insert [97] [7])[k]? = (∅ : Table)[k]?
    rw [ExtTreeMap.getElem?_insert, if_neg]
    rwa [Std.compare_eq_iff_eq]
  exact ⟨hoff, (replay_converges .plain putPutDelete _).2.1 _ hoff,
    by decide +kernel⟩

end FerrisKv
