/-
Whether an entry nobody can read can be written over or deleted.

Before it writes, a put or a delete of a tenant's data sizes what the key
holds, with the value parser. An entry the parser refuses ends the call
there: `delete` answers `Corrupt` and so does every put, and the entry
stays (`corrupt_entry_stays`).

`repairable_iff` says that nothing else is in the way: where no storage or
log call fails, deleting leaves the key absent and an unlimited put can be
read back exactly when what the key holds, if it holds anything, decodes.
-/
import FerrisKv.Node.Config
import FerrisKv.Proofs.Node.Outcome

namespace FerrisKv

open Std Prog NodeService WriteLog

/-- The program returns where no call fails, the clock free to move, and
whatever it returns and leaves is as `Q` says. -/
def Returns {α : Type} (ext : Externals) (x : NodeProg α) (w : World)
    (Q : α → World → Prop) : Prop :=
  (∃ a g, Ends (Prim.Goes ext faultless) x w a g)
    ∧ ∀ a g, Ends (Prim.Goes ext faultless) x w a g → Q a g

/-- Deleting the key answers `Ok` and leaves it absent. -/
def DeleteClears (ext : Externals) (cfg : NodeConfig) (key : Bytes)
    (w : World) : Prop :=
  Returns ext (NodeService.delete cfg key).run w fun r g =>
    r = .ok () ∧ g.storage.contents[key]? = none

/-- A put without a TTL answers `Ok` and is read back. -/
def PutReadsBack (ext : Externals) (cfg : NodeConfig) (key : Bytes)
    (w : World) : Prop :=
  ∀ value, Returns ext (putWithTtl cfg key value 0).run w fun r g =>
    r = .ok () ∧ Returns ext (NodeService.get key).run g fun a _ =>
      a = .ok (some value)

section Calls

variable {ext : Externals} {cfg : NodeConfig} {w : World}

/-- A program returns, so what holds when it does holds. -/
theorem returns_of_wp {α : Type} {x : NodeProg α} {Q : α → World → Prop}
    (h : wp (calm ext) (fun g a => Q a g) x w) : Returns ext x w Q :=
  ⟨⟨_, _, ends_run (goes_exec ext) x w⟩, fun _ _ he => he.post h⟩

/-- Sizing what a key holds succeeds when it decodes, and only then. -/
theorem previousBytes_ok_iff (n : Nat) (old : Option Bytes) :
    (∃ size, previousBytes n old = .ok size)
      ↔ ∀ raw, old = some raw → ∃ sv, ValueCodec.decode raw = .ok sv := by
  cases old with
  | none =>
      refine ⟨fun _ raw h => ?_, fun _ => ⟨0, rfl⟩⟩
      cases h
  | some raw =>
      rw [previousBytes, ValueCodec.payloadLen_eq]
      cases hv : ValueCodec.decode raw with
      | error e =>
          constructor
          · rintro ⟨_, h⟩
            cases h
          · intro h
            obtain ⟨sv, hsv⟩ := h raw rfl
            rw [hv] at hsv
            cases hsv
      | ok sv =>
          refine ⟨fun _ raw' h => ?_, fun _ => ⟨_, rfl⟩⟩
          cases h
          exact ⟨sv, hv⟩

/-- A delete has a plan exactly if the entry can be sized. -/
private theorem plannedDelete_ok_iff {key payload : Bytes} {t : String}
    (hd : KeyCodec.decode key = .ok (t, .data, payload)) :
    (∃ plan, plannedDelete w key = .ok plan)
      ↔ ∃ size, previousBytes payload.length w.storage.contents[key]?
        = .ok size := by
  rw [plannedDelete_of_data hd]
  cases w.storage.contents[key]? with
  | none => exact ⟨fun _ => ⟨0, rfl⟩, fun _ => ⟨none, rfl⟩⟩
  | some raw =>
      cases hp : previousBytes payload.length (some raw) with
      | error e =>
          rw [deletePlan_of_error hp]
          constructor
          · rintro ⟨_, h⟩
            cases h
          · rintro ⟨_, h⟩
            cases h
      | ok size =>
          exact ⟨fun _ => ⟨size, rfl⟩, fun _ => ⟨_, deletePlan_of_ok hp⟩⟩

/-- An unstamped entry is read back at any time. -/
theorem wp_get_unstamped {key value : Bytes}
    (h : w.storage.contents[key]? = some (ValueCodec.encode value none)) :
    wp (calm ext) (fun _ r => r = .ok (some value))
      (NodeService.get key).run w := by
  refine (wp_bindE _ _ _).mpr (calm_post fun now instant => ?_)
  show onResult _ _ _ (.ok w.storage.contents[key]?)
  rw [h]
  exact (wp_bindE _ _ _).mpr (calm_post fun now' instant' => rfl)

/-- Then the delete succeeds, and the entry is gone. -/
private theorem wp_delete_clears {key payload : Bytes} {t : String} {size : Nat}
    (hd : KeyCodec.decode key = .ok (t, .data, payload))
    (hsize : previousBytes payload.length w.storage.contents[key]?
      = .ok size) :
    wp (calm ext) (fun g r => r = .ok () ∧ g.storage.contents[key]? = none)
      (NodeService.delete cfg key).run w := by
  obtain ⟨plan, hplan⟩ := (plannedDelete_ok_iff hd).mpr ⟨size, hsize⟩
  refine wp_mono ?_ (wp_delete_outcome w key)
  rintro g r ⟨hr, hleft⟩
  rw [hplan] at hr
  subst hr
  exact ⟨rfl, (hleft.data key ⟨t, payload, hd⟩).trans
    (rewrite_self _ (.delete key))⟩

/-- A put over an entry that can be sized is read back. -/
private theorem wp_put_reads_back {key payload value : Bytes} {t : String}
    {size : Nat} (hd : KeyCodec.decode key = .ok (t, .data, payload))
    (hfree : (w.quotas.quota t).maxBytes = 0)
    (hsize : previousBytes payload.length w.storage.contents[key]?
      = .ok size) :
    wp (calm ext) (fun g r => r = .ok ()
        ∧ Returns ext (NodeService.get key).run g fun a _ =>
          a = .ok (some value))
      (putWithTtl cfg key value 0).run w := by
  refine wp_mono ?_ (wp_put_outcome w key value 0)
  rintro g r ⟨hr, hleft⟩
  rw [planned_unlimited hd hfree, hsize] at hr
  subst hr
  obtain ⟨exp, -, hexp, hrew⟩ := hleft
  obtain rfl := hexp rfl
  exact ⟨rfl, returns_of_wp (wp_get_unstamped
    ((hrew.data key ⟨t, payload, hd⟩).trans (rewrite_self _ (.put key _))))⟩

end Calls

-- =================================================================== results

/-- Deleting clears a tenant's key, and an unlimited put to it is read back,
exactly when what it holds decodes or it holds nothing. -/
theorem repairable_iff (ext : Externals) (cfg : NodeConfig) (w : World)
    (key payload : Bytes) (t : String)
    (hd : KeyCodec.decode key = .ok (t, .data, payload)) :
    (DeleteClears ext cfg key w
        ∧ ((w.quotas.quota t).maxBytes = 0 → PutReadsBack ext cfg key w))
      ↔ ∀ raw, w.storage.contents[key]? = some raw →
        ∃ sv, ValueCodec.decode raw = .ok sv := by
  rw [← previousBytes_ok_iff payload.length]
  constructor
  · rintro ⟨⟨⟨r, g, hends⟩, hall⟩, -⟩
    obtain ⟨rfl, -⟩ := hall r g hends
    obtain ⟨hr, -⟩ := hends.post (wp_delete_outcome w key)
    rw [← plannedDelete_ok_iff hd]
    cases hplan : plannedDelete w key with
    | error e =>
        rw [hplan] at hr
        cases hr
    | ok plan => exact ⟨plan, rfl⟩
  · rintro ⟨size, hsize⟩
    exact ⟨returns_of_wp (wp_delete_clears hd hsize), fun hfree value =>
      returns_of_wp (wp_put_reads_back hd hfree hsize)⟩

/-- A node with `raw` under the key `u` of tenant `a`. -/
def holding (raw : Bytes) : World :=
  .boot {} 0 0 (.memory ⟨(∅ : Table).insert
    (KeyCodec.bytesOf "a" .data [117]) raw⟩) []

/-- An entry with a TTL can be deleted, and written over and read back. -/
theorem repairable_iff_stamped :
    let w := holding (ValueCodec.encode [1] (some 5))
    DeleteClears .plain {} (KeyCodec.bytesOf "a" .data [117]) w
      ∧ PutReadsBack .plain {} (KeyCodec.bytesOf "a" .data [117]) w := by
  intro w
  have hheld : w.storage.contents[KeyCodec.bytesOf "a" .data [117]]?
      = some (ValueCodec.encode [1] (some 5)) := by decide +kernel
  obtain ⟨hdelete, hput⟩ := (repairable_iff .plain {} w
    (KeyCodec.bytesOf "a" .data [117]) [117] "a" (by decide +kernel)).mpr (by
      intro raw hraw
      cases hheld.symm.trans hraw
      exact ⟨⟨some 5, [1]⟩, by decide +kernel⟩)
  exact ⟨hdelete, hput (by decide +kernel)⟩

/-- An empty entry: neither deleting it nor writing over it works, and it is
still there. -/
theorem corrupt_entry_stays :
    let key := KeyCodec.bytesOf "a" .data [117]
    let deleted := (NodeService.delete {} key).run.run (Prim.exec .plain none)
      (holding [])
    let written := (putWithTtl {} key [1] 0).run.run (Prim.exec .plain none)
      (holding [])
    deleted.1 = .error (.corrupt "empty value")
      ∧ deleted.2.storage.contents[key]? = some []
      ∧ ((holding []).quotas.quota "a").maxBytes = 0
      ∧ written.1 = .error (.corrupt "empty value")
      ∧ written.2.storage.contents[key]? = some [] := by
  decide +kernel

end FerrisKv
