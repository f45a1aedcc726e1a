/-
A sweep removes the expired entries and nothing else.

`drain_due` may return a key several times, under stamps of values long
overwritten; what decides is the entry found at the key's turn. The loop
keeps a list `R` of the keys it has removed (`Sweeping`): a removed key is
never found expired again, an expired one not yet removed is still to come,
and everything else is as it was. That all expired keys come up at all is
the index's part (Coverage).
-/
import FerrisKv.Node.Concurrent
import FerrisKv.Proofs.Node.Coverage
import FerrisKv.Proofs.Node.Effects

namespace FerrisKv

open Prog NodeService

-- =============================================================== the stamps

/-- There is an entry, with an expiry, and it has passed. -/
def ExpiredAt (now : Nat) (entry : Option Bytes) : Prop :=
  ∃ e, entry.bind stampOf = some e ∧ e ≤ now

/-- An entry has expired if its stamp has passed. -/
private theorem stampOf_of_isExpired {raw : Bytes} {now : Nat} {b : Bool}
    (h : ValueCodec.isExpired raw now = .ok b) :
    b = true ↔ ∃ e, stampOf raw = some e ∧ e ≤ now := by
  rw [ValueCodec.isExpired_eq] at h
  cases hd : ValueCodec.decode raw with
  | error e =>
      rw [hd] at h
      cases h
  | ok sv =>
      rw [hd] at h
      cases h
      rw [stampOf_of_decode hd]
      obtain ⟨exp, value⟩ := sv
      cases exp with
      | none => simp [StoredValue.expiredAt]
      | some e => simp [StoredValue.expiredAt]

/-- One that cannot be asked has no stamp. -/
private theorem stampOf_of_isExpired_error {raw : Bytes} {now : Nat} {e : Error}
    (h : ValueCodec.isExpired raw now = .error e) : stampOf raw = none := by
  rw [ValueCodec.isExpired_eq] at h
  cases hd : ValueCodec.decode raw with
  | error e => exact stampOf_of_error hd
  | ok sv =>
      rw [hd] at h
      cases h

/-- The usage records are not stamped. -/
private theorem HoldsRecord.unstamped {w : World} {k : Bytes}
    (h : HoldsRecord w k) : w.storage.contents[k]?.bind stampOf = none := by
  obtain ⟨-, v, hv⟩ := h
  rw [hv]
  exact stampOf_unstamped v

-- ================================================================= the loop

/-- What a sweep that began at `w₀` has done, when `R` are the keys removed
and `todo` the candidates left. -/
structure Sweeping (now : Nat) (w₀ : World) (todo R : List Bytes)
    (g : World × List Prim) : Prop where
  nodup : R.Nodup
  spent : ∀ k ∈ R, ExpiredAt now w₀.storage.contents[k]?
  contents : ∀ k : Bytes, g.1.storage.contents[k]?
      = (if k ∈ R then none else w₀.storage.contents[k]?)
    ∨ HoldsRecord g.1 k
  todo : ∀ k, IsData k → ExpiredAt now w₀.storage.contents[k]? →
    k ∈ R ∨ k ∈ todo
  told : Told (R.flatMap fun k => messageOf k .delete []) w₀.watch g.1.watch
  appended : recordsOf g.2 = R.map fun k => (WalOp.delete, k)

section Loop

variable {ext : Externals} {cfg : NodeConfig} {now : Nat} {w₀ w : World}
  {key : Bytes} {todo R : List Bytes} {l : List Prim}

/-- A removed key holds nothing that expires. -/
theorem Sweeping.cleared {g : World × List Prim}
    (h : Sweeping now w₀ todo R g) {k : Bytes} (hk : k ∈ R) :
    g.1.storage.contents[k]?.bind stampOf = none := by
  rcases h.contents k with heq | hr
  · rw [heq, if_pos hk]
    rfl
  · exact hr.unstamped

/-- A key that is found expired was not removed before, and holds what it
held when the sweep began. -/
theorem Sweeping.untouched (h : Sweeping now w₀ todo R (w, l))
    (hx : ExpiredAt now w.storage.contents[key]?) :
    key ∉ R ∧ ExpiredAt now w₀.storage.contents[key]? := by
  obtain ⟨e, hstamp, hle⟩ := hx
  have hnew : key ∉ R := by
    intro hR
    have hnone : w.storage.contents[key]?.bind stampOf = none := h.cleared hR
    rw [hnone] at hstamp
    cases hstamp
  rcases h.contents key with heq | hr
  · rw [if_neg hnew] at heq
    exact ⟨hnew, e, heq ▸ hstamp, hle⟩
  · have hnone := hr.unstamped
    rw [hstamp] at hnone
    cases hnone

/-- A key found without an expired entry needs nothing done. -/
theorem Sweeping.skip (h : Sweeping now w₀ (key :: todo) R (w, l))
    (hno : ¬ ExpiredAt now w.storage.contents[key]?) :
    Sweeping now w₀ todo R (w, l) where
  nodup := h.nodup
  spent := h.spent
  contents := h.contents
  told := h.told
  appended := h.appended
  todo k hk hx := by
    by_cases hR : k ∈ R
    · exact .inl hR
    -- data that was not removed is as it was, so this key is not the one
    · rcases List.mem_cons.mp ((h.todo k hk hx).resolve_left hR) with rfl | hmem
      · have heq := (h.contents k).resolve_right fun hr => hr.not_isData hk
        rw [if_neg hR] at heq
        exact absurd (heq ▸ hx) hno
      · exact .inr hmem

/-- Bookkeeping changes nothing a sweep looks at. -/
theorem Sweeping.keeps (h : Sweeping now w₀ todo R (w, l)) {g : World}
    {l' : List Prim} (hs : SameButRecords w g) (hw : g.watch = w.watch)
    (hl : recordsOf l' = recordsOf l) : Sweeping now w₀ todo R (g, l') where
  nodup := h.nodup
  spent := h.spent
  contents k := by
    rcases hs k with heq | hr
    · rcases h.contents k with heq' | ⟨ht, v, hv⟩
      · exact .inl (heq.trans heq')
      · exact .inr ⟨ht, v, heq.trans hv⟩
    · exact .inr hr
  todo := h.todo
  told := by
    rw [show (g, l').1.watch = w.watch from hw]
    exact h.told
  appended := hl.trans h.appended

/-- An expired entry is the one the sweep began with, and is removed. -/
theorem Sweeping.remove (h : Sweeping now w₀ (key :: todo) R (w, l))
    (hx : ExpiredAt now w.storage.contents[key]?) {g : World × List Prim}
    (hwrote : Wrote .delete key none .delete [] (w, l) g) :
    Sweeping now w₀ todo (R ++ [key]) g := by
  obtain ⟨hnew, hspent⟩ := h.untouched hx
  have hmem : ∀ {k}, k ∈ R ++ [key] ↔ k ∈ R ∨ key = k := by
    intro k
    rw [List.mem_append, List.mem_singleton, eq_comm]
  constructor
  · refine List.nodup_append.mpr ⟨h.nodup, List.nodup_singleton key, ?_⟩
    rintro a ha b hb rfl
    cases List.mem_singleton.mp hb
    exact hnew ha
  · intro k hk
    rcases hmem.mp hk with hk | rfl
    · exact h.spent k hk
    · exact hspent
  · intro k
    rcases hwrote.contents k with heq | hr
    · by_cases hk : key = k
      · rw [if_pos hk] at heq
        exact .inl (heq.trans (if_pos (hmem.mpr (.inr hk))).symm)
      · rw [if_neg hk] at heq
        have hsame : k ∈ R ++ [key] ↔ k ∈ R :=
          hmem.trans ⟨fun ho => ho.resolve_right hk, .inl⟩
        simp only [hsame]
        rcases h.contents k with heq' | ⟨ht, v, hv⟩
        · exact .inl (heq.trans heq')
        · exact .inr ⟨ht, v, heq.trans hv⟩
    · exact .inr hr
  · intro k hk hx
    rcases h.todo k hk hx with hR | hmem
    · exact .inl (List.mem_append_left _ hR)
    · rcases List.mem_cons.mp hmem with rfl | hmem
      · exact .inl (List.mem_append_right _ (List.mem_singleton_self _))
      · exact .inr hmem
  · rw [List.flatMap_append, List.flatMap_singleton]
    exact h.told.trans hwrote.told
  · rw [hwrote.appended, List.map_append, List.map_singleton]
    exact congrArg (· ++ _) h.appended

/-- One candidate. -/
theorem wp_sweepKey_exact (h : Sweeping now w₀ (key :: todo) R (w, l)) :
    wp (logged ext)
      (fun g n => ∃ R', R'.length = R.length + n ∧ Sweeping now w₀ todo R' g)
      (sweepKey cfg now key) (w, l) := by
  have hread : Sweeping now w₀ (key :: todo) R
      (w, l ++ [.storage (.get key)]) := by
    refine h.keeps (.refl w) rfl ?_
    rw [recordsOf_snoc]
    exact List.append_nil _
  have hget : recording (Prim.exec ext none) (.storage (.get key)) (w, l)
      = (.ok w.storage.contents[key]?, w, l ++ [.storage (.get key)]) := rfl
  cases hraw : w.storage.contents[key]? with
  -- the key has gone since it was scheduled
  | none =>
      rw [hraw] at hget
      refine wp_handler_bind hget ⟨R, rfl, hread.skip ?_⟩
      rintro ⟨e, he, -⟩
      rw [hraw] at he
      cases he
  | some raw =>
      rw [hraw] at hget
      refine wp_handler_bind hget ?_
      show wp _ _ (sweepFound cfg now key raw) _
      unfold sweepFound
      cases hx : ValueCodec.isExpired raw now with
      -- an entry with no readable stamp is left alone, and `ExpiredAt` does
      -- not hold of it either
      | error e =>
          refine ⟨R, rfl, hread.skip ?_⟩
          rintro ⟨e', he, -⟩
          rw [hraw, Option.bind_some, stampOf_of_isExpired_error hx] at he
          cases he
      | ok b =>
          have hiff := stampOf_of_isExpired hx
          cases b with
          | true =>
              have hexp : ExpiredAt now w.storage.contents[key]? := by
                obtain ⟨e, he, hle⟩ := hiff.mp rfl
                exact ⟨e, by rw [hraw]; exact he, hle⟩
              refine (wp_bind _ _ _).mpr (wp_mono ?_ (wp_delete_wrote key))
              rintro g (err | u) hg
              · -- an entry with a stamp can be deleted
                obtain ⟨-, raw', e, hraw', hd⟩ := hg
                rw [hraw] at hraw'
                cases hraw'
                obtain ⟨e', he', -⟩ := hiff.mp rfl
                rw [stampOf_of_error hd] at he'
                cases he'
              · refine ⟨R ++ [key], ?_, hread.remove hexp hg⟩
                rw [List.length_append, List.length_singleton]
          -- the entry lives longer than the index thought: it is scheduled
          -- again
          | false =>
              have hno : ¬ ExpiredAt now w.storage.contents[key]? := by
                rintro ⟨e, he, hle⟩
                rw [hraw] at he
                exact Bool.false_ne_true (hiff.mpr ⟨e, he, hle⟩)
              refine (wp_bind _ _ _).mpr (wp_logged_keeps
                ((reschedule_uses key raw).mono fun _ hp => .inr (.inr hp)) ?_)
              exact fun g l' _ hs hw hl =>
                ⟨R, rfl, (hread.skip hno).keeps hs hw hl⟩

/-- The loop removes the expired ones of the keys still to do, and counts
them. -/
private theorem wp_sweepLoop_exact :
    ∀ (todo R : List Bytes) (removed : Nat) (g : World × List Prim),
      removed = R.length → Sweeping now w₀ todo R g →
      wp (logged ext)
        (fun g' n => ∃ R', n = R'.length ∧ Sweeping now w₀ [] R' g')
        (sweepLoop cfg now todo removed) g := by
  intro todo
  induction todo with
  | nil => exact fun R removed g hn h => ⟨R, hn, h⟩
  | cons key todo ih =>
      rintro R removed ⟨w, l⟩ rfl h
      refine (wp_bind _ _ _).mpr (wp_mono ?_ (wp_sweepKey_exact h))
      rintro g n ⟨R', hlen, h'⟩
      exact ih R' _ g hlen.symm h'

/-- A sweep of a covered node removes what has expired, and nothing else. -/
private theorem wp_sweepOnce_exact (hc : Covered w₀) :
    wp (logged ext)
      (fun g n => ∃ R, n = R.length ∧ Sweeping w₀.now w₀ [] R g)
      (sweepOnce cfg) (w₀, []) := by
  refine (wp_bind _ _ _).mpr ?_
  refine (wp_bind _ _ _).mpr ?_
  refine wp_sweepLoop_exact (w₀.ttl.drainDue w₀.now).1 [] 0 _ rfl ?_
  constructor
  · exact List.nodup_nil
  · exact fun k hk => by cases hk
  · exact fun k => .inl (if_neg List.not_mem_nil).symm
  · rintro k - ⟨e, he, hle⟩
    obtain ⟨raw, hraw, hstamp⟩ := Option.bind_eq_some_iff.mp he
    rcases hc.drained w₀.now k raw e hraw hstamp with ⟨ts, hts, hs⟩ | hmem
    · have := (TtlIndex.scheduled_drainDue.mp hs).2
      omega
    · exact .inr hmem
  · exact told_nothing _
  · rfl

end Loop

-- ==================================================================== runs

/-- Between calls the index covers the store, wherever the process has died
before. -/
theorem covered_reachable (S : Setting) (hquiet : ∀ f, S.fault f → f = none)
    {m : Machine} (h : (node S).Reachable m) (hidle : m.phase = .idle) :
    Covered m.world := by
  have hkeeps : Machine.Keeps S (restless S.ext fun _ f => f = none)
      Covered := {
    step := by
      intro w p K fault hf hp
      cases hquiet fault hf
      exact hp.2 _ _ ⟨w.now, w.instant, none, le_rfl, le_rfl, rfl, rfl⟩
    tick := by
      intro w p K now instant hn hi hp
      refine ⟨trivial, ?_⟩
      rintro r w' ⟨now', instant', fault, hn', hi', hf, he⟩
      exact hp.2 r w' ⟨now', instant', fault, hn.trans hn', hi.trans hi', hf,
        he⟩
    idle := fun _ hc => hc
    call := fun _ hc => wp_prog_covered _ hc fun _ _ _ hf _ => hf
    boot := wp_open_covered }
  have hholds := hkeeps.reachable h
  unfold Machine.Holds at hholds
  rw [hidle] at hholds
  exact hholds

/-- In any state a node without I/O errors can be in between calls, with
any watchers: a sweep removes the keys `R`, each once, logs one removal for
each and answers their number; each of them held an expired entry; the
removed keys hold nothing and all others what they held, but for the usage
records that the accounting of the removals has rewritten; the data among the
removed are all the entries that have expired; all other data is byte for
byte as it was; no expired data is left; and every watcher is sent one
message for each removed key of its tenant. -/
theorem sweep_exact (S : Setting) (hquiet : ∀ f, S.fault f → f = none)
    (m : Machine) (h : (node S).Reachable m) (hidle : m.phase = .idle)
    (hub : WatchHub) :
    let w := { m.world with watch := hub }
    let swept := (sweepOnce S.cfg).run (Prim.exec S.ext none) w
    ∃ R : List Bytes, R.Nodup ∧ swept.1 = R.length
      ∧ recordsOf (performed (Prim.exec S.ext none) (sweepOnce S.cfg) w)
        = R.map (fun k => (WalOp.delete, k))
      ∧ (∀ k ∈ R, ExpiredAt w.now w.storage.contents[k]?)
      ∧ (∀ k, swept.2.storage.contents[k]?
          = (if k ∈ R then none else w.storage.contents[k]?)
        ∨ HoldsRecord swept.2 k)
      ∧ (∀ k, IsData k →
        (k ∈ R ↔ ExpiredAt w.now w.storage.contents[k]?))
      ∧ (∀ k, IsData k → swept.2.storage.contents[k]?
        = if k ∈ R then none else w.storage.contents[k]?)
      ∧ (∀ k, IsData k → ¬ ExpiredAt w.now swept.2.storage.contents[k]?)
      ∧ Told (R.flatMap fun k => messageOf k .delete []) hub
        swept.2.watch := by
  intro w swept
  have hc : Covered w := covered_reachable S hquiet h hidle
  have hwp : wp (logged S.ext)
      (fun g n => ∃ R, n = R.length ∧ Sweeping w.now w [] R g)
      (sweepOnce S.cfg) (w, []) := wp_sweepOnce_exact hc
  obtain ⟨R, hn, hs⟩ := performed_post hwp
  -- nothing is left to do, so every data key whose entry has expired is among
  -- the removed
  have hin : ∀ k, IsData k →
      (k ∈ R ↔ ExpiredAt w.now w.storage.contents[k]?) := by
    intro k hk
    refine ⟨hs.spent k, fun hx => ?_⟩
    exact (hs.todo k hk hx).resolve_right fun hmem => by cases hmem
  have hdata : ∀ k, IsData k → swept.2.storage.contents[k]?
      = if k ∈ R then none else w.storage.contents[k]? := fun k hk =>
    (hs.contents k).resolve_right fun hr => hr.not_isData hk
  refine ⟨R, hs.nodup, hn, hs.appended, hs.spent, hs.contents, hin, hdata, ?_,
    hs.told⟩
  intro k hk hx
  rw [hdata k hk] at hx
  split at hx
  · obtain ⟨e, he, -⟩ := hx
    cases he
  · next hR => exact hR ((hin k hk).mpr hx)

/-- Any calls, any crashes, no faults. -/
def Setting.calm : Setting where
  ext := .plain
  cfg := {}
  call _ := True
  fault f := f = none
  cut _ _ _ := True

/-- A key that expires after 5 ms, overwritten once, and one that stays. -/
theorem sweep_exact_overwritten :
    ∃ m, (node .calm).Reachable m ∧ m.phase = .idle ∧ m.world.now = 10
      ∧ ∃ R : List Bytes, ((sweepOnce {}).run (Prim.exec .plain none)
          { m.world with watch := .new 4 }).1 = R.length
        ∧ R.Nodup ∧ R.length = 1 ∧ KeyCodec.bytesOf "a" .data [1] ∈ R
        ∧ KeyCodec.bytesOf "a" .data [2] ∉ R := by
  have hopen := Machine.trace_opened (S := .calm) rfl (.start ⟨0, 0, rfl⟩) rfl
  have hlong := Machine.trace_served rfl
    (.put (KeyCodec.bytesOf "a" .data [1]) [7] 9) trivial hopen rfl
  have hshort := Machine.trace_served rfl
    (.put (KeyCodec.bytesOf "a" .data [1]) [8] 5) trivial hlong rfl
  have hstays := Machine.trace_served rfl
    (.put (KeyCodec.bytesOf "a" .data [2]) [9] 0) trivial hshort rfl
  have htick := Machine.trace_tick 10 10 hstays (by decide +kernel)
    (by decide +kernel)
  have hdata : ∀ p, IsData (KeyCodec.bytesOf "a" .data p) := fun p =>
    ⟨"a", p, KeyCodec.decode_bytesOf (by decide) .data p⟩
  obtain ⟨R, hnd, hlen, -, -, -, hin, -⟩ := sweep_exact .calm (fun _ h => h) _
    ⟨_, htick⟩ rfl (.new 4)
  refine ⟨_, ⟨_, htick⟩, rfl, rfl, R, hlen, hnd, ?_, ?_, ?_⟩
  · rw [← hlen]
    decide +kernel
  · refine (hin _ (hdata [1])).mpr ⟨5, ?_, by decide +kernel⟩
    decide +kernel
  · intro hR
    obtain ⟨e, he, -⟩ := (hin _ (hdata [2])).mp hR
    have hnone : ∀ o : Option Nat, o = none → o ≠ some e := by
      rintro o rfl ⟨⟩
    exact hnone _ (by decide +kernel) he

end FerrisKv
