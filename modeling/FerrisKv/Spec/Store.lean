/-
What the node is for: a map from keys to values with an optional expiry,
served one call at a time, that forgets nothing it has acknowledged.

This is a specification, not a translation. A call is dated at some
instant between its invocation and its answer (`take`), then happens at
once and entirely (`act`); a put over quota does not happen (`refuse`).
A crash drops the call in flight, which by then has happened or has not,
and the map outlives it. Nothing in the map is ever removed for being
old: an entry past its stamp is just not visible.

Sweeps, the log, rotation and the storage engine do not occur here; a
sweep is a call that changes nothing and answers any number.
-/
import FerrisKv.Lib.OrderedScan
import FerrisKv.Node.Machine

namespace FerrisKv.Spec

open Std OrderedScan

/-- An entry: the value and when it stops being visible. -/
structure Entry where
  value : Bytes
  expiresAt : Option Nat
  deriving DecidableEq, Repr

/-- The abstract contents of a node. -/
abbrev Map := ExtTreeMap Bytes Entry

/-- Visible iff the expiry is absent or greater than `now`. -/
def Entry.visible (e : Entry) (now : Nat) : Bool :=
  match e.expiresAt with
  | none => true
  | some exp => decide (now < exp)

/-- What a reader sees of an entry. -/
def Entry.read (now : Nat) (e : Entry) : Option Bytes :=
  if e.visible now then some e.value else none

/-- What a reader sees under a key. -/
def lookup (m : Map) (now : Nat) (k : Bytes) : Option Bytes :=
  m[k]?.bind (Entry.read now)

/-- What a reader sees under all keys `keep` selects, in key order. -/
def select (m : Map) (now : Nat) (keep : Bytes → Bool) :
    List (Bytes × Bytes) :=
  listing (fun k e => if keep k then Entry.read now e else none) m

/-- The key lies in the half-open range. -/
def between (start stop k : Bytes) : Bool :=
  decide (compare start k ≠ .gt) && decide (compare k stop = .lt)

/-- The stamp of a put dated `now`. -/
def stamp (now ttlMs : Nat) : Option Nat :=
  if ttlMs > 0 then some (saturatingAdd now ttlMs) else none

/-- What a call dated `now` does. -/
def effect (m : Map) (now : Nat) : Op → Map
  | .put k v ttlMs => m.insert k ⟨v, stamp now ttlMs⟩
  | .delete k => m.erase k
  | _ => m

/-- What a call dated `now` answers. -/
def Answers (m : Map) (now : Nat) : Op → Answer → Prop
  | .put _ _ _, a => a = .done (.ok ())
  | .delete _, a => a = .done (.ok ())
  | .get k, a => a = .value (.ok (lookup m now k))
  | .scan pre, a => a = .entries (.ok (select m now fun k => pre.isPrefixOf k))
  | .scanRange start stop, a =>
      a = .entries (.ok (select m now (between start stop)))
  | .sweep, a => ∃ removed, a = .swept removed

/-- Where the specification is with respect to its client. -/
inductive Phase where
  | starting
  | idle
  | called (op : Op)
  | taken (op : Op) (now : Nat)
  | answered (op : Op) (a : Answer)

/-- The state of the specification. -/
structure State where
  map : Map
  now : Nat
  phase : Phase

/-- The steps of the specification. -/
inductive Step : State → Option Label → State → Prop where
  | opened {m : Map} {now : Nat} :
      Step ⟨m, now, .starting⟩ (some .opened) ⟨m, now, .idle⟩
  | call {m : Map} {now : Nat} {op : Op} :
      Step ⟨m, now, .idle⟩ (some (.call op)) ⟨m, now, .called op⟩
  | take {m : Map} {now : Nat} {op : Op} :
      Step ⟨m, now, .called op⟩ none ⟨m, now, .taken op now⟩
  | act {m : Map} {now t : Nat} {op : Op} {a : Answer}
      (h : Answers m t op a) :
      Step ⟨m, now, .taken op t⟩ none ⟨effect m t op, now, .answered op a⟩
  | refuse {m : Map} {now t : Nat} {k v : Bytes} {ttlMs : Nat}
      {tenant : String} {used limit : Nat} :
      Step ⟨m, now, .taken (.put k v ttlMs) t⟩ none
        ⟨m, now, .answered (.put k v ttlMs)
          (.done (.error (.quotaExceeded tenant used limit)))⟩
  | ret {m : Map} {now : Nat} {op : Op} {a : Answer} :
      Step ⟨m, now, .answered op a⟩ (some (.ret op a)) ⟨m, now, .idle⟩
  | tick {m : Map} {now now' instant : Nat} {ph : Phase} (h : now ≤ now') :
      Step ⟨m, now, ph⟩ (some (.tick now' instant)) ⟨m, now', ph⟩
  | crash {m : Map} {now : Nat} {ph : Phase} :
      Step ⟨m, now, ph⟩ (some .crash) ⟨m, now, .starting⟩

/-- The specification, from the empty map on. -/
def store : Lts State Label where
  init s := ∃ now, s = ⟨∅, now, .starting⟩
  step := Step

end FerrisKv.Spec
