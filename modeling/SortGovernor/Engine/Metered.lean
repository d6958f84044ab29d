import SortGovernor.Engine.Encoding
import SortGovernor.Engine.World
import Mathlib.Data.Multiset.AddSub
import Mathlib.Data.Multiset.MapFold
import Mathlib.Algebra.BigOperators.Group.Multiset.Basic
import Mathlib.Algebra.Order.BigOperators.Group.Multiset

/-!
# Calls against a budget with a ledger

The budget counts the bytes other owners hold and the charges the calls at hand
have been admitted and not dropped.  A job, a method and a function drop what
they own when they end, except what they hand over with their result.
-/

namespace SortGovernor.Engine

open SortGovernor.Resumption

/-- The files, and the charges that make up the counter of the budget. -/
structure Metered where
  fs : Fs
  others : Nat
  charges : Multiset MemoryCharge

namespace Metered

/-- `MemoryBudget::used` -/
def used (world : Metered) : Nat :=
  world.others + (world.charges.map fun charge => charge.bytes).sum

def grants (world : Metered) (charge : MemoryCharge) : Metered :=
  { world with charges := charge ::ₘ world.charges }

/-- One call of `MemoryBudget::reserve`, at some reading of the limit. -/
def Reserves (world : Metered) (bytes : Nat) (reply : Except SorterError MemoryCharge)
    (next : Metered) : Prop :=
  ∃ limit, reply = MemoryBudget.reserve limit world.used bytes ∧
    next = match reply with
      | .ok charge => world.grants charge
      | .error _ => world

/-- The end of a scope that was given some charges: it drops these and the ones
admitted since `start`, except those it moves out. -/
def settle (start last : Metered) (given moved : Multiset MemoryCharge) : Metered :=
  { last with charges := last.charges - (given + (last.charges - start.charges) - moved) }

end Metered

/-- The calls of a job; a reservation goes to the ledger. -/
def meteredFiles : Semantics fileCalls Metered where
  reply
    | .reserve bytes, world, reply, next => world.Reserves bytes reply next
    | op, world, reply, next => ∃ fs, op.Step world.fs reply fs ∧ next = { world with fs }
  drop _ world next := next = world

def FsJob.moved : (job : FsJob) → Except SorterError job.Value → Multiset MemoryCharge
  | .readFrame .., .ok frame => {frame.rowCharge, frame.frameCharge}
  | _, _ => 0

namespace Metered

/-- A job ends with its body, or with a worker error when the worker dies. -/
inductive Completes (job : FsJob) (world : Metered) :
    Except SorterError job.Value → Metered → Prop where
  | finished {result last} :
      Runs meteredFiles (job.body ()) world (.returned (result, ())) last →
      Completes job world result last
  | died {last} (text : String) :
      Runs meteredFiles (job.body ()) world (.dropped ()) last →
      Completes job world (.error (.worker text)) last

def Performs (world : Metered) (held : List MemoryCharge) (job : FsJob)
    (reply : Except SorterError job.Value) (next : Metered) : Prop :=
  ∃ last, Completes job world reply last ∧ next = world.settle last held (job.moved reply)

end Metered

/-- The engine against a ledger, with nothing dropped before it ends.  A job that
never gets its permit drops the charges it was to own. -/
def meteredSemantics {Key Value : Type} (codec : Codec Key Value) :
    Semantics (engine Key Value) Metered where
  reply
    | .limit, world, _, next => next = world
    | .reserve bytes, world, reply, next => world.Reserves bytes reply next
    | .serialize row, world, reply, next => next = world ∧ codec.serializes row reply
    | .deserialize bytes, world, reply, next => next = world ∧ codec.deserializes bytes reply
    | .perform _ held job, world, reply, next =>
        world.Performs held job reply next ∨
          reply = .error .gone ∧ next = world.settle world held 0
    | .direct job, world, reply, next => world.Performs [] job reply next
    | .idle _, world, _, next => next = world
    | .replay _, _, _, _ => False
  drop _ _ _ := False

namespace Metered

/-- From `start` to `world` only reading happened, and charges were added. -/
structure Extends (start world : Metered) : Prop where
  fs : world.fs = start.fs
  others : world.others = start.others
  charges : start.charges ≤ world.charges
  word : start.used ≤ u64Max → world.used ≤ u64Max

variable {start world last : Metered}

theorem Extends.refl (world : Metered) : world.Extends world :=
  ⟨rfl, rfl, le_refl _, id⟩

theorem Extends.trans (left : start.Extends world) (right : world.Extends last) :
    start.Extends last :=
  ⟨right.fs.trans left.fs, right.others.trans left.others, left.charges.trans right.charges,
    right.word ∘ left.word⟩

theorem used_grants (world : Metered) (charge : MemoryCharge) :
    (world.grants charge).used = world.used + charge.bytes := by
  simp only [used, grants, Multiset.map_cons, Multiset.sum_cons]
  omega

theorem extends_grants {charge : MemoryCharge} (fits : world.used + charge.bytes ≤ u64Max) :
    world.Extends (world.grants charge) where
  fs := rfl
  others := rfl
  charges := Multiset.le_cons_self _ _
  word _ := by rwa [used_grants]

theorem used_le_of_charges_le (others : last.others = world.others)
    (fewer : last.charges ≤ world.charges) : last.used ≤ world.used := by
  obtain ⟨rest, split⟩ := Multiset.le_iff_exists_add.mp fewer
  simp only [used, others, split, Multiset.map_add, Multiset.sum_add]
  omega

theorem charges_settle {given moved new rest : Multiset MemoryCharge}
    (began : start.charges = given + rest) (ended : last.charges = new + start.charges)
    (owned : moved ≤ new) : (start.settle last given moved).charges = moved + rest := by
  obtain ⟨dropped, rfl⟩ := Multiset.le_iff_exists_add.mp owned
  ext charge
  simp only [settle, ended, began, Multiset.count_sub, Multiset.count_add]
  omega

theorem reserves_cases {bytes : Nat} {reply : Except SorterError MemoryCharge} {next : Metered}
    (reserves : world.Reserves bytes reply next) :
    (reply = .ok ⟨bytes⟩ ∧ world.used + bytes ≤ u64Max ∧ next = world.grants ⟨bytes⟩) ∨
      ∃ error, reply = .error error ∧ next = world := by
  obtain ⟨limit, rfl, rfl⟩ := reserves
  cases found : (checkedAdd u64Max world.used bytes).filter fun next => next ≤ limit with
  | none =>
      rw [MemoryBudget.reserve, found]
      exact .inr ⟨_, rfl, rfl⟩
  | some next =>
      have admitted := (Option.filter_eq_some_iff.mp found).1
      rw [MemoryBudget.reserve, found]
      exact .inl ⟨rfl, (checkedAdd_eq_some.mp admitted).1, rfl⟩

end Metered

end SortGovernor.Engine
