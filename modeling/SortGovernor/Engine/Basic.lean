import SortGovernor.Resumption.Logic
import Mathlib.Algebra.Group.Nat.Defs

/-!
# Errors, checked arithmetic, charges and rows

The target has 64-bit words, so `usize` and `u64` have one range.  Sizes and
counters are natural numbers and every `checked_*` operation of the source is a
partial operation here.
-/

namespace SortGovernor.Engine

/-- A failure reported by `async-fs-io`. -/
inductive FsError where
  | notFound
  | unexpectedEof
  | failed (text : String)
  deriving DecidableEq, Repr

inductive SorterError where
  | io (error : FsError)
  | encode (text : String)
  | decode (text : String)
  | runLimit
  | sessionFailed
  | memoryBudget (requested available : Nat)
  | replaySourceFailed
  | replayInUse
  | worker (text : String)
  | gone
  deriving DecidableEq, Repr

/-- How an engine function stops early.  `diverged` marks a loop that outlives
the bound its model gives it; no run of the source corresponds to it. -/
inductive Abort where
  | error (error : SorterError)
  | panic (text : String)
  | diverged
  deriving DecidableEq, Repr

def u32Max : Nat := 2 ^ 32 - 1
def u64Max : Nat := 2 ^ 64 - 1
def usizeMax : Nat := u64Max

/-- `checked_add` on a word with largest value `bound`. -/
def checkedAdd (bound left right : Nat) : Option Nat :=
  if left + right ≤ bound then some (left + right) else none

def checkedMul (bound left right : Nat) : Option Nat :=
  if left * right ≤ bound then some (left * right) else none

/-- `try_from` into a word with largest value `bound`. -/
def tryFrom (bound value : Nat) : Option Nat :=
  if value ≤ bound then some value else none

@[simp]
theorem checkedAdd_eq_some {bound left right sum : Nat} :
    checkedAdd bound left right = some sum ↔ left + right ≤ bound ∧ left + right = sum := by
  unfold checkedAdd
  split
  · simp_all
  · simp only [reduceCtorEq, false_iff]
    omega

@[simp]
theorem checkedAdd_eq_none {bound left right : Nat} :
    checkedAdd bound left right = none ↔ bound < left + right := by
  unfold checkedAdd
  split <;> simp_all

theorem checkedMul_eq_some {bound left right product : Nat} :
    checkedMul bound left right = some product ↔ left * right ≤ bound ∧ left * right = product := by
  unfold checkedMul
  rw [Option.ite_none_right_eq_some, Option.some.injEq]

@[simp]
theorem tryFrom_eq_some {bound value result : Nat} :
    tryFrom bound value = some result ↔ value ≤ bound ∧ value = result := by
  unfold tryFrom
  split
  · simp_all
  · simp only [reduceCtorEq, false_iff]
    omega

/-- An admitted reservation; its bytes return to the budget when it is dropped. -/
structure MemoryCharge where
  bytes : Nat
  deriving DecidableEq, Repr

namespace MemoryBudget

/-- One admission of `MemoryBudget::reserve`, at the counter and the limit its
successful loop iteration read. -/
def reserve (limit used bytes : Nat) : Except SorterError MemoryCharge :=
  match (checkedAdd u64Max used bytes).filter fun next => next ≤ limit with
  | none => .error (.memoryBudget bytes (limit - used))
  | some _ => .ok ⟨bytes⟩

/-- The working space of `MemoryBudget::reserve_frame`. -/
def frameBytes (bytes : Nat) : Option Nat :=
  (checkedMul usizeMax bytes 3).bind fun size => checkedAdd usizeMax size 32

end MemoryBudget

inductive SortPlan where
  | inMemory
  | external (runBufferBytes maxFanIn : Nat)
  deriving DecidableEq, Repr

/-- One key/value pair.  Only key, value and ordinal are serialized; the
declared size travels in the frame header and the charge stays in memory. -/
structure RunRow (Key Value : Type) where
  key : Key
  value : Value
  ordinal : Nat
  retainedBytes : Nat
  charge : Option MemoryCharge
  deriving DecidableEq, Repr

/-- What one pass of a serializer writes: the calls it makes and, if it gives
up, the failure it reports after them. -/
structure Serialization where
  writes : List (List UInt8)
  failure : Option String
  deriving DecidableEq, Repr

def Serialization.bytes (pass : Serialization) : List UInt8 := pass.writes.flatten

end SortGovernor.Engine
