import SortGovernor.Engine.Operation

/-!
# The world around one sort

A sort runs against a filesystem, a byte budget that other sorts and the memory
pressure change at will, and a serializer.  The log lists the filesystem jobs
handed to the workers so far.
-/

namespace SortGovernor.Engine

open SortGovernor.Resumption

/-- A serializer for rows.  Either direction may fail at any call and a row may
be written differently each time, but a decoded frame is the row encoded in it. -/
structure Codec (Key Value : Type) where
  serializes : RunRow Key Value → Serialization → Prop
  deserializes : List UInt8 → Except String (Key × Value × Nat) → Prop
  decode_encode : ∀ row pass decoded, serializes row pass → pass.failure = none →
    deserializes pass.bytes (.ok decoded) → decoded = (row.key, row.value, row.ordinal)

structure World where
  fs : Fs
  log : List FsJob

namespace World

def Performs (world : World) (job : FsJob) (reply : Except SorterError job.Value)
    (next : World) : Prop :=
  ∃ fs, job.Completes world.fs reply fs ∧ next = { fs, log := world.log ++ [job] }

end World

/-- Sequential semantics of the engine.  Readings of the budget are arbitrary.
A dropped operation either never got its permit or runs on without its caller. -/
def sessionSemantics {Key Value : Type} (codec : Codec Key Value) :
    Semantics (engine Key Value) World where
  reply
    | .limit, world, _, next => next = world
    | .reserve bytes, world, reply, next =>
        next = world ∧ ∃ limit used, reply = MemoryBudget.reserve limit used bytes
    | .serialize row, world, reply, next => next = world ∧ codec.serializes row reply
    | .deserialize bytes, world, reply, next => next = world ∧ codec.deserializes bytes reply
    | .perform _ _ job, world, reply, next =>
        world.Performs job reply next ∨ reply = .error .gone ∧ next = world
    | .direct job, world, reply, next => world.Performs job reply next
    | .idle _, world, _, next => next = world
    | .replay _, _, _, _ => False
  drop
    | .perform _ _ job, world, next => next = world ∨ ∃ reply, world.Performs job reply next
    | .direct job, world, next => next = world ∨ ∃ reply, world.Performs job reply next
    | .idle _, world, next => next = world
    | _, _, _ => False

theorem awaits_of_drop {Key Value : Type} {codec : Codec Key Value} {op : Request Key Value}
    {world world' : World} (dropped : (sessionSemantics codec).drop op world world') :
    op.awaits = true := by
  cases op with
  | perform | direct | idle => rfl
  | _ => cases dropped

end SortGovernor.Engine
