import SortGovernor.Engine.Jobs
import SortGovernor.Engine.Run
import SortGovernor.Engine.World

/-!
# The contents of run files

A run file is finished once its header counts the frames that follow it.
-/

namespace SortGovernor.Engine

open SortGovernor.Resumption SortGovernor.Bytes

variable {Key Value : Type}

/-- The part of a row that is serialized. -/
abbrev Record (Key Value : Type) := Key × Value × Nat

def RunRow.record (row : RunRow Key Value) : Record Key Value :=
  (row.key, row.value, row.ordinal)

namespace Codec

variable (codec : Codec Key Value)

/-- `body` is what a complete pass over a row with this record wrote. -/
def Encodes (record : Record Key Value) (body : List UInt8) : Prop :=
  ∃ row pass, codec.serializes row pass ∧ pass.failure = none ∧ pass.bytes = body ∧
    row.record = record

theorem decoded_eq {record decoded : Record Key Value} {body : List UInt8}
    (encodes : codec.Encodes record body) (decodes : codec.deserializes body (.ok decoded)) :
    decoded = record := by
  rcases encodes with ⟨row, pass, serialized, complete, rfl, rfl⟩
  exact codec.decode_encode row pass decoded serialized complete decodes

end Codec

def frameBytes (weight : Nat) (body : List UInt8) : List UInt8 :=
  toLittleEndian 4 body.length ++ toLittleEndian 8 weight ++ body

@[simp]
theorem length_frameBytes (weight : Nat) (body : List UInt8) :
    (frameBytes weight body).length = 12 + body.length := by
  simp only [frameBytes, List.length_append, length_toLittleEndian]

/-- `bytes` is a sequence of frames that hold `records`. -/
inductive Frames (codec : Codec Key Value) : List (Record Key Value) → List UInt8 → Prop where
  | nil : Frames codec [] []
  | cons {record body weight records bytes} :
      codec.Encodes record body → body.length ≤ u32Max → Frames codec records bytes →
      Frames codec (record :: records) (frameBytes weight body ++ bytes)

namespace Frames

variable {codec : Codec Key Value}

theorem singleton {record : Record Key Value} {body : List UInt8} (weight : Nat)
    (encodes : codec.Encodes record body) (fits : body.length ≤ u32Max) :
    Frames codec [record] (frameBytes weight body) := by
  have frames : Frames codec [record] (frameBytes weight body ++ []) := .cons encodes fits .nil
  rwa [List.append_nil] at frames

theorem append {first second : List (Record Key Value)} {bytes bytes' : List UInt8}
    (left : Frames codec first bytes) (right : Frames codec second bytes') :
    Frames codec (first ++ second) (bytes ++ bytes') := by
  induction left with
  | nil => exact right
  | cons encodes fits _ inductionHypothesis =>
      rw [List.append_assoc]
      exact .cons encodes fits inductionHypothesis

end Frames

/-- The file at `path` is a finished run of `records`. -/
def RunFile (codec : Codec Key Value) (files : Contents) (path : ScratchPath)
    (records : List (Record Key Value)) : Prop :=
  records.length ≤ u64Max ∧
    ∃ bytes, files path = some (toLittleEndian 8 records.length ++ bytes) ∧
      Frames codec records bytes

end SortGovernor.Engine
