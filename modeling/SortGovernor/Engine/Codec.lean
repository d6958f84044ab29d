import SortGovernor.Engine.Operation

/-!
# Measuring serialized frames before allocating their storage

A row is serialized twice: a first pass only counts bytes against the budget
limit, a second one fills a frame of exactly the measured size.
-/

namespace SortGovernor.Engine

open SortGovernor.Resumption

variable {Key Value State : Type}

/-- How `ciborium::ser::Error` displays the `io::Error` of a writer that refused. -/
def refusal (text : String) : String :=
  "Io(Custom \x7b kind: Other, error: \"" ++ text ++ "\" \x7d)"

/-- `ciborium::ser::into_writer`: feed the writes of a pass to a writer, which
may refuse one, then report the serializer's own failure. -/
def intoWriter {Writer : Type} (write : Writer → List UInt8 → Except String Writer)
    (writer : Writer) (pass : Serialization) : Except String Writer := do
  let writer ← (pass.writes.foldlM write writer).mapError refusal
  match pass.failure with
  | none => return writer
  | some text => throw text

structure Counter where
  bytes : Nat
  limit : Nat

def Counter.write (counter : Counter) (bytes : List UInt8) : Except String Counter :=
  match checkedAdd usizeMax counter.bytes bytes.length with
  | none => .error "encoded record length overflow"
  | some sum =>
      if sum > counter.limit then .error "encoded record exceeds byte budget"
      else .ok { counter with bytes := sum }

/-- The frame under construction, with the capacity of its vector. -/
structure FrameWriter where
  bytes : List UInt8
  capacity : Nat
  limit : Nat

def FrameWriter.write (writer : FrameWriter) (bytes : List UInt8) : Except String FrameWriter :=
  if bytes.length > writer.limit - writer.bytes.length then
    .error "serialized row changed after sizing"
  else
    .ok { writer with
      bytes := writer.bytes ++ bytes
      capacity := max writer.capacity (writer.bytes.length + bytes.length) }

def serialize (row : RunRow Key Value) : Async Key Value State Serialization :=
  ask (.serialize row)

/-- `codec::encode` -/
def encode (row : RunRow Key Value) :
    Async Key Value State (List UInt8 × MemoryCharge) := do
  let limit ← budgetLimit
  let count : Counter := { bytes := 0, limit := min limit usizeMax }
  let sizing ← serialize row
  let count ← propagate ((intoWriter Counter.write count sizing).mapError .encode)
  let charge ← reserveFrame count.bytes
  let writer : FrameWriter := { bytes := [], capacity := count.bytes, limit := count.bytes }
  let encoding ← serialize row
  let writer ← propagate ((intoWriter FrameWriter.write writer encoding).mapError .encode)
  if writer.bytes.length ≠ count.bytes ∨ writer.capacity > count.bytes then
    throw (.error (.encode "serialization changed between sizing and encoding"))
  else
    return (writer.bytes, charge)

/-- `ciborium::de::from_reader` on one frame: key, value and ordinal. -/
def decode (bytes : List UInt8) : Async Key Value State (Except String (Key × Value × Nat)) :=
  ask (.deserialize bytes)

end SortGovernor.Engine
