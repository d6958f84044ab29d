import Mathlib.Data.List.Basic
import SortGovernor.Engine.Codec

/-!
# One call of the encoder

The sizing pass, the reservation and the encoding pass of one call, against any
limits and any two passes the serializer may make.
-/

namespace SortGovernor.Engine

open SortGovernor.Resumption

/-- The sizing pass succeeds within the limit, and then it has counted every byte. -/
theorem Counter.writes_eq_ok {writes : List (List UInt8)} {counter counter' : Counter}
    (within : counter.bytes ≤ counter.limit) (word : counter.limit ≤ usizeMax) :
    writes.foldlM Counter.write counter = .ok counter' ↔
      counter.bytes + writes.flatten.length ≤ counter.limit ∧
        counter' = { counter with bytes := counter.bytes + writes.flatten.length } := by
  induction writes generalizing counter with
  | nil =>
      simp only [List.foldlM_nil, List.flatten_nil, List.length_nil, Nat.add_zero]
      constructor
      · rintro ⟨⟩
        exact ⟨within, rfl⟩
      · rintro ⟨-, rfl⟩
        rfl
  | cons bytes writes inductionHypothesis =>
      rw [List.foldlM_cons, List.flatten_cons, List.length_append]
      by_cases fits : counter.bytes + bytes.length ≤ counter.limit
      · have written : counter.write bytes =
            .ok { counter with bytes := counter.bytes + bytes.length } := by
          rw [Counter.write, checkedAdd, if_pos (fits.trans word)]
          exact if_neg (Nat.not_lt.mpr fits)
        have rest := @inductionHypothesis
          { counter with bytes := counter.bytes + bytes.length } fits word
        rw [written]
        simp only [Nat.add_assoc] at rest ⊢
        exact rest
      · have refused : ∃ text, counter.write bytes = .error text := by
          unfold Counter.write
          split
          · exact ⟨_, rfl⟩
          · rename_i sum added
            obtain ⟨-, rfl⟩ := checkedAdd_eq_some.mp added
            exact ⟨_, if_pos (Nat.lt_of_not_le fits)⟩
        obtain ⟨text, refused⟩ := refused
        rw [refused]
        constructor
        · rintro ⟨⟩
        · rintro ⟨bounded, -⟩
          omega

/-- The encoding pass fills a vector that was allocated at the measured size. -/
structure FrameWriter.Sized (writer : FrameWriter) (size : Nat) : Prop where
  limit : writer.limit = size
  capacity : writer.capacity = size
  within : writer.bytes.length ≤ size

/-- Every write stays within the measured size, so the vector never grows. -/
theorem FrameWriter.Sized.writes_eq_ok {writes : List (List UInt8)} {writer writer' : FrameWriter}
    {size : Nat} (sized : writer.Sized size) :
    writes.foldlM FrameWriter.write writer = .ok writer' ↔
      writer.bytes.length + writes.flatten.length ≤ size ∧
        writer' = { writer with bytes := writer.bytes ++ writes.flatten } := by
  induction writes generalizing writer with
  | nil =>
      simp only [List.foldlM_nil, List.flatten_nil, List.length_nil, Nat.add_zero, List.append_nil]
      constructor
      · rintro ⟨⟩
        exact ⟨sized.within, rfl⟩
      · rintro ⟨-, rfl⟩
        rfl
  | cons bytes writes inductionHypothesis =>
      obtain ⟨limit, capacity, within⟩ := sized
      rw [List.foldlM_cons, List.flatten_cons, List.length_append]
      by_cases fits : writer.bytes.length + bytes.length ≤ size
      · have written : writer.write bytes = .ok { writer with bytes := writer.bytes ++ bytes } := by
          rw [FrameWriter.write, if_neg (by omega), Nat.max_eq_left (by omega)]
        have sized : FrameWriter.Sized { writer with bytes := writer.bytes ++ bytes } size :=
          ⟨limit, capacity, by rwa [List.length_append]⟩
        have rest := inductionHypothesis sized
        rw [written]
        simp only [List.length_append, List.append_assoc, Nat.add_assoc] at rest ⊢
        exact rest
      · have refused : writer.write bytes = .error "serialized row changed after sizing" :=
          if_pos (by omega)
        rw [refused]
        constructor
        · rintro ⟨⟩
        · rintro ⟨bounded, -⟩
          omega

theorem intoWriter_eq_ok {Writer : Type} {write : Writer → List UInt8 → Except String Writer}
    {writer writer' : Writer} {pass : Serialization} :
    intoWriter write writer pass = .ok writer' ↔
      pass.failure = none ∧ pass.writes.foldlM write writer = .ok writer' := by
  unfold intoWriter
  cases pass.writes.foldlM write writer with
  | error text => exact ⟨nofun, fun ⟨_, written⟩ => nomatch written⟩
  | ok last =>
      cases pass.failure with
      | none => exact ⟨fun done => ⟨rfl, done⟩, fun ⟨_, done⟩ => done⟩
      | some text => exact ⟨nofun, fun ⟨complete, _⟩ => nomatch complete⟩

theorem Counter.intoWriter_eq_ok {limit : Nat} {pass : Serialization} {counter : Counter}
    (word : limit ≤ usizeMax) :
    intoWriter Counter.write { bytes := 0, limit } pass = .ok counter ↔
      pass.failure = none ∧ pass.bytes.length ≤ limit ∧
        counter = { bytes := pass.bytes.length, limit } := by
  rw [Engine.intoWriter_eq_ok, Counter.writes_eq_ok (Nat.zero_le _) word]
  simp only [Nat.zero_add, Serialization.bytes]

/-- The vector `encode` allocates. -/
def FrameWriter.allocated (size : Nat) : FrameWriter :=
  { bytes := [], capacity := size, limit := size }

theorem FrameWriter.sized_allocated (size : Nat) : (allocated size).Sized size :=
  ⟨rfl, rfl, Nat.zero_le _⟩

theorem FrameWriter.intoWriter_eq_ok {size : Nat} {pass : Serialization} {writer : FrameWriter} :
    intoWriter FrameWriter.write (allocated size) pass = .ok writer ↔
      pass.failure = none ∧ pass.bytes.length ≤ size ∧
        writer = { allocated size with bytes := pass.bytes } := by
  rw [Engine.intoWriter_eq_ok, (FrameWriter.sized_allocated size).writes_eq_ok]
  simp only [allocated, List.length_nil, Nat.zero_add, List.nil_append, Serialization.bytes]

/-- What one call of `encode` meets: the limit it reads first, the limit and the
bytes in use when it reserves, and the passes its serializer is going to make. -/
structure EncodeWorld where
  sized : UInt64
  limit : UInt64
  used : Nat
  passes : List Serialization
  deriving DecidableEq

def MemoryBudget.admitted : Except SorterError MemoryCharge → Nat
  | .ok charge => charge.bytes
  | .error _ => 0

variable {Key Value : Type}

def encodePolicy : (op : Request Key Value) → EncodeWorld → Option (op.Reply × EncodeWorld)
  | .limit, world => some (world.sized.toNat, world)
  | .reserve bytes, world =>
      let reply := MemoryBudget.reserve world.limit.toNat world.used bytes
      some (reply, { world with used := world.used + MemoryBudget.admitted reply })
  | .serialize _, world =>
      match world.passes with
      | [] => none
      | pass :: passes => some (pass, { world with passes })
  | _, _ => none

/-- A call of `encode` in its world, with the charges it owns. -/
structure EncodeCall where
  world : EncodeWorld
  owned : List MemoryCharge
  deriving DecidableEq

def Request.granted : (op : Request Key Value) → op.Reply → List MemoryCharge
  | .reserve _, .ok charge => [charge]
  | _, _ => []

def callPolicy (op : Request Key Value) (call : EncodeCall) : Option (op.Reply × EncodeCall) :=
  (encodePolicy op call.world).map fun (reply, world) =>
    (reply, { world, owned := op.granted reply ++ call.owned })

section Requests

variable {State : Type} {state : State} {call : EncodeCall}

@[simp]
theorem follow_budgetLimit :
    (budgetLimit : Async Key Value State Nat).follow callPolicy state call =
      some ((.ok call.world.sized.toNat, state), call) := rfl

def EncodeCall.reserve (call : EncodeCall) (reply : Except SorterError MemoryCharge) :
    EncodeCall where
  world := { call.world with used := call.world.used + MemoryBudget.admitted reply }
  owned := reply.toOption.toList ++ call.owned

@[simp]
theorem follow_reserve {bytes : Nat} :
    (reserve bytes : Async Key Value State MemoryCharge).follow callPolicy state call =
      some (((MemoryBudget.reserve call.world.limit.toNat call.world.used bytes).mapError
        Abort.error, state), call.reserve (MemoryBudget.reserve call.world.limit.toNat
          call.world.used bytes)) := by
  have granted : ∀ reply : Except SorterError MemoryCharge,
      (Request.reserve bytes : Request Key Value).granted reply = reply.toOption.toList := by
    rintro (error | charge) <;> rfl
  have asked : (ask (.reserve bytes) : Async Key Value State _).follow callPolicy state call =
      some ((.ok (MemoryBudget.reserve call.world.limit.toNat call.world.used bytes), state),
        call.reserve (MemoryBudget.reserve call.world.limit.toNat call.world.used bytes)) := by
    rw [EncodeCall.reserve, ← granted]
    rfl
  rw [reserve, Method.follow_bind, asked]
  exact Method.follow_ofExcept

theorem follow_serialize {row : RunRow Key Value} {pass : Serialization}
    {passes : List Serialization} (next : call.world.passes = pass :: passes) :
    (serialize row : Async Key Value State Serialization).follow callPolicy state call =
      some ((.ok pass, state), { call with world := { call.world with passes } }) := by
  obtain ⟨⟨sized, limit, used, _⟩, owned⟩ := call
  subst next
  rfl

end Requests

/-- The outcome of `encode` and what it leaves behind. -/
def encodeIn (world : EncodeWorld) (row : RunRow Key Value) :
    Option ((Except Abort (List UInt8 × MemoryCharge) × Unit) × EncodeWorld) :=
  (encode row : Async Key Value Unit (List UInt8 × MemoryCharge)).follow encodePolicy () world

/-- Both passes are there, and the first one measures within the limit. -/
structure EncodeWorld.Measures (world : EncodeWorld) (sizing encoding : Serialization) : Prop where
  passes : world.passes = [sizing, encoding]
  complete : sizing.failure = none
  within : sizing.bytes.length ≤ world.sized.toNat

/-- The frame is charged before it is filled. -/
structure EncodeWorld.Admits (world : EncodeWorld) (sizing encoding : Serialization) : Prop
    extends world.Measures sizing encoding where
  admitted : world.used + (3 * sizing.bytes.length + 32) ≤ world.limit.toNat

/-- How a call of `encode` ends, and what it owns then. -/
inductive Encodes (world : EncodeWorld) (sizing encoding : Serialization) :
    Except Abort (List UInt8 × MemoryCharge) → EncodeCall → Prop where
  | unmeasured (text : String) :
      sizing.failure ≠ none ∨ world.sized.toNat < sizing.bytes.length →
      Encodes world sizing encoding (.error (.error (.encode text)))
        ⟨{ world with passes := [encoding] }, []⟩
  | overflow : world.Measures sizing encoding → usizeMax < 3 * sizing.bytes.length + 32 →
      Encodes world sizing encoding (.error (.error .runLimit))
        ⟨{ world with passes := [encoding] }, []⟩
  | refused (available : Nat) : world.Measures sizing encoding →
      3 * sizing.bytes.length + 32 ≤ usizeMax →
      world.limit.toNat < world.used + (3 * sizing.bytes.length + 32) →
      Encodes world sizing encoding
        (.error (.error (.memoryBudget (3 * sizing.bytes.length + 32) available)))
        ⟨{ world with passes := [encoding] }, []⟩
  | changed (text : String) : world.Admits sizing encoding →
      encoding.failure ≠ none ∨ encoding.bytes.length ≠ sizing.bytes.length →
      Encodes world sizing encoding (.error (.error (.encode text)))
        ⟨{ world with used := world.used + (3 * sizing.bytes.length + 32), passes := [] },
          [⟨3 * sizing.bytes.length + 32⟩]⟩
  | encoded : world.Admits sizing encoding → encoding.failure = none →
      encoding.bytes.length = sizing.bytes.length →
      Encodes world sizing encoding (.ok (encoding.bytes, ⟨3 * sizing.bytes.length + 32⟩))
        ⟨{ world with used := world.used + (3 * sizing.bytes.length + 32), passes := [] },
          [⟨3 * sizing.bytes.length + 32⟩]⟩

theorem reserve_eq_ok {limit : UInt64} {used bytes : Nat} (admitted : used + bytes ≤ limit.toNat) :
    MemoryBudget.reserve limit.toNat used bytes = .ok ⟨bytes⟩ := by
  have small := limit.toNat_lt
  have sum : checkedAdd u64Max used bytes = some (used + bytes) := by
    apply checkedAdd_eq_some.mpr
    unfold u64Max
    omega
  simp [MemoryBudget.reserve, sum, Option.filter, admitted]

theorem reserve_eq_error {limit used bytes : Nat} (refused : ¬used + bytes ≤ limit) :
    MemoryBudget.reserve limit used bytes = .error (.memoryBudget bytes (limit - used)) := by
  have none : (checkedAdd u64Max used bytes).filter (fun next => next ≤ limit) = none := by
    unfold checkedAdd
    split <;> simp [Option.filter, refused]
  rw [MemoryBudget.reserve, none]

theorem frameBytes_eq (bytes : Nat) :
    MemoryBudget.frameBytes bytes =
      if 3 * bytes + 32 ≤ usizeMax then some (3 * bytes + 32) else none := by
  unfold MemoryBudget.frameBytes checkedMul checkedAdd
  by_cases fits : 3 * bytes + 32 ≤ usizeMax
  · rw [if_pos (by omega), if_pos fits, Option.bind_some, if_pos (by omega), Nat.mul_comm]
  · rw [if_neg fits]
    split
    · rw [Option.bind_some, if_neg (by omega)]
    · rfl

/-- Every call of `encode` ends in one of these ways. -/
theorem follow_encode (world : EncodeWorld) (row : RunRow Key Value)
    {sizing encoding : Serialization} (passes : world.passes = [sizing, encoding]) :
    ∃ outcome call,
      (encode row : Async Key Value Unit (List UInt8 × MemoryCharge)).follow callPolicy ()
        ⟨world, []⟩ = some ((outcome, ()), call) ∧
      Encodes world sizing encoding outcome call := by
  have word : world.sized.toNat ≤ usizeMax := by
    have small := world.sized.toNat_lt
    unfold usizeMax u64Max
    omega
  have first : (⟨world, []⟩ : EncodeCall).world.passes = [sizing, encoding] := passes
  unfold encode
  simp only [Engine.reserveFrame, orError, propagate, Method.follow_bind, follow_budgetLimit,
    follow_serialize first, Method.follow_ofExcept, Method.follow_okOr, Nat.min_eq_left word,
    Option.bind_some]
  cases measured : intoWriter Counter.write { bytes := 0, limit := world.sized.toNat } sizing with
  | error text =>
      refine ⟨_, _, rfl, .unmeasured text ?_⟩
      by_contra succeeds
      rw [not_or, not_not, Nat.not_lt] at succeeds
      have counted := (Counter.intoWriter_eq_ok word).mpr ⟨succeeds.1, succeeds.2, rfl⟩
      rw [measured] at counted
      cases counted
  | ok count =>
      obtain ⟨complete, within, rfl⟩ := (Counter.intoWriter_eq_ok word).mp measured
      have measures : world.Measures sizing encoding := ⟨passes, complete, within⟩
      by_cases fits : 3 * sizing.bytes.length + 32 ≤ usizeMax
      · by_cases admitted : world.used + (3 * sizing.bytes.length + 32) ≤ world.limit.toNat
        · have admits : world.Admits sizing encoding := ⟨measures, admitted⟩
          simp only [Except.mapError, frameBytes_eq, if_pos fits, follow_reserve,
            reserve_eq_ok admitted, Option.bind_some, EncodeCall.reserve, MemoryBudget.admitted]
          rw [follow_serialize rfl, Option.bind_some]
          cases filled : intoWriter FrameWriter.write (.allocated sizing.bytes.length) encoding with
          | error text =>
              rw [FrameWriter.allocated] at filled
              simp only [filled]
              refine ⟨_, _, rfl, .changed text admits ?_⟩
              by_contra same
              rw [not_or, not_not, not_not] at same
              have done := FrameWriter.intoWriter_eq_ok.mpr ⟨same.1, same.2.le, rfl⟩
              rw [FrameWriter.allocated, filled] at done
              cases done
          | ok writer =>
              obtain ⟨whole, bounded, rfl⟩ := FrameWriter.intoWriter_eq_ok.mp filled
              rw [FrameWriter.allocated] at filled
              simp only [filled, gt_iff_lt, Nat.lt_irrefl, or_false]
              by_cases same : encoding.bytes.length = sizing.bytes.length
              · rw [if_neg (not_not.mpr same)]
                exact ⟨_, _, rfl, .encoded admits whole same⟩
              · rw [if_pos same]
                exact ⟨_, _, rfl, .changed _ admits (.inr same)⟩
        · simp only [Except.mapError, frameBytes_eq, if_pos fits, follow_reserve,
            reserve_eq_error admitted, Option.bind_some, EncodeCall.reserve, MemoryBudget.admitted]
          exact ⟨_, _, rfl, .refused _ measures fits (Nat.lt_of_not_le admitted)⟩
      · simp only [Except.mapError, frameBytes_eq, if_neg fits]
        exact ⟨_, _, rfl, .overflow measures (Nat.lt_of_not_le fits)⟩

theorem encodeIn_ends (world : EncodeWorld) (row : RunRow Key Value)
    {sizing encoding : Serialization} (passes : world.passes = [sizing, encoding]) :
    ∃ outcome next owned, encodeIn world row = some ((outcome, ()), next) ∧
      Encodes world sizing encoding outcome ⟨next, owned⟩ := by
  obtain ⟨outcome, call, ends, ended⟩ := follow_encode world row passes
  refine ⟨outcome, call.world, call.owned, ?_, ended⟩
  have follows : encodeIn world row =
      ((encode row : Async Key Value Unit (List UInt8 × MemoryCharge)).follow callPolicy ()
        ⟨world, []⟩).map (Prod.map id EncodeCall.world) := by
    refine (Method.follow_view EncodeCall.world ?_ (encode row) () ⟨world, []⟩).symm
    intro op call
    unfold callPolicy
    cases encodePolicy op call.world <;> rfl
  rw [follows, ends]
  rfl

/-- A value that serializes to the same number of bytes in both passes is encoded
or refused by the budget, and a refusal comes before the frame is filled. -/
def FitsOrRefused (limit : UInt64) (used : Nat) (sizing encoding : Serialization)
    (outcome : Except Abort (List UInt8 × MemoryCharge)) (next : EncodeWorld) : Prop :=
  let working := 3 * sizing.bytes.length + 32
  (outcome.isOk ↔ used + working ≤ limit.toNat) ∧
    (limit.toNat < used + working →
      ((∃ available, outcome = .error (.error (.memoryBudget working available))) ∨
        usizeMax < working ∧ outcome = .error (.error .runLimit)) ∧
      next.passes = [encoding] ∧ next.used = used)

/-- Under a constant limit the budget law of `encode` holds of a value if and
only if its bytes alone are within the limit, and beyond that an encode error
means that a pass failed or the passes differ. -/
theorem encode_fits_or_refused (limit : UInt64) (used : Nat) (sizing encoding : Serialization)
    (row : RunRow Key Value) :
    ∃ outcome next,
      encodeIn ⟨limit, limit, used, [sizing, encoding]⟩ row = some ((outcome, ()), next) ∧
      (sizing.failure = none → encoding.failure = none →
        encoding.bytes.length = sizing.bytes.length →
        (FitsOrRefused limit used sizing encoding outcome next ↔
          sizing.bytes.length ≤ limit.toNat)) ∧
      (sizing.bytes.length ≤ limit.toNat → ∀ text, outcome = .error (.error (.encode text)) →
        sizing.failure ≠ none ∨ encoding.failure ≠ none ∨
          encoding.bytes.length ≠ sizing.bytes.length) := by
  obtain ⟨outcome, next, owned, ends, ended⟩ :=
    @encodeIn_ends _ _ ⟨limit, limit, used, [sizing, encoding]⟩ row sizing encoding rfl
  refine ⟨outcome, next, ends, ?_, ?_⟩
  · intro sizes encodes same
    unfold FitsOrRefused
    cases ended with
    | unmeasured text failed =>
        obtain failed | long := failed
        · exact absurd sizes failed
        have long : limit.toNat < sizing.bytes.length := long
        constructor
        · rintro ⟨-, refused⟩
          obtain ⟨⟨available, ⟨⟩⟩ | ⟨-, ⟨⟩⟩, -⟩ := refused (by omega)
        · omega
    | overflow measures long =>
        have small := limit.toNat_lt
        have within : sizing.bytes.length ≤ limit.toNat := measures.within
        have beyond : limit.toNat < used + (3 * sizing.bytes.length + 32) := by
          unfold usizeMax u64Max at long
          omega
        simp only [within, iff_true]
        refine ⟨⟨nofun, fun fits => absurd fits (by omega)⟩,
          fun _ => ⟨.inr ⟨long, trivial⟩, trivial, trivial⟩⟩
    | refused available measures word long =>
        have long : limit.toNat < used + (3 * sizing.bytes.length + 32) := long
        have within : sizing.bytes.length ≤ limit.toNat := measures.within
        simp only [within, iff_true]
        refine ⟨⟨nofun, fun fits => absurd fits (by omega)⟩,
          fun _ => ⟨.inl ⟨_, rfl⟩, trivial, trivial⟩⟩
    | changed text admits differs =>
        obtain failed | differs := differs
        · exact absurd encodes failed
        · exact absurd same differs
    | encoded admits whole _ =>
        have fits : used + (3 * sizing.bytes.length + 32) ≤ limit.toNat := admits.admitted
        have within : sizing.bytes.length ≤ limit.toNat := admits.within
        simp only [within, iff_true]
        exact ⟨⟨fun _ => fits, fun _ => rfl⟩, fun long => absurd long (by omega)⟩
  · rintro within text rfl
    cases ended with
    | unmeasured _ failed =>
        obtain failed | long := failed
        · exact .inl failed
        · exact absurd within (Nat.not_le.mpr long)
    | changed _ _ differs => exact .inr differs

/-- A row of eleven bytes under a limit of ten. -/
theorem encode_misses_budget :
    ∃ outcome next,
      encodeIn ⟨10, 10, 0, [⟨[List.replicate 11 0], none⟩, ⟨[List.replicate 11 0], none⟩]⟩
        (⟨(), (), 0, 1, none⟩ : RunRow Unit Unit) = some ((outcome, ()), next) ∧
      outcome = .error (.error (.encode (refusal "encoded record exceeds byte budget"))) ∧
      ¬FitsOrRefused 10 0 ⟨[List.replicate 11 0], none⟩ ⟨[List.replicate 11 0], none⟩
        outcome next := by
  refine ⟨_, _, rfl, rfl, ?_⟩
  rintro ⟨-, refused⟩
  obtain ⟨⟨available, refusal⟩ | ⟨-, refusal⟩, -⟩ := refused (by decide)
  · cases refusal
  · cases refusal

/-- Ten bytes under a limit of a hundred, all of them free. -/
theorem encode_fits_or_refused_ten :
    ∃ outcome next,
      encodeIn ⟨100, 100, 0, [⟨[List.replicate 10 0], none⟩, ⟨[List.replicate 10 0], none⟩]⟩
        (⟨(), (), 0, 1, none⟩ : RunRow Unit Unit) = some ((outcome, ()), next) ∧
      FitsOrRefused 100 0 ⟨[List.replicate 10 0], none⟩ ⟨[List.replicate 10 0], none⟩
        outcome next := by
  obtain ⟨outcome, next, ends, law, -⟩ := encode_fits_or_refused 100 0
    ⟨[List.replicate 10 0], none⟩ ⟨[List.replicate 10 0], none⟩
      (⟨(), (), 0, 1, none⟩ : RunRow Unit Unit)
  exact ⟨outcome, next, ends, (law rfl rfl rfl).mpr (by decide)⟩

/-- `Drop for MemoryCharge` -/
def MemoryCharge.drop (world : EncodeWorld) (charge : MemoryCharge) : EncodeWorld :=
  { world with used := world.used - charge.bytes }

/-- The charge that leaves a call with its frame. -/
def handedOver : Except Abort (List UInt8 × MemoryCharge) → List MemoryCharge
  | .ok (_, charge) => [charge]
  | .error _ => []

/-- `encode` as its caller finds it: the call drops what it owns and does not hand over. -/
def encodeCall (world : EncodeWorld) (row : RunRow Key Value) :
    Option (Except Abort (List UInt8 × MemoryCharge) × EncodeWorld) :=
  ((encode row : Async Key Value Unit (List UInt8 × MemoryCharge)).follow callPolicy ()
    ⟨world, []⟩).map fun ((outcome, ()), call) =>
      (outcome, (call.owned.diff (handedOver outcome)).foldl MemoryCharge.drop call.world)

/-- `encode` succeeds exactly when both passes succeed within the budget and
write as many bytes; the frame then holds the second pass, and its charge alone
stays in the budget.  Any other call leaves the budget as it was, and no write of
the second pass makes the vector grow or finds less room than there is. -/
theorem encode_exact (world : EncodeWorld) (row : RunRow Key Value)
    (sizing encoding : Serialization) (passes : world.passes = [sizing, encoding]) :
    ∃ outcome after, encodeCall world row = some (outcome, after) ∧
      (∀ bytes charge, outcome = .ok (bytes, charge) ↔
        sizing.failure = none ∧ encoding.failure = none ∧
          sizing.bytes.length ≤ world.sized.toNat ∧
          world.used + (3 * sizing.bytes.length + 32) ≤ world.limit.toNat ∧
          encoding.bytes.length = sizing.bytes.length ∧ bytes = encoding.bytes ∧
          charge = ⟨3 * sizing.bytes.length + 32⟩) ∧
      (∀ bytes charge, outcome = .ok (bytes, charge) →
        after.used = world.used + charge.bytes ∧
        intoWriter FrameWriter.write (.allocated sizing.bytes.length) encoding =
          .ok { bytes, capacity := sizing.bytes.length, limit := sizing.bytes.length }) ∧
      (∀ abort, outcome = .error abort → (∃ error, abort = .error error) ∧
        after.used = world.used) ∧
      ∀ before rest writer, encoding.writes = before ++ rest →
        before.foldlM FrameWriter.write (.allocated sizing.bytes.length) = .ok writer →
        writer.bytes = before.flatten ∧ writer.Sized sizing.bytes.length := by
  obtain ⟨outcome, call, ends, ended⟩ := follow_encode world row passes
  refine ⟨outcome, (call.owned.diff (handedOver outcome)).foldl MemoryCharge.drop call.world,
    ?_, ?_, ?_, ?_, ?_⟩
  · rw [encodeCall, ends]
    rfl
  · intro bytes charge
    constructor
    · rintro rfl
      cases ended with
      | encoded admits whole same =>
          exact ⟨admits.complete, whole, admits.within, admits.admitted, same, rfl, rfl⟩
    · rintro ⟨complete, whole, within, admitted, same, rfl, rfl⟩
      cases ended with
      | encoded => rfl
      | unmeasured _ failed =>
          obtain failed | long := failed
          · exact absurd complete failed
          · exact absurd within (Nat.not_le.mpr long)
      | overflow _ long =>
          have small := world.limit.toNat_lt
          unfold usizeMax u64Max at long
          omega
      | refused _ _ _ long => exact absurd admitted (Nat.not_le.mpr long)
      | changed _ _ differs =>
          obtain failed | differs := differs
          · exact absurd whole failed
          · exact absurd same differs
  · rintro bytes charge rfl
    cases ended with
    | encoded admits whole same =>
        refine ⟨?_, FrameWriter.intoWriter_eq_ok.mpr ⟨whole, same.le, rfl⟩⟩
        simp [handedOver]
  · rintro abort rfl
    cases ended with
    | changed => exact ⟨⟨_, rfl⟩, Nat.add_sub_cancel _ _⟩
    | _ => exact ⟨⟨_, rfl⟩, rfl⟩
  · intro before rest writer _ written
    obtain ⟨within, rfl⟩ := (FrameWriter.sized_allocated _).writes_eq_ok.mp written
    exact ⟨rfl, rfl, rfl, by simpa [FrameWriter.allocated] using within⟩

/-- A second pass that is one byte longer than the first, when seven bytes are in use. -/
theorem encode_exact_unstable :
    ∃ outcome after,
      encodeCall ⟨100, 100, 7, [⟨[[1]], none⟩, ⟨[[1], [2]], none⟩]⟩
        (⟨(), (), 0, 1, none⟩ : RunRow Unit Unit) = some (outcome, after) ∧
      (∀ bytes charge, outcome ≠ .ok (bytes, charge)) ∧ after.used = 7 := by
  obtain ⟨outcome, after, ends, law, -, released, -⟩ := encode_exact ⟨100, 100, 7, _⟩
    (⟨(), (), 0, 1, none⟩ : RunRow Unit Unit) ⟨[[1]], none⟩ ⟨[[1], [2]], none⟩ rfl
  have failed : ∀ bytes charge, outcome ≠ .ok (bytes, charge) := by
    intro bytes charge done
    obtain ⟨-, -, -, -, same, -⟩ := (law bytes charge).mp done
    cases same
  refine ⟨outcome, after, ends, failed, ?_⟩
  cases outcome with
  | ok encoded => exact absurd rfl (failed encoded.1 encoded.2)
  | error abort => exact (released abort rfl).2

end SortGovernor.Engine
