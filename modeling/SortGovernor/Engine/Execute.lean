import SortGovernor.Engine.SortRuns

/-!
# Executing the model

With a serializer given by functions, an ample budget and files that never
fail, the model can be executed.  What it computes is one of the runs of the
semantics.
-/

namespace SortGovernor.Engine

open SortGovernor.Resumption

/-- A serializer given by functions. -/
structure PureCodec (Key Value : Type) where
  encode : RunRow Key Value → Serialization
  decode : List UInt8 → Except String (Record Key Value)
  decode_encode : ∀ row, (encode row).failure = none →
    decode (encode row).bytes = .ok row.record

variable {Key Value : Type}

def PureCodec.codec (pure : PureCodec Key Value) : Codec Key Value where
  serializes row pass := pass = pure.encode row
  deserializes bytes decoded := decoded = pure.decode bytes
  decode_encode := by
    rintro row _ decoded rfl complete decodes
    rw [pure.decode_encode row complete] at decodes
    exact Except.ok.inj decodes

def grant (bytes : Nat) : Except SorterError MemoryCharge :=
  MemoryBudget.reserve u64Max 0 bytes

def filePolicy (op : FileOp) (fs : Fs) : Option (Except SorterError op.Value × Fs) :=
  match op with
  | .reserve bytes => some (grant bytes, fs)
  | op => (op.effect fs).map fun (value, fs) => (.ok value, fs)

theorem filePolicy_allowed (op : FileOp) (fs : Fs) (reply : Except SorterError op.Value) (fs' : Fs)
    (answered : filePolicy op fs = some (reply, fs')) : op.Step fs reply fs' := by
  cases op with
  | reserve bytes =>
      cases answered
      exact ⟨rfl, u64Max, 0, rfl⟩
  | _ =>
      simp only [filePolicy, Option.map_eq_some_iff, Prod.exists, Prod.mk.injEq] at answered
      rcases answered with ⟨value, _, done, rfl, rfl⟩
      exact .inl ⟨value, done, rfl⟩

def performPolicy (job : FsJob) (world : World) :
    Option (Except SorterError job.Value × World) :=
  match (job.body ()).follow filePolicy world.fs with
  | none => none
  | some ((result, ()), fs) => some (result, { fs, log := world.log ++ [job] })

theorem performPolicy_allowed {job : FsJob} {world world' : World}
    {reply : Except SorterError job.Value}
    (answered : performPolicy job world = some (reply, world')) :
    world.Performs job reply world' := by
  unfold performPolicy at answered
  split at answered
  · cases answered
  · rename_i result fs followed
    cases answered
    exact ⟨fs, .finished (Program.runs_of_follow filePolicy_allowed followed), rfl⟩

def PureCodec.policy (pure : PureCodec Key Value) :
    (op : Request Key Value) → World → Option (op.Reply × World)
  | .limit, world => some (u64Max, world)
  | .reserve bytes, world => some (grant bytes, world)
  | .serialize row, world => some (pure.encode row, world)
  | .deserialize bytes, world => some (pure.decode bytes, world)
  | .perform _ _ job, world => performPolicy job world
  | .direct job, world => performPolicy job world
  | .idle _, world => some ((), world)
  | .replay _, _ => none

theorem PureCodec.policy_allowed (pure : PureCodec Key Value) (op : Request Key Value)
    (world : World) (reply : op.Reply) (world' : World)
    (answered : pure.policy op world = some (reply, world')) :
    (sessionSemantics pure.codec).reply op world reply world' := by
  cases op with
  | limit =>
      cases answered
      rfl
  | reserve bytes =>
      cases answered
      exact ⟨rfl, u64Max, 0, rfl⟩
  | serialize row | deserialize bytes =>
      cases answered
      exact ⟨rfl, rfl⟩
  | perform io held job => exact .inl (performPolicy_allowed answered)
  | direct job => exact performPolicy_allowed answered
  | idle io =>
      cases answered
      rfl
  | replay request => cases answered

def World.empty : World where
  fs := { dirs := fun _ => false, files := fun _ => none }
  log := []

variable [LinearOrder Key] [Layout Key Value]

def pushAll (pure : PureCodec Key Value) (bytes : UInt64) :
    List (Key × Value) → SortSession Key Value → World → Option (SortSession Key Value × World)
  | [], session, world => some (session, world)
  | (key, value) :: rows, session, world =>
      match (SortSession.pushWithSize key value bytes session).follow pure.policy world with
      | some ((.ok (), session), world) => pushAll pure bytes rows session world
      | _ => none

theorem reaches_of_pushAll {pure : PureCodec Key Value} {bytes : UInt64} {dedup : Bool}
    {before rows : List (Key × Value)} {session session' : SortSession Key Value}
    {world world' : World} (reaches : Reaches pure.codec dedup before session world)
    (pushed : pushAll pure bytes rows session world = some (session', world')) :
    Reaches pure.codec dedup (before ++ rows) session' world' := by
  induction rows generalizing before session world with
  | nil =>
      cases pushed
      rwa [List.append_nil]
  | cons row rows inductionHypothesis =>
      unfold pushAll at pushed
      split at pushed
      · rename_i session'' world'' followed
        have run := Program.runs_of_follow pure.policy_allowed followed
        have rest := inductionHypothesis (.accepted row.1 row.2 bytes reaches run) pushed
        rwa [List.append_assoc, List.singleton_append] at rest
      · cases pushed

def pollAll (policy : (op : Request Key Value) → World → Option (op.Reply × World)) :
    Nat → ValueStream Key Value → World → Option (List (Except SorterError Value))
  | 0, _, _ => none
  | polls + 1, stream, world =>
      match (ValueStream.next stream).follow policy world with
      | some ((.ok none, _), _) => some []
      | some ((.ok (some item), stream), world) =>
          (pollAll policy polls stream world).map fun items => item :: items
      | _ => none

theorem polls_of_pollAll {codec : Codec Key Value}
    {policy : (op : Request Key Value) → World → Option (op.Reply × World)}
    (allowed : ∀ op world reply next, policy op world = some (reply, next) →
      (sessionSemantics codec).reply op world reply next)
    {polls : Nat} {stream stream' : ValueStream Key Value} {world world' : World}
    {before items : List (Except SorterError Value)}
    (earlier : Polls codec stream world before stream' world')
    (polled : pollAll policy polls stream' world' = some items) :
    ∃ last world'', Polls codec stream world (before ++ items) last world'' ∧
      Ends codec last world'' := by
  induction polls generalizing before stream' world' items with
  | zero => cases polled
  | succ polls inductionHypothesis =>
      unfold pollAll at polled
      split at polled
      · rename_i stream'' world'' followed
        cases polled
        refine ⟨stream', world', by simpa using earlier, stream'', world'', ?_⟩
        exact Program.runs_of_follow allowed followed
      · rename_i item stream'' world'' followed
        rcases Option.map_eq_some_iff.mp polled with ⟨rest, polled', rfl⟩
        have run := Program.runs_of_follow allowed followed
        have more := inductionHypothesis (.some earlier run) polled'
        simpa using more
      · cases polled

/-- The policy when no worker runs these jobs any more. -/
def PureCodec.refusing (pure : PureCodec Key Value) (refused : FsJob → Bool)
    (op : Request Key Value) (world : World) : Option (op.Reply × World) :=
  match op with
  | .perform _ _ job => if refused job then some (.error .gone, world) else performPolicy job world
  | op => pure.policy op world

theorem PureCodec.refusing_allowed (pure : PureCodec Key Value) (refused : FsJob → Bool)
    (op : Request Key Value) (world : World) (reply : op.Reply) (world' : World)
    (answered : pure.refusing refused op world = some (reply, world')) :
    (sessionSemantics pure.codec).reply op world reply world' := by
  unfold PureCodec.refusing at answered
  split at answered
  · split at answered
    · cases answered
      exact .inr ⟨rfl, rfl⟩
    · exact .inl (performPolicy_allowed answered)
  · exact pure.policy_allowed _ _ _ _ answered

/-- A whole sort: push the rows, finish, drain the stream while some jobs are refused. -/
def sortAll (pure : PureCodec Key Value) (refused : FsJob → Bool) (plan : SortPlan) (dedup : Bool)
    (bytes : UInt64) (rows : List (Key × Value)) : Option (List (Except SorterError Value)) :=
  match pushAll pure bytes rows (.new plan 0 dedup 0 none)
      .empty with
  | none => none
  | some (session, world) =>
      match (SortSession.finish session).follow pure.policy world with
      | some ((.ok stream, _), world) =>
          pollAll (pure.refusing refused) (rows.length + 3) stream world
      | _ => none

theorem exists_of_sortAll {pure : PureCodec Key Value} {refused : FsJob → Bool} {plan : SortPlan}
    {dedup : Bool} {bytes : UInt64} {rows : List (Key × Value)}
    {items : List (Except SorterError Value)}
    (sorted : sortAll pure refused plan dedup bytes rows = some items) :
    ∃ session world stream world₁ stream' world₂,
      Reaches pure.codec dedup rows session world ∧
      Finishes pure.codec session world stream world₁ ∧
      Polls pure.codec stream world₁ items stream' world₂ ∧
      Ends pure.codec stream' world₂ := by
  unfold sortAll at sorted
  split at sorted
  · cases sorted
  · rename_i session world pushed
    split at sorted
    · rename_i stream session' world₁ followed
      rcases polls_of_pollAll (pure.refusing_allowed refused) .none sorted with
        ⟨stream', world₂, polls, ends⟩
      have reaches := reaches_of_pushAll (.new plan 0 0 none _) pushed
      exact ⟨session, world, stream, world₁, stream', world₂, reaches,
        ⟨session', Program.runs_of_follow pure.policy_allowed followed⟩, polls, ends⟩
    · cases sorted

/-- Layouts of one byte each. -/
instance byteLayout : Layout Nat Nat where
  rowSize := 1
  pairSize := 1
  sourceSize := 1
  heapEntrySize := 1
  sessionSize := 1
  readerSize := 1
  replayWriterSize := 1
  replayInnerSize := 1
  futureSize _ := 1
  pathCapacity _ := 1
  dirCapacity _ := 1
  dirDisplay _ := ""
  rowSize_pos := by decide
  rowSize_le := by decide

/-- A row of three numbers below 256, one byte each; larger ones are refused. -/
def byteRows : PureCodec Nat Nat where
  encode row :=
    if row.key < 256 ∧ row.value < 256 ∧ row.ordinal < 256 then
      { writes := [[.ofNat row.key, .ofNat row.value, .ofNat row.ordinal]], failure := none }
    else { writes := [], failure := some "out of range" }
  decode
    | [key, value, ordinal] => .ok (key.toNat, value.toNat, ordinal.toNat)
    | _ => .error "length"
  decode_encode := by
    intro row complete
    split at complete
    · rename_i small
      have exact_byte : ∀ n < 256, (UInt8.ofNat n).toNat = n := by simp
      simp [Serialization.bytes, RunRow.record, exact_byte, small]
    · cases complete

end SortGovernor.Engine
