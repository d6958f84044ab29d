import SortGovernor.Engine.Merge
import SortGovernor.Engine.OnlyReads
import SortGovernor.Resumption.Raises

/-!
# A merge makes no errors of its own

In a world that refuses no request, `MergeState::open` returns a merge and
`next_row` a row or the end: every error they report is one that a request of
theirs was answered with.
-/

namespace SortGovernor.Engine

open SortGovernor.Resumption SortGovernor.Sorting

variable {Key Value State : Type} {codec : Codec Key Value}

def Request.Succeeds : (op : Request Key Value) → op.Reply → Prop
  | .reserve _, reply => ∃ charge, reply = .ok charge
  | .serialize _, reply => reply.failure = none
  | .deserialize _, reply => ∃ decoded, reply = .ok decoded
  | .perform _ _ _, reply | .direct _, reply => ∃ value, reply = .ok value
  | _, _ => True

/-- The semantics of the engine in a world where nothing fails. -/
def faultless (codec : Codec Key Value) : Semantics (engine Key Value) World :=
  (sessionSemantics codec).restrict Request.Succeeds

/-- Every offset of a file is a `u64`. -/
def World.Addressable (world : World) : Prop :=
  ∀ path bytes, world.fs.files path = some bytes → bytes.length ≤ u64Max

/-- The bookkeeping bytes of every operation are a `usize`. -/
def Layout.Fits (Key Value : Type) [Layout Key Value] : Prop :=
  ∀ job path, metadataBytes (Layout.futureSize Key Value job)
    (Layout.pathCapacity Key Value path) ≠ none

/-- The arrays of a merge of so many runs are a `usize`. -/
def MergeState.Sized (Key Value : Type) [Layout Key Value] (capacity : Nat) : Prop :=
  capacity * Layout.sourceSize Key Value + capacity * Layout.heapEntrySize Key Value ≤ usizeMax

/-- An end that is not an error: a panic or a loop without end. -/
def Abort.Unreported (abort : Abort) : Prop := ∀ error, abort ≠ .error error

/-- A method that reports no error while nothing fails. -/
abbrev Faultless {Result : Type} (codec : Codec Key Value) (known : Result → Prop)
    (method : Async Key Value State Result) : Prop :=
  Method.Raises (faultless codec) World.Addressable Abort.Unreported known method

theorem Faultless.succeeds {Result : Type} {known : Result → Prop}
    {method : Async Key Value State Result} (raises : Faultless codec known method)
    {state state' : State} {world last : World} {outcome : Except Abort Result}
    (reported : ∀ abort, outcome = .error abort → ∃ error, abort = .error error)
    (addressable : world.Addressable)
    (run : Runs (faultless codec) (method state) world (.returned (outcome, state')) last) :
    ∃ result, outcome = .ok result := by
  have ends := Method.wp_returned (raises state world addressable) run
  cases outcome with
  | ok result => exact ⟨result, rfl⟩
  | error abort =>
      obtain ⟨error, same⟩ := reported abort rfl
      exact absurd same (ends error)

theorem faultless_propagate {Result : Type} {result : Except SorterError Result}
    {known : Result → Prop} (succeeds : ∃ value, result = .ok value ∧ known value) :
    Faultless codec known (propagate result : Async Key Value State Result) := by
  obtain ⟨value, rfl, holds⟩ := succeeds
  exact Method.raises_pure holds

theorem faultless_orError {Result : Type} {value : Option Result} {error : SorterError}
    (present : value ≠ none) :
    Faultless codec (fun result => value = some result)
      (orError value error : Async Key Value State Result) :=
  Method.raises_okOr (fun absent => absurd absent present) fun _ => id

theorem faultless_reserve (bytes : Nat) :
    Faultless codec (fun _ => True) (reserve bytes : Async Key Value State MemoryCharge) := by
  have asked : Faultless codec (fun reply => ∃ charge, reply = .ok charge)
      (ask (.reserve bytes) : Async Key Value State _) := by
    apply Method.raises_issue
    rintro world reply next ⟨⟨rfl, -⟩, succeeds⟩ addressable
    exact ⟨addressable, succeeds⟩
  apply Method.raises_bind asked
  rintro reply ⟨charge, rfl⟩
  exact faultless_propagate ⟨charge, rfl, trivial⟩

theorem faultless_perform [Layout Key Value] (fits : Layout.Fits Key Value) (io : ScopeId)
    (path : ScratchPath) (job : FsJob) {known : job.Value → Prop} (reads : job.Reads)
    (gives : ∀ world : World, world.Addressable → ∀ value fs,
      job.Completes world.fs (.ok value) fs → known value) :
    Faultless codec known (perform io (Layout.pathCapacity Key Value path) [] job :
      Async Key Value State job.Value) := by
  apply Method.raises_bind (faultless_orError (fits _ _))
  intro bytes _
  apply Method.raises_bind (faultless_reserve bytes)
  intro metadata _
  have asked : Faultless codec (fun reply => ∃ value, reply = .ok value ∧ known value)
      (ask (.perform io (metadata :: []) job) : Async Key Value State _) := by
    apply Method.raises_issue
    rintro world reply next ⟨⟨fs, completes, rfl⟩ | ⟨rfl, -⟩, value, same⟩ addressable
    · have unchanged := reads.of_completes completes
      refine ⟨fun path bytes found => addressable path bytes ?_, value, same, ?_⟩
      · rwa [← unchanged.files_eq]
      · subst same
        exact gives world addressable value fs completes
    · cases same
  exact Method.raises_bind asked fun reply succeeds => faultless_propagate succeeds

theorem faultless_readFrame [Layout Key Value] (fits : Layout.Fits Key Value) (io : ScopeId)
    (path : ScratchPath) (offset rowInline : Nat) :
    Faultless codec (fun frame => offset + (12 + frame.bytes.length) ≤ u64Max)
      (perform io (Layout.pathCapacity Key Value path) [] (.readFrame path offset rowInline) :
        Async Key Value State Frame) := by
  apply faultless_perform fits io path (.readFrame path offset rowInline) trivial
  intro world addressable frame fs completes
  obtain ⟨-, bytes, found, inside, -⟩ := completes.effect
  have short := addressable path bytes found
  omega

theorem faultless_decode (bytes : List UInt8) :
    Faultless codec (fun reply => ∃ decoded, reply = .ok decoded)
      (decode bytes : Async Key Value State _) := by
  apply Method.raises_issue
  rintro world reply next ⟨⟨rfl, -⟩, succeeds⟩ addressable
  exact ⟨addressable, succeeds⟩

variable [Layout Key Value]

theorem faultless_nextFrame (fits : Layout.Fits Key Value) :
    Faultless codec (fun _ => True) (RunReader.nextRow : Async Key Value RunReader _) := by
  apply Method.raises_bind Method.raises_get
  intro reader _
  apply Method.raises_ite fun _ => Method.raises_pure trivial
  intro _
  apply Method.raises_bind (faultless_readFrame fits _ _ _ _)
  intro frame inside
  apply Method.raises_bind (faultless_decode _)
  rintro _ ⟨decoded, rfl⟩
  refine Method.raises_bind (faultless_propagate ⟨decoded, rfl, trivial⟩ :
    Faultless codec (fun _ => True) _) ?_
  rintro ⟨key, value, ordinal⟩ _
  apply Method.raises_bind (faultless_orError ?_)
  · intro len fitsWord
    obtain ⟨-, rfl⟩ := tryFrom_eq_some.mp fitsWord
    apply Method.raises_bind (faultless_orError ?_)
    · intro offset _
      apply Method.raises_bind (Method.raises_modify _)
      intro _ _
      apply Method.raises_bind (Method.raises_modify _)
      exact fun _ _ => Method.raises_pure trivial
    · rw [Ne, checkedAdd_eq_none]
      exact not_lt.mpr inside
  · rw [tryFrom, if_pos (by omega)]
    exact Option.some_ne_none _

theorem faultless_takeHead (fits : Layout.Fits Key Value) :
    Faultless codec (fun _ => True)
      (MergeSource.takeHead : Async Key Value (MergeSource Key Value) _) := by
  apply Method.raises_bind Method.raises_get
  intro source _
  split
  · exact Method.raises_throw fun _ => nofun
  · apply Method.raises_bind (Method.raises_modify _)
    intro _ _
    apply Method.raises_bind Method.raises_get
    intro source _
    apply Method.raises_bind (Method.raises_within (faultless_nextFrame fits))
    intro next _
    apply Method.raises_bind (Method.raises_modify _)
    exact fun _ _ => Method.raises_pure trivial

theorem faultless_openReader (fits : Layout.Fits Key Value) (path : ScratchPath) (io : ScopeId) :
    Faultless codec (fun _ => True)
      (RunReader.open path io : Async Key Value State RunReader) := by
  have counted : Faultless codec (fun _ => True)
      (perform io (Layout.pathCapacity Key Value path) [] (.readCount path) :
        Async Key Value State Nat) :=
    faultless_perform fits io path (.readCount path) trivial fun _ _ _ _ _ => trivial
  exact Method.raises_bind counted fun _ _ => Method.raises_pure trivial

theorem faultless_openSource (fits : Layout.Fits Key Value) (path : ScratchPath) (io : ScopeId) :
    Faultless codec (fun _ => True)
      (MergeSource.open path io : Async Key Value State (Option (MergeSource Key Value))) := by
  apply Method.raises_bind (faultless_openReader fits path io)
  intro reader _
  apply Method.raises_bind (Method.raises_call (faultless_nextFrame fits))
  rintro ⟨first, reader⟩ _
  cases first with
  | none => exact Method.raises_pure trivial
  | some head => exact Method.raises_pure trivial

namespace MergeState

theorem faultless_new {capacity : Nat} (sized : Sized Key Value capacity) (dedup : Bool) :
    Faultless codec (fun _ => True)
      (new capacity dedup : Async Key Value State (MergeState Key Value)) := by
  unfold Sized at sized
  have bounded {bytes : Nat} (small : capacity * bytes ≤ usizeMax) :
      checkedMul usizeMax capacity bytes ≠ none := by
    rw [checkedMul, if_pos small]
    exact Option.some_ne_none _
  apply Method.raises_bind (faultless_orError (bounded (by omega)))
  intro sourceBytes sources
  apply Method.raises_bind (faultless_orError (bounded (by omega)))
  intro heapBytes entries
  obtain ⟨-, rfl⟩ := checkedMul_eq_some.mp sources
  obtain ⟨-, rfl⟩ := checkedMul_eq_some.mp entries
  apply Method.raises_bind (faultless_orError ?_)
  · intro bytes _
    apply Method.raises_bind (faultless_reserve bytes)
    exact fun _ _ => Method.raises_pure trivial
  · rw [Ne, checkedAdd_eq_none]
    exact not_lt.mpr sized

theorem faultless_openSources (fits : Layout.Fits Key Value) (io : ScopeId)
    (paths : List ScratchPath) (merge : MergeState Key Value) :
    Faultless codec (fun _ => True)
      (openSources io paths merge : Async Key Value State (MergeState Key Value)) := by
  induction paths generalizing merge with
  | nil => exact Method.raises_pure trivial
  | cons path paths inductionHypothesis =>
      apply Method.raises_bind (faultless_openSource fits path io)
      rintro (_ | source) _
      · exact inductionHypothesis merge
      · have pushed : Faultless codec (fun _ => True)
            (pushSource merge source : Async Key Value State (MergeState Key Value)) := by
          unfold pushSource
          split
          · apply Method.raises_bind (faultless_reserve _)
            exact fun _ _ => Method.raises_pure trivial
          · exact Method.raises_pure trivial
        exact Method.raises_bind pushed fun merge _ => inductionHypothesis merge

theorem faultless_open (fits : Layout.Fits Key Value) {paths : List ScratchPath}
    (sized : Sized Key Value paths.length) (dedup : Bool) (io : ScopeId) :
    Faultless codec (fun _ => True)
      (MergeState.open paths dedup io : Async Key Value State (MergeState Key Value)) := by
  apply Method.raises_bind (faultless_new sized dedup)
  exact fun merge _ => faultless_openSources fits io paths merge

omit [Layout Key Value] in
theorem faultless_source (idx : Nat) :
    Faultless codec (fun _ => True) (source idx : Async Key Value (MergeState Key Value) _) := by
  apply Method.raises_bind Method.raises_get
  intro merge _
  split
  · exact Method.raises_pure trivial
  · exact Method.raises_throw fun _ => nofun

omit [Layout Key Value] in
theorem faultless_refill (idx : Nat) :
    Faultless codec (fun _ => True) (refill idx : Async Key Value (MergeState Key Value) Unit) := by
  apply Method.raises_bind (faultless_source idx)
  intro source _
  split
  · exact Method.raises_pure trivial
  · apply Method.raises_bind (faultless_reserve _)
    intro charge _
    apply Method.raises_bind (Method.raises_modify _)
    exact fun _ _ => Method.raises_modify _

variable [LinearOrder Key]

theorem faultless_takeNext (fits : Layout.Fits Key Value) :
    Faultless codec (fun _ => True) (takeNext : Async Key Value (MergeState Key Value) _) := by
  apply Method.raises_bind Method.raises_get
  intro merge _
  split
  · exact Method.raises_pure trivial
  · apply Method.raises_bind (Method.raises_modify _)
    intro _ _
    apply Method.raises_bind (faultless_source _)
    intro source _
    apply Method.raises_bind (Method.raises_modify _)
    intro _ _
    apply Method.raises_bind (Method.raises_within (faultless_takeHead fits))
    intro row _
    apply Method.raises_bind (faultless_refill _)
    exact fun _ _ => Method.raises_pure trivial

theorem faultless_nextRow (fits : Layout.Fits Key Value) :
    Faultless codec (fun _ => True) (nextRow : Async Key Value (MergeState Key Value) _) := by
  apply Method.raises_bind Method.raises_get
  intro merge _
  generalize merge.rowsLeft + 1 = turns
  induction turns with
  | zero => exact Method.raises_throw fun _ => nofun
  | succ turns inductionHypothesis =>
      apply Method.raises_bind (faultless_takeNext fits)
      rintro (_ | row) _
      · exact Method.raises_pure trivial
      · apply Method.raises_bind Method.raises_get
        intro merge _
        apply Method.raises_ite
        · intro _
          apply Method.raises_bind Method.raises_get
          intro merge _
          apply Method.raises_ite fun _ => inductionHypothesis
          intro _
          apply Method.raises_bind (faultless_reserve _)
          intro charge _
          apply Method.raises_bind (Method.raises_modify _)
          exact fun _ _ => Method.raises_pure trivial
        · exact fun _ => Method.raises_pure trivial

end MergeState

end SortGovernor.Engine
