import SortGovernor.Runtime.Sorts

/-!
# The discipline of a sort

While a sort works it performs ordinary operations on its own directory, under
its own scope.  Only after its scope was idle does it remove the directory, and
from then on it does nothing else.  Every engine function of a sort follows
this discipline from every state a sort can be in.
-/

namespace SortGovernor.Runtime

open SortGovernor.Engine SortGovernor.Resumption

/-- How far a sort has come: its scope has just been idle, or the removal of its
directory has been issued. -/
inductive Stage where
  | working
  | quiet
  | removing
  deriving DecidableEq, Repr

variable {Key Value : Type}

namespace Stage

def during : Request Key Value → Stage → Stage
  | .perform .., .quiet => .removing
  | _, stage => stage

def after : Request Key Value → Stage → Stage
  | .idle _, _ => .quiet
  | op, stage => stage.during op

end Stage

def IsRemoval : FsJob → Prop
  | .removeDirAll _ => True
  | _ => False

theorem IsRemoval.eq {job : FsJob} (removal : IsRemoval job) : job = .removeDirAll job.dir := by
  cases job with
  | removeDirAll dir => rfl
  | _ => exact removal.elim

def Allowed (sort : Nat) : Stage → Request Key Value → Prop
  | stage, .perform io _ job => io = sort ∧ job.dir = sort ∧
      (stage = .working ∧ ¬IsRemoval job ∨ stage = .quiet ∧ IsRemoval job)
  | stage, .direct job => stage = .working ∧ ∃ file, job = .removeIfExists ⟨sort, file⟩
  | _, .idle io => io = sort
  | _, .replay _ => False
  | _, _ => True

/-- Any reply, tracking the stage alone. -/
def discipline (Key Value : Type) : Semantics (engine Key Value) Stage where
  reply op stage _ next := next = stage.after op
  drop _ _ _ := False

section Works

variable {State Inner Result Result' : Type} {sort : Nat} {good : State → Prop}
  {result : Result → Prop} {result' : Result' → Prop}

/-- From every good state a method of a working sort issues allowed requests in
good states, and ends in a good state of a working sort. -/
def Works (sort : Nat) (good : State → Prop) (result : Result → Prop)
    (method : Async Key Value State Result) : Prop :=
  ∀ state, good state →
    method.wp (discipline Key Value)
      (fun state op stage => stage = .working ∧ Allowed sort stage op ∧ good state)
      (fun value state stage => stage = .working ∧ good state ∧ result value)
      (fun _ state stage => stage = .working ∧ good state) state .working

theorem works_pure {value : Result} (known : result value) :
    Works sort good result (pure value : Async Key Value State Result) :=
  fun _ holds => ⟨rfl, holds, known⟩

theorem works_throw {abort : Abort} :
    Works sort good result (throw abort : Async Key Value State Result) :=
  fun _ holds => ⟨rfl, holds⟩

theorem works_bind {method : Async Key Value State Result}
    {next : Result → Async Key Value State Result'} (first : Works sort good result method)
    (rest : ∀ value, result value → Works sort good result' (next value)) :
    Works sort good result' (method >>= next) := by
  intro state holds
  rw [Method.wp_bind]
  apply Method.wp_post (first state holds)
  · rintro value state _ ⟨rfl, holds', known⟩
    exact rest value known state holds'
  · exact fun _ _ _ failed => failed

theorem works_get : Works sort good good (get : Async Key Value State State) :=
  fun _ holds => ⟨rfl, holds, holds⟩

theorem works_modify {f : State → State} (keeps : ∀ state, good state → good (f state)) :
    Works sort good (fun _ => True) (modify f : Async Key Value State PUnit) :=
  fun state holds => ⟨rfl, keeps state holds, trivial⟩

theorem works_set {state' : State} (holds : good state') :
    Works sort good (fun _ => True) (set state' : Async Key Value State PUnit) :=
  fun _ _ => ⟨rfl, holds, trivial⟩

theorem works_ite {condition : Prop} [Decidable condition]
    {first second : Async Key Value State Result}
    (onTrue : condition → Works sort good result first)
    (onFalse : ¬condition → Works sort good result second) :
    Works sort good result (if condition then first else second) := by
  split
  · exact onTrue ‹_›
  · exact onFalse ‹_›

theorem works_ofExcept {value : Except Abort Result}
    (known : ∀ done, value = .ok done → result done) :
    Works sort good result (Method.ofExcept value : Async Key Value State Result) := by
  cases value with
  | error error => exact works_throw
  | ok done => exact works_pure (known done rfl)

theorem works_propagate {value : Except SorterError Result} :
    Works sort good (fun _ => True) (propagate value : Async Key Value State Result) :=
  works_ofExcept fun _ _ => trivial

theorem works_orError {value : Option Result} {error : SorterError} :
    Works sort good (fun _ => True) (orError value error : Async Key Value State Result) := by
  cases value with
  | none => exact works_throw
  | some done => exact works_pure trivial

theorem works_within {goodInner : Inner → Prop} {inner : Inner} {put : Inner → State → State}
    {method : Async Key Value Inner Result} (works : Works sort goodInner result method)
    (holds : goodInner inner) (keeps : ∀ inner state, goodInner inner → good state →
      good (put inner state)) :
    Works sort good result (Method.within inner put method) := by
  intro state holdsState
  rw [Method.wp_within]
  apply Method.wp_mono (works inner holds)
  · rintro inner op stage ⟨working, allowed, holdsInner⟩
    exact ⟨working, allowed, keeps inner state holdsInner holdsState⟩
  · rintro value inner stage ⟨working, holdsInner, known⟩
    exact ⟨working, keeps inner state holdsInner holdsState, known⟩
  · rintro abort inner stage ⟨working, holdsInner⟩
    exact ⟨working, keeps inner state holdsInner holdsState⟩

theorem works_call {goodInner : Inner → Prop} {inner : Inner}
    {method : Async Key Value Inner Result} (works : Works sort goodInner result method)
    (holds : goodInner inner) :
    Works sort good (fun value => result value.1 ∧ goodInner value.2)
      (Method.call inner method : Async Key Value State (Result × Inner)) := by
  intro state holdsState
  rw [Method.wp_call]
  apply Method.wp_mono (works inner holds)
  · rintro inner op stage ⟨working, allowed, -⟩
    exact ⟨working, allowed, holdsState⟩
  · rintro value inner stage ⟨working, holdsInner, known⟩
    exact ⟨working, holdsState, known, holdsInner⟩
  · rintro abort inner stage ⟨working, -⟩
    exact ⟨working, holdsState⟩

theorem works_ask {op : Request Key Value} (allowed : Allowed sort .working op)
    (stays : Stage.working.after op = .working) :
    Works sort good (fun _ => True) (ask op : Async Key Value State op.Reply) := by
  intro state holds
  refine ⟨⟨rfl, allowed, holds⟩, ?_⟩
  rintro reply _ rfl
  exact ⟨stays, holds, trivial⟩

end Works

section Operations

variable {State : Type} {sort : Nat} {good : State → Prop}

theorem works_budgetLimit :
    Works sort good (fun _ => True) (budgetLimit : Async Key Value State Nat) :=
  works_ask trivial rfl

theorem works_reserve {bytes : Nat} :
    Works sort good (fun _ => True) (reserve bytes : Async Key Value State MemoryCharge) :=
  works_bind (works_ask trivial rfl) fun _ _ => works_propagate

theorem works_reserveFrame {bytes : Nat} :
    Works sort good (fun _ => True)
      (Engine.reserveFrame bytes : Async Key Value State MemoryCharge) :=
  works_bind works_orError fun _ _ => works_reserve

theorem works_perform [Layout Key Value] {io : ScopeId} {pathBytes : Nat}
    {held : List MemoryCharge} (job : FsJob) (own : io = sort) (inside : job.dir = sort)
    (ordinary : ¬IsRemoval job) :
    Works sort good (fun _ => True)
      (perform io pathBytes held job : Async Key Value State job.Value) := by
  refine works_bind works_orError fun bytes _ => ?_
  refine works_bind works_reserve fun metadata _ => ?_
  refine works_bind (works_ask ⟨own, inside, .inl ⟨rfl, ordinary⟩⟩ rfl) fun _ _ => ?_
  exact works_propagate

theorem works_removeIfExists {path : ScratchPath} (inside : path.dir = sort) :
    Works sort good (fun _ => True)
      (awaitDirect (.removeIfExists path) : Async Key Value State Unit) := by
  subst inside
  exact works_bind (works_ask ⟨rfl, path.file, rfl⟩ rfl) fun _ _ => works_propagate

theorem works_encode {row : RunRow Key Value} :
    Works sort good (fun _ => True)
      (encode row : Async Key Value State (List UInt8 × MemoryCharge)) := by
  refine works_bind works_budgetLimit fun limit _ => ?_
  refine works_bind (works_ask trivial rfl) fun sizing _ => ?_
  refine works_bind works_propagate fun count _ => ?_
  refine works_bind works_reserveFrame fun charge _ => ?_
  refine works_bind (works_ask trivial rfl) fun encoding _ => ?_
  refine works_bind works_propagate fun writer _ => ?_
  exact works_ite (fun _ => works_throw) fun _ => works_pure trivial

end Operations

section RunFiles

variable {State : Type} {sort : Nat} {good : State → Prop} [Layout Key Value]

def WriterOf (sort : Nat) (writer : RunWriter) : Prop :=
  writer.io = sort ∧ writer.path.dir = sort

def ReaderOf (sort : Nat) (reader : RunReader) : Prop :=
  reader.io = sort ∧ reader.path.dir = sort

theorem works_create {path : ScratchPath} (inside : path.dir = sort) :
    Works sort good (WriterOf sort)
      (RunWriter.create path sort : Async Key Value State RunWriter) := by
  refine works_bind (works_perform (.create path) rfl inside id) fun _ _ => ?_
  exact works_pure ⟨rfl, inside⟩

theorem works_writeRow {writer : RunWriter} (owned : WriterOf sort writer)
    {row : RunRow Key Value} :
    Works sort good (WriterOf sort)
      (writer.writeRow row : Async Key Value State RunWriter) := by
  refine works_bind works_encode fun encoded _ => ?_
  refine works_bind works_orError fun len _ => ?_
  refine works_bind works_orError fun weight _ => ?_
  refine works_bind (works_perform (.append ..) owned.1 owned.2 id) fun _ _ => ?_
  refine works_bind works_orError fun count _ => ?_
  exact works_pure owned

theorem works_finish {writer : RunWriter} (owned : WriterOf sort writer) :
    Works sort good (fun path => path.dir = sort)
      (writer.finish : Async Key Value State ScratchPath) := by
  refine works_bind (works_perform (.patch ..) owned.1 owned.2 id) fun _ _ => ?_
  exact works_pure owned.2

theorem works_openReader {path : ScratchPath} (inside : path.dir = sort) :
    Works sort good (ReaderOf sort)
      (RunReader.open path sort : Async Key Value State RunReader) := by
  refine works_bind (works_perform (.readCount path) rfl inside id) fun remaining _ => ?_
  exact works_pure ⟨rfl, inside⟩

theorem works_nextRow :
    Works sort (ReaderOf sort) (fun _ => True)
      (RunReader.nextRow : Async Key Value RunReader (Option (RunRow Key Value))) := by
  refine works_bind works_get fun reader owned => ?_
  refine works_ite (fun _ => works_pure trivial) fun _ => ?_
  refine works_bind (works_perform (.readFrame ..) owned.1 owned.2 id) fun frame _ => ?_
  refine works_bind (works_ask trivial rfl) fun decoded _ => ?_
  refine works_bind works_propagate fun row _ => ?_
  obtain ⟨key, value, ordinal⟩ := row
  refine works_bind works_orError fun len _ => ?_
  refine works_bind works_orError fun offset _ => ?_
  refine works_bind (works_modify fun reader owned => ?_) fun _ _ => ?_
  · exact owned
  refine works_bind (works_modify fun reader owned => ?_) fun _ _ => ?_
  · exact owned
  exact works_pure trivial

end RunFiles

section Merges

variable {State : Type} {sort : Nat} {good : State → Prop} [LinearOrder Key] [Layout Key Value]

def MergeOf (sort : Nat) (state : MergeState Key Value) : Prop :=
  ∀ source ∈ state.sources, ReaderOf sort source.reader

omit [LinearOrder Key] in
theorem works_openSource {path : ScratchPath} (inside : path.dir = sort) :
    Works sort good (fun source => ∀ opened, source = some opened → ReaderOf sort opened.reader)
      (MergeSource.open path sort : Async Key Value State (Option (MergeSource Key Value))) := by
  refine works_bind (works_openReader inside) fun reader owned => ?_
  refine works_bind (works_call works_nextRow owned) fun first known => ?_
  obtain ⟨first, reader⟩ := first
  cases first with
  | none => exact works_pure nofun
  | some head =>
      apply works_pure
      rintro _ ⟨⟩
      exact known.2

omit [LinearOrder Key] in
theorem works_takeHead :
    Works sort (fun source => ReaderOf sort source.reader) (fun _ => True)
      (MergeSource.takeHead : Async Key Value (MergeSource Key Value) (RunRow Key Value)) := by
  refine works_bind works_get fun source _ => ?_
  cases source.head with
  | none => exact works_throw
  | some row =>
      refine works_bind (works_modify fun source owned => owned) fun _ _ => ?_
      refine works_bind works_get fun source owned => ?_
      refine works_bind (works_within works_nextRow owned fun reader source owned _ => owned)
        fun next _ => ?_
      refine works_bind (works_modify fun source owned => owned) fun _ _ => ?_
      exact works_pure trivial

omit [LinearOrder Key] in
theorem works_new {capacity : Nat} {dedup : Bool} :
    Works sort good (MergeOf sort)
      (MergeState.new capacity dedup : Async Key Value State (MergeState Key Value)) := by
  refine works_bind works_orError fun sourceBytes _ => ?_
  refine works_bind works_orError fun heapBytes _ => ?_
  refine works_bind works_orError fun bytes _ => ?_
  refine works_bind works_reserve fun arrays _ => ?_
  exact works_pure fun _ member => absurd member List.not_mem_nil

omit [LinearOrder Key] [Layout Key Value] in
theorem MergeOf.push {state : MergeState Key Value} (merges : MergeOf sort state)
    {source : MergeSource Key Value} (owned : ReaderOf sort source.reader) :
    ∀ other ∈ state.sources ++ [source], ReaderOf sort other.reader := by
  intro other member
  rcases List.mem_append.mp member with known | last
  · exact merges other known
  · rw [List.mem_singleton.mp last]
    exact owned

omit [LinearOrder Key] [Layout Key Value] in
theorem works_pushSource {state : MergeState Key Value} (merges : MergeOf sort state)
    {source : MergeSource Key Value} (owned : ReaderOf sort source.reader) :
    Works sort good (MergeOf sort)
      (state.pushSource source : Async Key Value State (MergeState Key Value)) := by
  unfold MergeState.pushSource
  cases source.head with
  | none => exact works_pure (merges.push owned)
  | some head =>
      refine works_bind works_reserve fun charge _ => works_pure (merges.push ?_)
      exact owned

omit [LinearOrder Key] in
theorem works_openSources {paths : List ScratchPath} (inside : ∀ path ∈ paths, path.dir = sort)
    {state : MergeState Key Value} (merges : MergeOf sort state) :
    Works sort good (MergeOf sort)
      (MergeState.openSources sort paths state :
        Async Key Value State (MergeState Key Value)) := by
  induction paths generalizing state with
  | nil => exact works_pure merges
  | cons path paths inductionHypothesis =>
      have rest := fun path member => inside path (List.mem_cons_of_mem _ member)
      refine works_bind (works_openSource (inside path List.mem_cons_self)) fun source owned => ?_
      cases source with
      | none => exact inductionHypothesis rest merges
      | some source =>
          refine works_bind (works_pushSource merges (owned source rfl)) fun state merges => ?_
          exact inductionHypothesis rest merges

omit [LinearOrder Key] in
theorem works_open {paths : List ScratchPath} (inside : ∀ path ∈ paths, path.dir = sort)
    {dedup : Bool} :
    Works sort good (MergeOf sort)
      (MergeState.open paths dedup sort : Async Key Value State (MergeState Key Value)) :=
  works_bind works_new fun _ merges => works_openSources inside merges

omit [LinearOrder Key] [Layout Key Value] in
theorem MergeOf.setSource {state : MergeState Key Value} (merges : MergeOf sort state) (idx : Nat)
    {source : MergeSource Key Value} (owned : ReaderOf sort source.reader) :
    MergeOf sort (state.setSource idx source) := by
  intro other member
  rcases List.mem_or_eq_of_mem_set member with known | rfl
  · exact merges other known
  · exact owned

omit [LinearOrder Key] [Layout Key Value] in
theorem works_source {idx : Nat} :
    Works sort (MergeOf sort) (fun source => ReaderOf sort source.reader)
      (MergeState.source idx :
        Async Key Value (MergeState Key Value) (MergeSource Key Value)) := by
  refine works_bind works_get fun state merges => ?_
  cases found : state.sources[idx]? with
  | none => exact works_throw
  | some source => exact works_pure (merges source (List.mem_of_getElem? found))

omit [LinearOrder Key] [Layout Key Value] in
theorem works_refill {idx : Nat} :
    Works sort (MergeOf sort) (fun _ => True)
      (MergeState.refill idx : Async Key Value (MergeState Key Value) Unit) := by
  refine works_bind works_source fun source owned => ?_
  cases source.head with
  | none => exact works_pure trivial
  | some head =>
      refine works_bind works_reserve fun charge _ => ?_
      refine works_bind (works_modify fun state merges => merges.setSource idx ?_) fun _ _ => ?_
      · exact owned
      · exact works_modify fun state merges => merges

theorem works_takeNext :
    Works sort (MergeOf sort) (fun _ => True)
      (MergeState.takeNext : Async Key Value (MergeState Key Value)
        (Option (RunRow Key Value))) := by
  refine works_bind works_get fun state _ => ?_
  cases Sorting.popMin HeapEntry.rank state.heap with
  | none => exact works_pure trivial
  | some popped =>
      obtain ⟨entry, heap⟩ := popped
      refine works_bind (works_modify fun state merges => merges) fun _ _ => ?_
      refine works_bind works_source fun source owned => ?_
      refine works_bind (works_modify fun state merges => merges.setSource entry.idx ?_)
        fun _ _ => ?_
      · exact owned
      · refine works_bind (works_within works_takeHead owned
          fun source state owned merges => merges.setSource entry.idx owned) fun row _ => ?_
        refine works_bind works_refill fun _ _ => ?_
        exact works_pure trivial

theorem works_nextRowLoop (turns : Nat) :
    Works sort (MergeOf sort) (fun _ => True)
      (MergeState.nextRowLoop turns :
        Async Key Value (MergeState Key Value) (Option (RunRow Key Value))) := by
  induction turns with
  | zero => exact works_throw
  | succ turns inductionHypothesis =>
      refine works_bind works_takeNext fun row _ => ?_
      cases row with
      | none => exact works_pure trivial
      | some row =>
          refine works_bind works_get fun state _ => ?_
          refine works_ite (fun _ => ?_) fun _ => works_pure trivial
          refine works_bind works_get fun state _ => ?_
          refine works_ite (fun _ => inductionHypothesis) fun _ => ?_
          refine works_bind works_reserve fun charge _ => ?_
          refine works_bind (works_modify fun state merges => merges) fun _ _ => ?_
          exact works_pure trivial

theorem works_mergeRow :
    Works sort (MergeOf sort) (fun _ => True)
      (MergeState.nextRow : Async Key Value (MergeState Key Value) (Option (RunRow Key Value))) :=
  works_bind works_get fun _ _ => works_nextRowLoop _

theorem works_drainInto (turns : Nat) {state : MergeState Key Value}
    (merges : MergeOf sort state) {writer : RunWriter} (owned : WriterOf sort writer) :
    Works sort good (WriterOf sort)
      (drainInto turns state writer : Async Key Value State RunWriter) := by
  induction turns generalizing state writer with
  | zero => exact works_throw
  | succ turns inductionHypothesis =>
      refine works_bind (works_call works_mergeRow merges) fun taken known => ?_
      obtain ⟨row, state⟩ := taken
      cases row with
      | none => exact works_pure owned
      | some row =>
          refine works_bind (works_writeRow owned) fun writer owned => ?_
          exact inductionHypothesis known.2 owned

omit [LinearOrder Key] [Layout Key Value] in
theorem works_removeInputs {paths : List ScratchPath} (inside : ∀ path ∈ paths, path.dir = sort) :
    Works sort good (fun _ => True) (removeInputs paths : Async Key Value State Unit) := by
  induction paths with
  | nil => exact works_pure trivial
  | cons path paths inductionHypothesis =>
      refine works_bind (works_removeIfExists (inside path List.mem_cons_self)) fun _ _ => ?_
      exact inductionHypothesis fun path member => inside path (List.mem_cons_of_mem _ member)

theorem works_mergeGroupToFile {paths : List ScratchPath} (inside : ∀ path ∈ paths, path.dir = sort)
    {out : ScratchPath} (into : out.dir = sort) {dedup : Bool} :
    Works sort good (fun path => path.dir = sort)
      (mergeGroupToFile paths out dedup sort : Async Key Value State ScratchPath) := by
  refine works_bind (works_open inside) fun state merges => ?_
  refine works_bind (works_create into) fun writer owned => ?_
  refine works_bind (works_drainInto _ merges owned) fun writer owned => ?_
  refine works_bind (works_finish owned) fun merged known => ?_
  refine works_bind (works_removeInputs inside) fun _ _ => ?_
  exact works_pure known

theorem works_mergeGroup {paths : List ScratchPath} (inside : ∀ path ∈ paths, path.dir = sort)
    (pass group : Nat) :
    Works sort good (fun path => path.dir = sort)
      (mergeGroup sort sort pass group paths : Async Key Value State ScratchPath) := by
  unfold mergeGroup
  split
  · exact works_pure (inside _ List.mem_cons_self)
  · exact works_mergeGroupToFile inside rfl

theorem works_mergeGroups {groups : List (List ScratchPath)}
    (inside : ∀ paths ∈ groups, ∀ path ∈ paths, path.dir = sort) (pass group : Nat) :
    Works sort good (fun paths => ∀ path ∈ paths, path.dir = sort)
      (mergeGroups sort sort pass group groups : Async Key Value State (List ScratchPath)) := by
  induction groups generalizing group with
  | nil => exact works_pure fun _ member => absurd member List.not_mem_nil
  | cons paths groups inductionHypothesis =>
      refine works_bind (works_mergeGroup (inside paths List.mem_cons_self) pass group)
        fun merged known => ?_
      refine works_bind (inductionHypothesis
        (fun paths member => inside paths (List.mem_cons_of_mem _ member)) (group + 1))
        fun next rest => ?_
      apply works_pure
      intro path member
      rcases List.mem_cons.mp member with rfl | later
      · exact known
      · exact rest path later

theorem mem_of_mem_chunks {Item : Type} {size : Nat} {items chunk : List Item} {item : Item}
    (member : chunk ∈ chunks size items) (inside : item ∈ chunk) : item ∈ items := by
  have each : ∀ fuel items, chunk ∈ chunks.go size fuel items → item ∈ items := by
    intro fuel
    induction fuel with
    | zero => exact nofun
    | succ fuel inductionHypothesis =>
        intro items member
        cases items with
        | nil => exact nomatch member
        | cons first rest =>
            rcases List.mem_cons.mp member with rfl | later
            · exact List.mem_of_mem_take inside
            · exact List.mem_of_mem_drop (inductionHypothesis _ later)
  exact each items.length items member

theorem works_cascade (turns : Nat) {fanIn pass : Nat} {runs : List ScratchPath}
    (inside : ∀ path ∈ runs, path.dir = sort) :
    Works sort good (fun paths => ∀ path ∈ paths, path.dir = sort)
      (cascade sort sort fanIn turns pass runs : Async Key Value State (List ScratchPath)) := by
  induction turns generalizing pass runs with
  | zero => exact works_throw
  | succ turns inductionHypothesis =>
      refine works_ite (fun _ => ?_) fun _ => works_pure inside
      have groups : ∀ paths ∈ chunks fanIn runs, ∀ path ∈ paths, path.dir = sort :=
        fun paths chunk path member => inside path (mem_of_mem_chunks chunk member)
      refine works_bind (works_mergeGroups groups pass 0) fun merged known => ?_
      exact inductionHypothesis known

end Merges

def GuardOf (sort : Nat) (guard : AsyncCleanupGuard) : Prop :=
  guard.scope = sort ∧ (guard.dir = none ∨ guard.dir = some sort ∧ guard.fds = some .shared)

/-- A session that works on its own directory under its own scope. -/
structure SessionOf (sort : Nat) (session : SortSession Key Value) : Prop where
  dir : session.dir = sort
  scope : session.cleanup.scope = sort
  fds : session.cleanup.fds = some .shared
  armed : session.cleanup.dir = none ∨ session.cleanup.dir = some sort
  spills : ∀ path, some path ∈ session.spills → path.dir = sort

theorem SessionOf.guard {sort : Nat} {session : SortSession Key Value}
    (owned : SessionOf sort session) : GuardOf sort session.cleanup :=
  ⟨owned.scope, owned.armed.imp_right fun armed => ⟨armed, owned.fds⟩⟩

section Sessions

variable {sort : Nat} [Layout Key Value]

omit [Layout Key Value] in
theorem works_ensureUsable :
    Works sort (SessionOf sort) (fun _ => True)
      (SortSession.ensureUsable : Async Key Value (SortSession Key Value) Unit) := by
  refine works_bind works_get fun session _ => ?_
  exact works_ite (fun _ => works_throw) fun _ => works_pure trivial

theorem works_reserveMetadata :
    Works sort (SessionOf sort) (fun _ => True)
      (SortSession.reserveMetadata : Async Key Value (SortSession Key Value) Unit) := by
  refine works_bind works_get fun session owned => ?_
  refine works_ite (fun _ => works_pure trivial) fun _ => ?_
  refine works_bind works_orError fun pathBytes _ => ?_
  refine works_bind works_orError fun bytes _ => ?_
  refine works_bind works_reserve fun charge _ => ?_
  have retained : Works sort (SessionOf sort)
      (fun cleanup => cleanup.scope = sort ∧ cleanup.fds = some .shared ∧
        (cleanup.dir = none ∨ cleanup.dir = some sort))
      (Method.ofExcept (session.cleanup.retain charge) :
        Async Key Value (SortSession Key Value) AsyncCleanupGuard) := by
    refine works_ofExcept fun cleanup kept => ?_
    unfold AsyncCleanupGuard.retain at kept
    split at kept
    · cases kept
    · cases kept
      exact ⟨owned.scope, owned.fds, owned.armed⟩
  refine works_bind retained fun cleanup kept => ?_
  refine works_bind (works_modify fun session owned => ?_) fun _ _ => ?_
  · exact { owned with scope := kept.1, fds := kept.2.1, armed := kept.2.2 }
  · exact works_modify fun session owned => { owned with }

omit [Layout Key Value] in
theorem works_bufferLimit :
    Works sort (SessionOf sort) (fun _ => True)
      (SortSession.bufferLimit : Async Key Value (SortSession Key Value) Nat) := by
  refine works_bind works_budgetLimit fun limit _ => ?_
  refine works_bind works_get fun session _ => ?_
  cases session.plan with
  | inMemory => exact works_pure trivial
  | external runBufferBytes maxFanIn => exact works_pure trivial

theorem works_growBuffer :
    Works sort (SessionOf sort) (fun _ => True)
      (SortSession.growBuffer : Async Key Value (SortSession Key Value) Unit) := by
  refine works_bind works_get fun session _ => ?_
  refine works_ite (fun _ => works_pure trivial) fun _ => ?_
  refine works_bind works_orError fun capacity _ => ?_
  refine works_bind works_orError fun bytes _ => ?_
  refine works_bind works_reserve fun charge _ => ?_
  exact works_modify fun session owned => { owned with }

theorem works_writeRows (rows : List (RunRow Key Value)) {writer : RunWriter}
    (owned : WriterOf sort writer) :
    Works sort (SessionOf sort) (WriterOf sort)
      (SortSession.writeRows rows writer :
        Async Key Value (SortSession Key Value) RunWriter) := by
  induction rows generalizing writer with
  | nil => exact works_pure owned
  | cons row rows inductionHypothesis =>
      refine works_bind (works_writeRow owned) fun writer owned => ?_
      exact inductionHypothesis owned

variable [LinearOrder Key]

theorem works_carry (ordinal level : Nat) {before slots : List (Option ScratchPath)}
    (inside : ∀ path, some path ∈ before ++ slots → path.dir = sort) {run : ScratchPath}
    (into : run.dir = sort) :
    Works sort (SessionOf sort) (fun _ => True)
      (SortSession.carry ordinal level before slots run :
        Async Key Value (SortSession Key Value) Unit) := by
  induction slots generalizing level before run with
  | nil => exact works_throw
  | cons slot after inductionHypothesis =>
      have rest : ∀ slot' path, (∀ path, slot' = some path → path.dir = sort) →
          some path ∈ before ++ slot' :: after → path.dir = sort := by
        intro slot' path known member
        rcases List.mem_append.mp member with earlier | later
        · exact inside path (List.mem_append_left _ earlier)
        · rcases List.mem_cons.mp later with same | later
          · exact known path same.symm
          · exact inside path (List.mem_append_right _ (List.mem_cons_of_mem _ later))
      cases slot with
      | none =>
          refine works_bind (works_modify fun session owned => ?_) fun _ _ => ?_
          · exact { owned with
              spills := fun path => rest (some run) path (by rintro _ ⟨⟩; exact into) }
          · exact works_modify fun session owned => { owned with }
      | some older =>
          refine works_bind (works_modify fun session owned => ?_) fun _ _ => ?_
          · exact { owned with spills := fun path => rest none path nofun }
          · refine works_bind works_get fun session owned => ?_
            have inputs : ∀ path ∈ [older, run], path.dir = sort := by
              simp only [List.mem_cons, List.not_mem_nil, or_false, forall_eq_or_imp, forall_eq]
              exact ⟨inside older (by simp), into⟩
            rw [owned.scope]
            refine works_bind (works_mergeGroupToFile inputs owned.dir) fun run into => ?_
            refine inductionHypothesis (level + 1) (fun path member => ?_) into
            apply rest none path nofun
            simpa using member

theorem works_spill :
    Works sort (SessionOf sort) (fun _ => True)
      (SortSession.spill : Async Key Value (SortSession Key Value) Unit) := by
  refine works_bind works_get fun session _ => ?_
  refine works_ite (fun _ => works_pure trivial) fun _ => ?_
  refine works_bind (works_modify fun session owned => ?_) fun _ _ => ?_
  · exact { owned with }
  refine works_bind works_get fun session _ => ?_
  refine works_bind works_orError fun nextRun _ => ?_
  refine works_bind (works_modify fun session owned => ?_) fun _ _ => ?_
  · exact { owned with }
  refine works_bind (works_modify fun session owned => ?_) fun _ _ => ?_
  · exact { owned with }
  refine works_bind (works_modify fun session owned => ?_) fun _ _ => ?_
  · refine { owned with scope := owned.scope, fds := owned.fds, armed := .inr ?_ }
    rcases owned.armed with none | armed
    · simp [AsyncCleanupGuard.arm, none, owned.dir]
    · simp [AsyncCleanupGuard.arm, armed]
  refine works_bind works_get fun session owned => ?_
  rw [owned.scope]
  refine works_bind (works_perform (.ensureDir _) rfl owned.dir id) fun _ _ => ?_
  refine works_bind (works_create owned.dir) fun writer created => ?_
  refine works_bind (works_writeRows _ created) fun writer written => ?_
  refine works_bind (works_finish written) fun run into => ?_
  refine works_bind (works_modify fun session owned => ?_) fun _ _ => ?_
  · exact { owned with }
  refine works_bind works_get fun session owned => ?_
  exact works_carry _ 0 (by simpa using owned.spills) into

omit [LinearOrder Key] [Layout Key Value] in
theorem works_overflowsBuffer {bytes : Nat} :
    Works sort (SessionOf sort) (fun _ => True)
      (SortSession.overflowsBuffer bytes : Async Key Value (SortSession Key Value) Bool) := by
  refine works_bind works_get fun session _ => ?_
  refine works_ite (fun _ => works_pure trivial) fun _ => ?_
  cases checkedAdd usizeMax session.bufferBytes bytes with
  | none => exact works_pure trivial
  | some sum => exact works_bind works_bufferLimit fun limit _ => works_pure trivial

omit [LinearOrder Key] [Layout Key Value] in
theorem works_storeRow {key : Key} {value : Value} {bytes : Nat} {charge : MemoryCharge} :
    Works sort (SessionOf sort) (fun _ => True)
      (SortSession.storeRow key value bytes charge :
        Async Key Value (SortSession Key Value) Unit) := by
  refine works_bind works_get fun session _ => ?_
  refine works_bind works_orError fun nextRow _ => ?_
  refine works_bind (works_modify fun session owned => ?_) fun _ _ => ?_
  · exact { owned with }
  refine works_bind (works_modify fun session owned => ?_) fun _ _ => ?_
  · exact { owned with }
  refine works_bind works_get fun session _ => ?_
  refine works_bind works_orError fun bufferBytes _ => ?_
  exact works_modify fun session owned => { owned with }

theorem works_pushWithSize (key : Key) (value : Value) (bytes : UInt64) :
    Works sort (SessionOf sort) (fun _ => True)
      (SortSession.pushWithSize key value bytes :
        Async Key Value (SortSession Key Value) Unit) := by
  refine works_bind works_ensureUsable fun _ _ => ?_
  refine works_bind works_reserveMetadata fun _ _ => ?_
  refine works_bind works_reserve fun charge _ => ?_
  refine works_bind works_overflowsBuffer fun overflows _ => ?_
  refine works_bind (works_ite (fun _ => works_spill) fun _ => works_pure trivial) fun _ _ => ?_
  refine works_bind works_growBuffer fun _ _ => ?_
  refine works_bind works_storeRow fun _ _ => ?_
  refine works_bind works_get fun session _ => ?_
  refine works_bind works_bufferLimit fun limit _ => ?_
  exact works_ite (fun _ => works_spill) fun _ => works_pure trivial

end Sessions

end SortGovernor.Runtime
