import SortGovernor.Engine.Coverage
import SortGovernor.Engine.MergeOutput

/-!
# Charges of a merge

A merge is charged for its two vectors when it is opened and never outgrows them.
Its heads carry their own charges, and each key in its heap is charged at its
source, for as long as the entry stays in the heap.
-/

namespace SortGovernor.Engine

open SortGovernor.Resumption SortGovernor.Sorting

variable {Key Value State : Type} [Layout Key Value]

/-- The key is that of the head of a source, which is charged for it. -/
def MergeSource.Keyed (key : Key) (source : MergeSource Key Value) : Prop :=
  ∃ head charge, source.head = some head ∧ head.key = key ∧ source.keyCharge = some charge ∧
    charge.bytes = head.retainedBytes

def MergeSource.IsCovered (source : MergeSource Key Value) : Prop :=
  ∀ head, source.head = some head → head.IsCovered

/-- A merge opened for `capacity` sources that emitted `last` most recently. -/
structure MergeState.Covered (capacity : Nat) (last : Option (RunRow Key Value))
    (merge : MergeState Key Value) : Prop where
  heads : ∀ source ∈ merge.sources, source.IsCovered
  keys : ∀ entry ∈ merge.heap, ∃ source,
    merge.sources[entry.idx]? = some source ∧ source.Keyed entry.key
  once : (merge.heap.map HeapEntry.idx).Nodup
  room : merge.sources.length ≤ capacity
  arrays : merge.arrays.bytes = capacity * Layout.sourceSize Key Value +
    capacity * Layout.heapEntrySize Key Value
  last : merge.dedup = true → merge.lastKey = last.map fun row => (row.key, ⟨row.retainedBytes⟩)

namespace MergeState

variable {capacity idx : Nat} {last : Option (RunRow Key Value)} {merge : MergeState Key Value}
  {source : MergeSource Key Value}

def Free (idx : Nat) (merge : MergeState Key Value) : Prop :=
  ∀ entry ∈ merge.heap, entry.idx ≠ idx

theorem Covered.inside (covered : merge.Covered capacity last) {entry : HeapEntry Key}
    (member : entry ∈ merge.heap) : entry.idx < merge.sources.length := by
  obtain ⟨source, found, -⟩ := covered.keys entry member
  exact (List.getElem?_eq_some_iff.mp found).1

theorem Covered.heap_length_le (covered : merge.Covered capacity last) :
    merge.heap.length ≤ capacity := by
  have inside : merge.heap.map HeapEntry.idx ⊆ List.range merge.sources.length := by
    intro idx named
    obtain ⟨entry, member, rfl⟩ := List.mem_map.mp named
    exact List.mem_range.mpr (covered.inside member)
  have fits := (List.subperm_of_subset covered.once inside).length_le
  rw [List.length_map, List.length_range] at fits
  exact fits.trans covered.room

theorem Covered.setSource (covered : merge.Covered capacity last) (free : merge.Free idx)
    (known : source.IsCovered) : (merge.setSource idx source).Covered capacity last where
  heads := by
    intro other member
    obtain member | rfl := List.mem_or_eq_of_mem_set member
    · exact covered.heads other member
    · exact known
  keys := by
    intro entry member
    obtain ⟨other, found, keyed⟩ := covered.keys entry member
    refine ⟨other, ?_, keyed⟩
    rw [MergeState.setSource, List.getElem?_set_ne (Ne.symm (free entry member))]
    exact found
  once := covered.once
  room := by
    rw [MergeState.setSource, List.length_set]
    exact covered.room
  arrays := covered.arrays
  last := covered.last

theorem Covered.push (covered : merge.Covered capacity last) (free : merge.Free idx) {key : Key}
    (found : merge.sources[idx]? = some source) (keyed : source.Keyed key) :
    Covered capacity last { merge with heap := { key, idx } :: merge.heap } where
  heads := covered.heads
  keys := by
    intro entry member
    obtain rfl | member := List.mem_cons.mp member
    · exact ⟨source, found, keyed⟩
    · exact covered.keys entry member
  once := by
    rw [List.map_cons, List.nodup_cons]
    refine ⟨?_, covered.once⟩
    intro member
    obtain ⟨entry, member, same⟩ := List.mem_map.mp member
    exact free entry member same
  room := covered.room
  arrays := covered.arrays
  last := covered.last

theorem Covered.append (covered : merge.Covered capacity last)
    (room : merge.sources.length < capacity) (known : source.IsCovered) :
    Covered capacity last { merge with sources := merge.sources ++ [source] } where
  heads := by
    intro other member
    obtain member | member := List.mem_append.mp member
    · exact covered.heads other member
    · rw [List.mem_singleton.mp member]
      exact known
  keys := by
    intro entry member
    obtain ⟨other, found, keyed⟩ := covered.keys entry member
    exact ⟨other, (List.getElem?_append_left (covered.inside member)).trans found, keyed⟩
  once := covered.once
  room := by
    rw [List.length_append, List.length_singleton]
    exact room
  arrays := covered.arrays
  last := covered.last

theorem Covered.pop [LinearOrder Key] (covered : merge.Covered capacity last)
    {entry : HeapEntry Key}
    {heap : List (HeapEntry Key)}
    (popped : popMin HeapEntry.rank merge.heap = some (entry, heap)) :
    Covered capacity last { merge with heap } ∧ Free entry.idx { merge with heap } := by
  have permutation := popMin_perm _ popped
  have once := (permutation.map HeapEntry.idx).nodup_iff.mp covered.once
  rw [List.map_cons, List.nodup_cons] at once
  constructor
  · refine { covered with keys := ?_, once := once.2 }
    intro other member
    exact covered.keys other (permutation.mem_iff.mpr (List.mem_cons_of_mem _ member))
  · intro other member same
    exact once.1 (List.mem_map.mpr ⟨other, member, same⟩)

end MergeState

section Opening

variable {good : State → Prop} {capacity : Nat} {last : Option (RunRow Key Value)}

theorem covers_openSource (path : ScratchPath) (io : ScopeId) :
    Covers good (fun opened : Option (MergeSource Key Value) => ∀ source, opened = some source →
      source.IsCovered) (MergeSource.open path io : Async Key Value State _) := by
  refine Method.gives_bind (covers_openRun path io) fun reader _ => ?_
  refine Method.gives_bind (Method.gives_call covers_nextRow trivial) ?_
  rintro ⟨first, reader⟩ ⟨-, known⟩
  cases first with
  | none => exact Method.gives_pure (by simp)
  | some row =>
      apply Method.gives_pure
      rintro _ ⟨⟩ _ ⟨⟩
      exact known row rfl

theorem covers_newMerge (capacity : Nat) (dedup : Bool) :
    Covers good (fun merge : MergeState Key Value => merge.sources = [] ∧
      merge.Covered capacity none) (MergeState.new capacity dedup : Async Key Value State _) := by
  refine Method.gives_bind covers_orError fun sourceBytes sources => ?_
  refine Method.gives_bind covers_orError fun heapBytes heap => ?_
  refine Method.gives_bind covers_orError fun bytes sum => ?_
  refine Method.gives_bind (covers_reserve bytes) fun arrays admitted => ?_
  obtain ⟨-, rfl⟩ := checkedMul_eq_some.mp sources
  obtain ⟨-, rfl⟩ := checkedMul_eq_some.mp heap
  obtain ⟨-, rfl⟩ := checkedAdd_eq_some.mp sum
  refine Method.gives_pure ⟨rfl, ?_⟩
  exact {
    heads := by simp
    keys := by simp
    once := List.nodup_nil
    room := Nat.zero_le _
    arrays := admitted
    last := fun _ => rfl }

theorem covers_pushSource {merge : MergeState Key Value} {source : MergeSource Key Value}
    (covered : merge.Covered capacity last) (room : merge.sources.length < capacity)
    (known : source.IsCovered) :
    Covers good (fun merge' : MergeState Key Value =>
        merge'.Covered capacity last ∧ merge'.sources.length = merge.sources.length + 1)
      (merge.pushSource source : Async Key Value State _) := by
  obtain ⟨_ | head, reader, keyCharge⟩ := source
  · refine Method.gives_pure ⟨covered.append room known, ?_⟩
    simp
  · refine Method.gives_bind (covers_reserve _) fun charge admitted => Method.gives_pure ⟨?_, ?_⟩
    · have appended : MergeState.Covered capacity last { merge with
          sources := merge.sources ++ [⟨some head, reader, some charge⟩] } :=
            covered.append room known
      refine appended.push ?_ (List.getElem?_concat_length ..)
        ⟨head, charge, rfl, rfl, rfl, admitted⟩
      exact fun entry member => Nat.ne_of_lt (covered.inside member)
    · simp

theorem covers_openSources (io : ScopeId) (paths : List ScratchPath) {merge : MergeState Key Value}
    (covered : merge.Covered capacity last)
    (room : merge.sources.length + paths.length ≤ capacity) :
    Covers good (fun merge' : MergeState Key Value => merge'.Covered capacity last)
      (MergeState.openSources io paths merge : Async Key Value State _) := by
  induction paths generalizing merge with
  | nil => exact Method.gives_pure covered
  | cons path paths inductionHypothesis =>
      rw [List.length_cons] at room
      refine Method.gives_bind (covers_openSource path io) fun opened known => ?_
      cases opened with
      | none => exact inductionHypothesis covered (by omega)
      | some source =>
          refine Method.gives_bind (covers_pushSource covered (by omega) (known source rfl)) ?_
          rintro merge' ⟨covered', grown⟩
          exact inductionHypothesis covered' (by omega)

theorem covers_openMerge (paths : List ScratchPath) (dedup : Bool) (io : ScopeId) :
    Covers good (fun merge : MergeState Key Value => merge.Covered paths.length none)
      (MergeState.open paths dedup io : Async Key Value State _) := by
  refine Method.gives_bind (covers_newMerge paths.length dedup) ?_
  rintro merge ⟨none, covered⟩
  apply covers_openSources io paths covered
  simp [none]

end Opening

/-- A merge as it is opened and polled again and again, where it returns and where
it waits, with the row it emitted last. -/
inductive MergeState.Arises [LinearOrder Key] (codec : Codec Key Value) (paths : List ScratchPath)
    (dedup : Bool) :
    MergeState Key Value → Option (RunRow Key Value) → Prop where
  | opened {io} {world world' : World} {merge} :
      Runs (sessionSemantics codec)
        ((MergeState.open paths dedup io : Async Key Value Unit (MergeState Key Value)) ()) world
        (.returned (.ok merge, ())) world' →
      Arises codec paths dedup merge none
  | polled {merge last} {world world' : World} {row merge'} : Arises codec paths dedup merge last →
      Runs (sessionSemantics codec) (MergeState.nextRow merge) world
        (.returned (.ok row, merge')) world' →
      Arises codec paths dedup merge' (row <|> last)
  | failed {merge last} {world world' : World} {abort merge'} :
      Arises codec paths dedup merge last →
      Runs (sessionSemantics codec) (MergeState.nextRow merge) world
        (.returned (.error abort, merge')) world' →
      Arises codec paths dedup merge' last
  | paused {merge last} {world world' : World} {merge'} {op : Request Key Value} :
      Arises codec paths dedup merge last →
      Pauses (sessionSemantics codec) (MergeState.nextRow merge) world merge' op world' →
      Arises codec paths dedup merge' last

section Rows

variable {capacity : Nat} {last : Option (RunRow Key Value)} {merge : MergeState Key Value}

theorem covers_takeHead :
    Covers MergeSource.IsCovered RunRow.IsCovered
      (MergeSource.takeHead : Async Key Value (MergeSource Key Value) _) := by
  refine Method.gives_bind Method.gives_get fun source known => ?_
  cases found : source.head with
  | none => exact Method.gives_throw
  | some row =>
      refine Method.gives_bind (Method.gives_modify fun _ _ => by simp [MergeSource.IsCovered])
        fun _ _ => ?_
      refine Method.gives_bind Method.gives_get fun source _ => ?_
      refine Method.gives_bind (Method.gives_within covers_nextRow trivial fun _ _ _ kept => kept)
        fun next fresh => ?_
      refine Method.gives_bind (Method.gives_modify fun _ _ => fresh) fun _ _ => ?_
      exact Method.gives_pure (known row found)

namespace MergeState

theorem wp_refill {idx : Nat} (covered : merge.Covered capacity last) (free : merge.Free idx) :
    (refill idx).wp (charging Key Value) (fun merge op _ => op.Backed ∧ merge.Covered capacity last)
      (fun _ merge _ => merge.Covered capacity last) (fun _ merge _ => merge.Covered capacity last)
      merge () := by
  refine Method.wp_bind.mpr (Method.wp_bind.mpr (Method.wp_get.mpr ?_))
  cases found : merge.sources[idx]? with
  | none => exact covered
  | some source =>
      have known := covered.heads source (List.mem_of_getElem? found)
      have inside : idx < merge.sources.length := (List.getElem?_eq_some_iff.mp found).1
      obtain ⟨_ | head, reader, keyCharge⟩ := source
      · exact covered
      · have reserved : Covers (fun other => merge = other) _
            (reserve head.retainedBytes : Async Key Value (MergeState Key Value) MemoryCharge) :=
          covers_reserve head.retainedBytes
        refine Method.wp_bind.mpr (Method.wp_mono (reserved merge () rfl) ?_ ?_ ?_)
        · rintro _ op _ ⟨backed, rfl⟩
          exact ⟨backed, covered⟩
        · rintro charge _ _ ⟨rfl, admitted⟩
          have charged := covered.setSource free
            (show MergeSource.IsCovered ⟨some head, reader, some charge⟩ from known)
          have found' : (merge.setSource idx ⟨some head, reader, some charge⟩).sources[idx]? =
              some ⟨some head, reader, some charge⟩ := by
            simp [setSource, inside]
          exact charged.push free found' ⟨head, charge, rfl, rfl, rfl, admitted⟩
        · rintro _ _ _ rfl
          exact covered

variable [LinearOrder Key]

/-- One turn of `next_row`: the row in hand keeps its own charge. -/
theorem covers_takeNext :
    Covers (Covered capacity last) (fun row : Option (RunRow Key Value) => ∀ head, row = some head →
      head.IsCovered) (takeNext : Async Key Value (MergeState Key Value) _) := by
  intro merge _ covered
  refine Method.wp_bind.mpr (Method.wp_get.mpr ?_)
  cases popped : popMin HeapEntry.rank merge.heap with
  | none => exact ⟨covered, by simp⟩
  | some found =>
      obtain ⟨entry, heap⟩ := found
      obtain ⟨covered, free⟩ := covered.pop popped
      refine Method.wp_bind.mpr (Method.wp_modify.mpr ?_)
      refine Method.wp_bind.mpr (Method.wp_bind.mpr (Method.wp_get.mpr ?_))
      cases named : merge.sources[entry.idx]? with
      | none => exact covered
      | some source =>
          have known := covered.heads source (List.mem_of_getElem? named)
          have uncharged := covered.setSource free
            (show MergeSource.IsCovered { source with keyCharge := none } from known)
          refine Method.wp_bind.mpr (Method.wp_modify.mpr ?_)
          refine Method.wp_bind.mpr (Method.wp_within.mpr ?_)
          apply Method.wp_mono (covers_takeHead { source with keyCharge := none } () known)
          · exact fun source' op _ issued => ⟨issued.1, uncharged.setSource free issued.2⟩
          · rintro row source' _ ⟨known', own⟩
            refine Method.wp_bind.mpr ?_
            apply Method.wp_post (wp_refill (uncharged.setSource free known') free)
            · rintro _ merge' _ covered'
              refine ⟨covered', ?_⟩
              rintro _ ⟨⟩
              exact own
            · exact fun _ _ _ stayed => stayed
          · exact fun _ source' _ known' => uncharged.setSource free known'

/-- What a call of `next_row` leaves: the row it emits is covered, and so is the
key it is remembered by. -/
theorem wp_nextRowLoop (turns : Nat) (covered : merge.Covered capacity last) :
    (nextRowLoop turns).wp (charging Key Value)
      (fun merge op _ => op.Backed ∧ merge.Covered capacity last)
      (fun row merge _ => merge.Covered capacity (row <|> last) ∧
        ∀ head, row = some head → head.IsCovered)
      (fun _ merge _ => merge.Covered capacity last) merge () := by
  induction turns generalizing merge with
  | zero => exact covered
  | succ turns inductionHypothesis =>
      refine Method.wp_bind.mpr
        (Method.wp_post (covers_takeNext merge () covered) ?_ fun _ _ _ stayed => stayed)
      rintro (_ | row) merge _ ⟨covered, known⟩
      · exact ⟨covered, known⟩
      · refine Method.wp_bind.mpr
          (Method.wp_get.mpr (Method.wp_ite.mpr ⟨fun dedup => ?_, fun plain => ?_⟩))
        · refine Method.wp_bind.mpr
            (Method.wp_get.mpr (Method.wp_ite.mpr ⟨fun _ => ?_, fun _ => ?_⟩))
          · exact inductionHypothesis covered
          · have reserved : Covers (fun other => merge = other) _
                (reserve row.retainedBytes : Async Key Value (MergeState Key Value) MemoryCharge) :=
              covers_reserve row.retainedBytes
            refine Method.wp_bind.mpr (Method.wp_mono (reserved merge () rfl) ?_ ?_ ?_)
            · rintro _ op _ ⟨backed, rfl⟩
              exact ⟨backed, covered⟩
            · rintro charge _ _ ⟨rfl, admitted⟩
              refine ⟨{ covered with last := fun _ => ?_ }, known⟩
              obtain ⟨bytes⟩ := charge
              obtain rfl : bytes = row.retainedBytes := admitted
              rfl
            · rintro _ _ _ rfl
              exact covered
        · exact ⟨{ covered with last := fun dedup => absurd dedup plain }, known⟩

theorem wp_nextRow (covered : merge.Covered capacity last) :
    nextRow.wp (charging Key Value) (fun merge op _ => op.Backed ∧ merge.Covered capacity last)
      (fun row merge _ => merge.Covered capacity (row <|> last) ∧
        ∀ head, row = some head → head.IsCovered)
      (fun _ merge _ => merge.Covered capacity last) merge () :=
  Method.wp_bind.mpr (Method.wp_get.mpr (wp_nextRowLoop _ covered))

end MergeState

/-- In every state of a merge its heads, its keys and its vectors are charged, and
so is the last key of a merge that deduplicates; a row it emits keeps its charge. -/
theorem merge_covered [LinearOrder Key] {codec : Codec Key Value} {paths : List ScratchPath}
    {dedup : Bool}
    (arises : merge.Arises codec paths dedup last) :
    merge.Covered paths.length last ∧ merge.heap.length ≤ paths.length ∧
      ∀ (world world' : World) (row : RunRow Key Value) merge',
        Runs (sessionSemantics codec) (MergeState.nextRow merge) world
          (.returned (.ok (some row), merge')) world' → row.IsCovered := by
  have simulates := simulates_charging codec
  have covered : merge.Covered paths.length last := by
    induction arises with
    | @opened io _ _ _ run =>
        have opens : Covers (fun _ => True) _
            (MergeState.open paths dedup io : Async Key Value Unit (MergeState Key Value)) :=
          covers_openMerge paths dedup io
        exact (Program.wp_returned (Program.wp_concrete simulates (opens () () trivial)) run).2
    | polled _ run inductionHypothesis =>
        have polls := MergeState.wp_nextRow inductionHypothesis
        exact (Program.wp_returned (Program.wp_concrete simulates polls) run).1
    | failed _ run inductionHypothesis =>
        have polls := MergeState.wp_nextRow inductionHypothesis
        have stopped := Program.wp_returned (Program.wp_concrete simulates polls) run
        exact stopped
    | paused _ pauses inductionHypothesis =>
        have polls := MergeState.wp_nextRow inductionHypothesis
        exact (Program.wp_pauses (Program.wp_concrete simulates polls) pauses).2
  refine ⟨covered, covered.heap_length_le, ?_⟩
  intro world world' row merge' run
  have polls := MergeState.wp_nextRow covered
  exact (Program.wp_returned (Program.wp_concrete simulates polls) run).2 row rfl

def firstMerged [LinearOrder Key] (pure : PureCodec Key Value) (paths : List ScratchPath)
    (dedup : Bool) (world : World) : Option (RunRow Key Value × MergeState Key Value) :=
  match ((MergeState.open paths dedup 0 : Async Key Value Unit _) ()).follow pure.policy world with
  | some ((.ok merge, ()), world) =>
      match (MergeState.nextRow merge).follow pure.policy world with
      | some ((.ok (some row), merge), _) => some (row, merge)
      | _ => none
  | _ => none

theorem arises_of_firstMerged [LinearOrder Key] {pure : PureCodec Key Value}
    {paths : List ScratchPath} {dedup : Bool} {world : World} {row : RunRow Key Value}
    (taken : firstMerged pure paths dedup world = some (row, merge)) :
    merge.Arises pure.codec paths dedup (some row) := by
  unfold firstMerged at taken
  split at taken
  · rename_i opens
    split at taken
    · rename_i polls
      cases taken
      exact .polled (.opened (Program.runs_of_follow pure.policy_allowed opens))
        (Program.runs_of_follow pure.policy_allowed polls)
    · cases taken
  · cases taken

/-- Two runs that share a key, after the first row. -/
theorem merge_covered_two :
    ∃ (merge : MergeState Nat Nat) (row : RunRow Nat Nat),
      merge.Arises byteRows.codec [⟨0, .run 0⟩, ⟨0, .run 1⟩] true (some row) ∧ row.value = 7 ∧
      merge.heap.length = 2 ∧ merge.Covered 2 (some row) := by
  have taken : (firstMerged byteRows [⟨0, .run 0⟩, ⟨0, .run 1⟩] true
      (World.holding [[(1, 7, 0), (3, 8, 1)], [(1, 9, 2)]])).any
      (fun taken => taken.1.value = 7 ∧ taken.2.heap.length = 2) = true := by
    decide +kernel
  obtain ⟨⟨row, merge⟩, taken, tested⟩ := (Option.any_eq_true _ _).mp taken
  obtain ⟨value, entries⟩ := of_decide_eq_true tested
  have arises := arises_of_firstMerged taken
  exact ⟨merge, row, arises, value, entries, (merge_covered arises).1⟩

end Rows

end SortGovernor.Engine
