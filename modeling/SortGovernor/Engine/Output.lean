import SortGovernor.Engine.Execute

/-!
# What a finished sort emits

The items of a stream are a prefix of the reference output followed by at most
two errors, and a stream that ends without an error has emitted all of it.
-/

namespace SortGovernor.Engine

open SortGovernor.Resumption SortGovernor.Sorting

variable {Key Value : Type} [LinearOrder Key] [Layout Key Value] {codec : Codec Key Value}
  {dedup : Bool}

/-- Where a stream stands with `rest` still to emit after it reported `errors`. -/
def Stands (codec : Codec Key Value) (rest : List (Record Key Value)) (errors : List SorterError)
    (stream : ValueStream Key Value) (world : World) : Prop :=
  errors = [] ∧ stream.Live codec world rest ∨
    errors.length = 1 ∧ stream.Failed false ∨
    (errors.length = 1 ∧ rest = [] ∨ errors.length = 2) ∧ stream.Failed true

namespace Stands

variable {rest : List (Record Key Value)} {errors : List SorterError}
  {stream : ValueStream Key Value} {world : World}

omit [Layout Key Value] in
theorem length_le (stands : Stands codec rest errors stream world) : errors.length ≤ 2 := by
  rcases stands with ⟨rfl, -⟩ | ⟨one, -⟩ | ⟨⟨one, -⟩ | two, -⟩ <;> simp [*]

theorem wp_next (stands : Stands codec rest errors stream world) :
    ValueStream.next.wp (sessionSemantics codec) AnyRequest
      (fun item stream' world' => match item with
        | none => errors = [] → rest = []
        | some (.ok value) => errors = [] ∧ ∃ record rest', rest = record :: rest' ∧
            value = record.2.1 ∧ Stands codec rest' [] stream' world'
        | some (.error error) => errors.length < 2 ∧
            Stands codec rest (errors ++ [error]) stream' world')
      (fun _ _ _ => False) stream world := by
  rcases stands with ⟨rfl, live⟩ | ⟨one, failed⟩ | ⟨full, failed⟩
  · refine ValueStream.wp_next_live live ?_ ?_ ?_ ?_
    · intro record rest' stream' world' split live'
      exact ⟨rfl, record, rest', split, rfl, .inl ⟨rfl, live'⟩⟩
    · exact fun stream' world' none _ => none
    · exact fun error stream' world' failed => ⟨by simp, .inr (.inl ⟨rfl, failed⟩)⟩
    · exact fun error stream' world' none failed =>
        ⟨by simp, .inr (.inr ⟨.inl ⟨rfl, none⟩, failed⟩)⟩
  · refine ValueStream.wp_next_failed failed ?_ ?_
    · intro stream' world' none
      rw [none] at one
      cases one
    · intro error stream' world' _ failed'
      exact ⟨by omega, .inr (.inr ⟨.inr (by simp [one]), failed'⟩)⟩
  · refine ValueStream.wp_next_failed failed ?_ (fun _ _ _ fresh => nomatch fresh)
    rintro stream' world' rfl
    rcases full with ⟨one, -⟩ | two
    · cases one
    · cases two

end Stands

theorem Polls.stands {rows : List (Record Key Value)} {stream stream' : ValueStream Key Value}
    {world world' : World} {items : List (Except SorterError Value)}
    (polls : Polls codec stream world items stream' world') (live : stream.Live codec world rows) :
    ∃ before rest errors, rows = before ++ rest ∧
      items = (before.map fun record => .ok record.2.1) ++ errors.map .error ∧
      Stands codec rest errors stream' world' := by
  induction polls with
  | none => exact ⟨[], rows, [], rfl, rfl, .inl ⟨rfl, live⟩⟩
  | @some items stream' world' item stream'' world'' _ run inductionHypothesis =>
      rcases inductionHypothesis with ⟨before, rest, errors, split, given, stands⟩
      have reached := Method.wp_returned stands.wp_next run
      cases item with
      | ok value =>
          rcases reached with ⟨rfl, record, rest', rfl, rfl, stands'⟩
          refine ⟨before ++ [record], rest', [], by simp [split], ?_, stands'⟩
          simp [given]
      | error error =>
          refine ⟨before, rest, errors ++ [error], split, ?_, reached.2⟩
          simp [given]

theorem Finishes.live {rows : List (Key × Value)} {session : SortSession Key Value}
    {world world' : World} {stream : ValueStream Key Value}
    (finishes : Finishes codec session world stream world')
    (reaches : Reaches codec dedup rows session world) :
    stream.Live codec world' (reference Record.key dedup (recordsOf rows)) := by
  rcases finishes with ⟨session', run⟩
  rcases reaches.failed_or_usable with failed | usable
  · rw [finish_of_failed failed] at run
    cases run
  · exact Method.wp_returned (SortSession.wp_finish usable fun _ _ _ live => live) run

omit [Layout Key Value] in
theorem reference_recordsOf (dedup : Bool) (rows : List (Key × Value)) :
    (reference Record.key dedup (recordsOf rows)).map (fun record => (record.1, record.2.1)) =
      reference Prod.fst dedup rows := by
  have rows_eq : (recordsOf rows).map (fun record => (record.1, record.2.1)) = rows := by
    simp [recordsOf, Function.comp_def]
  have keys : ∀ record : Record Key Value, Prod.fst (record.1, record.2.1) = Record.key record :=
    fun _ => rfl
  rw [← reference_map Record.key keys, rows_eq]

section Claims

variable {rows : List (Key × Value)} {session : SortSession Key Value}
  {stream stream' : ValueStream Key Value} {world world₁ world₂ : World}
  {items : List (Except SorterError Value)}

/-- A stream drained without an error emitted the sort of the accepted rows. -/
theorem drained_eq_reference (reaches : Reaches codec dedup rows session world)
    (finishes : Finishes codec session world stream world₁)
    (polls : Polls codec stream world₁ items stream' world₂) (ends : Ends codec stream' world₂)
    (clean : ∀ item ∈ items, ∃ value, item = .ok value) :
    ∃ output, items = output.map (fun row => .ok row.2) ∧ output = reference Prod.fst dedup rows ∧
      if dedup then FirstOfGroups Prod.fst rows output else StableSortOf Prod.fst rows output := by
  rcases polls.stands (finishes.live reaches) with ⟨before, rest, errors, split, given, stands⟩
  have noErrors : errors = [] := by
    cases errors with
    | nil => rfl
    | cons error errors =>
        rcases clean (.error error) (by simp [given]) with ⟨value, same⟩
        cases same
  rcases ends with ⟨last, world₃, run⟩
  have all := Method.wp_returned stands.wp_next run noErrors
  refine ⟨reference Prod.fst dedup rows, ?_, rfl, ?_⟩
  · rw [given, noErrors, ← reference_recordsOf, split, all]
    simp [Function.comp_def]
  · cases dedup with
    | false => exact reference_stable Prod.fst rows
    | true => exact reference_firstOfGroups Prod.fst rows

theorem drained_eq_reference_spilled :
    ∃ output : List (Nat × Nat), [2, 1] = output.map Prod.snd ∧
      output = reference Prod.fst true [(3, 1), (1, 2), (3, 3)] ∧
      FirstOfGroups Prod.fst [(3, 1), (1, 2), (3, 3)] output := by
  have sorted : sortAll byteRows (fun _ => false) (.external 1 2) true 1
      [(3, 1), (1, 2), (3, 3)] = some [.ok 2, .ok 1] := by
    decide +kernel
  rcases exists_of_sortAll sorted with ⟨_, _, _, _, _, _, reaches, finishes, polls, ends⟩
  rcases drained_eq_reference reaches finishes polls ends (by simp) with
    ⟨output, items, same, first⟩
  refine ⟨output, ?_, same, first⟩
  have values := congrArg (List.filterMap Except.toOption) items
  simpa [List.filterMap_map, Function.comp_def, Except.toOption] using values

/-- No partial result passes for a complete one. -/
theorem emitted_prefix_of_reference (reaches : Reaches codec dedup rows session world)
    (finishes : Finishes codec session world stream world₁)
    (polls : Polls codec stream world₁ items stream' world₂) :
    ∃ before rest errors, reference Prod.fst dedup rows = before ++ rest ∧
      items = before.map (fun row => .ok row.2) ++ errors.map .error ∧ errors.length ≤ 2 ∧
      (∀ outcome last world₃, Runs (sessionSemantics codec) (ValueStream.next stream') world₂
          (.returned (outcome, last)) world₃ →
        ∃ item, outcome = .ok item ∧ (errors.length = 2 → item = none)) ∧
      (Ends codec stream' world₂ → errors = [] → rest = []) := by
  rcases polls.stands (finishes.live reaches) with ⟨before, rest, errors, split, given, stands⟩
  refine ⟨before.map fun record => (record.1, record.2.1),
    rest.map fun record => (record.1, record.2.1),
    errors, ?_, ?_, stands.length_le, ?_, ?_⟩
  · rw [← reference_recordsOf, split, List.map_append]
  · rw [given, List.map_map]
    rfl
  · intro outcome last world₃ run
    have reached := Method.wp_returned stands.wp_next run
    cases outcome with
    | error abort => exact reached.elim
    | ok item =>
        refine ⟨item, rfl, fun two => ?_⟩
        rcases item with _ | error | value
        · rfl
        · exact absurd two (Nat.ne_of_lt reached.1)
        · rw [reached.1] at two
          cases two
  · rintro ⟨last, world₃, run⟩ noErrors
    rw [Method.wp_returned stands.wp_next run noErrors]
    rfl

/-- A stream of spilled rows whose second poll can read no more, and which cannot
remove its directory either. -/
theorem emitted_prefix_of_reference_failing :
    ∃ (before rest : List (Nat × Nat)) (errors : List SorterError),
      reference Prod.fst false [(3, 1), (4, 2), (1, 3)] = before ++ rest ∧
      ([.ok 3, .error .gone, .error .gone] : List (Except SorterError Nat)) =
        before.map (fun row => .ok row.2) ++ errors.map .error ∧
      errors.length ≤ 2 ∧ (errors = [] → rest = []) := by
  have sorted : sortAll byteRows (fun _ => true) (.external 1 2) false 1
      [(3, 1), (4, 2), (1, 3)] = some [.ok 3, .error .gone, .error .gone] := by
    decide +kernel
  rcases exists_of_sortAll sorted with ⟨_, _, _, _, _, _, reaches, finishes, polls, ends⟩
  rcases emitted_prefix_of_reference reaches finishes polls with
    ⟨before, rest, errors, split, items, atMost, -, complete⟩
  exact ⟨before, rest, errors, split, items, atMost, complete ends⟩

end Claims

end SortGovernor.Engine
