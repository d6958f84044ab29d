import SortGovernor.Runtime.Owners
import SortGovernor.Engine.RunFile

/-!
# The calls of a replay's readers

Whatever the writer and the other readers do between two of its requests, a read
leaves its cursor where it was or moves it past the row it returns, and it says
that rows are missing or have ended only when they were.
-/

namespace SortGovernor.Runtime

open SortGovernor.Engine SortGovernor.Resumption

variable {Value State Result : Type} {codec : Codec Unit Value} {inner : ReplayInner}
  {party : Party} {page : Page Value}

section Rules

variable {issue : State → Request Unit Value → Page Value → Prop}
  {err : Abort → State → Page Value → Prop} {state : State}

theorem wp_askBooks {op : Request Unit Value} {ok : op.Reply → State → Page Value → Prop}
    (issued : issue state op page)
    (done : ∀ reply middle last, (page.issued op).Rely party middle →
      Acts codec inner op middle reply last →
      ok reply state { last with seen := last.seen ++ noted op reply }) :
    (ask op : Async Unit Value State op.Reply).wp (books codec inner party) issue ok err state
      page := by
  refine Method.wp_issue.mpr ⟨issued, ?_⟩
  rintro reply next ⟨middle, last, rely, acts, rfl⟩
  exact done reply middle last rely acts

theorem wp_access (request : ReplayRequest) {ok : request.Reply → State → Page Value → Prop}
    (issued : issue state (.replay request) page)
    (done : ∀ reply middle last, page.Rely party middle → ReplayRequest.Acts inner request
      middle reply last →
      ok reply state { last with seen := last.seen ++ ReplayRequest.observed request reply }) :
    (access request : Async Unit Value State request.Reply).wp (books codec inner party) issue ok
      err state page :=
  wp_askBooks issued done

theorem wp_idleBooks {io : ScopeId} {ok : Unit → State → Page Value → Prop}
    (issued : issue state (.idle io) page)
    (done : ∀ next, page.Rely party next →
      ok () state { next with scratch :=
        { next.scratch with progress := .cleared, busy := false } }) :
    (scopeIdle io : Async Unit Value State Unit).wp (books codec inner party) issue ok err state
      page := by
  refine Method.wp_issue.mpr ⟨issued, ?_⟩
  rintro _ _ ⟨middle, _, rely, rfl, rfl⟩
  simp only [noted, observed, List.append_nil]
  exact done middle rely

theorem wp_orErrorBooks {value : Option Result} {error : SorterError}
    {ok : Result → State → Page Value → Prop} (failed : err (.error error) state page)
    (done : ∀ result, value = some result → ok result state page) :
    (orError value error : Async Unit Value State Result).wp (books codec inner party) issue ok err
      state page := by
  cases value with
  | none => exact failed
  | some result => exact done result rfl

theorem wp_propagateBooks {result : Except SorterError Result}
    {ok : Result → State → Page Value → Prop}
    (failed : ∀ error, result = .error error → err (.error error) state page)
    (done : ∀ value, result = .ok value → ok value state page) :
    (propagate result : Async Unit Value State Result).wp (books codec inner party) issue ok err
      state page := by
  cases result with
  | error error => exact failed error rfl
  | ok value => exact done value rfl

/-- The others leave every page the party may come to. -/
def Page.Later (party : Party) (page : Page Value) (condition : Page Value → Prop) : Prop :=
  ∀ next, page.Rely party next → condition next

theorem wp_reserveBooks {bytes : Nat} {ok : MemoryCharge → State → Page Value → Prop}
    (issued : issue state (.reserve bytes) page)
    (failed : page.Later party fun next => ∀ error, err (.error error) state next)
    (done : page.Later party fun next => ok ⟨bytes⟩ state next) :
    (reserve bytes : Async Unit Value State MemoryCharge).wp (books codec inner party) issue ok err
      state page := by
  refine Method.wp_bind.mpr (wp_askBooks issued ?_)
  rintro reply middle last rely ⟨rfl, limit, used, rfl⟩
  rw [show noted (.reserve bytes : Request Unit Value) _ = [] from rfl, List.append_nil]
  unfold MemoryBudget.reserve
  split
  · exact failed _ rely _
  · rename_i admitted
    exact done _ rely

/-- A job that is handed to a worker: `done` and `failed` start from the page
after the others' moves. -/
theorem wp_performBooks [Layout Unit Value] {io : ScopeId} {pathBytes : Nat}
    {held : List MemoryCharge} {job : FsJob} {ok : job.Value → State → Page Value → Prop}
    (reserving : ∀ bytes, issue state (.reserve bytes) page)
    (refused : page.Later party fun next => ∀ error, err (.error error) state next)
    (unknown : ∀ error, err (.error error) state page)
    (issued : page.Later party fun next => ∀ held, issue state (.perform io held job) next)
    (failed : page.Later party fun next => ∀ held, (next.issued (.perform io held job)).Later party
      fun last => ∀ error,
        err (.error error) state { last with seen := last.seen ++ [.performed job false] })
    (done : page.Later party fun next => ∀ held, (next.issued (.perform io held job)).Later party
      fun last => ∀ value, FsJob.Hands codec last.published.rows job value →
        ok value state { last.delivered job with
          seen := (last.delivered job).seen ++ [.performed job true] }) :
    (perform io pathBytes held job : Async Unit Value State job.Value).wp (books codec inner party)
      issue ok err state page := by
  refine Method.wp_bind.mpr (wp_orErrorBooks (unknown _) fun bytes _ => ?_)
  refine Method.wp_bind.mpr (wp_reserveBooks (reserving bytes) refused ?_)
  intro next rely
  refine Method.wp_bind.mpr (wp_askBooks (issued next rely _) ?_)
  intro reply middle last moved acts
  cases reply with
  | error error =>
      obtain rfl : last = middle := acts
      exact failed next rely _ last moved error
  | ok value =>
      obtain ⟨hands, rfl⟩ := acts
      exact done next rely _ middle moved value hands

theorem wp_snapshot {ok : Nat × Bool → State → Page Value → Prop}
    (stateIssued : issue state (.replay .loadState) page)
    (rowsIssued : ∀ first, page.Rely party first → issue state (.replay .loadRows)
      { first with seen := first.seen ++ [.state first.published.state] })
    (failed : ∀ next, page.Rely party next → next.published.state = .failed →
      err (.error .replaySourceFailed) state { next with seen := next.seen ++ [.state .failed] })
    (done : ∀ first next, page.Rely party first → first.published.state ≠ .failed →
      Page.Rely party { first with seen := first.seen ++ [.state first.published.state] } next →
      ok (next.published.rows.length, decide (first.published.state = .sealed)) state
        { next with seen := next.seen ++ [.rows next.published.rows.length] }) :
    (Publication.snapshot : Async Unit Value State (Nat × Bool)).wp (books codec inner party) issue
      ok err state page := by
  refine Method.wp_bind.mpr (wp_askBooks stateIssued ?_)
  rintro loaded first last rely ⟨rfl, rfl⟩
  refine Method.wp_ite.mpr ⟨?_, ?_⟩
  · intro isFailed
    have known := failed last rely isFailed
    rw [← isFailed] at known
    exact known
  · intro notFailed
    refine Method.wp_bind.mpr (wp_askBooks (rowsIssued last rely) ?_)
    rintro rows next last' moved ⟨rfl, rfl⟩
    exact done last last' rely notFailed moved

end Rules

theorem Reads.noted {cursor : ReplayCursor} {reading : Reading Value}
    (reads : Reads inner cursor reading page) (seen : List Seen) :
    Reads inner cursor reading { page with seen } :=
  ⟨reads.storage, reads.custody, reads.position, reads.offset, reads.origin, reads.items⟩

theorem Reads.advance {cursor : ReplayCursor} {reading : Reading Value}
    (reads : Reads inner cursor reading page) {row : Committed Value}
    (found : page.published.rows[cursor.position]? = some row) :
    Reads inner { cursor with
        offset := cursor.offset + (12 + row.body.length), position := cursor.position + 1 }
      (reading.returned (.ok (.item row.value))) page where
  storage := reads.storage
  custody := reads.custody
  position := (List.getElem?_eq_some_iff.mp found).1
  offset := by rw [offsetOf_succ found, reads.offset]
  origin := reads.origin.trans (Nat.le_succ _)
  items := by
    have value : page.published.values[cursor.position]? = some row.value := by
      rw [Published.values, List.getElem?_map, found]
      rfl
    have long : reading.origin ≤ (page.published.values.take cursor.position).length := by
      rw [List.length_take, Published.values, List.length_map]
      exact Nat.le_min.mpr ⟨reads.origin, reads.origin.trans reads.position⟩
    simp only [Reading.returned, reads.items]
    rw [List.take_add_one, value, Option.toList_some, List.drop_append_of_le_length long]

section Pull

variable [Layout Unit Value] {number : Nat} {cursor : ReplayCursor} {reading : Reading Value}
  {issue : ReplayCursor → Request Unit Value → Page Value → Prop}
  {ok : ReplayStep Value → ReplayCursor → Page Value → Prop}
  {err : Abort → ReplayCursor → Page Value → Prop}

omit [Layout Unit Value] in
theorem FsJob.Hands.row {frame : Frame} {rowInline position : Nat} {path : ScratchPath}
    {rows : List (Committed Value)} (within : position ≤ rows.length)
    (hands : FsJob.Hands codec rows (.readFrame path (offsetOf rows position) rowInline) frame) :
    ∃ row, rows[position]? = some row ∧ row.Valid codec ∧ frame.bytes = row.body := by
  obtain ⟨other, row, found, valid, offset, bytes⟩ := hands
  have inside := (List.getElem?_eq_some_iff.mp found).1
  obtain rfl := offsetOf_injective within inside.le offset
  exact ⟨row, found, valid, bytes⟩

/-- A condition of pages that neither the others nor the notes of a call affect. -/
def Lasting (party : Party) (good : Page Value → Prop) : Prop :=
  ∀ page next seen, good page → page.Rely party next → good { next with seen }

/-- `next_row` of a reader at a committed position returns the row there. -/
theorem wp_nextRowBooks {good : Page Value → Prop} {reader : RunReader} {position : Nat}
    {issue : RunReader → Request Unit Value → Page Value → Prop}
    {ok : Option (RunRow Unit Value) → RunReader → Page Value → Prop}
    {err : Abort → RunReader → Page Value → Prop}
    (lasting : Lasting (.reader number) good) (holds : good page) (shared : page.custody = .shared)
    (one : reader.remaining = 1) (path : reader.path = inner.path) (io : reader.io = inner.scope)
    (offset : reader.offset = offsetOf page.published.rows position)
    (within : position < page.published.rows.length)
    (issued : ∀ op reader next, good next → Permits codec inner (.reader number) next op →
      (∀ token, op ≠ .replay (.changed token)) → issue reader op next)
    (failed : ∀ abort reader next, good next → err abort reader next)
    (done : ∀ row (charged : RunRow Unit Value) reader' job next, good next →
      next.seen = page.seen ++ [.performed job true] →
      next.published.rows[position]? = some row → charged.value = row.value →
      reader'.offset = reader.offset + (12 + row.body.length) → ok (some charged) reader' next) :
    (RunReader.nextRow : Async Unit Value RunReader _).wp (books codec inner (.reader number))
      issue ok err reader page := by
  unfold RunReader.nextRow
  refine Method.wp_bind.mpr (Method.wp_get.mpr (Method.wp_ite.mpr ⟨?_, ?_⟩))
  · intro none
    exact absurd (one.symm.trans none) Nat.one_ne_zero
  intro _
  have stays : ∀ next, page.Rely (.reader number) next → good next :=
    fun next rely => lasting page next next.seen holds rely
  refine Method.wp_bind.mpr (wp_performBooks ?_ ?_ ?_ ?_ ?_ ?_)
  · exact fun bytes => issued _ _ _ holds trivial (by simp)
  · exact fun next rely error => failed _ _ _ (stays next rely)
  · exact fun error => failed _ _ _ holds
  · intro next rely held
    refine issued _ _ _ (stays next rely) ⟨io, ?_, ?_, ?_, path, position,
      page.published.rows[position], ?_, ?_⟩ (by simp)
    · simp [rely.custody, shared]
    · simp
    · exact rely.custody.trans shared
    · exact rely.grows.row (List.getElem?_eq_getElem within)
    · rw [offset, rely.grows.offset within.le]
  · intro next rely held last moved error
    exact failed _ _ _ (lasting page last _ holds (rely.trans moved))
  · intro next rely held last moved frame hands
    have rely : page.Rely (.reader number) last := rely.trans moved
    have known : good { last with seen := last.seen ++ [.performed (.readFrame reader.path
        reader.offset (Layout.rowSize Unit Value)) true] } := lasting page last _ holds rely
    rw [offset, ← rely.grows.offset within.le] at hands
    obtain ⟨row, found, valid, body⟩ := hands.row (within.le.trans rely.grows.length)
    refine Method.wp_bind.mpr (wp_askBooks (issued _ _ _ known trivial (by simp)) ?_)
    rintro decoded middle last' moved' ⟨decodes, rfl⟩
    have lasts := lasting _ last' (last'.seen ++ noted (.deserialize frame.bytes) decoded)
      known moved'
    refine Method.wp_bind.mpr (wp_propagateBooks (fun _ _ => failed _ _ _ lasts) ?_)
    rintro ⟨key, value, ordinal⟩ isOk
    refine Method.wp_bind.mpr (wp_orErrorBooks (failed _ _ _ lasts) fun len lenEq => ?_)
    refine Method.wp_bind.mpr (wp_orErrorBooks (failed _ _ _ lasts) fun next nextEq => ?_)
    have decodes' : codec.deserializes row.body (.ok (key, value, ordinal)) := by
      cases decoded with
      | error text => cases isOk
      | ok decoded =>
          cases isOk
          rw [← body]
          exact decodes
    have record := codec.decoded_eq valid.encodes decodes'
    refine done row _ _ (.readFrame reader.path reader.offset (Layout.rowSize Unit Value)) _
      lasts ?_
      (moved'.grows.row found) ?_ ?_
    · simp only [noted, observed, List.append_nil]
      exact moved'.seen.trans (congrArg (· ++ _) rely.seen)
    · exact congrArg (fun record => record.2.1) record
    · have lenIs := (tryFrom_eq_some.mp lenEq).2
      have nextIs := (checkedAdd_eq_some.mp nextEq).2
      simp only
      rw [← nextIs, ← lenIs, body]

omit [Layout Unit Value] in
theorem Reads.lasting : Lasting (.reader number) (Reads inner cursor reading : Page Value → Prop) :=
  fun _ _ seen reads rely => (reads.rely rely).noted seen

/-- A read, whatever happens between its requests. -/
theorem wp_nextCommitted (reads : Reads inner cursor reading page) (fresh : page.seen = [])
    (issued : ∀ op next, Reads inner cursor reading next →
      Permits codec inner (.reader number) next op → (∀ token, op ≠ .replay (.changed token)) →
      (op.awaits = true → page.published.state ≠ .failed) → issue cursor op next)
    (failed : ∀ abort next, Reads inner cursor reading next →
      (page.published.state = .failed → abort = .error .replaySourceFailed) →
      err abort cursor next)
    (exhausted : ∀ next, Reads inner cursor reading next → page.published.state ≠ .failed →
      next.published.state = .sealed → cursor.position = next.published.rows.length →
      ok .exhausted cursor next)
    (awaiting : ∀ loaded next, Reads inner cursor reading next → page.published.state ≠ .failed →
      page.published.Grows loaded → loaded.state = .writing → loaded.Grows next.published →
      next.published.rows.length ≤ cursor.position →
      next.seen = [.state .writing, .rows next.published.rows.length] →
      ok .awaitingAppend cursor next)
    (item : ∀ value offset next, page.published.state ≠ .failed →
      Reads inner { cursor with offset, position := cursor.position + 1 }
        (reading.returned (.ok (.item value))) next →
      next.published.values[cursor.position]? = some value → FoundRow cursor.position next.seen →
      ok (.item value) { cursor with offset, position := cursor.position + 1 } next) :
    (ReplayCursor.nextCommitted : Async Unit Value ReplayCursor (ReplayStep Value)).wp
      (books codec inner (.reader number)) issue ok err cursor page := by
  have lasting := @Reads.lasting Value inner number cursor reading
  unfold ReplayCursor.nextCommitted
  refine Method.wp_bind.mpr (Method.wp_get.mpr (Method.wp_bind.mpr (wp_snapshot ?_ ?_ ?_ ?_)))
  · exact issued _ _ reads trivial (by simp) fun awaits => Bool.noConfusion awaits
  · intro first rely
    exact issued _ _ (lasting _ _ _ reads rely) trivial (by simp) fun awaits =>
      Bool.noConfusion awaits
  · intro next rely state
    exact failed _ _ (lasting _ _ _ reads rely) fun _ => rfl
  intro first loaded rely notFailed moved
  have alive : page.published.state ≠ .failed := by
    intro dead
    apply notFailed
    rw [rely.grows.state (by simp [dead]), dead]
  have seen : loaded.seen = [.state first.published.state] := by
    rw [moved.seen, rely.seen, fresh]
    rfl
  have between := lasting _ _ (loaded.seen ++ [.rows loaded.published.rows.length])
    (lasting _ _ _ reads rely) moved
  refine Method.wp_ite.mpr ⟨?_, ?_⟩
  · intro passed
    by_cases complete : first.published.state = .sealed
    · rw [if_pos (decide_eq_true complete)]
      have final : loaded.published.state = .sealed :=
        (moved.grows.state (by simp [complete])).trans complete
      exact exhausted _ between alive final (Nat.le_antisymm between.position passed)
    · rw [if_neg (by simpa using complete)]
      have writing : first.published.state = .writing := by
        cases found : first.published.state with
        | writing => rfl
        | «sealed» => exact absurd found complete
        | failed => exact absurd found notFailed
      refine awaiting first.published _ between alive rely.grows writing moved.grows passed ?_
      rw [seen, writing]
      rfl
  · intro more
    have within : cursor.position < loaded.published.rows.length := Nat.lt_of_not_le more
    refine Method.wp_bind.mpr (wp_reserveBooks (issued _ _ between trivial (by simp) fun _ => alive)
      ?_ ?_)
    · exact fun next rely error => failed _ _ (lasting _ _ _ between rely) (absurd · alive)
    intro reserved reserves
    have ready := lasting _ _ reserved.seen between reserves
    refine Method.wp_bind.mpr (Method.wp_call.mpr (wp_nextRowBooks lasting ready ready.custody rfl
      (by exact congrArg ReplayInner.path ready.storage)
        (by exact congrArg ReplayInner.scope ready.storage) ready.offset
      (within.trans_le reserves.grows.length) ?_ ?_ ?_))
    · exact fun op reader next known permits other =>
        issued op next known permits other fun _ => alive
    · exact fun abort reader next known => failed abort next known (absurd · alive)
    intro row charged reader' job next known noted found isValue offset
    have kept : ∀ abort next, Reads inner cursor reading next → err abort cursor next :=
      fun abort next known => failed abort next known (absurd · alive)
    refine Method.wp_bind.mpr (wp_orErrorBooks (kept _ _ known) ?_)
    rintro _ ⟨⟩
    refine Method.wp_bind.mpr (wp_snapshot ?_ ?_ ?_ ?_)
    · exact issued _ _ known trivial (by simp) fun _ => alive
    · intro again rely'
      exact issued _ _ (lasting _ _ _ known rely') trivial (by simp) fun _ => alive
    · exact fun next rely' _ => kept _ _ (lasting _ _ _ known rely')
    intro again last rely' aliveAgain moved'
    have still := lasting _ _ (last.seen ++ [.rows last.published.rows.length])
      (lasting _ _ _ known rely') moved'
    refine Method.wp_bind.mpr (wp_orErrorBooks (kept _ _ still) ?_)
    intro position isNext
    obtain ⟨-, rfl⟩ := checkedAdd_eq_some.mp isNext
    have there : last.published.rows[cursor.position]? = some row :=
      moved'.grows.row (rely'.grows.row found)
    have same : charged.value = row.value := isValue
    refine Method.wp_bind.mpr (Method.wp_set.mpr ?_)
    refine Method.wp_pure.mpr (item _ _ _ alive ?_ ?_ ?_)
    · have advanced := still.advance there
      rw [same]
      rw [show reader'.offset = cursor.offset + (12 + row.body.length) from offset]
      exact advanced
    · rw [Published.values, List.getElem?_map, there, same]
      rfl
    · refine ⟨first.published.state, loaded.published.rows.length, job, again.published.state,
        last.published.rows.length, ?_, within, notFailed, aliveAgain⟩
      have before : reserved.seen = loaded.seen ++ [.rows loaded.published.rows.length] :=
        reserves.seen
      have after : last.seen = next.seen ++ [.state again.published.state] :=
        moved'.seen.trans (congrArg (· ++ _) rely'.seen)
      rw [after, noted, before, seen]
      rfl

end Pull

section Calls

variable {cancellable : Bool} {begun : Begun Value} {page : Page Value}

theorem Page.issued_keeps (page : Page Value) (op : Request Unit Value) :
    (page.issued op).published = page.published ∧ (page.issued op).custody = page.custody ∧
      (page.issued op).seen = page.seen := by
  unfold Page.issued
  split
  · exact ⟨rfl, rfl, rfl⟩
  · exact ⟨rfl, rfl, rfl⟩
  · split <;> exact ⟨rfl, rfl, rfl⟩
  · exact ⟨rfl, rfl, rfl⟩
  · exact ⟨rfl, rfl, rfl⟩
  · exact ⟨rfl, rfl, rfl⟩

theorem turnOk_turn {method : Async Unit Value State Result} {state : State}
    {dropped : State → ReplayOwner Value}
    {returned : Except Abort Result → State → ReplayOwner Value}
    (holds : method.wp (books codec inner party)
      (fun left op page => Issues codec inner party cancellable begun (dropped left) op page)
      (fun result state page =>
        OwnerOk inner party (some begun) (returned (.ok result) state) page.relaxed)
      (fun abort state page =>
        OwnerOk inner party (some begun) (returned (.error abort) state) page.relaxed)
      state page) :
    TurnOk codec inner party cancellable begun (turn method state dropped returned) page := by
  refine Program.wp_map.mpr (Program.wp_rebase.mpr ?_)
  refine Program.wp_mono holds (fun _ _ _ issued => issued) ?_
  rintro ⟨_ | _, state⟩ page reached <;> exact reached

variable {number : Nat} {cursor : ReplayCursor} {reading : Reading Value}

theorem Page.relaxed_eq (shared : page.custody = .shared) : page.relaxed = page := by
  obtain ⟨published, scratch, custody, encoded, seen⟩ := page
  cases shared
  rfl

theorem Page.relaxed_taken (taken : page.custody = .taken) : page.relaxed = page := by
  obtain ⟨published, scratch, custody, encoded, seen⟩ := page
  cases taken
  rfl

theorem Reads.issued (reads : Reads inner cursor reading page) (op : Request Unit Value) :
    Reads inner cursor reading (page.issued op) := by
  obtain ⟨published, custody, -⟩ := page.issued_keeps op
  constructor
  · exact reads.storage
  · exact custody.trans reads.custody
  · rw [published]
    exact reads.position
  · rw [published]
    exact reads.offset
  · exact reads.origin
  · rw [published]
    exact reads.items

theorem Reads.last (reads : Reads inner cursor reading page)
    (last : Option (Except Abort (ReplayStep Value))) :
    Reads inner cursor { reading with last } page :=
  ⟨reads.storage, reads.custody, reads.position, reads.offset, reads.origin, reads.items⟩

theorem Reports.unmoved {outcome : Option (Except Abort (ReplayStep Value))}
    (began : begun.owner.cursor? = some cursor)
    (other : ∀ value, outcome ≠ some (.ok (.item value)))
    (exhausted : outcome = some (.ok .exhausted) →
      page.published.state = .sealed ∧ cursor.position = page.published.rows.length)
    (awaiting : outcome = some (.ok .awaitingAppend) →
      ∃ rows, page.seen = [.state .writing, .rows rows] ∧ rows ≤ cursor.position)
    (failed : begun.shared.state = .failed → outcome = some (.error (.error .replaySourceFailed))) :
    Reports begun cursor { reading with last := outcome } page where
  item value last := absurd last (other value)
  stays _ _ := began
  exhausted := exhausted
  awaiting := awaiting
  failed _ dead := failed dead

variable [Layout Unit Value]

theorem turnOk_nextCommitted {shared : ReplayShared} (reads : Reads inner cursor reading page)
    (fresh : page.seen = []) (state : shared.state = page.published.state) :
    TurnOk codec inner (.reader number) true ⟨.cursor cursor reading, .nextCommitted, shared⟩
      (turn ReplayCursor.nextCommitted cursor (fun current => .cursor current reading.interrupted)
        fun outcome current => .cursor current (reading.returned outcome)) page := by
  have began : (ReplayOwner.cursor cursor reading).cursor? = some cursor := rfl
  apply turnOk_turn
  apply wp_nextCommitted reads fresh
  · intro op next known permits other alive
    refine ⟨permits, fun _ keeper => (by cases keeper), fun token same => absurd same
      (other token), ?_,
      fun _ _ => known.custody, fun taken => (by cases known.custody.symm.trans taken)⟩
    intro _ awaits
    have known := known.issued op
    rw [Page.relaxed_eq known.custody]
    refine ⟨known.last _, ?_⟩
    rintro _ ⟨⟩
    refine Reports.unmoved began (by simp) (by simp) (by simp) ?_
    exact fun dead => absurd (state ▸ dead) (alive awaits)
  · intro abort next known dead
    rw [Page.relaxed_eq known.custody]
    refine ⟨known.last _, ?_⟩
    rintro _ ⟨⟩
    refine Reports.unmoved began (by simp) (by simp) (by simp) ?_
    exact fun failed => by rw [dead (state ▸ failed)]
  · intro next known alive ended position
    rw [Page.relaxed_eq known.custody]
    refine ⟨known.last _, ?_⟩
    rintro _ ⟨⟩
    refine Reports.unmoved began (by simp) (fun _ => ⟨ended, position⟩) (by simp) ?_
    exact fun failed => absurd (state ▸ failed) alive
  · intro loaded next known alive _ _ _ passed seen
    rw [Page.relaxed_eq known.custody]
    refine ⟨known.last _, ?_⟩
    rintro _ ⟨⟩
    refine Reports.unmoved began (by simp) (by simp) (fun _ => ⟨_, seen, passed⟩) ?_
    exact fun failed => absurd (state ▸ failed) alive
  · intro value offset next alive known found row
    rw [Page.relaxed_eq known.custody]
    refine ⟨known, ?_⟩
    rintro _ ⟨⟩
    constructor
    · rintro _ ⟨⟩
      exact ⟨cursor, rfl, rfl, found, row⟩
    · exact fun other => absurd rfl (other value)
    · rintro ⟨⟩
    · rintro ⟨⟩
    · exact fun _ failed => absurd (state ▸ failed) alive

/-- One turn of `next`.  What was published or decided since its notification was
created is still to be announced when it goes to sleep. -/
theorem turnOk_nextTurn {shared : ReplayShared} {owner : ReplayOwner Value}
    (reads : Reads inner cursor reading page) (began : owner.cursor? = some cursor)
    (fresh : page.seen = []) (state : shared.state = page.published.state) :
    TurnOk codec inner (.reader number) true ⟨owner, .next, shared⟩
      (turn ReplayCursor.nextTurn cursor (fun current => .cursor current reading.interrupted)
        (ReplayOwner.turned reading)) page := by
  have began : (⟨owner, .next, shared⟩ : Begun Value).owner.cursor? = some cursor := began
  apply turnOk_turn
  refine Method.wp_bind.mpr (wp_access .notified ?_ ?_)
  · exact ⟨trivial, fun _ keeper => (by cases keeper), fun token same => (by cases same),
      fun _ awaits => Bool.noConfusion awaits, fun _ _ => reads.custody,
      fun taken => (by cases reads.custody.symm.trans taken)⟩
  rintro token _ first rely ⟨rfl, rfl⟩
  have start : Reads inner cursor reading { first with seen := first.seen ++ [] } :=
    (@Reads.lasting Value inner number cursor reading) _ _ _ reads rely
  have still : shared.state = .failed → first.published.state = .failed := by
    intro dead
    rw [state] at dead
    rw [rely.grows.state (by simp [dead]), dead]
  have interrupted : ∀ next, Reads inner cursor reading next → first.published.state ≠ .failed →
      OwnerOk inner (.reader number) (some ⟨owner, .next, shared⟩)
        (.cursor cursor reading.interrupted) next := by
    intro next known alive
    refine ⟨known.last _, ?_⟩
    rintro _ ⟨⟩
    refine Reports.unmoved began (by simp) (by simp) (by simp) ?_
    exact fun dead => absurd (still dead) alive
  refine Method.wp_bind.mpr (wp_nextCommitted start ?_ ?_ ?_ ?_ ?_ ?_)
  · exact (List.append_nil _).trans (rely.seen.trans fresh)
  · intro op next known permits other alive
    refine ⟨permits, fun _ keeper => (by cases keeper), fun token same => absurd same
      (other token), ?_,
      fun _ _ => known.custody, fun taken => (by cases known.custody.symm.trans taken)⟩
    intro _ awaits
    have known := known.issued op
    rw [Page.relaxed_eq known.custody]
    exact interrupted _ known (alive awaits)
  · intro abort next known dead
    rw [Page.relaxed_eq known.custody]
    refine ⟨known.last _, ?_⟩
    rintro _ ⟨⟩
    refine Reports.unmoved began (by simp) (by simp) (by simp) ?_
    exact fun failed => by rw [dead (still failed)]
  · intro next known alive ended position
    refine Method.wp_pure.mpr ?_
    rw [Page.relaxed_eq known.custody]
    refine ⟨known.last _, ?_⟩
    rintro _ ⟨⟩
    refine Reports.unmoved began (by simp) (fun _ => ⟨ended, position⟩) (by simp) ?_
    exact fun failed => absurd (still failed) alive
  · intro loaded next known alive grows writing grows' passed seen
    have before := grows.notices
    have after := grows'.notices
    refine Method.wp_bind.mpr (wp_access (.changed first.published.notices) ?_ ?_)
    · refine ⟨trivial, fun _ keeper => (by cases keeper), ?_, ?_, fun _ _ => known.custody,
        fun taken => (by cases known.custody.symm.trans taken)⟩
      · rintro token ⟨⟩
        refine ⟨before.trans after, cursor, rfl, ?_⟩
        intro same
        obtain owed | unchanged := grows'.owed (by simp only at before; omega)
        · exact .inl owed
        · exact .inr ⟨by rw [unchanged, writing], passed⟩
      · intro _ _
        rw [Page.relaxed_eq (known.issued _).custody]
        exact interrupted _ known alive
    · rintro reply _ middle rely ⟨_, rfl⟩
      refine Method.wp_pure.mpr ?_
      have known := (@Reads.lasting Value inner number cursor reading) _ _
        (middle.seen ++ ReplayRequest.observed (.changed first.published.notices) reply) known rely
      rw [Page.relaxed_eq known.custody]
      refine ⟨known, ?_⟩
      rintro _ ⟨⟩
      exact began
  · intro value offset next alive known found row
    refine Method.wp_pure.mpr ?_
    rw [Page.relaxed_eq known.custody]
    refine ⟨known, ?_⟩
    rintro _ ⟨⟩
    constructor
    · rintro _ ⟨⟩
      exact ⟨cursor, began, rfl, found, row⟩
    · exact fun other => absurd rfl (other value)
    · rintro ⟨⟩
    · rintro ⟨⟩
    · exact fun _ failed => absurd (still failed) alive

omit [Layout Unit Value] in
theorem wp_release {issue : Unit → Request Unit Value → Page Value → Prop}
    {ok : Option AsyncCleanupGuard → Unit → Page Value → Prop}
    {err : Abort → Unit → Page Value → Prop}
    (issued : issue () (.replay .release) page)
    (others : ∀ next, page.Rely party next → ok none () { next with custody := .away })
    (last : ∀ next guard, page.Rely party next → Fits inner next.scratch.progress guard →
      ok (some guard) ()
        { next with custody := .taken, scratch := { next.scratch with cleanup := none } }) :
    (access .release : Async Unit Value Unit _).wp
    (books codec inner party) issue ok err () page := by
  refine wp_access .release issued ?_
  rintro reply middle next rely (⟨rfl, -, rfl⟩ | ⟨⟨guard, rfl, -, fits⟩, rfl⟩)
  · simp only [ReplayRequest.observed, List.append_nil]
    exact others middle rely
  · simp only [ReplayRequest.observed, List.append_nil]
    exact last middle guard rely fits

omit [Layout Unit Value] in
theorem turnOk_dropCursor {owner : ReplayOwner Value} {shared : ReplayShared}
    (reads : Reads inner cursor reading page) :
    TurnOk codec inner (.reader number) false ⟨owner, .drop, shared⟩ (ReplayOwner.dropTurn none)
      page := by
  apply turnOk_turn
  apply wp_release
  · exact ⟨reads.custody, fun _ keeper => (by cases keeper), fun token same => (by cases same),
      fun may => Bool.noConfusion may, fun _ _ => reads.custody,
      fun taken => (by cases reads.custody.symm.trans taken)⟩
  · exact fun next rely => ⟨fun holds => holds.present rfl, fun taken => (by cases taken)⟩
  · exact fun next guard rely fits => ⟨rfl, fits⟩

omit [Layout Unit Value] in
/-- The task of a dropped scratch owner waits for the scope and removes the directory. -/
theorem wp_dropTask {guard : AsyncCleanupGuard} {owner : ReplayOwner Value} {shared : ReplayShared}
    {account : Option (Account Value)} (nothing : owner.cursor? = none)
    (taken : page.custody = .taken)
    (fits : Fits inner page.scratch.progress guard)
    (settled : party = .keeper → page.published.owed = false) :
    (AsyncCleanupGuard.dropTask guard : Async Unit Value Unit Unit).wp (books codec inner party)
      (fun _ op page =>
        Issues codec inner party false ⟨owner, .cleanup, shared⟩ (.left guard account) op page)
      (fun _ _ next => next.custody = .taken ∧ Gone inner next ∧
        (party = .keeper → next.published = page.published))
      (fun _ _ _ => False) () page := by
  unfold AsyncCleanupGuard.dropTask
  cases armed : guard.dir with
  | none =>
      have unarmed : page.scratch.progress.isArmed = false := by
        have known := fits.dir
        rw [armed] at known
        simpa using known.symm
      exact ⟨taken, ⟨fun holds => holds.refers taken, fun _ => .inl unarmed⟩, fun _ => rfl⟩
  | some dir =>
      have isArmed : page.scratch.progress.isArmed = true ∧ dir = inner.dir := by
        have known := fits.dir
        rw [armed] at known
        split at known
        · exact ⟨‹_›, Option.some.inj known⟩
        · cases known
      obtain ⟨isArmed, rfl⟩ := isArmed
      simp only [fits.fds]
      refine Method.wp_bind.mpr (wp_idleBooks ?_ ?_)
      · exact ⟨⟨fits.scope, .inr taken, isArmed⟩,
          fun owed keeper => absurd (settled keeper) (by simp [owed]), fun token same =>
            (by cases same),
          fun may => Bool.noConfusion may, fun _ some => absurd nothing some,
          fun _ => ⟨guard, account, rfl, fits⟩⟩
      intro middle rely
      refine Method.wp_bind.mpr (wp_askBooks ?_ ?_)
      · refine ⟨⟨fits.scope, ?_, rfl, rfl, ?_⟩, ?_, fun token same => (by cases same),
          fun may => Bool.noConfusion may, fun _ some => absurd nothing some,
          fun _ => ⟨guard, account, rfl, fits.congr isArmed.symm⟩⟩
        · simp [rely.custody, taken]
        · exact .inr (rely.custody.trans taken)
        · intro owed keeper
          have isOwed : middle.published.owed = true := owed
          rw [rely.published keeper, settled keeper] at isOwed
          cases isOwed
      · intro reply last next moved acts
        have custody : last.custody = .taken := moved.custody.trans (rely.custody.trans taken)
        have same : party = .keeper → last.published = page.published :=
          fun keeper => (moved.published keeper).trans (rely.published keeper)
        cases reply with
        | error error =>
            obtain rfl : next = last := acts
            refine ⟨custody, ⟨fun holds => holds.refers custody, fun _ => .inr ?_⟩, same⟩
            exact List.mem_append_right _ (List.mem_singleton_self _)
        | ok value =>
            obtain ⟨-, rfl⟩ := acts
            exact ⟨custody, ⟨fun holds => holds.refers custody, fun _ => .inl rfl⟩, same⟩

omit [Layout Unit Value] in
theorem turnOk_cleanupReader {guard : AsyncCleanupGuard} {owner : ReplayOwner Value}
    {shared : ReplayShared} (nothing : owner.cursor? = none) (taken : page.custody = .taken)
    (fits : Fits inner page.scratch.progress guard) :
    TurnOk codec inner (.reader number) false ⟨owner, .cleanup, shared⟩
      (turn (AsyncCleanupGuard.dropTask guard) () (fun _ => .left guard none)
        fun _ _ => .gone none) page := by
  apply turnOk_turn
  refine Method.wp_post (wp_dropTask nothing taken fits fun keeper => (by cases keeper)) ?_ ?_
  · rintro _ _ next ⟨custody, gone, -⟩
    rw [Page.relaxed_taken custody]
    exact gone
  · exact fun _ _ _ never => never.elim

/-- The books a call of a reader finds when it begins. -/
theorem turnOk_reader {owner : ReplayOwner Value} {label : ReplayCall Value}
    {turn : Turn Unit Value (ReplayOwner Value)} {shared : ReplayShared}
    {before : Option (Begun Value)} (ok : OwnerOk inner (.reader number) before owner page)
    (called : owner.call label = some (cancellable, turn)) (fresh : page.seen = [])
    (state : shared.state = page.published.state) :
    TurnOk codec inner (.reader number) cancellable ⟨owner, label, shared⟩ turn page := by
  cases owner with
  | cursor cursor reading =>
      obtain ⟨reads, -⟩ := ok
      cases label with
      | nextCommitted =>
          cases called
          exact turnOk_nextCommitted reads fresh state
      | next =>
          cases called
          exact turnOk_nextTurn reads rfl fresh state
      | rewind =>
          cases called
          change OwnerOk inner (.reader number) (some ⟨.cursor cursor reading, .rewind, shared⟩)
            (.cursor cursor.rewind (.new 0)) page.relaxed
          rw [Page.relaxed_eq reads.custody]
          refine ⟨⟨reads.storage, reads.custody, Nat.zero_le _, ?_, Nat.le_refl _, ?_⟩, ?_⟩
          · rfl
          · rfl
          · rintro _ ⟨⟩
            exact ⟨fun _ => nofun, fun _ pulls => pulls.elim, nofun, nofun, fun pulls => pulls.elim⟩
      | drop =>
          cases called
          exact turnOk_dropCursor reads
      | _ => cases called
  | waiting cursor reading =>
      obtain ⟨reads, -⟩ := ok
      cases label with
      | next =>
          cases called
          exact turnOk_nextTurn reads rfl fresh state
      | _ => cases called
  | left guard account =>
      cases account with
      | some account => cases ok
      | none =>
          obtain ⟨taken, fits⟩ := ok
          cases label with
          | cleanup =>
              cases called
              exact turnOk_cleanupReader rfl taken fits
          | _ => cases called
  | gone account => cases label <;> cases called
  | writer | unwinding | «sealed» => cases ok

end Calls

end SortGovernor.Runtime
