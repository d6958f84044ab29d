import SortGovernor.Runtime.Readers

/-!
# The calls of a replay's keeper

No one else publishes, and no one else touches the scratch directory while the
keeper holds a reference, so its calls are read one request after another.  A
call that fails or is dropped leaves the publication failed, and the scratch
owner stays with whoever holds the reference.
-/

namespace SortGovernor.Runtime

open SortGovernor.Engine SortGovernor.Resumption

variable {Value State Result : Type} {codec : Codec Unit Value} {inner : ReplayInner}
  {page : Page Value}

section Rules

variable {issue : State → Request Unit Value → Page Value → Prop}
  {err : Abort → State → Page Value → Prop} {state : State}

theorem wp_askKeeper {op : Request Unit Value} {ok : op.Reply → State → Page Value → Prop}
    (held : page.custody ≠ .away) (issued : issue state op page)
    (done : ∀ reply next, Acts codec inner op (page.issued op) reply next →
      ok reply state { next with seen := next.seen ++ noted op reply }) :
    (ask op : Async Unit Value State op.Reply).wp (books codec inner .keeper) issue ok err state
      page := by
  apply wp_askBooks issued
  intro reply middle next rely acts
  obtain rfl := rely.eq (by rwa [(page.issued_keeps op).2.1])
  exact done reply next acts

theorem wp_accessKeeper (request : ReplayRequest)
    {ok : request.Reply → State → Page Value → Prop} (held : page.custody ≠ .away)
    (issued : issue state (.replay request) page)
    (done : ∀ reply next, ReplayRequest.Acts inner request page reply next →
      ok reply state { next with seen := next.seen ++ ReplayRequest.observed request reply }) :
    (access request : Async Unit Value State request.Reply).wp (books codec inner .keeper) issue ok
      err state page :=
  wp_askKeeper held issued done

theorem wp_reserveKeeper {bytes : Nat} {ok : MemoryCharge → State → Page Value → Prop}
    (held : page.custody ≠ .away) (issued : issue state (.reserve bytes) page)
    (failed : ∀ error, err (.error error) state page) (done : ok ⟨bytes⟩ state page) :
    (reserve bytes : Async Unit Value State MemoryCharge).wp (books codec inner .keeper) issue ok
      err state page := by
  apply wp_reserveBooks issued
  · intro next rely
    rw [rely.eq held]
    exact failed
  · intro next rely
    rw [rely.eq held]
    exact done

theorem wp_performKeeper [Layout Unit Value] {io : ScopeId} {pathBytes : Nat}
    {held : List MemoryCharge} {job : FsJob} {ok : job.Value → State → Page Value → Prop}
    (holds : page.custody ≠ .away) (reserving : ∀ bytes, issue state (.reserve bytes) page)
    (issued : ∀ held, issue state (.perform io held job) page)
    (refused : ∀ error, err (.error error) state page)
    (failed : ∀ held error seen,
      err (.error error) state { page.issued (.perform io held job) with seen })
    (done : ∀ held value seen,
      ok value state { (page.issued (.perform io held job)).delivered job with seen }) :
    (perform io pathBytes held job : Async Unit Value State job.Value).wp
      (books codec inner .keeper) issue ok err state page := by
  refine Method.wp_bind.mpr (wp_orErrorBooks (refused _) fun bytes _ => ?_)
  refine Method.wp_bind.mpr (wp_reserveKeeper holds (reserving bytes) refused ?_)
  refine Method.wp_bind.mpr (wp_askKeeper holds (issued _) ?_)
  intro reply next acts
  cases reply with
  | error error =>
      obtain rfl : next = _ := acts
      exact failed _ error _
  | ok value =>
      obtain ⟨-, rfl⟩ := acts
      exact done _ value _

end Rules

section Keeps

variable {writer : ReplayWriter} {account : Account Value}

theorem Keeps.holds (keeps : Keeps inner writer account page) : page.custody.Holds :=
  .inl keeps.custody

theorem Keeps.held (keeps : Keeps inner writer account page) : page.custody ≠ .away :=
  keeps.holds.present

theorem Keeps.noted (keeps : Keeps inner writer account page)
    (encoded : Option (RunRow Unit Value × Serialization)) (seen : List Seen) :
    Keeps inner writer account { page with encoded, seen } :=
  ⟨keeps.storage, keeps.custody, keeps.unsealed, keeps.seals, keeps.appended, keeps.owed,
    keeps.cleanup⟩

theorem Keeps.counted (keeps : Keeps inner writer account page) (run : Option RunWriter)
    (rows : Nat) : Keeps inner { writer with writer := run, rows } account page :=
  ⟨keeps.storage, keeps.custody, keeps.unsealed, keeps.seals, keeps.appended, keeps.owed,
    keeps.cleanup⟩

theorem Keeps.relaxed (keeps : Keeps inner writer account page) :
    Keeps inner writer account page.relaxed := by
  rwa [Page.relaxed_eq keeps.custody]

theorem Keeps.moved (keeps : Keeps inner writer account page) {progress : Progress Value}
    (same : progress.isArmed = page.scratch.progress.isArmed) (busy : Bool) :
    Keeps inner writer account { page with scratch := { page.scratch with progress, busy } } := by
  obtain ⟨guard, known, fits⟩ := keeps.cleanup
  exact ⟨keeps.storage, keeps.custody, keeps.unsealed, keeps.seals, keeps.appended, keeps.owed,
    guard, known, fits.congr same⟩

theorem Keeps.issued {op : Request Unit Value} (keeps : Keeps inner writer account page)
    (permits : Permits codec inner .keeper page op) :
    Keeps inner writer account (page.issued op) := by
  have stays := @Keeps.moved _ _ _ _ _ keeps page.scratch.progress rfl
  cases op with
  | perform io held job =>
      obtain ⟨-, -, allows⟩ := permits
      cases job with
      | ensureDir | create => exact stays true
      | append path len weight bytes =>
          obtain ⟨-, -, ready, -, -, -, row, pass, encoded, -⟩ := allows
          simp only [Page.issued, encoded]
          have moved := @Keeps.moved _ _ _ _ _ keeps (.appending ⟨row.record, weight, bytes⟩)
            (by rw [ready]; rfl) true
          rwa [encoded] at moved
      | patch =>
          obtain ⟨-, -, ready, -⟩ := allows
          exact @Keeps.moved _ _ _ _ _ keeps .sealing (by rw [ready]; rfl) true
      | removeDirAll =>
          obtain ⟨-, cleared, -⟩ := allows
          exact @Keeps.moved _ _ _ _ _ keeps .removing (by rw [cleared]; rfl) true
      | _ => exact keeps
  | _ => exact keeps

end Keeps

section Publication

variable {cancellable : Bool} {begun : Begun Value} {left : ReplayOwner Value}

theorem issues_notify (held : page.custody.Holds) :
    Issues codec inner .keeper cancellable begun left (.replay .notifyWaiters) page :=
  ⟨rfl, fun _ _ => rfl, fun token same => (by cases same), fun _ awaits => Bool.noConfusion awaits,
    fun reader => absurd rfl reader, fun taken => absurd taken held.refers⟩

theorem issues_access {request : ReplayRequest}
    (held : page.custody.Holds) (permits : Permits codec inner .keeper page (.replay request))
    (settled : page.published.owed = false) (atOnce : ∀ token, request ≠ .changed token) :
    Issues codec inner .keeper cancellable begun left (.replay request) page := by
  refine ⟨permits, fun owed => absurd owed (by simp [settled]), ?_, ?_,
    fun reader => absurd rfl reader, fun taken => absurd taken held.refers⟩
  · rintro token ⟨⟩
    exact absurd rfl (atOnce token)
  · intro _ awaits
    cases request with
    | changed token => exact absurd rfl (atOnce token)
    | _ => cases awaits

/-- The page after `fail`. -/
def Page.failed (page : Page Value) : Page Value :=
  if page.published.state = .writing then
    { page with published := { page.published with
        state := .failed, notices := page.published.notices + 1, owed := false } }
  else page

theorem Page.failed_of_writing (writing : page.published.state = .writing) :
    page.failed = { page with published := { page.published with
      state := .failed, notices := page.published.notices + 1, owed := false } } :=
  if_pos writing

theorem Page.failed_state (unsealed : page.published.state ≠ .sealed) :
    page.failed.published.state = .failed := by
  unfold Page.failed
  split
  · rfl
  · rename_i ended
    cases found : page.published.state with
    | writing => exact absurd found ended
    | «sealed» => exact absurd found unsealed
    | failed => rfl

theorem Page.failed_rest (page : Page Value) : page.failed.scratch = page.scratch ∧
    page.failed.custody = page.custody ∧ page.failed.seen = page.seen ∧
    page.failed.published.values = page.published.values := by
  unfold Page.failed
  split <;> exact ⟨rfl, rfl, rfl, rfl⟩

theorem Page.failed_owed (settled : page.published.owed = false) :
    page.failed.published.owed = false := by
  unfold Page.failed
  split
  · rfl
  · exact settled

theorem wp_fail {dropped : State → ReplayOwner Value} {state : State}
    {ok : Unit → State → Page Value → Prop} {err : Abort → State → Page Value → Prop}
    (held : page.custody.Holds) (settled : page.published.owed = false)
    (done : ok () state page.failed) :
    (Publication.fail : Async Unit Value State Unit).wp (books codec inner .keeper)
      (fun left op page => Issues codec inner .keeper cancellable begun (dropped left) op page)
      ok err state page := by
  refine Method.wp_bind.mpr (wp_accessKeeper (.compareExchange .failed) held.present ?_ ?_)
  · exact issues_access held ⟨rfl, held.present, by simp⟩ settled (by simp)
  intro swapped next acts
  simp only [ReplayRequest.Acts] at acts
  by_cases writing : page.published.state = .writing
  · rw [if_pos writing] at acts
    obtain ⟨rfl, rfl⟩ := acts
    rw [Page.failed_of_writing writing] at done
    refine wp_accessKeeper .notifyWaiters held.present (issues_notify held) ?_
    rintro _ _ rfl
    simp only [ReplayRequest.observed, List.append_nil]
    exact done
  · rw [if_neg writing] at acts
    obtain ⟨rfl, rfl⟩ := acts
    simp only [Page.failed, if_neg writing] at done
    simp only [ReplayRequest.observed, List.append_nil]
    exact done

theorem Keeps.failed {writer : ReplayWriter} {account : Account Value}
    (keeps : Keeps inner writer account page) : Keeps inner writer account page.failed := by
  obtain ⟨scratch, custody, -, values⟩ := page.failed_rest
  refine ⟨keeps.storage, custody.trans keeps.custody, ?_, keeps.seals,
    keeps.appended.trans values.symm, Page.failed_owed keeps.owed, ?_⟩
  · simp [Page.failed_state keeps.unsealed]
  · rw [scratch]
    exact keeps.cleanup

end Publication

section Append

variable {writer : ReplayWriter} {account : Account Value} {begun : Begun Value}

/-- A request of an append or a seal; dropped there, the publication is to fail. -/
abbrev WriteIssue (codec : Codec Unit Value) (inner : ReplayInner) (begun : Begun Value)
    (account : Account Value) (left : ReplayWriter) (op : Request Unit Value) (page : Page Value) :
    Prop :=
  Issues codec inner .keeper true begun (.unwinding left account.droppedCall) op page

theorem Keeps.issues (keeps : Keeps inner writer account page) {op : Request Unit Value}
    (permits : Permits codec inner .keeper page op)
    (other : ∀ token, op ≠ .replay (.changed token)) :
    WriteIssue codec inner begun account writer op page := by
  refine ⟨permits, ?_, fun token same => absurd same (other token), ?_,
    fun reader => absurd rfl reader, fun taken => absurd taken keeps.holds.refers⟩
  · intro owed
    exact absurd owed (by simp [keeps.owed])
  · intro _ _
    have kept := (keeps.issued permits).relaxed
    exact ⟨⟨kept.storage, kept.custody, kept.unsealed, kept.seals, kept.appended, kept.owed,
      kept.cleanup⟩, rfl, rfl⟩

/-- An append or a seal that stops has published nothing. -/
structure Stops (inner : ReplayInner) (account : Account Value) (published : Published Value)
    (abort : Abort) (writer : ReplayWriter) (page : Page Value) : Prop where
  error : ∃ error, abort = .error error
  keeps : Keeps inner writer account page
  published : page.published = published

theorem Keeps.stops (keeps : Keeps inner writer account page) (error : SorterError) :
    Stops inner account page.published (.error error) writer page :=
  ⟨⟨error, rfl⟩, keeps, rfl⟩

variable {ok : Unit → ReplayWriter → Page Value → Prop}

/-- The scratch owner of an unarmed replay takes the reservation and the directory. -/
theorem wp_arm {reservation : MemoryCharge} (keeps : Keeps inner writer account page)
    (writing : page.published.state = .writing) (unarmed : page.scratch.progress = .unarmed)
    (done : ∀ scratch seen, scratch.progress = .armed → scratch.busy = page.scratch.busy →
      Keeps inner writer account { page with scratch, seen } →
      ok () writer { page with scratch, seen }) :
    (inner.arm reservation : Async Unit Value ReplayWriter Unit).wp (books codec inner .keeper)
      (WriteIssue codec inner begun account) ok
        (Stops inner account page.published) writer page := by
  refine Method.wp_bind.mpr (wp_accessKeeper .lockCleanup keeps.held
    (keeps.issues trivial (by simp)) ?_)
  rintro guard next ⟨known, rfl⟩
  obtain ⟨guard', known', fits⟩ := keeps.cleanup
  cases known.symm.trans known'
  have free : guard.reservation = none := by
    have none := fits.reservation
    rw [unarmed] at none
    exact Option.not_isSome_iff_eq_none.mp (by simp [none, Progress.isArmed])
  have still : guard.dir = none := by
    have none := fits.dir
    rwa [unarmed] at none
  have kept := keeps.noted next.encoded (next.seen ++ ReplayRequest.observed .lockCleanup guard)
  refine Method.wp_bind.mpr (Method.wp_ofExcept.mpr ?_)
  simp only [AsyncCleanupGuard.retain, free]
  have armed : Fits inner (.armed : Progress Value)
      (AsyncCleanupGuard.arm { guard with reservation := some reservation } inner.dir) := by
    refine ⟨fits.scope, fits.fds, ?_, rfl⟩
    simp [AsyncCleanupGuard.arm, still, Progress.isArmed]
  refine wp_accessKeeper (.storeCleanup _) kept.held (kept.issues ?_ (by simp)) ?_
  · exact ⟨rfl, .inr ⟨keeps.custody, unarmed, writing, armed⟩⟩
  · rintro _ _ rfl
    apply done
    · simp [unarmed, Progress.stored, AsyncCleanupGuard.arm]
    · rfl
    · refine ⟨keeps.storage, keeps.custody, keeps.unsealed, keeps.seals, keeps.appended, keeps.owed,
        _, rfl, ?_⟩
      simp only [unarmed, Progress.stored, AsyncCleanupGuard.arm, reduceCtorEq, ↓reduceIte]
      exact armed

variable [Layout Unit Value]

theorem wp_performWriter {pathBytes : Nat} {held : List MemoryCharge} (job : FsJob)
    {ok : job.Value → ReplayWriter → Page Value → Prop} (keeps : Keeps inner writer account page)
    (allows : Allows codec inner .keeper page job)
    (done : ∀ held value seen,
      ok value writer { (page.issued (.perform inner.scope held job)).delivered job with seen }) :
    (perform inner.scope pathBytes held job : Async Unit Value ReplayWriter job.Value).wp
      (books codec inner .keeper) (WriteIssue codec inner begun account) ok
      (Stops inner account page.published) writer page := by
  have permits : ∀ held, Permits codec inner .keeper page (.perform inner.scope held job) :=
    fun held => ⟨rfl, keeps.held, allows⟩
  apply wp_performKeeper keeps.held
  · exact fun bytes => keeps.issues trivial (by simp)
  · exact fun held => keeps.issues (permits held) (by simp)
  · exact keeps.stops
  · intro held error seen
    have kept := (keeps.issued (permits held)).noted
      (page.issued (.perform inner.scope held job)).encoded seen
    exact ⟨⟨error, rfl⟩, kept, (page.issued_keeps _).1⟩
  · exact done

/-- A writer that is prepared: it has a rows file that holds what is published. -/
structure Opened (inner : ReplayInner) (account : Account Value) (before : ReplayWriter)
    (published : Published Value) (writer : ReplayWriter) (page : Page Value) : Prop where
  keeps : Keeps inner writer account page
  published : page.published = published
  rows : writer.rows = before.rows
  run : ∃ run, writer.writer = some run ∧ run.path = inner.path ∧ run.io = inner.scope
  progress : page.scratch.progress = .ready
  busy : page.scratch.busy = false

theorem wp_prepare (keeps : Keeps inner writer account page)
    (writing : page.published.state = .writing) (prepared : Prepared inner writer page)
    (done : ∀ writer' page', Opened inner account writer page.published writer' page' →
      ok () writer' page') :
    (ReplayWriter.prepare : Async Unit Value ReplayWriter Unit).wp (books codec inner .keeper)
      (WriteIssue codec inner begun account) ok
        (Stops inner account page.published) writer page := by
  unfold ReplayWriter.prepare
  refine Method.wp_bind.mpr (Method.wp_get.mpr ?_)
  obtain ⟨none, unarmed, -⟩ | ⟨⟨run, some, path, io⟩, ready⟩ := prepared.file
  · simp only [none]
    refine Method.wp_bind.mpr (Method.wp_bind.mpr (Method.wp_get.mpr ?_))
    refine wp_orErrorBooks (keeps.stops _) ?_
    intro inner' isInner
    obtain rfl : inner = inner' := Option.some.inj (keeps.storage.symm.trans isInner)
    refine Method.wp_bind.mpr (wp_orErrorBooks (keeps.stops _) fun bytes _ => ?_)
    refine Method.wp_bind.mpr (wp_reserveKeeper keeps.held (keeps.issues trivial (by simp))
      keeps.stops ?_)
    refine Method.wp_bind.mpr (wp_arm keeps writing unarmed ?_)
    intro scratch seen armed busy kept
    refine Method.wp_bind.mpr (wp_performWriter (.ensureDir inner.dir) kept ?_ ?_)
    · exact ⟨rfl, rfl, armed, busy.trans prepared.busy⟩
    intro held _ seen
    have made : Keeps inner writer account { page with
        scratch := { scratch with progress := .made, busy := false }, seen } :=
      (@Keeps.moved _ _ _ _ _ kept .made (by rw [armed]; rfl) false).noted _ seen
    refine Method.wp_bind.mpr
      (Method.wp_bind.mpr (wp_performWriter (.create inner.path) made ?_ ?_))
    · exact ⟨rfl, rfl, rfl, rfl⟩
    intro held _ seen
    refine Method.wp_pure.mpr (Method.wp_modify.mpr (done _ _ ?_))
    have ready := (@Keeps.moved _ _ _ _ _ made .ready rfl false).noted page.encoded seen
    exact ⟨⟨ready.storage, ready.custody, ready.unsealed, ready.seals, ready.appended, ready.owed,
      ready.cleanup⟩, rfl, rfl, ⟨_, rfl, rfl, rfl⟩, rfl, rfl⟩
  · simp only [some]
    exact done writer page ⟨keeps, rfl, rfl, ⟨run, some, path, io⟩, ready, prepared.busy⟩

omit [Layout Unit Value] in
theorem wp_serializeWriter {row : RunRow Unit Value}
    {ok : Serialization → ReplayWriter → Page Value → Prop}
    {err : Abort → ReplayWriter → Page Value → Prop} (keeps : Keeps inner writer account page)
    (done : ∀ pass, codec.serializes row pass →
      ok pass writer { page with encoded := some (row, pass) }) :
    (serialize row : Async Unit Value ReplayWriter Serialization).wp (books codec inner .keeper)
      (WriteIssue codec inner begun account) ok err writer page := by
  refine wp_askKeeper keeps.held (keeps.issues trivial (by simp)) ?_
  rintro pass _ ⟨serializes, rfl⟩
  simp only [noted, observed, List.append_nil]
  exact done pass serializes

omit [Layout Unit Value] in
/-- A successful `encode` returns the last pass over its row. -/
theorem wp_encodeWriter {row : RunRow Unit Value}
    {ok : List UInt8 × MemoryCharge → ReplayWriter → Page Value → Prop}
    (keeps : Keeps inner writer account page)
    (done : ∀ charge pass, codec.serializes row pass → pass.failure = none →
      ok (pass.bytes, charge) writer { page with encoded := some (row, pass) }) :
    (encode row : Async Unit Value ReplayWriter _).wp (books codec inner .keeper)
      (WriteIssue codec inner begun account) ok
        (Stops inner account page.published) writer page := by
  refine Method.wp_bind.mpr (wp_askKeeper keeps.held (keeps.issues trivial (by simp)) ?_)
  intro limit next same
  obtain rfl : page = next := same.symm
  simp only [noted, observed, List.append_nil]
  refine Method.wp_bind.mpr (wp_serializeWriter keeps ?_)
  intro sizing _
  have sized := keeps.noted (some (row, sizing)) page.seen
  refine Method.wp_bind.mpr (wp_propagateBooks (fun _ _ => sized.stops _) fun count _ => ?_)
  refine Method.wp_bind.mpr (Method.wp_bind.mpr (wp_orErrorBooks (sized.stops _) ?_))
  intro working _
  refine wp_reserveKeeper sized.held (sized.issues trivial (by simp)) sized.stops ?_
  refine Method.wp_bind.mpr (wp_serializeWriter sized ?_)
  intro pass serializes
  have filled := keeps.noted (some (row, pass)) page.seen
  refine Method.wp_bind.mpr (wp_propagateBooks (fun _ _ => filled.stops _) ?_)
  intro written isWritten
  refine Method.wp_ite.mpr ⟨fun _ => filled.stops _, fun _ => ?_⟩
  have frame : pass.failure = none ∧ written.bytes = pass.bytes := by
    cases all : intoWriter FrameWriter.write
        { bytes := [], capacity := count.bytes, limit := count.bytes } pass with
    | error text =>
        rw [all] at isWritten
        cases isWritten
    | ok last =>
        rw [all] at isWritten
        cases isWritten
        exact intoWriter_frame all
  refine Method.wp_pure.mpr ?_
  rw [frame.2]
  exact done _ pass serializes frame.1

/-- An append that has reached the file, and is not published yet. -/
structure Appended (inner : ReplayInner) (account : Account Value) (published : Published Value)
    (value : Value) (writer : ReplayWriter) (page : Page Value) : Prop where
  keeps : Keeps inner writer account page
  published : page.published = published
  row : ∃ row, page.scratch.progress = .appended row ∧ row.value = value
  busy : page.scratch.busy = false

theorem wp_writeRowWriter {run : RunWriter} {row : RunRow Unit Value}
    {ok : RunWriter → ReplayWriter → Page Value → Prop} (keeps : Keeps inner writer account page)
    (path : run.path = inner.path) (io : run.io = inner.scope)
    (ready : page.scratch.progress = .ready) (busy : page.scratch.busy = false)
    (done : ∀ run' page', Appended inner account page.published row.value writer page' →
      run'.path = inner.path → run'.io = inner.scope → ok run' writer page') :
    (run.writeRow row : Async Unit Value ReplayWriter RunWriter).wp (books codec inner .keeper)
      (WriteIssue codec inner begun account) ok
        (Stops inner account page.published) writer page := by
  refine Method.wp_bind.mpr (wp_encodeWriter keeps ?_)
  intro charge pass serializes complete
  have encoded := keeps.noted (some (row, pass)) page.seen
  refine Method.wp_bind.mpr (wp_orErrorBooks (encoded.stops _) fun len lenEq => ?_)
  obtain ⟨fits, rfl⟩ := tryFrom_eq_some.mp lenEq
  refine Method.wp_bind.mpr (wp_orErrorBooks (encoded.stops _) fun weight _ => ?_)
  rw [io, path]
  refine Method.wp_bind.mpr (wp_performWriter
    (.append inner.path pass.bytes.length weight pass.bytes) encoded ?_ ?_)
  · exact ⟨rfl, rfl, ready, busy, rfl, fits, row, pass, rfl, serializes, complete, rfl⟩
  intro held _ seen
  have appended : Appended inner account page.published row.value writer
      { page with
        encoded := some (row, pass)
        scratch := { page.scratch with
          progress := .appended ⟨row.record, weight, pass.bytes⟩, busy := false }
        seen } := by
    refine ⟨?_, rfl, ⟨_, rfl, rfl⟩, rfl⟩
    exact (@Keeps.moved _ _ _ _ _ keeps (.appended ⟨row.record, weight, pass.bytes⟩)
      (by rw [ready]; rfl) false).noted _ _
  refine Method.wp_bind.mpr (wp_orErrorBooks ?_ fun count _ => ?_)
  · exact ⟨⟨_, rfl⟩, appended.keeps, rfl⟩
  · exact done _ _ appended rfl rfl

omit [Layout Unit Value] in
theorem Accounts.ofAppends (appends : begun.call.Appends)
    (refused : begun.shared.state ≠ .writing →
      account.last = some (.error (.error .sessionFailed))) :
    Accounts inner begun account page := by
  have other : begun.call ≠ .abort ∧ begun.call ≠ .close ∧ ¬begun.call.Ends := by
    cases call : begun.call <;> simp_all [ReplayCall.Appends, ReplayCall.Ends]
  exact ⟨fun _ => refused, fun ends => absurd ends other.2.2,
    fun call => absurd call other.1, fun call => absurd call other.2.1,
    fun call => absurd call other.1, fun ends => absurd ends other.2.2⟩

omit [Layout Unit Value] in
/-- A `PublicationGuard` stands between a body that stops and its caller. -/
theorem wp_guarded {Result : Type} {body : Async Unit Value ReplayWriter Result}
    {ok : Result → ReplayWriter → Page Value → Prop}
    {err : Abort → ReplayWriter → Page Value → Prop}
    (keeps : Keeps inner writer account page)
    (refused : page.published.state ≠ .writing → ∀ seen,
      err (.error .sessionFailed) writer { page with seen })
    (runs : page.published.state = .writing → ∀ seen,
      body.wp (books codec inner .keeper) (WriteIssue codec inner begun account) ok
        (Stops inner account page.published) writer { page with seen })
    (stopped : page.published.state = .writing → ∀ abort writer' page',
      Stops inner account page.published abort writer' page' → err abort writer' page'.failed) :
    (Publication.guarded body : Async Unit Value ReplayWriter Result).wp (books codec inner .keeper)
      (WriteIssue codec inner begun account) ok err writer page := by
  refine Method.wp_bind.mpr (Method.wp_bind.mpr
    (wp_accessKeeper .loadState keeps.held (keeps.issues trivial (by simp)) ?_))
  rintro state next ⟨isState, same⟩
  obtain rfl : page = next := same.symm
  refine Method.wp_ite.mpr ⟨?_, ?_⟩
  · intro writing
    rw [isState] at writing
    refine Method.wp_pure.mpr (Method.wp_tryCatch.mpr ?_)
    refine Method.wp_post (runs writing _) (fun _ _ _ reached => reached) ?_
    intro abort writer' page' stops
    refine Method.wp_bind.mpr (wp_fail stops.keeps.holds stops.keeps.owed ?_)
    exact Method.wp_throw.mpr (stopped writing abort writer' page' stops)
  · intro ended
    rw [isState] at ended
    exact refused ended _

omit [Layout Unit Value] in
theorem Published.values_append (published : Published Value) (row : Committed Value)
    (notices : Nat) (owed : Bool) :
    ({ published with rows := published.rows ++ [row], notices, owed } : Published Value).values =
      published.values ++ [row.value] := by
  simp [Published.values]

def Page.publishes (page : Page Value) (row : Committed Value) (seen : List Seen) : Page Value :=
  { page with
    published := { page.published with
      rows := page.published.rows ++ [row], notices := page.published.notices + 1, owed := false }
    scratch := { page.scratch with progress := .ready }
    seen }

omit [Layout Unit Value] in
theorem Keeps.publishes (keeps : Keeps inner writer account page) {row : Committed Value}
    (appended : page.scratch.progress = .appended row) (seen : List Seen) :
    Keeps inner writer (account.appendReturned row.value (.ok ())) (page.publishes row seen) := by
  obtain ⟨guard, known, fits⟩ := keeps.cleanup
  refine ⟨keeps.storage, keeps.custody, keeps.unsealed, keeps.seals, ?_, rfl, guard, known, ?_⟩
  · have same := congrArg (· ++ [row.value]) keeps.appended
    exact same.trans (Published.values_append ..).symm
  · exact fits.congr (by rw [appended]; rfl)

omit [Layout Unit Value] in
theorem wp_publish {published : Published Value} {row : Committed Value}
    {ok : Unit → ReplayWriter → Page Value → Prop} {err : Abort → ReplayWriter → Page Value → Prop}
    (keeps : Keeps inner writer account page) (still : page.published = published)
    (writing : published.state = .writing) (appended : page.scratch.progress = .appended row)
    (done : ∀ seen, ok () writer (page.publishes row seen)) :
    (Publication.publish (published.rows.length + 1) : Async Unit Value ReplayWriter Unit).wp
      (books codec inner .keeper) (WriteIssue codec inner begun account) ok err writer page := by
  obtain rfl := still
  refine Method.wp_bind.mpr
    (wp_accessKeeper .loadState keeps.held (keeps.issues trivial (by simp)) ?_)
  rintro state next ⟨isState, same⟩
  obtain rfl : page = next := same.symm
  obtain rfl := isState
  refine Method.wp_ite.mpr ⟨fun _ => ?_, fun ended => absurd writing ended⟩
  have kept := keeps.noted page.encoded
    (page.seen ++ ReplayRequest.observed .loadState page.published.state)
  refine Method.wp_bind.mpr (wp_accessKeeper (.storeRows (page.published.rows.length + 1))
    kept.held (kept.issues ?_ ?_) ?_)
  · exact ⟨rfl, kept.held, rfl, writing, row, appended⟩
  · exact fun token same => (by cases same)
  rintro _ _ ⟨row', isAppended, rfl⟩
  obtain rfl := Progress.appended.inj (appended.symm.trans isAppended)
  refine wp_accessKeeper .notifyWaiters kept.held (issues_notify kept.holds) ?_
  rintro _ _ rfl
  exact done _

variable {shared : ReplayShared}

omit [Layout Unit Value] in
theorem wp_active {issue : ReplayWriter → Request Unit Value → Page Value → Prop}
    {ok : ReplayInner → ReplayWriter → Page Value → Prop}
    {err : Abort → ReplayWriter → Page Value → Prop} (storage : writer.inner = some inner)
    (done : ok inner writer page) :
    (ReplayWriter.active : Async Unit Value ReplayWriter ReplayInner).wp (books codec inner .keeper)
      issue ok err writer page := by
  refine Method.wp_bind.mpr (Method.wp_get.mpr ?_)
  rw [orError, storage]
  exact done

omit [Layout Unit Value] in
theorem Keeps.refused (call : ReplayCall Value) (keeps : Keeps inner writer account page)
    (appends : call.Appends) (ended : page.published.state ≠ .writing) (seen : List Seen) :
    OwnerOk inner .keeper (some ⟨.writer writer account, call, shared⟩)
      (.writer writer (account.sealFailed (.error .sessionFailed))) { page with seen }.relaxed := by
  have kept := keeps.noted page.encoded seen
  rw [Page.relaxed_eq kept.custody]
  refine ⟨⟨kept.storage, kept.custody, kept.unsealed, kept.seals, kept.appended, kept.owed,
    kept.cleanup⟩, ?_, fun writing => absurd writing ended, ?_⟩
  · rintro _ ⟨⟩
    exact ⟨_, rfl⟩
  · rintro _ ⟨⟩
    exact Accounts.ofAppends appends fun _ => rfl

omit [Layout Unit Value] in
theorem Stops.ownerOk (call : ReplayCall Value) {owner : ReplayOwner Value} {abort : Abort}
    {published : Published Value} (stops : Stops inner account published abort writer page)
    (appends : call.Appends) (began : shared.state = .writing) :
    OwnerOk inner .keeper (some ⟨owner, call, shared⟩) (.writer writer (account.sealFailed abort))
      page.failed.relaxed := by
  have kept := stops.keeps.failed
  rw [Page.relaxed_eq kept.custody]
  refine ⟨⟨kept.storage, kept.custody, kept.unsealed, kept.seals, kept.appended, kept.owed,
    kept.cleanup⟩, ?_, ?_, ?_⟩
  · rintro _ ⟨⟩
    exact stops.error
  · intro writing
    rw [Page.failed_state stops.keeps.unsealed] at writing
    cases writing
  · rintro _ ⟨⟩
    exact Accounts.ofAppends appends fun ended => absurd began ended

theorem turnOk_append (value : Value) (bytes : UInt64) (keeps : Keeps inner writer account page)
    (may : page.published.state = .writing → account.broken = false ∧ Prepared inner writer page)
    (state : shared.state = page.published.state) :
    TurnOk codec inner .keeper true ⟨.writer writer account, .append value bytes, shared⟩
      (turn (ReplayWriter.appendWithSize value bytes) writer
        (fun current => .unwinding current account.droppedCall)
        fun outcome current => .writer current (account.appendReturned value outcome)) page := by
  apply turnOk_turn
  unfold ReplayWriter.appendWithSize
  refine Method.wp_bind.mpr (wp_active keeps.storage (wp_guarded keeps ?_ ?_ ?_))
  · exact fun ended seen => Keeps.refused (.append value bytes) keeps trivial ended seen
  · intro writing seen
    obtain ⟨fine, prepared⟩ := may writing
    have kept := keeps.noted page.encoded seen
    refine Method.wp_bind.mpr
      (Method.wp_get.mpr (Method.wp_bind.mpr (wp_orErrorBooks (kept.stops _) ?_)))
    intro next isNext
    obtain ⟨-, rfl⟩ := checkedAdd_eq_some.mp isNext
    refine Method.wp_bind.mpr (wp_reserveKeeper kept.held (kept.issues trivial (by simp))
      kept.stops ?_)
    refine Method.wp_bind.mpr (wp_prepare kept writing
      ⟨prepared.rows, prepared.busy, prepared.file⟩ ?_)
    intro ready opened isOpened
    obtain ⟨run, isRun, path, io⟩ := isOpened.run
    refine Method.wp_bind.mpr (Method.wp_get.mpr (Method.wp_bind.mpr (Method.wp_okOr.mpr ?_)))
    simp only [isRun]
    have same : opened.published = page.published := isOpened.published
    have stopped : ∀ abort writer' page', Stops inner account opened.published abort writer' page' →
        Stops inner account page.published abort writer' page' :=
      fun _ _ _ stops => ⟨stops.error, stops.keeps, stops.published.trans same⟩
    refine Method.wp_bind.mpr (Method.wp_post (wp_writeRowWriter isOpened.keeps path io
      isOpened.progress isOpened.busy ?_) (fun _ _ _ reached => reached) stopped)
    intro run' last appended path' io'
    refine Method.wp_bind.mpr (Method.wp_modify.mpr (Method.wp_bind.mpr (Method.wp_modify.mpr ?_)))
    have counted : writer.rows = page.published.rows.length := prepared.rows
    have ends : Appended inner account page.published value
        { ready with writer := some run', rows := writer.rows + 1 } last :=
      ⟨appended.keeps.counted _ _, appended.published.trans same, appended.row, appended.busy⟩
    have kept := ends.keeps
    obtain ⟨row, isAppended, rfl⟩ := ends.row
    rw [counted] at kept ⊢
    refine wp_publish kept ends.published writing isAppended ?_
    intro seen
    have done := kept.publishes isAppended seen
    rw [Page.relaxed_eq done.custody]
    refine ⟨done, fun _ last => (by cases last),
      fun _ => ⟨fine, ?_, ends.busy, .inr ⟨⟨run', rfl, path', io'⟩, rfl⟩⟩, ?_⟩
    · have long := congrArg (fun published => published.rows.length) ends.published
      simpa [Page.publishes] using long.symm
    · rintro _ ⟨⟩
      exact Accounts.ofAppends trivial fun ended => absurd (state.trans writing) ended
  · intro writing abort writer' page' stops
    exact stops.ownerOk (.append value bytes) trivial (state.trans writing)

omit [Layout Unit Value] in
theorem wp_seal {ok : Unit → ReplayWriter → Page Value → Prop}
    {err : Abort → ReplayWriter → Page Value → Prop} (keeps : Keeps inner writer account page)
    (writing : page.published.state = .writing)
    (done : ∀ seen, ok () writer { page with
      published := { page.published with
        state := .sealed, notices := page.published.notices + 1, owed := false }
      seen }) :
    (Publication.seal : Async Unit Value ReplayWriter Unit).wp (books codec inner .keeper)
      (WriteIssue codec inner begun account) ok err writer page := by
  refine Method.wp_bind.mpr (wp_accessKeeper (.compareExchange .sealed) keeps.held
    (keeps.issues ?_ (by simp)) ?_)
  · exact ⟨rfl, keeps.held, by simp⟩
  intro swapped next acts
  simp only [ReplayRequest.Acts, if_pos writing] at acts
  obtain ⟨rfl, rfl⟩ := acts
  refine wp_accessKeeper .notifyWaiters keeps.held (issues_notify keeps.holds) ?_
  rintro _ _ rfl
  exact done _

theorem turnOk_seal (keeps : Keeps inner writer account page)
    (may : page.published.state = .writing → account.broken = false ∧ Prepared inner writer page)
    (state : shared.state = page.published.state) :
    TurnOk codec inner .keeper true ⟨.writer writer account, .seal, shared⟩
      (turn ReplayWriter.seal writer (fun current => .unwinding current account.droppedCall)
        (ReplayOwner.sealReturned account)) page := by
  apply turnOk_turn
  unfold ReplayWriter.seal
  refine Method.wp_bind.mpr (wp_active keeps.storage ?_)
  refine Method.wp_bind.mpr (wp_guarded keeps ?_ ?_ ?_)
  · exact fun ended seen => Keeps.refused .seal keeps trivial ended seen
  · intro writing seen
    obtain ⟨whole, prepared⟩ := may writing
    have kept := keeps.noted page.encoded seen
    refine Method.wp_bind.mpr (wp_prepare kept writing
      ⟨prepared.rows, prepared.busy, prepared.file⟩ ?_)
    intro ready opened isOpened
    obtain ⟨run, isRun, path, io⟩ := isOpened.run
    refine Method.wp_bind.mpr (Method.wp_get.mpr (Method.wp_bind.mpr (Method.wp_okOr.mpr ?_)))
    simp only [isRun]
    have same : opened.published = page.published := isOpened.published
    refine Method.wp_bind.mpr (Method.wp_modify.mpr ?_)
    have kept := isOpened.keeps.counted none ready.rows
    refine Method.wp_bind.mpr (Method.wp_bind.mpr ?_)
    rw [io, path]
    have stopped : ∀ abort writer' page', Stops inner account opened.published abort writer' page' →
        Stops inner account page.published abort writer' page' :=
      fun _ _ _ stops => ⟨stops.error, stops.keeps, stops.published.trans same⟩
    refine Method.wp_post (wp_performWriter (.patch inner.path run.count) kept ?_ ?_)
      (fun _ _ _ reached => reached) stopped
    · exact ⟨rfl, rfl, isOpened.progress, isOpened.busy⟩
    intro held _ seen
    refine Method.wp_pure.mpr ?_
    have patched : Keeps inner { ready with writer := none } account { opened with
        scratch := { opened.scratch with progress := .sealing, busy := false }, seen } :=
      (@Keeps.moved _ _ _ _ _ kept .sealing (by rw [isOpened.progress]; rfl) false).noted
        opened.encoded seen
    refine wp_seal patched ((congrArg Published.state same).trans writing) ?_
    intro seen
    refine Method.wp_bind.mpr (Method.wp_get.mpr (Method.wp_bind.mpr (Method.wp_okOr.mpr ?_)))
    have storage : ({ ready with writer := none } : ReplayWriter).inner = some inner :=
      patched.storage
    simp only [show ready.inner = some inner from storage]
    refine Method.wp_bind.mpr (Method.wp_modify.mpr (Method.wp_pure.mpr ?_))
    rw [Page.relaxed_eq]
    · refine ⟨⟨rfl, rfl, patched.custody, rfl, ?_, whole, ?_, rfl, rfl, patched.cleanup⟩,
        fun _ last => (by cases last), ?_⟩
      · exact congrArg (· + 1) patched.seals
      · exact patched.appended
      · rintro _ ⟨⟩
        exact Accounts.ofAppends trivial fun ended => absurd (state.trans writing) ended
    · exact patched.custody
  · intro writing abort writer' page' stops
    exact stops.ownerOk .seal trivial (state.trans writing)

end Append

end SortGovernor.Runtime
