import SortGovernor.Runtime.Endings
import SortGovernor.Runtime.Conservation

/-!
# The operations of a replay

An operation waits for its permit or is with a worker.  Reads find the committed
frames in place whatever else goes on.  At most one writing job is under way, it
is the one the books speak of, and the directory is where they say.
-/

namespace SortGovernor.Runtime

open SortGovernor.Engine SortGovernor.Resumption

variable {Client Shared Value : Type} {Actor : Client → Type}

namespace Operation

/-- A writing job that is under way, or whose caller waits for its outcome. -/
def Writes (operation : Operation Client) : Prop :=
  operation.job.Mutates = true ∧ (operation.Executing ∨ operation.attached = true)

def Spent (operation : Operation Client) : Prop :=
  operation.attached = false ∧ ¬operation.Executing ∧ operation.owned = []

instance : DecidablePred (Writes : Operation Client → Prop) :=
  fun operation => inferInstanceAs
    (Decidable (operation.job.Mutates = true ∧ (operation.Executing ∨ operation.attached = true)))

instance : DecidablePred (Spent : Operation Client → Prop) :=
  fun operation => inferInstanceAs
    (Decidable (operation.attached = false ∧ ¬operation.Executing ∧ operation.owned = []))

end Operation

/-- Every operation that has been issued and not forgotten. -/
def State.flights (state : State Shared Actor) : List (Operation Client) :=
  state.waiting.map Operation.spawn ++ state.operations

/-- No writing job is under way. -/
def Progress.isSettled : Progress Value → Bool
  | unarmed | ready | appended _ | cleared | removed => true
  | _ => false

def FsJob.Within (inner : ReplayInner) : FsJob → Prop
  | .ensureDir dir | .removeDirAll dir => dir = inner.dir
  | .create path | .append path .. | .patch path _ | .readFrame path .. => path = inner.path
  | .readCount _ | .removeIfExists _ => False

def Stands (inner : ReplayInner) (first fs : Fs) (rows : List (Committed Value)) :
    Progress Value → Prop
  | .unarmed => fs = first
  | .made => fs.dirs inner.dir = true
  | .ready => fs.dirs inner.dir = true ∧ RowsFile rows [] (fs.files inner.path)
  | .appending _ | .sealing =>
      fs.dirs inner.dir = true ∧ ∃ tail, RowsFile rows tail (fs.files inner.path)
  | .appended next => fs.dirs inner.dir = true ∧ RowsFile rows next.frame (fs.files inner.path)
  | .removed => fs.dirs inner.dir = false ∧ ∀ path, path.dir = inner.dir → fs.files path = none
  | .armed | .cleared | .removing => True

/-- What holds of one operation until it is forgotten. -/
structure Flies (codec : Codec Unit Value) (inner : ReplayInner) (progress : Progress Value)
    (rows : List (Committed Value)) (fs : Fs) (operation : Operation Client) : Prop where
  scope : operation.scope = some inner.scope
  within : FsJob.Within inner operation.job
  owned : operation.owned <:+ [.reservations, .permit, .guard]
  reads : operation.job.Mutates = false → operation.Executing →
    progress.isReadable = true ∧
      operation.work.wp (steadyReads rows) (fun _ call _ => call.Inspects inner.path)
        (fun result _ => ∀ value, result.1 = .ok value → FsJob.Hands codec rows operation.job value)
          ()
  hands : ∀ value, operation.outcome = some (.ok value) → FsJob.Hands codec rows operation.job value
  writes : operation.job.Mutates = true → operation.Executing →
    progress.Runs operation.job ∧
      operation.work.wp fileSemantics (fun _ call _ => operation.job.Uses call)
        (fun result fs => ∀ value, result.1 = .ok value → operation.job.Goal rows fs) fs
  ends : operation.job.Mutates = true → operation.attached = true →
    ∀ value, operation.outcome = some (.ok value) →
      progress.Runs operation.job ∧ operation.job.Goal rows fs

/-- The operations agree with the books. -/
structure Flights (codec : Codec Unit Value) (inner : ReplayInner) (first : Fs)
    (scratch : Scratch Value) (rows : List (Committed Value)) (fs : Fs)
    (flights : List (Operation Client)) : Prop where
  each : ∀ operation ∈ flights, Flies codec inner scratch.progress rows fs operation
  writes : flights.countP (fun operation => operation.Writes) ≤ scratch.busy.toNat
  spent : scratch.progress.isSpent = true →
    flights.countP (fun operation => ¬operation.Spent) ≤ scratch.busy.toNat
  unarmed : scratch.progress = .unarmed → flights = []
  settled : scratch.progress.isSettled = true → scratch.busy = false
  stands : Stands inner first fs rows scratch.progress

section Frames

variable {codec : Codec Unit Value} {inner : ReplayInner} {first fs fs' : Fs}
  {scratch scratch' : Scratch Value} {rows rows' : List (Committed Value)}
  {prior later flights flights' : List (Operation Client)} {operation changed : Operation Client}

theorem Flights.congr (ok : Flights codec inner first scratch rows fs flights)
    (progress : scratch'.progress = scratch.progress) (busy : scratch'.busy = scratch.busy) :
    Flights codec inner first scratch' rows fs flights := by
  constructor
  · rw [progress]
    exact ok.each
  · rw [busy]
    exact ok.writes
  · rw [progress, busy]
    exact ok.spent
  · rw [progress]
    exact ok.unarmed
  · rw [progress, busy]
    exact ok.settled
  · rw [progress]
    exact ok.stands

theorem Flights.perm (ok : Flights codec inner first scratch rows fs flights)
    (perm : flights'.Perm flights) : Flights codec inner first scratch rows fs flights' where
  each operation member := ok.each operation (perm.mem_iff.mp member)
  writes := (perm.countP_eq _).trans_le ok.writes
  spent isSpent := (perm.countP_eq _).trans_le (ok.spent isSpent)
  unarmed unarmed := List.perm_nil.mp (ok.unarmed unarmed ▸ perm)
  settled := ok.settled
  stands := ok.stands

theorem Flights.edit (ok : Flights codec inner first scratch rows fs (prior ++ operation :: later))
    (others : ∀ other ∈ prior ++ later, Flies codec inner scratch.progress rows fs' other)
    (flies : Flies codec inner scratch.progress rows fs' changed)
    (writes : changed.Writes → operation.Writes) (spent : operation.Spent → changed.Spent)
    (stands : Stands inner first fs' rows scratch.progress) :
    Flights codec inner first scratch rows fs' (prior ++ changed :: later) where
  each flight member := by
    obtain before | rfl | after : flight ∈ prior ∨ flight = changed ∨ flight ∈ later := by
      simpa using member
    · exact others flight (List.mem_append_left _ before)
    · exact flies
    · exact others flight (List.mem_append_right _ after)
  writes := by
    apply le_trans _ ok.writes
    simp only [List.countP_append, List.countP_cons, decide_eq_true_eq]
    split <;> split <;> simp_all
  spent isSpent := by
    apply le_trans _ (ok.spent isSpent)
    simp only [List.countP_append, List.countP_cons, decide_eq_true_eq]
    split <;> split <;> simp_all
  unarmed unarmed := absurd (ok.unarmed unarmed) (by simp)
  settled := ok.settled
  stands := stands

theorem Flights.other (ok : Flights codec inner first scratch rows fs
    (prior ++ operation :: later)) :
    ∀ other ∈ prior ++ later, Flies codec inner scratch.progress rows fs other := by
  intro other member
  apply ok.each
  rw [List.mem_append] at member ⊢
  exact member.imp_right (List.mem_cons_of_mem _)

theorem Flights.self (ok : Flights codec inner first scratch rows fs
    (prior ++ operation :: later)) :
    Flies codec inner scratch.progress rows fs operation :=
  ok.each operation (List.mem_append_right _ (List.mem_cons_self ..))

theorem Flights.replace (ok : Flights codec inner first scratch rows fs
    (prior ++ operation :: later))
    (flies : Flies codec inner scratch.progress rows fs changed)
    (writes : changed.Writes → operation.Writes) (spent : operation.Spent → changed.Spent) :
    Flights codec inner first scratch rows fs (prior ++ changed :: later) :=
  ok.edit ok.other flies writes spent ok.stands

theorem Flights.sublist (ok : Flights codec inner first scratch rows fs flights)
    (kept : flights'.Sublist flights) : Flights codec inner first scratch rows fs flights' where
  each operation member := ok.each operation (kept.subset member)
  writes := kept.countP_le.trans ok.writes
  spent isSpent := kept.countP_le.trans (ok.spent isSpent)
  unarmed unarmed := by
    have none := ok.unarmed unarmed
    rw [none] at kept
    exact List.sublist_nil.mp kept
  settled := ok.settled
  stands := ok.stands

theorem Flights.alone (ok : Flights codec inner first scratch rows fs (prior ++ operation :: later))
    (writes : operation.Writes) :
    scratch.busy = true ∧ ∀ other ∈ prior ++ later, ¬other.Writes := by
  have counted := ok.writes
  simp only [List.countP_append, List.countP_cons, writes, decide_true, if_true] at counted
  have busy : scratch.busy = true := by
    cases known : scratch.busy with
    | true => rfl
    | false =>
        rw [known, Bool.toNat_false] at counted
        omega
  refine ⟨busy, ?_⟩
  rw [busy, Bool.toNat_true] at counted
  have none : (prior ++ later).countP (fun operation => operation.Writes) = 0 := by
    rw [List.countP_append]
    omega
  intro other member isWriting
  exact List.countP_eq_zero.mp none other member (decide_eq_true isWriting)

theorem FsJob.Hands.append {job : FsJob} {value : job.Value} {more : List (Committed Value)}
    (hands : FsJob.Hands codec rows job value) : FsJob.Hands codec (rows ++ more) job value := by
  cases job with
  | readFrame path offset rowInline =>
      obtain ⟨position, row, found, valid, same, bytes⟩ := hands
      have inside := (List.getElem?_eq_some_iff.mp found).1
      refine ⟨position, row, ?_, valid, ?_, bytes⟩
      · rw [List.getElem?_append_left inside, found]
      · rw [same, offsetOf_append inside.le]
  | _ => trivial

theorem FsJob.Hands.of_mutates {job : FsJob} {value : job.Value} (mutates : job.Mutates = true) :
    FsJob.Hands codec rows job value := by
  cases job with
  | readFrame => cases mutates
  | _ => trivial

/-- What holds of an operation that writes nothing is kept as long as rows are
only added and the rows file stays readable. -/
theorem Flies.moved (flies : Flies codec inner scratch.progress rows fs operation)
    (quiet : ¬operation.Writes) (grows : rows <+: rows')
    (readable : operation.Executing → scratch.progress.isReadable = true →
      scratch'.progress.isReadable = true) :
    Flies codec inner scratch'.progress rows' fs' operation where
  scope := flies.scope
  within := flies.within
  owned := flies.owned
  reads reads executing := by
    obtain ⟨more, rfl⟩ := grows
    obtain ⟨isReadable, reading⟩ := flies.reads reads executing
    refine ⟨readable executing isReadable, ?_⟩
    apply Program.wp_mono (Program.wp_refine reading fun op _ _ _ => steadyReads_append)
    · exact fun _ _ _ inspects => inspects
    · exact fun _ _ hands value same => (hands value same).append
  hands value same := by
    obtain ⟨more, rfl⟩ := grows
    exact (flies.hands value same).append
  writes mutates executing := absurd ⟨mutates, .inl executing⟩ quiet
  ends mutates attached := absurd ⟨mutates, .inr attached⟩ quiet

/-- The directory is where the books say at every call of the writing job. -/
theorem Stands.step {progress : Progress Value} {job : FsJob} {call : FileOp}
    {reply : Except SorterError call.Value} (stands : Stands inner first fs rows progress)
    (runs : progress.Runs job) (within : FsJob.Within inner job) (uses : job.Uses call)
    (step : call.Step fs reply fs') : Stands inner first fs' rows progress := by
  cases job with
  | ensureDir dir =>
      cases progress with
      | armed => trivial
      | _ => cases runs
  | create path =>
      cases progress with
      | made => exact (congrFun (uses.keepsDirs step) inner.dir).trans stands
      | _ => cases runs
  | append path len weight bytes =>
      obtain rfl : path = inner.path := within
      cases progress with
      | appending next =>
          obtain ⟨dirs, tail, content⟩ := stands
          obtain ⟨content', same⟩ := uses.keepsRows (.inl ⟨_, _, _, rfl⟩) step content
          exact ⟨same ▸ dirs, content'⟩
      | _ => cases runs
  | patch path count =>
      obtain rfl : path = inner.path := within
      cases progress with
      | «sealing» =>
          obtain ⟨dirs, tail, content⟩ := stands
          obtain ⟨content', same⟩ := uses.keepsRows (.inr ⟨_, rfl⟩) step content
          exact ⟨same ▸ dirs, content'⟩
      | _ => cases runs
  | removeDirAll dir =>
      cases progress with
      | removing => trivial
      | _ => cases runs
  | _ => cases progress <;> cases runs

theorem Stands.readable {progress : Progress Value} (stands : Stands inner first fs rows progress)
    (readable : progress.isReadable = true) : ∃ tail, RowsFile rows tail (fs.files inner.path) := by
  cases progress with
  | ready => exact ⟨[], stands.2⟩
  | appending next => exact stands.2
  | appended next => exact ⟨_, stands.2⟩
  | «sealing» => exact stands.2
  | _ => cases readable

/-- A worker makes the next call of its job. -/
theorem Flights.work {left : Unit} {call : FileOp} {reply : Except SorterError call.Value} {resume}
    (ok : Flights codec inner first scratch rows fs (prior ++ operation :: later))
    (executing : operation.Executing) (issued : operation.work = .request left call resume)
    (step : call.Step fs reply fs') :
    Flights codec inner first scratch rows fs'
      (prior ++ { operation with work := resume reply } :: later) := by
  have flies := ok.each operation (List.mem_append_right _ (List.mem_cons_self ..))
  cases mutates : operation.job.Mutates with
  | false =>
      obtain ⟨readable, reading⟩ := flies.reads mutates executing
      rw [issued] at reading
      obtain ⟨inspects, goes⟩ := reading
      obtain ⟨tail, content⟩ := ok.stands.readable readable
      obtain rfl := inspects.step step
      refine ok.replace ⟨flies.scope, flies.within, flies.owned, ?_, flies.hands, ?_, ?_⟩ id id
      · exact fun _ _ => ⟨readable, goes reply () (content.replies inspects step)⟩
      · intro mutates'
        rw [show operation.job.Mutates = true from mutates'] at mutates
        cases mutates
      · intro mutates'
        rw [show operation.job.Mutates = true from mutates'] at mutates
        cases mutates
  | true =>
      have writes : operation.Writes := ⟨mutates, .inl executing⟩
      obtain ⟨runs, writing⟩ := flies.writes mutates executing
      rw [issued] at writing
      obtain ⟨uses, goes⟩ := writing
      obtain ⟨-, others⟩ := ok.alone writes
      apply ok.edit
      · intro other member
        exact (ok.other other member).moved (others other member) (List.prefix_refl _) fun _ => id
      · refine ⟨flies.scope, flies.within, flies.owned, ?_, flies.hands, ?_, ?_⟩
        · exact fun reads => absurd (mutates.symm.trans reads) (by simp)
        · exact fun _ _ => ⟨runs, goes reply fs' step⟩
        · intro _ _ value ended
          exact absurd (executing.symm.trans ended) (by simp)
      · exact id
      · exact id
      · exact ok.stands.step runs flies.within uses step

theorem Flights.finish {result : Except SorterError operation.job.Value}
    (ok : Flights codec inner first scratch rows fs (prior ++ operation :: later))
    (executing : operation.Executing)
    (ends : (∃ error, result = .error error) ∨ operation.work = .done (result, ())) :
    Flights codec inner first scratch rows fs
      (prior ++ { operation with outcome := some result } :: later) := by
  have flies := ok.self
  apply ok.replace
  · refine ⟨flies.scope, flies.within, flies.owned, nofun, ?_, nofun, ?_⟩
    · intro (value : operation.job.Value) same
      have isOk : result = .ok value := Option.some.inj same
      obtain ⟨error, failed⟩ | done := ends
      · cases failed.symm.trans isOk
      · cases mutates : operation.job.Mutates with
        | false =>
            have reading := (flies.reads mutates executing).2
            rw [done] at reading
            exact reading value isOk
        | true => exact FsJob.Hands.of_mutates mutates
    · intro mutates _ (value : operation.job.Value) same
      have isOk : result = .ok value := Option.some.inj same
      obtain ⟨error, failed⟩ | done := ends
      · cases failed.symm.trans isOk
      · obtain ⟨runs, writing⟩ := flies.writes mutates executing
        rw [done] at writing
        exact ⟨runs, writing value isOk⟩
  · exact fun writes => ⟨writes.1, .inl executing⟩
  · exact fun spent => absurd executing spent.2.1

theorem Flights.release {holding : Holding} {owned : List Holding}
    (ok : Flights codec inner first scratch rows fs (prior ++ operation :: later))
    (owns : operation.owned = holding :: owned) :
    Flights codec inner first scratch rows fs (prior ++ { operation with owned } :: later) := by
  have flies := ok.self
  apply ok.replace
  · refine ⟨flies.scope, flies.within, ?_, flies.reads, flies.hands, flies.writes, flies.ends⟩
    exact (List.suffix_cons holding owned).trans (owns ▸ flies.owned)
  · exact id
  · exact fun spent => absurd (owns.symm.trans spent.2.2) (by simp)

theorem Flights.detach
    (ok : Flights codec inner first scratch rows fs (prior ++ operation :: later))
    (attached : operation.attached = true) :
    Flights codec inner first scratch rows fs
      (prior ++ { operation with attached := false } :: later) := by
  have flies := ok.self
  apply ok.replace
  · exact ⟨flies.scope, flies.within, flies.owned, flies.reads, flies.hands, flies.writes,
      fun _ gone => absurd gone (by simp)⟩
  · exact fun writes => ⟨writes.1, .inr attached⟩
  · exact fun spent => absurd (attached.symm.trans spent.1) (by simp)

theorem Flights.quiet (ok : Flights codec inner first scratch rows fs flights)
    (settled : scratch.busy = false) : ∀ operation ∈ flights, ¬operation.Writes := by
  have counted := ok.writes
  rw [settled, Bool.toNat_false, Nat.le_zero, List.countP_eq_zero] at counted
  exact fun operation member writes => counted operation member (decide_eq_true writes)

theorem Flights.allSpent (ok : Flights codec inner first scratch rows fs flights)
    (settled : scratch.busy = false) (spent : scratch.progress.isSpent = true) :
    ∀ operation ∈ flights, operation.Spent := by
  have counted := ok.spent spent
  rw [settled, Bool.toNat_false, Nat.le_zero, List.countP_eq_zero] at counted
  intro operation member
  by_contra other
  exact counted operation member (decide_eq_true other)

theorem Flights.turn (ok : Flights codec inner first scratch rows fs flights)
    (quiet : ∀ operation ∈ flights, ¬operation.Writes) (grows : rows <+: rows')
    (readable : (∃ operation ∈ flights, operation.Executing) →
      scratch.progress.isReadable = true → scratch'.progress.isReadable = true)
    (spent : scratch'.progress.isSpent = true → ∀ operation ∈ flights, operation.Spent)
    (unarmed : scratch'.progress = .unarmed → flights = [])
    (settled : scratch'.progress.isSettled = true → scratch'.busy = false)
    (stands : Stands inner first fs rows' scratch'.progress) :
    Flights codec inner first scratch' rows' fs flights where
  each operation member := (ok.each operation member).moved (quiet operation member) grows
    fun executing => readable ⟨operation, member, executing⟩
  writes := by
    apply (List.countP_eq_zero.mpr _).trans_le (Nat.zero_le _)
    exact fun operation member => by simpa using quiet operation member
  spent isSpent := by
    apply (List.countP_eq_zero.mpr _).trans_le (Nat.zero_le _)
    exact fun operation member => by simpa using spent isSpent operation member
  unarmed := unarmed
  settled := settled
  stands := stands

theorem Flights.add (ok : Flights codec inner first scratch rows fs flights)
    (flies : Flies codec inner scratch.progress rows fs operation)
    (writes : operation.Writes → scratch.busy = true ∧ ∀ other ∈ flights, ¬other.Writes)
    (spent : scratch.progress.isSpent = true →
      scratch.busy = true ∧ ∀ other ∈ flights, other.Spent)
    (armed : scratch.progress ≠ .unarmed) :
    Flights codec inner first scratch rows fs (operation :: flights) where
  each flight member := by
    obtain rfl | member := List.mem_cons.mp member
    · exact flies
    · exact ok.each flight member
  writes := by
    by_cases isWriting : operation.Writes
    · obtain ⟨busy, others⟩ := writes isWriting
      have none : flights.countP (fun operation => operation.Writes) = 0 :=
        List.countP_eq_zero.mpr fun other member => by simpa using others other member
      rw [List.countP_cons, none, busy]
      split <;> simp
    · rw [List.countP_cons, if_neg (by simpa using isWriting)]
      exact ok.writes
  spent isSpent := by
    obtain ⟨busy, others⟩ := spent isSpent
    have none : flights.countP (fun operation => ¬operation.Spent) = 0 :=
      List.countP_eq_zero.mpr fun other member => by simpa using others other member
    rw [List.countP_cons, none, busy]
    split <;> simp
  unarmed unarmed := absurd unarmed armed
  settled := ok.settled
  stands := ok.stands

theorem Flights.lastOne (ok : Flights codec inner first scratch rows fs
    (prior ++ operation :: later))
    (isSpent : scratch.progress.isSpent = true) (unspent : ¬operation.Spent) :
    ∀ other ∈ prior ++ later, other.Spent := by
  have counted := ok.spent isSpent
  rw [List.countP_append, List.countP_cons, if_pos (decide_eq_true unspent)] at counted
  have atMost := Bool.toNat_le scratch.busy
  have none : (prior ++ later).countP (fun operation => ¬operation.Spent) = 0 := by
    rw [List.countP_append]
    omega
  intro other member
  by_contra different
  exact List.countP_eq_zero.mp none other member (decide_eq_true different)

theorem Progress.Runs.unsettled {progress : Progress Value} {job : FsJob}
    (runs : progress.Runs job) :
    progress.isSettled = false ∧ progress ≠ .unarmed := by
  cases progress with
  | armed | made | appending | «sealing» | removing => exact ⟨rfl, by simp⟩
  | _ => cases job <;> cases runs

variable {caller : Client} {held : List MemoryCharge} {job : FsJob}

theorem flies_writing {progress : Progress Value} (mutates : job.Mutates = true)
    (within : FsJob.Within inner job) (runs : progress.Runs job) (ready : job.Ready rows fs) :
    Flies codec inner progress rows fs (.spawn ⟨caller, inner.scope, held, job⟩) where
  scope := rfl
  within := within
  owned := List.suffix_refl _
  reads reads := absurd (mutates.symm.trans reads) (by simp)
  hands := nofun
  writes _ _ := by
    refine ⟨runs, ?_⟩
    apply Program.wp_mono (Method.wp_and (FsJob.body_uses mutates () fs) (FsJob.body_goal ready))
    · exact fun _ _ _ issued => issued.1
    · rintro ⟨_ | _, _⟩ fs' reached value ⟨⟩
      exact reached.2
  ends _ _ := nofun

theorem flies_reading {progress : Progress Value} {position offset rowInline : Nat}
    {row : Committed Value} {path : ScratchPath} (isPath : path = inner.path)
    (readable : progress.isReadable = true)
    (found : rows[position]? = some row) (valid : row.Valid codec)
    (isOffset : offset = offsetOf rows position) :
    Flies codec inner progress rows fs
      (.spawn ⟨caller, inner.scope, held, .readFrame path offset rowInline⟩) where
  scope := rfl
  within := isPath
  owned := List.suffix_refl _
  reads _ _ := by
    obtain rfl := isPath
    obtain rfl := isOffset
    refine ⟨readable, Program.wp_mono (wp_readFrame_steady found valid inner.path rowInline) ?_ ?_⟩
    · exact fun _ _ _ inspects => inspects
    · rintro ⟨_ | _, _⟩ _ reached value ⟨⟩
      exact ⟨position, row, found, valid, rfl, reached⟩
  hands := nofun
  writes := nofun
  ends := nofun

theorem Flights.launch (ok : Flights codec inner first scratch rows fs flights)
    {progress : Progress Value} (free : scratch.busy = false) (mutates : job.Mutates = true)
    (within : FsJob.Within inner job) (runs : progress.Runs job) (ready : job.Ready rows fs)
    (readable : scratch.progress.isReadable = true → progress.isReadable = true)
    (spent : progress.isSpent = true → scratch.progress.isSpent = true)
    (stands : Stands inner first fs rows progress) :
    Flights codec inner first { scratch with progress, busy := true } rows fs
      (.spawn ⟨caller, inner.scope, held, job⟩ :: flights) := by
  obtain ⟨unsettled, armed⟩ := runs.unsettled
  have quiet := ok.quiet free
  have turned : Flights codec inner first { scratch with progress, busy := true } rows
      fs flights := by
    apply ok.turn quiet (List.prefix_refl _)
    · exact fun _ => readable
    · exact fun isSpent => ok.allSpent free (spent isSpent)
    · exact fun unarmed => absurd unarmed armed
    · exact fun settled => absurd (unsettled.symm.trans settled) (by simp)
    · exact stands
  apply turned.add (flies_writing mutates within runs ready)
  · exact fun _ => ⟨rfl, quiet⟩
  · exact fun isSpent => ⟨rfl, ok.allSpent free (spent isSpent)⟩
  · exact armed

end Frames

end SortGovernor.Runtime
