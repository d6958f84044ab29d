import SortGovernor.Engine.Metered
import SortGovernor.Engine.Jobs
import SortGovernor.Engine.RunFormat

/-!
# Reading a row from any bytes

`next_row` believes no length, weight or count it finds in a file.  It charges
the budget before it allocates a frame, moves on only with a whole row, and
gives every charge back with an error.
-/

namespace SortGovernor.Engine

open SortGovernor.Resumption SortGovernor.Bytes

/-- The length field of the frame at `offset`. -/
def frameLength (bytes : List UInt8) (offset : Nat) : Nat :=
  ofLittleEndian ((bytes.drop offset).take 4)

/-- The size field of the frame at `offset`. -/
def frameWeight (bytes : List UInt8) (offset : Nat) : Nat :=
  ofLittleEndian ((bytes.drop (offset + 4)).take 8)

theorem ofLittleEndian_take_lt (bytes : List UInt8) (width : Nat) :
    ofLittleEndian (bytes.take width) < 256 ^ width := by
  have bound := ofLittleEndian_lt (bytes.take width)
  have short : (bytes.take width).length ≤ width := List.length_take_le width bytes
  exact bound.trans_le (Nat.pow_le_pow_right (by omega) short)

theorem frameLength_le (bytes : List UInt8) (offset : Nat) : frameLength bytes offset ≤ u32Max := by
  have bound := ofLittleEndian_take_lt (bytes.drop offset) 4
  unfold frameLength u32Max
  omega

namespace Metered

section Job

variable {issue : Unit → FileOp → Metered → Prop} {world : Metered} {path : ScratchPath}

theorem wp_open {ok : Unit → Unit → Metered → Prop} {err : SorterError → Unit → Metered → Prop}
    (issued : issue () (.open path) world) (done : ok () () world)
    (failed : ∀ error, err error () world) :
    (Job.call (.open path)).wp meteredFiles issue ok err () world := by
  refine Method.wp_bind.mpr (Method.wp_issue.mpr ⟨issued, ?_⟩)
  rintro reply _ ⟨fs, step, rfl⟩
  refine Method.wp_ofExcept.mpr ?_
  obtain ⟨value, effect, rfl⟩ | ⟨error, rfl, rfl⟩ := step
  · rw [FileOp.effect_open effect]
    exact done
  · exact failed _

theorem wp_readExact {offset count : Nat} {ok : List UInt8 → Unit → Metered → Prop}
    {err : SorterError → Unit → Metered → Prop}
    (issued : issue () (.readExact path offset count) world)
    (done : ∀ bytes, world.fs.files path = some bytes → offset + count ≤ bytes.length →
      ok ((bytes.drop offset).take count) () world)
    (failed : ∀ error, err error () world) :
    (Job.call (.readExact path offset count)).wp meteredFiles issue ok err () world := by
  refine Method.wp_bind.mpr (Method.wp_issue.mpr ⟨issued, ?_⟩)
  rintro reply _ ⟨fs, step, rfl⟩
  refine Method.wp_ofExcept.mpr ?_
  obtain ⟨value, effect, rfl⟩ | ⟨error, rfl, rfl⟩ := step
  · obtain ⟨bytes, found, inside, rfl, rfl⟩ := FileOp.effect_readExact effect
    exact done bytes found inside
  · exact failed _

theorem wp_reserveCall {bytes : Nat} {ok : MemoryCharge → Unit → Metered → Prop}
    {err : SorterError → Unit → Metered → Prop} (issued : issue () (.reserve bytes) world)
    (done : world.used + bytes ≤ u64Max → ok ⟨bytes⟩ () (world.grants ⟨bytes⟩))
    (failed : ∀ error, err error () world) :
    (Job.call (.reserve bytes)).wp meteredFiles issue ok err () world := by
  refine Method.wp_bind.mpr (Method.wp_issue.mpr ⟨issued, ?_⟩)
  intro reply next reserves
  refine Method.wp_ofExcept.mpr ?_
  obtain ⟨rfl, fits, rfl⟩ | ⟨error, rfl, rfl⟩ := reserves_cases reserves
  · exact done fits
  · exact failed _

/-- What holds at every call of the job that reads the frame at `offset`: before
the body is read, its buffer and the row are paid for. -/
structure Charged (start : Metered) (path : ScratchPath) (offset rowInline : Nat) (op : FileOp)
    (world : Metered) : Prop where
  grown : start.Extends world
  body : ∀ count, op = .readExact path (offset + 12) count → ∃ bytes,
    start.fs.files path = some bytes ∧ count = frameLength bytes offset ∧
      world.charges = ⟨3 * count + 32⟩ ::ₘ
        ⟨max (frameWeight bytes offset) rowInline⟩ ::ₘ start.charges

/-- The frame a job read at `offset`, with the charges it was read under. -/
structure HandsOver (start : Metered) (path : ScratchPath) (offset rowInline : Nat) (frame : Frame)
    (bytes : List UInt8) : Prop where
  content : start.fs.files path = some bytes
  inside : offset + 12 + frameLength bytes offset ≤ bytes.length
  body : frame.bytes = (bytes.drop (offset + 12)).take (frameLength bytes offset)
  weight : frame.retainedBytes = frameWeight bytes offset
  rowCharge : frame.rowCharge = ⟨max (frameWeight bytes offset) rowInline⟩
  frameCharge : frame.frameCharge = ⟨3 * frameLength bytes offset + 32⟩

theorem wp_readFrame (world : Metered) (path : ScratchPath) (offset rowInline : Nat) :
    ((FsJob.readFrame path offset rowInline).body).wp meteredFiles
      (fun _ op last => world.Charged path offset rowInline op last)
      (fun frame _ last => world.Extends last ∧
        last.charges = {frame.rowCharge, frame.frameCharge} + world.charges ∧
        ∃ bytes, world.HandsOver path offset rowInline frame bytes)
      (fun _ _ last => world.Extends last) () world := by
  have plain : ∀ {op last}, world.Extends last →
    (∀ count, op ≠ .readExact path (offset + 12) count) →
      world.Charged path offset rowInline op last :=
    fun grown other => ⟨grown, fun count same => absurd same (other count)⟩
  have start := Extends.refl world
  simp only [FsJob.body, AsyncFile.open, AsyncFile.seek, AsyncFile.readExact, FsJob.reserveFrame,
    bind_assoc, pure_bind]
  refine Method.wp_bind.mpr (wp_open (plain start (by simp)) ?_ fun _ => start)
  refine Method.wp_bind.mpr (wp_readExact (plain start (by simp)) ?_ fun _ => start)
  intro bytes content _
  refine Method.wp_bind.mpr (wp_readExact (plain start (by simp)) ?_ fun _ => start)
  intro bytes' content' _
  obtain rfl := Option.some.inj (content.symm.trans content')
  refine Method.wp_bind.mpr (wp_reserveCall (plain start (by simp)) ?_ fun _ => start)
  intro rowFits
  have rowPaid := extends_grants rowFits
  refine Method.wp_bind.mpr (Method.wp_okOr.mpr ?_)
  split
  · rename_i working found
    rw [frameBytes_eq] at found
    obtain ⟨-, same⟩ := Option.ite_none_right_eq_some.mp found
    cases same
    refine Method.wp_bind.mpr (wp_reserveCall (plain rowPaid (by simp)) ?_ fun _ => rowPaid)
    intro frameFits
    have framePaid := rowPaid.trans (extends_grants frameFits)
    refine Method.wp_bind.mpr (wp_readExact ⟨framePaid, ?_⟩ ?_ fun _ => framePaid)
    · rintro count ⟨⟩
      exact ⟨bytes, content, rfl, rfl⟩
    · intro bytes' content' inside
      obtain rfl := Option.some.inj (content.symm.trans content')
      refine ⟨framePaid, ?_, bytes, content, inside, rfl, rfl, rfl, rfl⟩
      rw [Multiset.insert_eq_cons, Multiset.cons_add, Multiset.singleton_add]
      exact Multiset.cons_swap _ _ _
  · exact rowPaid

end Job

theorem given_grants (world : Metered) (metadata : MemoryCharge) :
    (world.grants metadata).charges = ↑[metadata] + world.charges := rfl

theorem settle_grants {world last : Metered} {metadata : MemoryCharge}
    (grown : (world.grants metadata).Extends last) :
    (world.grants metadata).settle last ↑[metadata] 0 = world := by
  obtain ⟨new, added⟩ := Multiset.le_iff_exists_add.mp grown.charges
  have charges := charges_settle (given_grants world metadata) (added.trans (Multiset.add_comm _ _))
    (Multiset.zero_le new)
  rw [Multiset.zero_add] at charges
  obtain ⟨fs, others, _⟩ := world
  simp only [settle] at charges ⊢
  rw [charges, grown.fs, grown.others]
  rfl

theorem settle_call (world : Metered) {new moved : Multiset MemoryCharge} (owned : moved ≤ new) :
    world.settle { world with charges := new + world.charges } 0 moved =
      { world with charges := moved + world.charges } := by
  have charges := @charges_settle world { world with charges := new + world.charges } 0 moved new
    world.charges (Multiset.zero_add _).symm rfl owned
  simp only [settle] at charges ⊢
  rw [charges]

/-- What a job that reads a frame leaves of the budget it found. -/
theorem Performs.readFrame {world next : Metered} {metadata : MemoryCharge} {path : ScratchPath}
    {offset rowInline : Nat}
    {reply : Except SorterError (FsJob.readFrame path offset rowInline).Value}
    (fits : world.used + metadata.bytes ≤ u64Max)
    (performs : (world.grants metadata).Performs [metadata]
      (.readFrame path offset rowInline) reply next) :
    (∃ error, reply = .error error ∧ next = world) ∨
      ∃ frame bytes, reply = .ok frame ∧ world.HandsOver path offset rowInline frame bytes ∧
        next = { world with charges := {frame.rowCharge, frame.frameCharge} + world.charges } ∧
        world.Extends next := by
  obtain ⟨last, completes, rfl⟩ := performs
  have body := wp_readFrame (world.grants metadata) path offset rowInline
  cases completes with
  | finished run =>
      have reached := Method.wp_returned body run
      cases reply with
      | error error => exact .inl ⟨error, rfl, settle_grants reached⟩
      | ok frame =>
          obtain ⟨grown, charges, bytes, frameRead⟩ := reached
          refine .inr ⟨frame, bytes, rfl, ⟨frameRead.content, frameRead.inside, frameRead.body,
            frameRead.weight, frameRead.rowCharge, frameRead.frameCharge⟩, ?_⟩
          have kept := charges_settle (given_grants world metadata) charges (le_refl _)
          have settled : (world.grants metadata).settle last ↑[metadata]
              {frame.rowCharge, frame.frameCharge} =
              { world with charges := {frame.rowCharge, frame.frameCharge} + world.charges } := by
            simp only [settle] at kept ⊢
            rw [kept, grown.fs, grown.others]
            rfl
          refine ⟨settled, ?_⟩
          rw [FsJob.moved, settled]
          refine ⟨rfl, rfl, Multiset.le_add_left _ _, fun _ => ?_⟩
          have others :
            ({ world with charges := {frame.rowCharge, frame.frameCharge} + world.charges } :
              Metered).others = last.others := grown.others.symm
          refine (used_le_of_charges_le others ?_).trans (grown.word ?_)
          · rw [charges]
            exact Multiset.add_le_add_left (Multiset.le_cons_self _ _)
          · rwa [used_grants]
  | died text run =>
      obtain ⟨op, middle, charged, rfl⟩ := Method.wp_dropped body run
      exact .inl ⟨_, rfl, settle_grants charged.grown⟩

end Metered

variable {Key Value : Type} [Layout Key Value] {codec : Codec Key Value}

namespace RunReader

/-- The job one call of `next_row` performs. -/
def frameJob (Key Value : Type) [Layout Key Value] (reader : RunReader) : FsJob :=
  .readFrame reader.path reader.offset (Layout.rowSize Key Value)

/-- What a call of `next_row` does to its reader and to the budget. -/
def Safe (codec : Codec Key Value) (reader : RunReader) (world : Metered)
    (outcome : Except Abort (Option (RunRow Key Value))) (reader' : RunReader) (after : Metered) :
    Prop :=
  match outcome with
  | .ok none => reader.remaining = 0 ∧ reader' = reader ∧ after = world
  | .ok (some row) => 0 < reader.remaining ∧ ∃ bytes, world.fs.files reader.path = some bytes ∧
      reader.offset + 12 + frameLength bytes reader.offset ≤ bytes.length ∧
      reader' = { reader with
        offset := reader.offset + (12 + frameLength bytes reader.offset)
        remaining := reader.remaining - 1 } ∧
      12 + frameLength bytes reader.offset ≤ u64Max ∧ reader'.offset ≤ u64Max ∧
      codec.deserializes ((bytes.drop (reader.offset + 12)).take (frameLength bytes reader.offset))
        (.ok row.record) ∧
      row.retainedBytes = frameWeight bytes reader.offset ∧
      ∃ charge, row.charge = some charge ∧
        charge.bytes = max row.retainedBytes (Layout.rowSize Key Value) ∧ after =
          world.grants charge
  | .error abort => (∃ error, abort = .error error) ∧ reader' = reader ∧ after = world

/-- The charge that leaves `next_row` with its row. -/
def moved : Except Abort (Option (RunRow Key Value)) → Multiset MemoryCharge
  | .ok (some row) => row.charge.elim 0 fun charge => {charge}
  | _ => 0

variable {reader : RunReader} {world : Metered}

/-- The requests of one call: only charges come on top, and only the frame is read. -/
structure Issues (reader : RunReader) (world : Metered) (op : Request Key Value)
    (middle : Metered) :
    Prop where
  grown : world.Extends middle
  reads : ∀ io held job, op = .perform io held job → job = reader.frameJob Key Value

theorem wp_performFrame {issue : RunReader → Request Key Value → Metered → Prop}
    {ok : Frame → RunReader → Metered → Prop} {err : Abort → RunReader → Metered → Prop}
    {pathBytes : Nat} (issued : ∀ op middle, reader.Issues world op middle → issue reader op middle)
    (failed : ∀ error, err (.error error) reader world)
    (read : ∀ frame bytes last,
      world.HandsOver reader.path reader.offset (Layout.rowSize Key Value) frame bytes →
      last = { world with charges := {frame.rowCharge, frame.frameCharge} + world.charges } →
      world.Extends last → ok frame reader last) :
    (perform reader.io pathBytes [] (reader.frameJob Key Value) :
      Async Key Value RunReader Frame).wp
      (meteredSemantics codec) issue ok err reader world := by
  refine Method.wp_bind.mpr (Method.wp_okOr.mpr ?_)
  split
  · rename_i bytes _
    refine Method.wp_bind.mpr (Method.wp_bind.mpr (Method.wp_issue.mpr ⟨?_, ?_⟩))
    · exact issued _ _ ⟨.refl world, by simp⟩
    intro reply next reserves
    refine Method.wp_ofExcept.mpr ?_
    obtain ⟨rfl, fits, rfl⟩ | ⟨error, rfl, rfl⟩ := Metered.reserves_cases reserves
    · refine Method.wp_bind.mpr (Method.wp_issue.mpr ⟨?_, ?_⟩)
      · refine issued _ _ ⟨Metered.extends_grants fits, ?_⟩
        rintro io held job ⟨⟩
        rfl
      intro reply next performed
      refine Method.wp_ofExcept.mpr ?_
      obtain performs | ⟨rfl, rfl⟩ := performed
      · obtain ⟨error, rfl, rfl⟩ | ⟨frame, bytes, rfl, handed, last, grown⟩ :=
          performs.readFrame fits
        · exact failed _
        · exact read frame bytes _ handed last grown
      · rw [Metered.settle_grants (.refl _)]
        exact failed _
    · exact failed _
  · exact failed _

omit [Layout Key Value] in
theorem wp_decodeFrame {issue : RunReader → Request Key Value → Metered → Prop}
    {ok : Except String (Key × Value × Nat) → RunReader → Metered → Prop}
    {err : Abort → RunReader → Metered → Prop} {bytes : List UInt8}
    (issued : issue reader (.deserialize bytes) world)
    (done : ∀ decoded, codec.deserializes bytes decoded → ok decoded reader world) :
    (decode bytes : Async Key Value RunReader _).wp (meteredSemantics codec) issue ok err reader
      world := by
  refine ⟨issued, ?_⟩
  rintro decoded _ ⟨rfl, decodes⟩
  exact done decoded decodes

/-- A call returns a whole row, or nothing when none remains, or leaves reader and
budget alone. -/
theorem wp_nextRow_safe (reader : RunReader) (world : Metered) :
    nextRow.wp (meteredSemantics codec) (fun _ op middle => reader.Issues world op middle)
      (fun row reader' last =>
        reader.Safe codec world (.ok row) reader' (world.settle last 0 (moved (.ok row))))
      (fun abort reader' last => reader.Safe codec world (.error abort) reader'
        (world.settle last 0 (moved (.error abort : Except Abort (Option (RunRow Key Value))))))
      reader world := by
  have unchanged : world.settle world 0 0 = world := by
    simpa using world.settle_call (le_refl 0)
  unfold nextRow
  refine Method.wp_bind.mpr (Method.wp_get.mpr (Method.wp_ite.mpr ⟨?_, ?_⟩))
  · intro exhausted
    exact ⟨exhausted, rfl, unchanged⟩
  · intro more
    refine Method.wp_bind.mpr (wp_performFrame (fun _ _ issues => issues) ?_ ?_)
    · exact fun error => ⟨⟨error, rfl⟩, rfl, unchanged⟩
    rintro frame bytes _ handed rfl grown
    -- from here on the call owns the two charges of the frame
    have dropped : ∀ error, reader.Safe codec world
        (.error (.error error) : Except Abort (Option (RunRow Key Value))) reader
        (world.settle { world with charges :=
          {frame.rowCharge, frame.frameCharge} + world.charges } 0
          0) := by
      intro error
      refine ⟨⟨error, rfl⟩, rfl, ?_⟩
      simpa using world.settle_call (Multiset.zero_le {frame.rowCharge, frame.frameCharge})
    have length : frame.bytes.length = frameLength bytes reader.offset := by
      have inside := handed.inside
      rw [handed.body, List.length_take, List.length_drop]
      omega
    refine Method.wp_bind.mpr (wp_decodeFrame ⟨grown, by simp⟩ ?_)
    intro decoded decodes
    refine Method.wp_bind.mpr (Method.wp_ofExcept.mpr ?_)
    cases decoded with
    | error text => exact dropped _
    | ok decoded =>
        refine Method.wp_bind.mpr (Method.wp_okOr.mpr ?_)
        split
        · rename_i len lenEq
          obtain ⟨-, rfl⟩ := tryFrom_eq_some.mp lenEq
          refine Method.wp_bind.mpr (Method.wp_okOr.mpr ?_)
          split
          · rename_i offset offsetEq
            obtain ⟨word, rfl⟩ := checkedAdd_eq_some.mp offsetEq
            have small := frameLength_le bytes reader.offset
            rw [length] at word ⊢
            rw [handed.body] at decodes
            refine ⟨Nat.pos_of_ne_zero more, bytes, handed.content, handed.inside, rfl, ?_, word,
              decodes, handed.weight, frame.rowCharge, rfl, ?_, ?_⟩
            · unfold u32Max at small
              unfold u64Max
              omega
            · rw [handed.rowCharge, ← handed.weight]
            · exact world.settle_call (Multiset.singleton_le.mpr (by simp))
          · exact dropped _
        · exact dropped _

/-- Calls of `next_row` that all return a row of one file; between two of them the
budget may change. -/
inductive Drains (codec : Codec Key Value) (content : Option (List UInt8)) (reader : RunReader) :
    Nat → RunReader → Prop where
  | start : Drains codec content reader 0 reader
  | row {rows reader' reader'' world last} {row : RunRow Key Value} :
      Drains codec content reader rows reader' → world.fs.files reader'.path = content →
      Runs (meteredSemantics codec) (nextRow reader') world
        (.returned (.ok (some row), reader'')) last →
      Drains codec content reader (rows + 1) reader''

theorem Drains.bounds {content : Option (List UInt8)} {reader reader' : RunReader} {rows : Nat}
    (drains : Drains codec content reader rows reader') :
    reader'.path = reader.path ∧ reader'.remaining + rows = reader.remaining ∧
      reader.offset + 12 * rows ≤ reader'.offset ∧
      (0 < rows → ∃ bytes, content = some bytes ∧ reader'.offset ≤ bytes.length) := by
  induction drains with
  | start => exact ⟨rfl, rfl, le_refl _, fun more => absurd more (lt_irrefl 0)⟩
  | row _ file run inductionHypothesis =>
      obtain ⟨samePath, remaining, offset, -⟩ := inductionHypothesis
      have safe := Method.wp_returned (wp_nextRow_safe _ _) run
      obtain ⟨more, bytes, found, inside, rfl, -⟩ := safe
      rw [file] at found
      refine ⟨samePath, ?_, ?_, fun _ => ⟨bytes, found, ?_⟩⟩
      · simp only
        omega
      · simp only
        omega
      · simp only
        omega

end RunReader

/-- Whatever a file holds, wherever the reader stands and whatever the budget
reads, a call of `next_row` returns a whole row and moves past it, or nothing
when none remains, or an error that leaves reader and budget as they were.  A
frame is paid for before its buffer is allocated, no number leaves its word, and
a reader gives at most as many rows as the file has room for. -/
theorem next_row_safe (reader : RunReader) (world : Metered) :
    (∀ (outcome : Except Abort (Option (RunRow Key Value))) reader' last,
      Runs (meteredSemantics codec) (RunReader.nextRow reader) world
        (.returned (outcome, reader')) last →
      reader.Safe codec world outcome reader' (world.settle last 0 (RunReader.moved outcome))) ∧
    (∀ op middle,
      Asks (meteredSemantics codec)
        ((RunReader.nextRow : Async Key Value RunReader _) reader) world op middle →
      (world.used ≤ u64Max → middle.used ≤ u64Max) ∧
        ∀ io held job, op = .perform io held job →
          job = .readFrame reader.path reader.offset (Layout.rowSize Key Value) ∧
          ∀ call last,
            Asks meteredFiles ((FsJob.readFrame reader.path reader.offset
              (Layout.rowSize Key Value)).body ()) middle call last →
            (world.used ≤ u64Max → last.used ≤ u64Max) ∧
              ∀ count, call = .readExact reader.path (reader.offset + 12) count →
                ∃ bytes, world.fs.files reader.path = some bytes ∧
                  count = frameLength bytes reader.offset ∧
                  last.charges = ⟨3 * count + 32⟩ ::ₘ
                    ⟨max (frameWeight bytes reader.offset) (Layout.rowSize Key Value)⟩ ::ₘ
                      middle.charges) ∧
    ∀ content rows reader', RunReader.Drains codec content reader rows reader' →
      rows ≤ reader.remaining ∧
        (0 < rows → ∃ bytes, content = some bytes ∧ reader.offset + 12 * rows ≤ bytes.length) := by
  refine ⟨?_, ?_, ?_⟩
  · intro outcome reader' last run
    have reached := Method.wp_returned (RunReader.wp_nextRow_safe reader world) run
    cases outcome <;> exact reached
  · intro op middle asks
    obtain ⟨left, issues⟩ := Program.wp_asks
      (@RunReader.wp_nextRow_safe _ _ _ codec reader world) asks
    refine ⟨issues.grown.word, ?_⟩
    intro io held job same
    refine ⟨issues.reads io held job same, ?_⟩
    intro call last asks'
    obtain ⟨-, charged⟩ := Program.wp_asks (Metered.wp_readFrame middle _ _ _) asks'
    refine ⟨charged.grown.word ∘ issues.grown.word, ?_⟩
    intro count read
    obtain ⟨bytes, found, length, charges⟩ := charged.body count read
    rw [issues.grown.fs] at found
    exact ⟨bytes, found, length, charges⟩
  · intro content rows reader' drains
    obtain ⟨-, remaining, offset, inside⟩ := drains.bounds
    refine ⟨by omega, ?_⟩
    intro some
    obtain ⟨bytes, found, within⟩ := inside some
    exact ⟨bytes, found, by omega⟩

end SortGovernor.Engine
