import SortGovernor.Engine.Execute

/-!
# Invariants of a session

Between two calls a usable session holds each accepted row exactly once, in the
slots its spill counter says and in the buffer.  A push that fails or is
dropped changes none of this, or leaves the session marked failed.
-/

namespace SortGovernor.Engine

open SortGovernor.Resumption SortGovernor.Sorting

variable {Key Value : Type} [LinearOrder Key] [Layout Key Value] {codec : Codec Key Value}
  {dedup : Bool}

def SortSession.HeldRows (codec : Codec Key Value) (world : World)
    (session : SortSession Key Value) (held : Multiset (Record Key Value)) : Prop :=
  ∃ runs, List.Forall₂ (RunFile codec world.fs.files) (session.spills.filterMap id) runs ∧
    held = ↑(runs.flatten ++ session.buffer.map RunRow.record)

section Holds

omit [Layout Key Value]

variable {world : World} {session : SortSession Key Value} {accepted : List (Record Key Value)}
  {chunks : List (Chunk Key Value)}

theorem SortSession.Holds.heldRows (holds : session.Holds codec world accepted chunks) :
    session.HeldRows codec world ↑accepted := by
  rcases holds.frontier.slots.exists_blocks with ⟨blocks, each, rows⟩
  rcases RunsOf.of_blocks each with ⟨runs, files, -, same⟩
  rw [rows] at same
  refine ⟨runs.reverse, ?_, ?_⟩
  · have reversed := List.forall₂_reverse_iff.mpr files
    rwa [List.reverse_reverse] at reversed
  · rw [holds.rows, Multiset.coe_eq_coe]
    refine List.Perm.append_right _ ?_
    exact (perm_of_group_eq Record.key same).symm.trans (List.reverse_perm runs).symm.flatten

theorem SortSession.Holds.ordinal_lt (holds : session.Holds codec world accepted chunks)
    {start width start' : Nat} (width' : Nat) (apart : start + width ≤ start')
    {record record' : Record Key Value}
    (earlier : record ∈ ((chunks.drop start).take width).flatten)
    (later : record' ∈ ((chunks.drop start').take width').flatten ∨
      record' ∈ session.buffer.map RunRow.record) :
    record.2.2 < record'.2.2 := by
  have all := holds.pairwise
  rw [holds.rows, ← List.take_append_drop start' chunks, List.flatten_append,
    List.append_assoc] at all
  refine (List.pairwise_append.mp all).2.2 record ?_ record' ?_
  · rcases List.mem_flatten.mp earlier with ⟨chunk, inBlock, member⟩
    rw [List.take_drop] at inBlock
    refine List.mem_flatten.mpr ⟨chunk, ?_, member⟩
    exact (List.take_subset_take_left chunks apart) (List.mem_of_mem_drop inBlock)
  · rcases later with inBlock | buffered
    · rcases List.mem_flatten.mp inBlock with ⟨chunk, inBlock, member⟩
      refine List.mem_append_left _ (List.mem_flatten.mpr ⟨chunk, ?_, member⟩)
      exact List.mem_of_mem_take inBlock
    · exact List.mem_append_right _ buffered

/-- The chunks the bit of slot `level` stands for. -/
def slotChunks (chunks : List (Chunk Key Value)) (level : Nat) : List (Chunk Key Value) :=
  (chunks.drop (Slots.blockStart chunks.length level)).take (2 ^ level)

/-- Slot `level` holds `sorted`, one sorted run of the rows of its chunks. -/
def SortSession.SlotRun (codec : Codec Key Value) (world : World) (session : SortSession Key Value)
    (chunks : List (Chunk Key Value)) (level : Nat) (sorted : List (Record Key Value)) : Prop :=
  ∃ path, session.spills[level]? = some (some path) ∧ RunFile codec world.fs.files path sorted ∧
    StableSortOf Record.key (slotChunks chunks level).flatten sorted

/-- The session counts its spills in binary: `chunks` are the original ones. -/
structure SortSession.Counts (codec : Codec Key Value) (world : World)
    (session : SortSession Key Value) (rows : List (Key × Value))
    (chunks : List (Chunk Key Value)) : Prop where
  divided : recordsOf rows = chunks.flatten ++ session.buffer.map RunRow.record
  count : session.nextRun = chunks.length
  original : ∀ n chunk, chunks[n]? = some chunk → ∃ sorted, StableSortOf Record.key chunk sorted ∧
    Frames codec sorted (world.appended ⟨session.dir, .run n⟩)
  occupied : ∀ level, (∃ path, session.spills[level]? = some (some path)) ↔
    session.nextRun.testBit level = true
  block : ∀ level path, session.spills[level]? = some (some path) →
    (slotChunks chunks level).length = 2 ^ level ∧
      ∃ sorted, session.SlotRun codec world chunks level sorted
  older : ∀ level lower sorted sorted', lower < level →
    session.SlotRun codec world chunks level sorted →
    session.SlotRun codec world chunks lower sorted' →
    ∀ record ∈ sorted, ∀ record' ∈ sorted', record.2.2 < record'.2.2
  buffered : ∀ level sorted, session.SlotRun codec world chunks level sorted →
    ∀ record ∈ sorted, ∀ row ∈ session.buffer, record.2.2 < row.ordinal
  once : session.HeldRows codec world ↑(recordsOf rows)

theorem SortSession.Holds.counts {rows : List (Key × Value)}
    (holds : session.Holds codec world (recordsOf rows) chunks) :
    session.Counts codec world rows chunks := by
  have frontier := holds.frontier
  have length : chunks.length = 1 * chunks.length := (Nat.one_mul _).symm
  have occupied : ∀ level, (∃ path, session.spills[level]? = some (some path)) ↔
      chunks.length.testBit level = true := frontier.slots.occupied_iff Nat.one_pos length
  refine ⟨holds.rows, frontier.count, frontier.original, ?_, ?_, ?_, ?_, holds.heldRows⟩
  · rwa [frontier.count]
  · intro level path found
    have set := (occupied level).mp ⟨path, found⟩
    have inside := Slots.blockStart_add_le set
    refine ⟨?_, ?_⟩
    · rw [slotChunks, List.length_take, List.length_drop]
      omega
    · have block := frontier.slots.block Nat.one_pos length found
      rw [Nat.one_mul, Nat.one_mul] at block
      rcases block with ⟨sorted, -, run, sort⟩
      exact ⟨sorted, path, found, run, sort⟩
  · rintro level lower sorted sorted' less ⟨path, found, -, sort⟩ ⟨path', -, -, sort'⟩
      record member record' member'
    have set := (occupied level).mp ⟨path, found⟩
    exact holds.ordinal_lt _ (Slots.blockStart_add_le_blockStart less set) (sort.mem_iff.mp member)
      (.inl (sort'.mem_iff.mp member'))
  · rintro level sorted ⟨path, found, -, sort⟩ record member row inBuffer
    exact holds.ordinal_lt 0 (Nat.le_refl _) (sort.mem_iff.mp member)
      (.inr (List.mem_map_of_mem (f := RunRow.record) inBuffer))

end Holds

theorem spill_at_limit {session : SortSession Key Value} (limit : session.nextRun = u64Max)
    (nonempty : session.buffer ≠ []) :
    SortSession.spill session =
      .done (.error (.error .runLimit), { session with failed := true }) := by
  have full : checkedAdd u64Max session.nextRun 1 = none := by
    rw [checkedAdd_eq_none, limit]
    exact Nat.lt_succ_self _
  unfold SortSession.spill
  show (if session.buffer.isEmpty = true then _ else _ : Async Key Value _ Unit) session = _
  rw [if_neg fun empty => nonempty (List.isEmpty_iff.mp empty)]
  show (Program.bind (orError (checkedAdd u64Max session.nextRun 1) .runLimit
    { session with failed := true }) _) = _
  rw [full]
  rfl

section Claims

variable {rows : List (Key × Value)} {session : SortSession Key Value} {world : World}

/-- A push that does not return `Ok` leaves the session failed, and then it
refuses everything, or usable with the rows and the counter it had. -/
theorem push_atomic_or_poisons (reaches : Reaches codec dedup rows session world) (key : Key)
    (value : Value) (bytes : UInt64) :
    (∀ abort session' world',
      Runs (sessionSemantics codec) (SortSession.pushWithSize key value bytes session) world
        (.returned (.error abort, session')) world' →
      (∃ error, abort = .error error) ∧
        (session'.failed = true ∨
          session'.failed = false ∧ session'.nextRow = session.nextRow ∧
            ∃ held, session.HeldRows codec world held ∧ session'.HeldRows codec world' held ∧
              held = ↑(recordsOf rows))) ∧
    (∀ session' world',
      Runs (sessionSemantics codec) (SortSession.pushWithSize key value bytes session) world
        (.dropped session') world' → session'.failed = true) ∧
    (∀ poisoned : SortSession Key Value, poisoned.failed = true →
      (∀ key value bytes, SortSession.pushWithSize key value bytes poisoned =
        .done (.error (.error .sessionFailed), poisoned)) ∧
      SortSession.finish poisoned = .done (.error (.error .sessionFailed), poisoned)) := by
  refine ⟨?_, ?_, fun poisoned failed =>
    ⟨fun _ _ _ => pushWithSize_of_failed failed _ _ _, finish_of_failed failed⟩⟩
  · intro abort session' world' run
    rcases reaches.failed_or_usable with failed | usable
    · rw [pushWithSize_of_failed failed] at run
      cases run
      exact ⟨⟨_, rfl⟩, .inl failed⟩
    · have rejects := Method.wp_returned (wp_pushWithSize usable) run
      refine ⟨rejects.1, rejects.2.imp_right fun usable' => ?_⟩
      rcases usable.holds with ⟨chunks, holds⟩
      rcases usable'.holds with ⟨chunks', holds'⟩
      exact ⟨usable'.failed, holds'.nextRow.trans holds.nextRow.symm, _, holds.heldRows,
        holds'.heldRows, rfl⟩
  · intro session' world' run
    rcases reaches.failed_or_usable with failed | usable
    · rw [pushWithSize_of_failed failed] at run
      cases run
    · rcases Method.wp_dropped (wp_pushWithSize usable) run with ⟨op, middle, suspends, dropped⟩
      exact suspends (awaits_of_drop dropped)

/-- A row the serializer refuses poisons a session of two spilled rows. -/
theorem push_atomic_or_poisons_refused :
    ∃ session world abort session' world',
      Reaches byteRows.codec true [(3, 1), (1, 2)] session world ∧
      Runs (sessionSemantics byteRows.codec) (SortSession.pushWithSize 300 0 1 session) world
        (.returned (.error abort, session')) world' ∧
      (∃ error, abort = .error error) ∧
        (session'.failed = true ∨
          session'.failed = false ∧ session'.nextRow = session.nextRow ∧
            ∃ held, session.HeldRows byteRows.codec world held ∧
              session'.HeldRows byteRows.codec world' held ∧
              held = ↑(recordsOf [(3, 1), (1, 2)])) := by
  have refused : (pushAll byteRows 1 [(3, 1), (1, 2)] (.new (.external 1 2) 0 true 0 none)
      .empty).any (fun reached => ((SortSession.pushWithSize 300 0 1 reached.1).follow
        byteRows.policy reached.2).any fun last => last.1.1.toOption.isNone) = true := by
    decide +kernel
  rcases Option.any_eq_true _ _ |>.mp refused with ⟨⟨session, world⟩, pushed, refused⟩
  rcases Option.any_eq_true _ _ |>.mp refused with ⟨⟨⟨_ | _, session'⟩, world'⟩, followed, error⟩
  · have reaches := reaches_of_pushAll (.new _ _ _ _ _) pushed
    have run := Program.runs_of_follow byteRows.policy_allowed followed
    exact ⟨session, world, _, session', world', reaches, run,
      (push_atomic_or_poisons reaches 300 0 1).1 _ _ _ run⟩
  · cases error

/-- The spill frontier of a usable session is a binary counter of its spills,
whose carry loop always finds a free slot and whose limit touches nothing. -/
theorem frontier_invariant (reaches : Reaches codec dedup rows session world)
    (usable : session.failed = false) :
    (∃ chunks, session.Counts codec world rows chunks) ∧
      (∀ key value bytes abort session' world',
        Runs (sessionSemantics codec) (SortSession.pushWithSize key value bytes session) world
          (.returned (.error abort, session')) world' → ∃ error, abort = .error error) ∧
      (∀ abort session' world', Runs (sessionSemantics codec) (SortSession.finish session) world
          (.returned (.error abort, session')) world' → ∃ error, abort = .error error) ∧
      (session.nextRun = u64Max → session.buffer ≠ [] →
        SortSession.spill session =
          .done (.error (.error .runLimit), { session with failed := true })) := by
  have holds := reaches.failed_or_usable.resolve_left (by simp [usable])
  refine ⟨holds.holds.imp fun chunks holds => holds.counts, ?_, ?_, spill_at_limit⟩
  · intro key value bytes abort session' world' run
    exact (Method.wp_returned (wp_pushWithSize holds) run).1
  · intro abort session' world' run
    have live := SortSession.wp_finish holds fun _ _ _ live => live
    exact Method.wp_returned live run

/-- Three spills fill the two lowest slots. -/
theorem frontier_invariant_three :
    ∃ (session : SortSession Nat Nat) (world : World) (chunks : List (Chunk Nat Nat)),
      session.nextRun = 3 ∧ session.failed = false ∧
      session.Counts byteRows.codec world [(3, 1), (1, 2), (3, 3)] chunks := by
  have usable : (pushAll byteRows 1 [(3, 1), (1, 2), (3, 3)] (.new (.external 1 2) 0 true 0 none)
      .empty).any (fun reached => reached.1.nextRun = 3 && !reached.1.failed) = true := by
    decide +kernel
  rcases Option.any_eq_true _ _ |>.mp usable with ⟨⟨session, world⟩, pushed, usable⟩
  simp only [Bool.and_eq_true, decide_eq_true_eq, Bool.not_eq_true'] at usable
  have reaches := reaches_of_pushAll (.new _ _ _ _ _) pushed
  rcases (frontier_invariant reaches usable.2).1 with ⟨chunks, counts⟩
  exact ⟨session, world, chunks, usable.1, usable.2, counts⟩

end Claims

end SortGovernor.Engine
