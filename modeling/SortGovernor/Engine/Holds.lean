import SortGovernor.Engine.Stays

/-!
# Where the held resource goes

A session holds its admission lease until `finish` hands it to the stream, and
the stream holds it until it ends.  A call that fails or is dropped leaves it
where it was or drops it with everything else.
-/

namespace SortGovernor.Engine

open SortGovernor.Resumption

variable {Key Value World : Type} {sem : Semantics (engine Key Value) World}

namespace ValueStream

def held : ValueStream Key Value → Option Resource
  | inMemory _ _ _ hold _ _ => hold
  | merging _ hold _ => hold.resource
  | ended _ => none

/-- The stream has returned `None`. -/
def isEnded : ValueStream Key Value → Bool
  | ended _ => true
  | _ => false

end ValueStream

variable [LinearOrder Key] [Layout Key Value] {resource : Option Resource}

namespace SortSession

/-- Pushing never touches the held resource. -/
theorem stays_pushWithSize_hold (key : Key) (value : Value) (bytes : UInt64) :
    Method.Stays sem (fun session => session.hold = resource)
      (pushWithSize key value bytes : Async Key Value (SortSession Key Value) Unit) := by
  have spills : Method.Stays sem (fun session => session.hold = resource)
      (spill : Async Key Value (SortSession Key Value) Unit) :=
    fun _ _ held => wp_spill_of_ignores (fun _ _ _ _ _ _ _ _ held => held) held held
  have limits : Method.Stays sem (fun session => session.hold = resource)
      (bufferLimit : Async Key Value (SortSession Key Value) Nat) := by
    refine Method.stays_bind (Method.stays_issue _) fun limit => ?_
    refine Method.stays_bind Method.stays_get fun session => ?_
    split
    · exact Method.stays_pure _
    · exact Method.stays_pure _
  refine Method.stays_bind (Method.stays_bind Method.stays_get fun session =>
    Method.stays_ite (Method.stays_throw _) (Method.stays_pure ())) fun _ => ?_
  refine Method.stays_bind ?_ fun _ => ?_
  · refine Method.stays_bind Method.stays_get fun session => ?_
    refine Method.stays_ite (Method.stays_pure ()) ?_
    refine Method.stays_bind (stays_orError _ _) fun pathBytes => ?_
    refine Method.stays_bind (stays_orError _ _) fun bytes => ?_
    refine Method.stays_bind (stays_reserve bytes) fun charge => ?_
    refine Method.stays_bind (Method.stays_ofExcept _) fun cleanup => ?_
    refine Method.stays_bind (Method.stays_modify fun _ held => held) fun _ => ?_
    exact Method.stays_modify fun _ held => held
  refine Method.stays_bind (stays_reserve _) fun charge => ?_
  refine Method.stays_bind ?_ fun overflows => ?_
  · refine Method.stays_bind Method.stays_get fun session => ?_
    refine Method.stays_ite (Method.stays_pure false) ?_
    split
    · exact Method.stays_pure true
    · exact Method.stays_bind limits fun limit => Method.stays_pure _
  refine Method.stays_bind (Method.stays_ite spills (Method.stays_pure ())) fun _ => ?_
  refine Method.stays_bind ?_ fun _ => ?_
  · refine Method.stays_bind Method.stays_get fun session => ?_
    refine Method.stays_ite (Method.stays_pure ()) ?_
    refine Method.stays_bind (stays_orError _ _) fun capacity => ?_
    refine Method.stays_bind (stays_orError _ _) fun bytes => ?_
    refine Method.stays_bind (stays_reserve bytes) fun charge => ?_
    exact Method.stays_modify fun _ held => held
  refine Method.stays_bind ?_ fun _ => ?_
  · refine Method.stays_bind Method.stays_get fun session => ?_
    refine Method.stays_bind (stays_orError _ _) fun nextRow => ?_
    refine Method.stays_bind (Method.stays_modify fun _ held => held) fun _ => ?_
    refine Method.stays_bind (Method.stays_modify fun _ held => held) fun _ => ?_
    refine Method.stays_bind Method.stays_get fun session => ?_
    refine Method.stays_bind (stays_orError _ _) fun bufferBytes => ?_
    exact Method.stays_modify fun _ held => held
  refine Method.stays_bind Method.stays_get fun session => ?_
  refine Method.stays_bind limits fun limit => ?_
  exact Method.stays_ite spills (Method.stays_pure ())

end SortSession

theorem wp_cascadeAndStream_held {runs : List ScratchPath} {fanIn : Nat} {dir : ScratchDir}
    {dedup : Bool} {hold : Option Resource} {guard : AsyncCleanupGuard} {world : World} :
    (cascadeAndStream runs fanIn dir dedup hold : Async Key Value _ _).wp sem
      (fun _ _ _ => True) (fun stream _ _ => stream.isEnded = false ∧ stream.held = hold)
      (fun _ _ _ => True) guard world := by
  refine Method.wp_bind.mpr (Method.wp_get.mpr (Method.wp_bind.mpr ?_))
  refine Method.wp_of_forall (fun _ _ _ => trivial) (fun runs guard world => ?_)
    fun _ _ _ => trivial
  refine Method.wp_bind.mpr ?_
  refine Method.wp_of_forall (fun _ _ _ => trivial) (fun state guard world => ?_)
    fun _ _ _ => trivial
  exact ⟨rfl, rfl⟩

namespace SortSession

omit [LinearOrder Key] [Layout Key Value] in
theorem wp_inMemoryStream_held {session : SortSession Key Value} {world : World}
    (held : session.hold = resource) :
    inMemoryStream.wp sem (fun _ _ _ => True)
      (fun stream _ _ => stream.isEnded = false ∧ stream.held = resource) (fun _ _ _ => True)
      session world := by
  subst held
  exact ⟨rfl, rfl⟩

theorem wp_mergeStream_held {fanIn : Nat} {session : SortSession Key Value} {world : World}
    (held : session.hold = resource) :
    (mergeStream fanIn).wp sem (fun _ _ _ => True)
      (fun stream _ _ => stream.isEnded = false ∧ stream.held = resource) (fun _ _ _ => True)
      session world := by
  have spills : Method.Stays sem (fun session => session.hold = resource)
      (if session.buffer.isEmpty then pure () else spill :
        Async Key Value (SortSession Key Value) Unit) := by
    refine Method.stays_ite (Method.stays_pure ()) ?_
    exact fun _ _ held => wp_spill_of_ignores (fun _ _ _ _ _ _ _ _ held => held) held held
  refine Method.wp_bind.mpr (Method.wp_get.mpr (Method.wp_bind.mpr ?_))
  refine Method.wp_mono (spills session world held) (fun _ _ _ _ => trivial) ?_
    (fun _ _ _ _ => trivial)
  intro _ session world held
  refine Method.wp_bind.mpr (Method.wp_get.mpr (Method.wp_bind.mpr (Method.wp_modify.mpr ?_)))
  refine Method.wp_bind.mpr (Method.wp_get.mpr (Method.wp_bind.mpr (Method.wp_modify.mpr ?_)))
  refine Method.wp_bind.mpr (Method.wp_get.mpr (Method.wp_within.mpr ?_))
  subst held
  exact wp_cascadeAndStream_held

/-- A stream that `finish` returns holds what the session held. -/
theorem wp_finish_held {session : SortSession Key Value} {world : World}
    (held : session.hold = resource) :
    finish.wp sem (fun _ _ _ => True)
      (fun stream _ _ => stream.isEnded = false ∧ stream.held = resource) (fun _ _ _ => True)
      session world := by
  refine Method.wp_bind.mpr (Method.wp_bind.mpr (Method.wp_get.mpr ?_))
  refine Method.wp_ite.mpr ⟨fun _ => trivial, fun _ => ?_⟩
  refine Method.wp_bind.mpr (Method.wp_modify.mpr (Method.wp_bind.mpr (Method.wp_get.mpr ?_)))
  split
  · exact Method.wp_ite.mpr
      ⟨fun _ => wp_inMemoryStream_held held, fun _ => wp_mergeStream_held held⟩
  · exact Method.wp_ite.mpr
      ⟨fun _ => wp_inMemoryStream_held held, fun _ => wp_mergeStream_held held⟩

end SortSession

namespace ValueStream

omit [LinearOrder Key] [Layout Key Value] in
theorem held_of_isEnded {stream : ValueStream Key Value} (ended : stream.isEnded = true) :
    stream.held = none := by
  cases stream with
  | ended scratch => rfl
  | _ => cases ended

/-- What a poll leaves: the same resource after an item, an ended stream after the last. -/
def Keeps (resource : Option Resource) (item : Option (Except SorterError Value))
    (stream : ValueStream Key Value) : Prop :=
  if item.isSome then stream.isEnded = false ∧ stream.held = resource else stream.isEnded = true

omit [LinearOrder Key] [Layout Key Value] in
theorem wp_finishCleanup_held {hold : StreamHold} {stream : ValueStream Key Value} {world : World}
    (held : hold.resource = resource) :
    (finishCleanup hold).wp sem (fun _ _ _ => True)
      (fun item stream _ => Keeps resource item stream) (fun _ _ _ => True) stream world := by
  refine Method.wp_bind.mpr (Method.wp_attempt.mpr ?_)
  refine Method.wp_of_forall (fun _ _ _ => trivial) (fun _ scratch world => rfl) ?_
  rintro (error | _ | _) scratch world
  · exact ⟨rfl, held⟩
  · trivial
  · trivial

/-- A stream is not polled after it ended. -/
theorem wp_next_held {stream : ValueStream Key Value} {world : World}
    (held : stream.held = resource) :
    next.wp sem (fun _ _ _ => True)
      (fun item stream' _ => stream.isEnded = false ∧ Keeps resource item stream')
      (fun _ _ _ => True) stream world := by
  refine Method.wp_bind.mpr (Method.wp_get.mpr ?_)
  cases stream with
  | inMemory dedup rows last hold allocation metadata =>
      dsimp only
      split
      · exact ⟨rfl, rfl, held⟩
      · exact ⟨rfl, rfl⟩
  | merging state hold cleanupReported =>
      cases state with
      | none =>
          refine Method.wp_ite.mpr ⟨fun _ => ⟨rfl, rfl⟩, fun _ => ?_⟩
          exact Method.wp_post (wp_finishCleanup_held held) (fun _ _ _ left => ⟨rfl, left⟩)
            fun _ _ _ _ => trivial
      | some state =>
          refine Method.wp_bind.mpr (Method.wp_attempt.mpr ?_)
          refine Method.wp_of_forall (fun _ _ _ => trivial) ?_ ?_
          · rintro (_ | row) state world
            · exact Method.wp_post (wp_finishCleanup_held held) (fun _ _ _ left => ⟨rfl, left⟩)
                fun _ _ _ _ => trivial
            · exact ⟨rfl, rfl, held⟩
          · rintro (error | _ | _) state world
            · exact ⟨rfl, rfl, held⟩
            · trivial
            · trivial
  | ended scratch => trivial

end ValueStream

end SortGovernor.Engine
