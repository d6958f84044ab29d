import SortGovernor.Engine.Operation

/-!
# Scratch-directory removal tied to object lifetime
-/

namespace SortGovernor.Engine

open SortGovernor.Resumption

variable {Key Value : Type}

namespace AsyncCleanupGuard

def disarmed (scope : ScopeId) : AsyncCleanupGuard :=
  { dir := none, scope, reservation := none, fds := none }

/-- `set_fd_budget`; its assertion that no directory is armed holds where it is called. -/
def setFdBudget (guard : AsyncCleanupGuard) (fds : Semaphore) : AsyncCleanupGuard :=
  { guard with fds := some fds }

def retain (guard : AsyncCleanupGuard) (reservation : MemoryCharge) :
    Except Abort AsyncCleanupGuard :=
  match guard.reservation with
  | some _ => .error (.panic "scratch reservation is assigned once")
  | none => .ok { guard with reservation := some reservation }

/-- Point the guard at the directory it must remove, once. -/
def arm (guard : AsyncCleanupGuard) (dir : ScratchDir) : AsyncCleanupGuard :=
  { guard with dir := some (guard.dir.getD dir) }

/-- Remove the directory now, in-band; the guard disarms itself on success. -/
def cleanup : Async Key Value AsyncCleanupGuard Unit := do
  let guard ← get
  match guard.dir with
  | none => return ()
  | some dir =>
      scopeIdle guard.scope
      match guard.fds with
      | none => throw (.panic "armed scratch has a descriptor budget")
      | some _ =>
          performReserved guard.scope guard.reservation.toList (.removeDirAll dir)
          modify fun guard => { guard with dir := none, reservation := none }

/-- The task a dropped armed guard spawns: the same removal, its error only logged. -/
def dropTask (guard : AsyncCleanupGuard) : Async Key Value Unit Unit := do
  match guard.dir with
  | none => return ()
  | some dir =>
      match guard.fds with
      | none => throw (.panic "armed scratch has a descriptor budget")
      | some _ =>
          scopeIdle guard.scope
          let _ ← ask (.perform guard.scope guard.reservation.toList (.removeDirAll dir))
          return ()

end AsyncCleanupGuard

end SortGovernor.Engine
