import SortGovernor.Runtime.Machine
import Mathlib.Data.List.Perm.Subperm

/-!
# Outstanding operations

A client has at most one operation outstanding: the one it is suspended at.  An
operation whose caller was dropped belongs to nobody.
-/

namespace SortGovernor.Runtime

open SortGovernor.Engine SortGovernor.Resumption

variable {Client Shared : Type} {Actor : Client → Type} {clients : Clients Shared Actor}

/-- A client is suspended at what it awaits. -/
def SuspendedAt (clients : Clients Shared Actor) (state : State Shared Actor) (client : Client)
    (await : Await) : Prop :=
  ∃ actor, state.tasks client = some ⟨actor, true⟩ ∧ clients.awaits client actor = some await

theorem SuspendedAt.congr {state state' : State Shared Actor} {client : Client} {await : Await}
    (suspended : SuspendedAt clients state client await)
    (same : state'.tasks client = state.tasks client) :
      SuspendedAt clients state' client await := by
  obtain ⟨actor, found, awaits⟩ := suspended
  exact ⟨actor, same.trans found, awaits⟩

theorem SuspendedAt.unique {state : State Shared Actor} {client : Client} {await await' : Await}
    (suspended : SuspendedAt clients state client await)
    (suspended' : SuspendedAt clients state client await') : await = await' := by
  obtain ⟨actor, found, awaits⟩ := suspended
  obtain ⟨actor', found', awaits'⟩ := suspended'
  obtain ⟨rfl⟩ : (⟨actor, true⟩ : Task (Actor client)) = ⟨actor', true⟩ :=
    Option.some.inj (found.symm.trans found')
  exact Option.some.inj (awaits.symm.trans awaits')

def Call.entry (call : Call Client) : Client × Await :=
  (call.caller, .job (some call.scope) call.held call.job)

def Operation.entry (operation : Operation Client) : Client × Await :=
  (operation.caller, .job operation.scope operation.held operation.job)

/-- The operations somebody waits for, in the queue or with a worker. -/
def State.outstanding (state : State Shared Actor) : List (Client × Await) :=
  state.waiting.map Call.entry ++
    (state.operations.filter (·.attached)).map Operation.entry

/-- Every outstanding operation is the one its caller is suspended at. -/
structure Attended (clients : Clients Shared Actor) (state : State Shared Actor) : Prop where
  suspended : ∀ entry ∈ state.outstanding, SuspendedAt clients state entry.1 entry.2
  once : (state.outstanding.map Prod.fst).Nodup

section Attended

variable {state state' : State Shared Actor}

theorem State.exists_await_of_outstanding {entry : Client × Await}
    (member : entry ∈ state.outstanding) : ∃ scope held job, entry.2 = .job scope held job := by
  rw [State.outstanding, List.mem_append, List.mem_map, List.mem_map] at member
  obtain ⟨call, -, rfl⟩ | ⟨operation, -, rfl⟩ := member
  · exact ⟨_, _, _, rfl⟩
  · exact ⟨_, _, _, rfl⟩

theorem Attended.not_outstanding (attended : Attended clients state) {client : Client}
    (none : ∀ scope held job, ¬SuspendedAt clients state client (.job scope held job)) :
    client ∉ state.outstanding.map Prod.fst := by
  intro member
  obtain ⟨entry, found, rfl⟩ := List.mem_map.mp member
  obtain ⟨scope, held, job, await⟩ := State.exists_await_of_outstanding found
  exact none scope held job (await ▸ attended.suspended entry found)

theorem Attended.frame (attended : Attended clients state) (client : Client)
    (same : ∀ other, other ≠ client → state'.tasks other = state.tasks other)
    (fewer : state'.outstanding.Subperm state.outstanding)
    (none : client ∉ state'.outstanding.map Prod.fst) : Attended clients state' := by
  obtain ⟨kept, perm, sublist⟩ := fewer
  constructor
  · intro entry member
    have different : entry.1 ≠ client :=
      fun equal => none (List.mem_map.mpr ⟨entry, member, equal⟩)
    have known : entry ∈ state.outstanding := sublist.subset (perm.mem_iff.mpr member)
    exact (attended.suspended entry known).congr (same _ different)
  · exact (perm.map Prod.fst).nodup_iff.mp (attended.once.sublist (sublist.map Prod.fst))

theorem Attended.workers (attended : Attended clients state) (same : state'.tasks = state.tasks)
    (perm : state'.outstanding.Perm state.outstanding) : Attended clients state' := by
  constructor
  · intro entry member
    exact (attended.suspended entry (perm.mem_iff.mp member)).congr (congrFun same _)
  · exact (perm.map Prod.fst).nodup_iff.mpr attended.once

theorem Attended.issue (attended : Attended clients state) {client : Client} {await : Await}
    (same : ∀ other, other ≠ client → state'.tasks other = state.tasks other)
    (suspended : SuspendedAt clients state' client await)
    (perm : state'.outstanding.Perm ((client, await) :: state.outstanding))
    (none : client ∉ state.outstanding.map Prod.fst) : Attended clients state' := by
  constructor
  · intro entry member
    obtain rfl | member := List.mem_cons.mp (perm.mem_iff.mp member)
    · exact suspended
    · have different : entry.1 ≠ client :=
        fun equal => none (List.mem_map.mpr ⟨entry, member, equal⟩)
      exact (attended.suspended entry member).congr (same _ different)
  · exact (perm.map Prod.fst).nodup_iff.mpr (List.nodup_cons.mpr ⟨none, attended.once⟩)

theorem Attended.take (attended : Attended clients state) {entry : Client × Await}
    (same : ∀ other, other ≠ entry.1 → state'.tasks other = state.tasks other)
    (perm : state.outstanding.Perm (entry :: state'.outstanding)) : Attended clients state' := by
  have once := (perm.map Prod.fst).nodup_iff.mp attended.once
  apply attended.frame entry.1 same
  · exact (List.sublist_cons_self _ _).subperm.trans perm.symm.subperm
  · exact (List.nodup_cons.mp once).1

variable {before after : List (Operation Client)} {operation changed : Operation Client}

theorem State.outstanding_replace (waiting : state'.waiting = state.waiting)
    (split : state.operations = before ++ operation :: after)
    (split' : state'.operations = before ++ changed :: after)
    (attached : changed.attached = operation.attached) (entry : changed.entry = operation.entry) :
    state'.outstanding = state.outstanding := by
  simp only [State.outstanding, waiting, split, split', List.filter_append, List.filter_cons,
    attached, List.map_append]
  split <;> simp only [List.map_cons, entry]

theorem State.outstanding_remove (waiting : state'.waiting = state.waiting)
    (split : state.operations = before ++ operation :: after)
    (attached : operation.attached = true)
    (kept : state'.operations.filter (·.attached) = (before ++ after).filter (·.attached)) :
    state.outstanding.Perm (operation.entry :: state'.outstanding) := by
  simp only [State.outstanding, waiting, split, kept, List.filter_append, List.filter_cons,
    attached, if_true, List.map_append, List.map_cons]
  rw [← List.append_assoc, ← List.append_assoc]
  exact List.perm_middle

end Attended

section Step

variable [DecidableEq Client] {state state' : State Shared Actor} {event : Event Client}

omit [DecidableEq Client] in
theorem attended_initial (permits : Nat) (world : World Shared) :
    Attended clients (.initial permits world) where
  suspended _ member := absurd member List.not_mem_nil
  once := List.nodup_nil

theorem State.setTask_same (client : Client) (actor : Actor client) (suspended : Bool) :
    (state.setTask client actor suspended).tasks client = some ⟨actor, suspended⟩ := by
  simp [State.setTask]

theorem State.setTask_ne {client other : Client} (actor : Actor client) (suspended : Bool)
    (different : other ≠ client) :
    (state.setTask client actor suspended).tasks other = state.tasks other := by
  simp [State.setTask, different]

theorem Attended.step (attended : Attended clients state) (step : Step clients state event state') :
    Attended clients state' := by
  cases step with
  | @start client actor absent starts =>
      have none : client ∉ state.outstanding.map Prod.fst :=
        attended.not_outstanding fun _ _ _ ⟨_, found, _⟩ => by rw [absent] at found; cases found
      exact attended.frame client (fun _ => State.setTask_ne _ _) (List.Subperm.refl _) none
  | @fork client child actor childActor world task absent forks =>
      have none : child ∉ state.outstanding.map Prod.fst :=
        attended.not_outstanding fun _ _ _ ⟨_, found, _⟩ => by rw [absent] at found; cases found
      exact attended.frame child (fun _ => State.setTask_ne _ _) (List.Subperm.refl _) none
  | @move client actor actor' world task moves =>
      have none : client ∉ state.outstanding.map Prod.fst :=
        attended.not_outstanding fun _ _ _ ⟨_, found, _⟩ => by rw [task] at found; cases found
      exact attended.frame client (fun _ => State.setTask_ne _ _) (List.Subperm.refl _) none
  | @request client actor scope held job task awaits =>
      have none : client ∉ state.outstanding.map Prod.fst :=
        attended.not_outstanding fun _ _ _ ⟨_, found, _⟩ => by rw [task] at found; cases found
      refine attended.issue (fun _ => State.setTask_ne _ _)
        ⟨actor, State.setTask_same client actor true, awaits⟩ ?_ none
      simp only [State.outstanding, State.retainScope, State.setTask, List.map_append,
        List.append_assoc]
      exact List.perm_middle
  | @inPlace client actor job task awaits =>
      have none : client ∉ state.outstanding.map Prod.fst :=
        attended.not_outstanding fun _ _ _ ⟨_, found, _⟩ => by rw [task] at found; cases found
      refine attended.issue (fun _ => State.setTask_ne _ _)
        ⟨actor, State.setTask_same client actor true, awaits⟩ ?_ none
      simp only [State.outstanding, State.setTask, List.filter_append, List.map_append,
        ← List.append_assoc]
      exact List.perm_append_singleton _ _
  | @suspend client actor await task awaits other =>
      have none : client ∉ state.outstanding.map Prod.fst :=
        attended.not_outstanding fun _ _ _ ⟨_, found, _⟩ => by rw [task] at found; cases found
      exact attended.frame client (fun _ => State.setTask_ne _ _) (List.Subperm.refl _) none
  | @acquire before call after split free =>
      refine attended.workers rfl ?_
      simp only [State.outstanding, split, List.filter_append, List.map_append, List.map_cons,
        ← List.append_assoc]
      apply (List.perm_append_singleton _ _).trans
      exact (List.perm_middle : (_ ++ call.entry :: _).Perm _).symm.append_right _
  | work split executing issued replies =>
      refine attended.workers rfl ?_
      exact .of_eq (State.outstanding_replace rfl split rfl rfl rfl)
  | finish split executing ended =>
      refine attended.workers rfl ?_
      exact .of_eq (State.outstanding_replace rfl split rfl rfl rfl)
  | panic text split executing bounded =>
      refine attended.workers rfl ?_
      exact .of_eq (State.outstanding_replace rfl split rfl rfl rfl)
  | @release before operation after holding owned split ended owns =>
      refine attended.workers (State.release_tasks ..) ?_
      exact .of_eq (State.outstanding_replace (State.release_waiting ..) split rfl rfl rfl)
  | @deliver before operation after actor result actor' split attached ended owned task resumes =>
      refine attended.take (fun _ => State.setTask_ne _ _) (?_ : List.Perm _ (operation.entry :: _))
      exact State.outstanding_remove rfl split attached rfl
  | dispose split attached ended owned =>
      refine attended.workers rfl ?_
      simp [State.outstanding, split, attached]
  | @idle client actor scope actor' task awaits settled resumes =>
      have none : client ∉ state.outstanding.map Prod.fst :=
        attended.not_outstanding fun _ _ _ suspended =>
          absurd (suspended.unique ⟨actor, task, awaits⟩) Await.noConfusion
      exact attended.frame client (fun _ => State.setTask_ne _ _) (List.Subperm.refl _) none
  | @wake client actor token actor' task awaits woken resumes =>
      have none : client ∉ state.outstanding.map Prod.fst :=
        attended.not_outstanding fun _ _ _ suspended =>
          absurd (suspended.unique ⟨actor, task, awaits⟩) Await.noConfusion
      exact attended.frame client (fun _ => State.setTask_ne _ _) (List.Subperm.refl _) none
  | @cancelWaiting client actor actor' before call after task cancels split caller =>
      subst caller
      refine attended.take (fun _ => State.setTask_ne _ _) (?_ : List.Perm _ (call.entry :: _))
      simp only [State.outstanding, State.releaseScope, State.setTask, split, List.map_append,
        List.map_cons, List.append_assoc, List.cons_append]
      exact List.perm_middle
  | @cancelRunning client actor actor' before operation after task cancels split caller attached =>
      subst caller
      refine attended.take (fun _ => State.setTask_ne _ _) (?_ : List.Perm _ (operation.entry :: _))
      refine State.outstanding_remove rfl split attached ?_
      simp
  | @cancelSuspended client actor actor' await task awaits other cancels =>
      have none : client ∉ state.outstanding.map Prod.fst :=
        attended.not_outstanding fun _ _ _ suspended =>
          absurd (suspended.unique ⟨actor, task, awaits⟩) fun same => other _ _ _ same.symm
      exact attended.frame client (fun _ => State.setTask_ne _ _) (List.Subperm.refl _) none

theorem Reaches.attended {allowed : State Shared Actor → Event Client → Prop}
    {first : State Shared Actor} (reaches : Reaches clients allowed first state)
    (attended : Attended clients first) : Attended clients state := by
  induction reaches with
  | refl => exact attended
  | step _ step _ ih => exact ih.step step

end Step

end SortGovernor.Runtime
