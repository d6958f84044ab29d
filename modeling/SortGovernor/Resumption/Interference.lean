import SortGovernor.Resumption.Logic

/-!
# Programs among others

A program that shares its world with others is read under a semantics that
absorbs what they do: whatever moves the world may make before a request are
part of its reply.  A precondition then survives every such move.
-/

namespace SortGovernor.Resumption

variable {sig : Signature} {World : Type} {Left Result : Type}

/-- A reply may come after any moves of the others. -/
def Semantics.Absorbs (sem : Semantics sig World) (rely : World → World → Prop) : Prop :=
  ∀ op world world' reply next, rely world world' → sem.reply op world' reply next →
    sem.reply op world reply next

namespace Program

variable {sem : Semantics sig World} {rely : World → World → Prop}
  {issue : Left → sig.Op → World → Prop} {post : Result → World → Prop}

theorem wp_stable {program : Program sig Left Result} {world world' : World}
    (holds : program.wp sem issue post world) (moved : rely world world')
    (absorbs : sem.Absorbs rely)
    (keepsIssue : ∀ left op world world', rely world world' → issue left op world →
      issue left op world')
    (keepsPost : ∀ result world world', rely world world' → post result world →
      post result world') :
    program.wp sem issue post world' := by
  cases program with
  | done result => exact keepsPost result world world' moved holds
  | request left op resume =>
      refine ⟨keepsIssue left op world world' moved holds.1, ?_⟩
      intro reply next replied
      exact holds.2 reply next (absorbs op world world' reply next moved replied)

end Program

end SortGovernor.Resumption
