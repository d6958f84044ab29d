import Mathlib.Logic.Basic

/-!
# Programs as trees of requests

An asynchronous function is a tree.  Each node is one request to the world
(an atomic access, a call into foreign code, or an awaited operation) together
with the function that resumes once the reply is there.  Every node also
carries what is left behind when the future is dropped at that request, so one
program text can be read by a sequential and by an interleaving semantics.
-/

namespace SortGovernor.Resumption

/-- The requests a program may issue and the type of each reply. -/
structure Signature where
  Op : Type
  Reply : Op → Type

/-- A program over `sig` that returns a `Result`; `Left` is what remains of its
owner when the program is dropped while a request is outstanding. -/
inductive Program (sig : Signature) (Left Result : Type) where
  | done (result : Result)
  | request (left : Left) (op : sig.Op) (resume : sig.Reply op → Program sig Left Result)

namespace Program

variable {sig : Signature} {Left Left' Result Result' Result'' : Type}

def bind : Program sig Left Result → (Result → Program sig Left Result') →
    Program sig Left Result'
  | .done result, next => next result
  | .request left op resume, next => .request left op fun reply => (resume reply).bind next

@[simp]
theorem bind_done (result : Result) (next : Result → Program sig Left Result') :
    (done result).bind next = next result := rfl

@[simp]
theorem bind_request (left : Left) (op : sig.Op)
    (resume : sig.Reply op → Program sig Left Result)
    (next : Result → Program sig Left Result') :
    (request left op resume).bind next =
      .request left op fun reply => (resume reply).bind next := rfl

theorem bind_assoc (program : Program sig Left Result)
    (first : Result → Program sig Left Result')
    (second : Result' → Program sig Left Result'') :
    (program.bind first).bind second =
      program.bind fun result => (first result).bind second := by
  induction program with
  | done result => rfl
  | request left op resume inductionHypothesis =>
      simp only [bind_request]
      congr 1
      funext reply
      exact inductionHypothesis reply

theorem bind_unit (program : Program sig Left Result) : program.bind done = program := by
  induction program with
  | done result => rfl
  | request left op resume inductionHypothesis =>
      simp only [bind_request, inductionHypothesis]

def map (f : Result → Result') (program : Program sig Left Result) :
    Program sig Left Result' :=
  program.bind fun result => .done (f result)

/-- View the remains of an inner future as the remains of the future around it. -/
def rebase (f : Left → Left') : Program sig Left Result → Program sig Left' Result
  | .done result => .done result
  | .request left op resume => .request (f left) op fun reply => (resume reply).rebase f

end Program

/-- A `&mut self` method: from the current `State` it runs to a result or an
error and the state it leaves.  At every request the state is what a caller
finds again after dropping the future there. -/
def Method (sig : Signature) (Error State Result : Type) : Type :=
  State → Program sig State (Except Error Result × State)

namespace Method

variable {sig : Signature} {Error State Inner Result Result' : Type}

protected def pure (result : Result) : Method sig Error State Result :=
  fun state => .done (.ok result, state)

protected def bind (method : Method sig Error State Result)
    (next : Result → Method sig Error State Result') : Method sig Error State Result' :=
  fun state => (method state).bind fun
    | (.ok result, state) => next result state
    | (.error error, state) => .done (.error error, state)

instance : Monad (Method sig Error State) where
  pure := Method.pure
  bind := Method.bind

private theorem bind_pure' (method : Method sig Error State Result) :
    method >>= pure = method := by
  funext state
  refine Eq.trans ?_ (Program.bind_unit (method state))
  refine congrArg _ (funext ?_)
  rintro ⟨_ | _, state⟩ <;> rfl

private theorem bind_assoc' {Result'' : Type} (method : Method sig Error State Result)
    (first : Result → Method sig Error State Result')
    (second : Result' → Method sig Error State Result'') :
    method >>= first >>= second = method >>= fun result => first result >>= second := by
  funext state
  refine (Program.bind_assoc _ _ _).trans ?_
  refine congrArg _ (funext ?_)
  rintro ⟨_ | _, state⟩ <;> rfl

instance : LawfulMonad (Method sig Error State) :=
  LawfulMonad.mk' _ bind_pure' (fun _ _ => rfl) bind_assoc'

/-- `?` on an error: leave the method with the state as it is. -/
protected def throw (error : Error) : Method sig Error State Result :=
  fun state => .done (.error error, state)

instance : MonadExceptOf Error (Method sig Error State) where
  throw := Method.throw
  tryCatch method handler := fun state => (method state).bind fun
    | (.ok result, state) => .done (.ok result, state)
    | (.error error, state) => handler error state

instance : MonadStateOf State (Method sig Error State) where
  get := fun state => .done (.ok state, state)
  set state := fun _ => .done (.ok PUnit.unit, state)
  modifyGet f := fun state => .done (.ok (f state).1, (f state).2)

def issue (op : sig.Op) : Method sig Error State (sig.Reply op) :=
  fun state => .request state op fun reply => .done (.ok reply, state)

/-- `ok_or(error)?` -/
def okOr (value : Option Result) (error : Error) : Method sig Error State Result :=
  match value with
  | some value => pure value
  | none => throw error

/-- `?` on a result. -/
def ofExcept (result : Except Error Result) : Method sig Error State Result :=
  match result with
  | .ok value => pure value
  | .error error => throw error

/-- Call a method of a field: `put` writes the field back, whatever the outcome. -/
def within (inner : Inner) (put : Inner → State → State)
    (method : Method sig Error Inner Result) : Method sig Error State Result :=
  fun state => ((method inner).rebase fun inner => put inner state).map fun
    | (result, inner) => (result, put inner state)

/-- Call a method of a local variable and hand over its outcome, unhandled. -/
def attempt (inner : Inner) (method : Method sig Error Inner Result) :
    Method sig Error State (Except Error Result × Inner) :=
  fun state => ((method inner).rebase fun _ => state).map fun outcome => (.ok outcome, state)

/-- Call a method of a local variable under `?`; an error drops the variable. -/
def call (inner : Inner) (method : Method sig Error Inner Result) :
    Method sig Error State (Result × Inner) := do
  match ← attempt inner method with
  | (.ok result, inner) => pure (result, inner)
  | (.error error, _) => throw error

end Method

end SortGovernor.Resumption
