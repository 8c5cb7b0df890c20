/-
The meaning of events: replaying them in order. A definition adds the value of
its body to the environment, a declaration and a read bind the next of the
values that were chosen beforehand, and every access to memory is recorded with
the data that its terms stand for at that point. Locals are numbered, and no
two numbers have one name (`localName_injective`), so that a fresh local is new
to the environment.
-/
import LiftedCode.Proofs.Machine.Execution
import LiftedCode.Proofs.Smt.Eval
import LiftedCode.Trace.Block

namespace LiftedCode

namespace Trace

open Smt (Term TermSort Env)

/-- The name of a local. -/
def localName (k : Nat) : String := "x" ++ toString k

/-- No two locals have one name. -/
theorem localName_injective {j k : Nat} (h : localName j = localName k) : j = k :=
  toString_nat_injective (append_left_injective h)

-- ============================================================ replaying

/-- How far a replay has come. -/
structure Replay where
  env : Env
  /-- The chosen values that have not been bound yet. -/
  choices : List Datum
  accesses : List Access

namespace Replay

/-- Let a name stand for a datum. -/
def bind (s : Replay) (name : String) (d : Datum) : Replay :=
  { s with env := fun x => if x = name then some d else s.env x }

/-- The replay with one more access. -/
def record (s : Replay) (a : Access) : Replay := { s with accesses := s.accesses ++ [a] }

/-- The next datum to be chosen, and the replay without it. -/
def choose (s : Replay) : Option (Datum × Replay) :=
  match s.choices with
  | [] => none
  | d :: ds => some (d, { s with choices := ds })

/-- Replay an event. What is bound must have the sort that the event names. -/
def event (s : Replay) : Event → Option Replay
  | .command (.define name [] sort body) => do
    let d ← body.eval s.env
    if Smt.sortOfDatum d = some sort then some (s.bind name d) else none
  | .command (.declare name [] sort) => do
    let (d, s) ← s.choose
    if Smt.sortOfDatum d = some sort then some (s.bind name d) else none
  | .command (.define _ (_ :: _) _ _) | .command (.declare _ (_ :: _) _) => none
  | .read t l name _ => do
    let addr ← t.eval s.env
    let (d, s) ← s.choose
    if l.ty.admits d then some ((s.record (.read addr l d)).bind name d) else none
  | .write t l u _ => do
    let addr ← t.eval s.env
    let d ← u.eval s.env
    some (s.record (.write addr l d))
  | .warning _ | .instruction _ | .fetch _ => some s

/-- Replay events, one after the other. -/
def events (s : Replay) : List Event → Option Replay
  | [] => some s
  | e :: es => (s.event e).bind fun s => s.events es

/-- One event more is replayed after all those before. -/
theorem events_append_singleton (s : Replay) (es : List Event) (e : Event) :
    s.events (es ++ [e]) = (s.events es).bind fun s => s.event e := by
  induction es generalizing s with
  | nil =>
      show (s.event e).bind some = s.event e
      cases s.event e <;> rfl
  | cons f es ih =>
      rw [List.cons_append, events, events]
      cases s.event f with
      | none => rfl
      | some s' => exact ih s'

end Replay

end Trace

/-- The data that are chosen for a statement, as the events of its trace bind
them: what a read finds, and an undefined value that has a sort. -/
def Stmt.chosen (choice : Choice) : Stmt → List Datum
  | .assign a => match a.rhs with
    | .undefined t => if (Trace.sortOf t).isSome then [choice a.id] else []
    | .read _ _ => [choice a.id]
    | .app _ | .readIf _ _ _ _ | .machine _ => []
  | .write _ _ _ | .writeIf _ _ _ _ | .call _ | .machine _ | .comment _ | .instruction _ _ => []

end LiftedCode
