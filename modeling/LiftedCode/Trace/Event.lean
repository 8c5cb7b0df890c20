/-
Events: what verification learns about a block of machine code, in order.
Names are introduced by commands and by reads, whose variable stands for the
value found in memory.
-/
import LiftedCode.Access
import LiftedCode.Layout
import LiftedCode.Log
import LiftedCode.Register
import LiftedCode.Smt.Command

namespace LiftedCode.Trace

open Smt (Term TermSort Command)

/-- The terms for what registers hold. -/
abbrev RegisterTerms := Dict Register Term

/-- Something that happens in a block. -/
inductive Event where
  | command (command : Command)
  /-- From here on, some of what is proved is weaker than it could be. -/
  | warning (what : Approximation)
  /-- Execution reached the instruction at an address. -/
  | instruction (addr : Nat)
  /-- A read; the variable stands for the value read. -/
  | read (addr : Term) (layout : Layout) (var : String) (kind : AccessKind)
  | write (addr : Term) (layout : Layout) (value : Term) (kind : AccessKind)
  /-- The block is over; execution goes on from the given registers. -/
  | fetch (regs : RegisterTerms)
deriving Inhabited

/-- Whether the written form names no width beyond 32 bits, and no literal with
more digits than a numeral can be padded to. -/
def Event.textFits : Event → Bool
  | command c => c.textFits
  | warning _ | instruction _ => true
  | read a l _ _ => a.textFits && l.bitsFit
  | write a l v _ => a.textFits && l.bitsFit && v.textFits
  | fetch rs => rs.values.all Term.textFits

/-- The sort of the values of a type; tuples have none, and everything but
truth values is a bitvector. -/
def sortOf : Ty → Option TermSort
  | .bool => some .bool
  | t => t.width?.map .bits

/-- The sort of the values of a type, its width computed in 32 bits. -/
def checkedSortOf (t : Ty) : Except Fault (Option TermSort) := inRange t.widthFits (sortOf t)

end LiftedCode.Trace
