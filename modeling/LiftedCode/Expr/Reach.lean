/-
Reach: the identifiers of all assignments that a value, a right-hand side or a
statement is made of, each once, operands before the assignments that read
them.
-/
import LiftedCode.Data.OrderedSet
import LiftedCode.Expr.Traverse
import LiftedCode.Stmt

namespace LiftedCode

/-- Identifiers in the order in which they were reached. -/
abbrev IdentSet := OrderedSet Ident

/-- The traversal that collects the identifiers of assignments. -/
def collectIdents : Traversal Id IdentSet where
  done := OrderedSet.contains
  finish a s := s.insert a.id

namespace Value

/-- Add the identifiers of the assignments that a value is made of. -/
def addIdents (s : IdentSet) (v : Value) : IdentSet := collectIdents.walk v s

/-- The identifiers of the assignments that a value is made of, its own last. -/
def idents (v : Value) : IdentSet := addIdents ∅ v

end Value

namespace Rhs

/-- The identifiers of the assignments that the operands are made of. -/
def idents (r : Rhs Value) : IdentSet := r.operands.foldl Value.addIdents ∅

end Rhs

namespace Stmt

/-- The identifiers of the assignments that the operands are made of; the
statement that makes an assignment adds the assignment's own. -/
def idents (s : Stmt) : IdentSet :=
  let ids := s.operands.foldl Value.addIdents ∅
  match s with
  | assign a => ids.insert a.id
  | _ => ids

end Stmt

end LiftedCode
