/-
Folds: bottom-up computations on values that treat every assignment once, with
results kept under the assignments' identifiers. A cache carries the results
from one fold to the next, so an assignment that was folded before is not
folded again.
-/
import LiftedCode.Data.Dict
import LiftedCode.Expr.Traverse

namespace LiftedCode

/-- How values are folded: what there is for a leaf, and for an assignment. -/
structure Fold (ρ : Type) where
  /-- The result for a value that is not an assignment. -/
  leaf : Value → ρ
  /-- The result for an assignment, from the results for its operands. -/
  assignment : Assignment Value → List ρ → ρ

/-- The results of a fold, by identifier. -/
abbrev FoldCache (ρ : Type) := Dict Ident ρ

/-- A fold under way: the results so far, and what it took to get them. -/
structure FoldProgress (ρ : Type) where
  cache : FoldCache ρ
  /-- The assignments folded, with the results for their operands, the latest
  first. -/
  calls : List (Assignment Value × List ρ)
  /-- How many values that are not assignments were looked at. -/
  leaves : Nat

/-- What a fold of a value leaves behind. -/
structure FoldOutcome (ρ : Type) where
  result : ρ
  cache : FoldCache ρ
  /-- The assignments folded, with the results for their operands, in order. -/
  calls : List (Assignment Value × List ρ)
  /-- How many values that are not assignments were looked at. -/
  leaves : Nat

/-- The identifiers of the assignments folded, in order. -/
def FoldOutcome.folded {ρ : Type} (o : FoldOutcome ρ) : List Ident := o.calls.map (·.1.id)

namespace Fold

variable {ρ : Type}

/-- The result for an operand, once all assignments that it is made of are in
the cache. -/
def operand (f : Fold ρ) (cache : FoldCache ρ) : Value → Except Fault ρ
  | .assigned a => cache.get a.id
  | v => .ok (f.leaf v)

/-- Put the result for an assignment into the cache. -/
def finish (f : Fold ρ) (a : Assignment Value) (p : FoldProgress ρ) :
    Except Fault (FoldProgress ρ) := do
  let args ← a.rhs.operands.mapM (f.operand p.cache)
  return {
    cache := p.cache.insert a.id (f.assignment a args)
    calls := (a, args) :: p.calls
    leaves := p.leaves + a.rhs.operands.countP (·.assignment?.isNone) }

/-- The traversal of the assignments that have no result yet. -/
def traversal (f : Fold ρ) : Traversal (Except Fault) (FoldProgress ρ) where
  done p id := p.cache.contains id
  finish := f.finish

/-- Fold a value, reusing and extending a cache. -/
def run (f : Fold ρ) (cache : FoldCache ρ) (v : Value) : Except Fault (FoldOutcome ρ) :=
  match v with
  | .assigned _ => do
    let p ← f.traversal.walk v ⟨cache, [], 0⟩
    return ⟨← f.operand p.cache v, p.cache, p.calls.reverse, p.leaves⟩
  | v => .ok ⟨f.leaf v, cache, [], 1⟩

end Fold

end LiftedCode
