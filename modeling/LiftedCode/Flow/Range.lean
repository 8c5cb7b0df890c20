/-
Ranges: which addresses the blocks of a graph cover. A block covers the
addresses from its label up to its size, which must not reach beyond the last
64-bit address wherever its end is asked for.
-/
import LiftedCode.Flow.BlockMap

namespace LiftedCode

/-- The address just after a block. -/
def endOf {β : Type} [FlowNode β] (b : β) : Except Fault Nat :=
  Address.add (label b) (FlowNode.size b)

namespace BlockMap

variable {β : Type} [FlowNode β]

/-- The block that covers an address. The last block that starts there or
before is the only one that can. -/
def containing (m : BlockMap β) (addr : Nat) : Except Fault (Option β) :=
  match (m.blocks.takeWhile (label · ≤ addr)).getLast? with
  | none => .ok none
  | some b => do
    return if addr < (← endOf b) then some b else none

/-- Add a range to ranges that end before it starts or where it starts; in the
second case the last of them is extended. The last range comes first. -/
def appendRange (r : Nat × Nat) : List (Nat × Nat) → List (Nat × Nat)
  | (start, stop) :: rest => if stop = r.1 then (start, r.2) :: rest else r :: (start, stop) :: rest
  | [] => [r]

/-- The maximal ranges that consecutive blocks cover without a gap. -/
def ranges (m : BlockMap β) : Except Fault (List (Nat × Nat)) := do
  let rs ← m.blocks.mapM fun b => return (label b, ← endOf b)
  return (rs.foldl (fun acc r => appendRange r acc) []).reverse

end BlockMap

end LiftedCode
