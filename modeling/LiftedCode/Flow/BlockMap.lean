/-
Block maps: the graph of a set of blocks, with its blocks in order of address
and its edges known from both ends. A map is built only from blocks with
different labels, whose ranges of addresses do not overlap and whose
successors are all there.
-/
import LiftedCode.Data.Dict
import LiftedCode.Expr.Error

namespace LiftedCode

/-- What makes a block a node of a graph. -/
class FlowNode (β : Type) where
  label : β → Label
  /-- The number of bytes of machine code that the block covers. -/
  size : β → Nat
  /-- The labels of the blocks that may come next, once per edge. -/
  successors : β → List Label

export FlowNode (label)

/-- Blocks by address, with the edges between them. -/
structure BlockMap (β : Type) where
  /-- The blocks, in order of address. -/
  blocks : List β
  /-- For each label, the labels of the blocks that lead there, in order of
  address, once per edge. -/
  preds : Dict Label (List Label)
deriving Inhabited

namespace BlockMap

variable {β : Type} [FlowNode β]

-- ============================================================ building

/-- The first label that two neighbours share. -/
def sharedLabel? : List β → Option Label
  | a :: b :: rest => if label a = label b then some (label a) else sharedLabel? (b :: rest)
  | _ => none

/-- The first neighbours of which the one runs into the other. -/
def overlap? : List β → Option (Label × Label)
  | a :: b :: rest =>
    if label b < Address.addSaturating (label a) (FlowNode.size a) then some (label a, label b)
    else overlap? (b :: rest)
  | _ => none

/-- Every edge of the blocks, from the first block's on. -/
def edgesOf (blocks : List β) : List (Label × Label) :=
  blocks.flatMap fun b => (FlowNode.successors b).map fun s => (label b, s)

/-- Record each edge at its end. -/
def addEdges (preds : Dict Label (List Label)) :
    List (Label × Label) → Except CodeError (Dict Label (List Label))
  | [] => .ok preds
  | (u, v) :: edges =>
    match preds.get? v with
    | some us => addEdges (preds.insert v (us ++ [u])) edges
    | none => .error (.blockNotFound v)

/-- The graph of a list of blocks in any order. -/
def build (blocks : List β) : Except CodeError (BlockMap β) := do
  let blocks := blocks.mergeSort fun a b => label a ≤ label b
  match sharedLabel? blocks with
  | some l => throw (.duplicateBlock l)
  | none => pure ()
  match overlap? blocks with
  | some (l, m) => throw (.overlappingBlocks l m)
  | none => pure ()
  let isolated := Dict.ofList (blocks.map fun b => (label b, []))
  return ⟨blocks, ← addEdges isolated (edgesOf blocks)⟩

-- ============================================================= queries

/-- The block with a label. -/
def find? (m : BlockMap β) (l : Label) : Option β := m.blocks.find? (label · == l)

/-- The block with a label, which has to exist. -/
def get (m : BlockMap β) (l : Label) : Except CodeError β :=
  match m.find? l with
  | some b => .ok b
  | none => .error (.blockNotFound l)

/-- Whether there is a block with a label. -/
def contains (m : BlockMap β) (l : Label) : Bool := (m.find? l).isSome

/-- The labels of the blocks, in order of address. -/
def labels (m : BlockMap β) : List Label := m.blocks.map label

/-- The number of blocks. -/
def size (m : BlockMap β) : Nat := m.blocks.length

/-- Whether there are no blocks. -/
def isEmpty (m : BlockMap β) : Bool := m.blocks.isEmpty

/-- The labels that a block leads to, in order, once per edge. -/
def successors (m : BlockMap β) (l : Label) : Except CodeError (List Label) := do
  return FlowNode.successors (← m.get l)

/-- The labels of the blocks that lead to a block, in order of address, once
per edge. -/
def predecessors (m : BlockMap β) (l : Label) : Except CodeError (List Label) :=
  match m.preds.get? l with
  | some ps => .ok ps
  | none => .error (.blockNotFound l)

/-- Every edge with its place among the edges of its source, source by source. -/
def edges (m : BlockMap β) : List (Label × Label × Nat) :=
  m.blocks.flatMap fun b =>
    (FlowNode.successors b).zipIdx.map fun (s, i) => (label b, s, i)

end BlockMap

end LiftedCode
