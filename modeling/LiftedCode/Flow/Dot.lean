/-
Drawings: a graph of blocks in the language of graph drawing tools. Blocks are
boxes with the range of addresses that they cover, and edges are numbered
among the edges of their source.
-/
import LiftedCode.Flow.Range

namespace LiftedCode

namespace BlockMap

variable {β : Type} [FlowNode β]

/-- The line that draws a block. -/
def dotNode (b : β) : Except Fault String := do
  let range := Numeral.hex (label b) ++ ".." ++ Numeral.hex (← endOf b)
  return "    " ++ labelText (label b) ++ "[label=\"" ++ range ++ "\"][shape=\"box\"];\n"

/-- The line that draws an edge. -/
def dotEdge (e : Label × Label × Nat) : String :=
  "    " ++ labelText e.1 ++ " -> " ++ labelText e.2.1 ++ "[label=\"" ++ toString e.2.2
    ++ "\"];\n"

/-- The drawing of the graph: all blocks, then all edges. -/
def dot (m : BlockMap β) : Except Fault String := do
  let nodes ← m.blocks.mapM dotNode
  return "digraph cfg \x7b\n" ++ String.join nodes ++ String.join (m.edges.map dotEdge)
    ++ "\x7d\n"

end BlockMap

end LiftedCode
