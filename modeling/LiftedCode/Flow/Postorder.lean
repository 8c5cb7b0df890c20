/-
Postorder: the order in which a depth-first search that takes successors from
left to right leaves the blocks of a graph, and, read backwards, the order in
which to process them so that a block comes before its successors wherever the
graph has no cycles.
-/
import LiftedCode.Flow.BlockMap

namespace LiftedCode

namespace BlockMap

variable {β : Type} [FlowNode β]

/-- How many blocks a search has still to enter. -/
def unvisited (m : BlockMap β) (visited : List Label) : Nat :=
  m.blocks.countP fun b => label b ∉ visited

/-- Entering a block that was not visited leaves one block fewer to enter. -/
theorem unvisited_cons_lt {m : BlockMap β} {visited : List Label} {l : Label} {b : β}
    (hb : m.find? l = some b) (hl : l ∉ visited) :
    m.unvisited (l :: visited) < m.unvisited visited := by
  have hmem : b ∈ m.blocks := List.mem_of_find?_eq_some hb
  have hlabel : label b = l := by simpa using List.find?_some hb
  unfold unvisited
  generalize m.blocks = bs at hmem
  induction bs with
  | nil => cases hmem
  | cons c cs ih =>
    have mono : cs.countP (fun b => decide (label b ∉ l :: visited))
        ≤ cs.countP (fun b => decide (label b ∉ visited)) :=
      List.countP_mono_left fun x _ h => by
        simp only [decide_eq_true_eq, List.mem_cons, not_or] at h ⊢
        exact h.2
    simp only [List.countP_cons]
    rcases List.mem_cons.1 hmem with rfl | hmem
    · simp only [hlabel, List.mem_cons, true_or, not_true, decide_false, hl, not_false_iff,
        decide_true, if_true]
      simp at mono ⊢
      omega
    · have := ih hmem
      by_cases h : label c ∈ visited
      · simp [h] at this ⊢
        exact this
      · by_cases h' : label c = l <;> simp [h, h'] at this ⊢ <;> omega

/-- How much a stack still holds: its blocks, and their successors to try. -/
def stackSize : List (Label × List Label) → Nat
  | [] => 0
  | e :: rest => e.2.length + 1 + stackSize rest

/-- Search on from a stack of blocks that were entered but not left, each with
the successors still to try. The result has the blocks left last in front. -/
def search (m : BlockMap β) :
    (stack : List (Label × List Label)) → (visited left : List Label) →
      Except CodeError (List Label)
  | [], _, left => .ok left
  | (l, []) :: rest, visited, left => m.search rest visited (l :: left)
  | (l, s :: ss) :: rest, visited, left =>
    if _h : s ∈ visited then m.search ((l, ss) :: rest) visited left
    else match _hs : m.find? s with
      | some b => m.search ((s, FlowNode.successors b) :: (l, ss) :: rest) (s :: visited) left
      | none => .error (.blockNotFound s)
termination_by stack visited => (m.unvisited visited, stackSize stack)
decreasing_by
  · apply Prod.Lex.right
    simp only [stackSize, List.length_nil]
    omega
  · apply Prod.Lex.right
    simp only [stackSize, List.length_cons]
    omega
  · apply Prod.Lex.left
    exact unvisited_cons_lt _hs _h

/-- The blocks that can be reached from an entry, in reverse postorder. -/
def reversePostorder (m : BlockMap β) (entry : Label) : Except CodeError (List Label) := do
  m.search [(entry, ← m.successors entry)] [entry] []

/-- The blocks that cannot be reached from an entry, in order of address. -/
def unreachable (m : BlockMap β) (entry : Label) : Except CodeError (List Label) := do
  let reached ← m.reversePostorder entry
  return m.labels.filter (· ∉ reached)

end BlockMap

end LiftedCode
