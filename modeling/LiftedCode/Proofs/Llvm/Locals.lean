/-
The locals of code: which of them an instruction reads and which it defines, and
what it means that each has one definition in front of its uses
(`Definition.SingleAssignment`). Within a block this is a matter of the order of its
instructions (`InScope`); from one block to another only phi variables carry
anything.
-/
import LiftedCode.Proofs.Llvm.Execution

namespace LiftedCode.Llvm

-- ========================================================== occurrences

/-- The locals in an operand. One that is only text counts as a local of that
name, as there is no telling what it reads. -/
def Operand.locals : Operand → List Local
  | reg x => [x]
  | verbatim s => [.named s]
  | int _ | allOnes | bool _ | undef | global _ | functionAddress _ => []

/-- The operands that an operation reads. -/
def Op.operands : Op → List Operand
  | binary _ a b | compare _ a b | floatCompare _ a b => [a.operand, b]
  | cast _ a _ | extractValue a _ | extractFirst a | load _ a => [a.operand]
  | select c a b => [c.operand, a.operand, b.operand]
  | insertValue a b _ | insertFirst a b => [a.operand, b.operand]
  | call _ _ f args => f :: args.map (·.operand)
  | asm c => c.args.map (·.operand)

namespace Instr

/-- The operands that an instruction reads. -/
def operands : Instr → List Operand
  | comment _ | asm .emptyMmx => []
  | assign _ op => op.operands
  | store v p => [v.operand, p.operand]
  | call _ args => args.map (·.operand)
  | asm (.storeX87Control p) => [p]

/-- The locals that the instruction reads. -/
def reads (i : Instr) : List Local := i.operands.flatMap Operand.locals

/-- The locals that the instruction defines. -/
def results : Instr → List Local
  | assign x _ => [x]
  | comment _ | store _ _ | call _ _ | asm _ => []

end Instr

/-- The operands that a terminator reads. -/
def Terminator.operands : Terminator → List Operand
  | jump _ | unreachable => []
  | branch c _ _ => [c.operand]
  | switch i _ _ _ => [i.operand]
  | ret v => [v.operand]

/-- The locals that the transfer of control reads. -/
def Terminator.reads (t : Terminator) : List Local := t.operands.flatMap Operand.locals

/-- The locals that instructions define, in order. -/
def results (is : List Instr) : List Local := is.flatMap Instr.results

namespace Block

/-- The locals that the block defines: its phi variables, then its results. -/
def locals (b : Block Instr Terminator) : List Local :=
  b.phis.map (·.name) ++ results b.instrs

/-- The locals that the block reads, other than in its phi variables. -/
def reads (b : Block Instr Terminator) : List Local :=
  b.instrs.flatMap Instr.reads ++ b.terminator.reads

end Block

/-- Whether instructions, one after the other, read only what is known
beforehand and what earlier ones define. -/
def InScope (known : Local → Prop) : List Instr → Prop
  | [] => True
  | i :: is => (∀ x ∈ i.reads, known x) ∧ InScope (fun x => known x ∨ x ∈ i.results) is

namespace Definition

/-- The locals of the parameters. -/
def paramLocals (d : Code) : List Local := d.params.map (·.2)

/-- All locals that are defined, in the order in which they are written. -/
def locals (d : Code) : List Local := d.paramLocals ++ d.blocks.flatMap Block.locals

/-- Every local has one definition, and it is in front of its uses: a block reads
parameters, its own phi variables and results of earlier instructions of its
own, and a phi variable takes over what the block that it names defines. -/
structure SingleAssignment (d : Code) : Prop where
  labels : (d.blocks.map (·.label)).Nodup
  /-- No two definitions are written alike. -/
  once : (d.locals.map Local.text).Nodup
  instrs : ∀ b ∈ d.blocks,
    InScope (fun x => x ∈ d.paramLocals ∨ x ∈ b.phis.map (·.name)) b.instrs
  terminators : ∀ b ∈ d.blocks, ∀ x ∈ b.terminator.reads, x ∈ d.paramLocals ∨ x ∈ b.locals
  phis : ∀ b ∈ d.blocks, ∀ p ∈ b.phis, ∀ e ∈ p.incoming, ∀ x ∈ e.1.locals,
    x ∈ d.paramLocals ∨ ∃ c ∈ d.blocks, c.label = e.2 ∧ x ∈ c.locals

end Definition

/-- Locals that are not given by name are written differently: each family has
an initial of its own, and its members have different numerals. -/
theorem Local.text_injective {x y : Local} (hx : ∀ s, x ≠ .named s) (hy : ∀ s, y ≠ .named s)
    (h : x.text = y.text) : x = y := by
  have hinitial := congrArg (fun s : String => s.toList.head?) h
  cases x with
  | temp m =>
      cases y with
      | temp n => rw [toString_nat_injective (append_left_injective h)]
      | var | arg => simp [text, identText] at hinitial
      | named s => exact absurd rfl (hy s)
  | var i =>
      cases y with
      | var j => rw [toString_nat_injective (append_left_injective h)]
      | temp | arg => simp [text, identText] at hinitial
      | named s => exact absurd rfl (hy s)
  | arg i =>
      cases y with
      | arg j => rw [toString_nat_injective (append_left_injective h)]
      | temp | var => simp [text, identText] at hinitial
      | named s => exact absurd rfl (hy s)
  | named s => exact absurd rfl (hx s)

-- ================================================================ scope

section

variable {known known' : Local → Prop} {i : Instr} {is js : List Instr}

@[simp] theorem results_append : results (is ++ js) = results is ++ results js :=
  List.flatMap_append

@[simp] theorem results_singleton : results [i] = i.results := by simp [results]

/-- More locals can be known. -/
theorem InScope.mono (h : InScope known is) (hk : ∀ x, known x → known' x) :
    InScope known' is := by
  induction is generalizing known known' with
  | nil => exact trivial
  | cons i is ih => exact ⟨fun x hx => hk x (h.1 x hx), ih h.2 fun x => Or.imp_left (hk x)⟩

/-- An instruction at the end may read the results of all others. -/
theorem inScope_append_singleton : InScope known (is ++ [i])
    ↔ InScope known is ∧ ∀ x ∈ i.reads, known x ∨ x ∈ results is := by
  induction is generalizing known with
  | nil => simp [InScope, results]
  | cons j is ih =>
      simp only [List.cons_append, InScope, ih, and_assoc, results, or_assoc, List.flatMap_cons,
        List.mem_append]

/-- What is read in scope is known beforehand or defined. -/
theorem InScope.known_or_mem (h : InScope known is) {x : Local} (hi : i ∈ is)
    (hx : x ∈ i.reads) : known x ∨ x ∈ results is := by
  induction is generalizing known with
  | nil => exact absurd hi List.not_mem_nil
  | cons j is ih =>
      rcases List.mem_cons.1 hi with rfl | hi
      · exact .inl (h.1 x hx)
      · rcases ih h.2 hi with (hk | hj) | his
        · exact .inl hk
        · exact .inr (List.mem_append_left _ hj)
        · exact .inr (List.mem_append_right _ his)

end

-- ======================================================= one definition

/-- Lists without a member in common, one after the other: what two of them have
in common makes them one. -/
theorem eq_of_nodup_flatMap {α β : Type} {f : α → List β} {as : List α}
    (h : (as.flatMap f).Nodup) {a b : α} (ha : a ∈ as) (hb : b ∈ as) {x : β} (hxa : x ∈ f a)
    (hxb : x ∈ f b) : a = b := by
  induction as with
  | nil => exact absurd ha List.not_mem_nil
  | cons c as ih =>
      rw [List.flatMap_cons, List.nodup_append] at h
      obtain ⟨-, hrest, hdisjoint⟩ := h
      have hmem : ∀ d ∈ as, x ∈ f d → x ∈ as.flatMap f := fun d hd hx =>
        List.mem_flatMap.2 ⟨d, hd, hx⟩
      rcases List.mem_cons.1 ha with rfl | ha'
      · rcases List.mem_cons.1 hb with rfl | hb'
        · rfl
        · exact absurd rfl (hdisjoint x hxa x (hmem b hb' hxb))
      · rcases List.mem_cons.1 hb with rfl | hb'
        · exact absurd rfl (hdisjoint x hxb x (hmem a ha' hxa))
        · exact ih hrest ha' hb'

namespace Definition.SingleAssignment

variable {d : Code} {b c : Block Instr Terminator} {x : Local}

/-- A block reads parameters and what it defines itself. -/
theorem known_of_reads (h : d.SingleAssignment) (hb : b ∈ d.blocks) (hx : x ∈ b.reads) :
    x ∈ d.paramLocals ∨ x ∈ b.locals := by
  rcases List.mem_append.1 hx with hx | hx
  · obtain ⟨i, hi, hx⟩ := List.mem_flatMap.1 hx
    rcases (h.instrs b hb).known_or_mem hi hx with (hp | hphi) | hr
    · exact .inl hp
    · exact .inr (List.mem_append_left _ hphi)
    · exact .inr (List.mem_append_right _ hr)
  · exact h.terminators b hb x hx

/-- What a block defines is read in that block only. -/
theorem eq_of_reads (h : d.SingleAssignment) (hb : b ∈ d.blocks) (hc : c ∈ d.blocks)
    (hx : x ∈ b.reads) (hdef : x ∈ c.locals) : b = c := by
  have hn : d.locals.Nodup :=
    List.Pairwise.of_map Local.text (fun _ _ hne he => hne (congrArg _ he)) h.once
  obtain ⟨-, hblocks, hdisjoint⟩ := List.nodup_append.1 hn
  rcases h.known_of_reads hb hx with hp | hl
  · exact absurd rfl (hdisjoint x hp x (List.mem_flatMap.2 ⟨c, hc, hdef⟩))
  · exact eq_of_nodup_flatMap hblocks hb hc hl hdef

end Definition.SingleAssignment

end LiftedCode.Llvm
