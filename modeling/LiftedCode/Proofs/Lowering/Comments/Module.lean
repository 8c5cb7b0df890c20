/-
Modules with comments and without. Taking in routines looks at declarations only, and
these are the same with comments and without, so a plan leads to one module in two
versions (`Plan.assemble_withoutComments`).

A comment is printed as it is. One that goes on after the end of a line leaves the
comment, so that what follows is code (`finish_escapes`). This is all that can go wrong:
the lines of comments can be deleted from a module exactly if no remark of its routines
does so (`deleteComments_finish`).
-/
import LiftedCode.Proofs.Lowering.Comments.Routine

namespace LiftedCode.Lowering

open Llvm (Declaration Escapes commentPiece)

-- ================================================================= modules

/-- The assembly with the instructions of its definitions only. -/
def Assembly.withoutComments (m : Assembly) : Assembly :=
  { m with definitions := m.definitions.map Llvm.Definition.withoutComments }

/-- The same plan for routines without their comments. -/
def Plan.withoutComments : Plan → Plan
  | empty => empty
  | add p l => add p.withoutComments l.withoutComments
  | merge p q => merge p.withoutComments q.withoutComments

theorem Plan.members_withoutComments (p : Plan) :
    p.withoutComments.members = p.members.map LoweredRoutine.withoutComments := by
  induction p with
  | empty => rfl
  | add p l ih => rw [withoutComments, members, members, ih, List.map_append, List.map_singleton]
  | merge p q ihp ihq => rw [withoutComments, members, members, ihp, ihq, List.map_append]

/-- The outcome of a step, without the comments. -/
def outcomeWithoutComments (out : (Except LoweringError Unit × Assembly) × Log) :
    (Except LoweringError Unit × Assembly) × Log :=
  ((out.1.1, out.1.2.withoutComments), out.2)

theorem takeIn_withoutComments (m : Assembly) (definitions : List LoweredDefinition)
    (ds : Declarations) (log : Log) :
    (m.withoutComments.takeIn (definitions.map Llvm.Definition.withoutComments) ds).run log
      = outcomeWithoutComments ((m.takeIn definitions ds).run log) := by
  have hdecls : m.withoutComments.declarations = m.declarations := rfl
  rw [run_takeIn, run_takeIn, hdecls]
  rcases (m.declarations.declareAll ds.values).run log with ⟨⟨_ | ⟨⟩, merged⟩, log'⟩
  · rfl
  · unfold outcomeWithoutComments Assembly.withoutComments
    simp only [List.map_append]

theorem andThen_withoutComments {x y : AssemblyStep} {f g : Assembly → AssemblyStep}
    (hx : ∀ log, y.run log = outcomeWithoutComments (x.run log))
    (hf : ∀ m log, (g m.withoutComments).run log = outcomeWithoutComments ((f m).run log))
    (log : Log) : (y.andThen g).run log = outcomeWithoutComments ((x.andThen f).run log) := by
  unfold AssemblyStep.andThen
  rw [StateT.run_bind, StateT.run_bind, hx]
  rcases x.run log with ⟨⟨_ | ⟨⟩, m⟩, log'⟩
  · rfl
  · exact hf m log'

/-- A plan has the same outcome without comments, but for these. -/
theorem Plan.assemble_withoutComments (p : Plan) (log : Log) :
    p.withoutComments.assemble.run log = outcomeWithoutComments (p.assemble.run log) := by
  induction p generalizing log with
  | empty => rfl
  | add p l ih =>
      exact andThen_withoutComments ih
        (fun m => takeIn_withoutComments m [l.definition] l.declarations) log
  | merge p q ihp ihq =>
      refine andThen_withoutComments ihp (fun m => ?_) log
      exact andThen_withoutComments ihq
        fun other => takeIn_withoutComments m other.definitions other.declarations

/-- Definitions are put in order by their names. -/
theorem Assembly.finish_withoutComments (m : Assembly) :
    m.withoutComments.finish = m.finish.withoutComments := by
  have hsort : (m.definitions.map Llvm.Definition.withoutComments).mergeSort
        (fun a b => compare a.name b.name != .gt)
      = (m.definitions.mergeSort fun a b => compare a.name b.name != .gt).map
          Llvm.Definition.withoutComments := by
    refine Eq.symm (List.map_mergeSort ?_)
    exact fun _ _ _ _ => rfl
  unfold finish Assembly.withoutComments Llvm.Module.withoutComments
  simp only [hsort, List.all_map]
  rfl

/-- The names in a module are unbroken if they are in what it has taken in. -/
theorem Collects.printable_finish {ls : List LoweredRoutine} {m : Assembly} (h : Collects ls m)
    (hls : ∀ l ∈ ls, l.definition.Printable ∧ l.declarations.Printable) : m.finish.Printable where
  definitions d hd := by
    obtain ⟨l, hl, rfl⟩ := List.mem_map.1 (h.perm_finish.mem_iff.1 hd)
    exact (hls l hl).1
  declarations d hd := by
    obtain ⟨l, hl, hd⟩ := mem_recorded.1 (h.mem_declarations.1 hd).1
    obtain ⟨name, hd⟩ := Dict.mem_values.1 hd
    exact (hls l hl).2 name d hd

theorem Collects.perm_remarks {ls : List LoweredRoutine} {m : Assembly} (h : Collects ls m) :
    m.finish.remarks.Perm (ls.flatMap fun l => l.definition.remarks) := by
  have hperm := h.perm_finish.flatMap_right Llvm.Definition.remarks
  rw [List.flatMap_map] at hperm
  exact hperm

-- ============================================================ the property

/-- A routine and what it is lowered for. -/
structure Job where
  target : Target
  routine : Routine

/-- The plan takes in the code of the routines, with comments or without. -/
def Plan.IsCodeOf (p : Plan) (jobs : List Job) (wanted : Bool) : Prop :=
  List.Forall₂ (fun job l => ∃ log log',
    Succeeds (routine (job.target.withComments wanted) job.routine) log l log') jobs p.members

/-- What a plan for code with comments takes in has the names of the routines and their
comments, and is what a plan for code without them takes in but for the comments. -/
theorem Plan.IsCodeOf.withoutComments {p : Plan} {jobs : List Job}
    (h : p.IsCodeOf jobs true) (hnames : ∀ job ∈ jobs, job.routine.Printable) :
    p.withoutComments.IsCodeOf jobs false
      ∧ (∀ l ∈ p.members, l.definition.Printable ∧ l.declarations.Printable)
      ∧ (p.members.flatMap fun l => l.definition.remarks).Perm
          (jobs.flatMap fun job => job.routine.remarks) := by
  unfold Plan.IsCodeOf at *
  rw [p.members_withoutComments]
  generalize p.members = ls at *
  induction h with
  | nil => exact ⟨.nil, List.forall_mem_nil _, .refl _⟩
  | @cons job l jobs ls hl _ ih =>
      obtain ⟨log, log', hrun⟩ := hl
      obtain ⟨hjob, hjobs⟩ := List.forall_mem_cons.1 hnames
      obtain ⟨hcode, hmembers, hremarks⟩ := ih hjobs
      obtain ⟨hrun', hremark, hds⟩ := routine_withoutComments hjob hrun
      refine ⟨.cons ⟨log, log', hrun'⟩ hcode, List.forall_mem_cons.2 ⟨⟨?_, hds⟩, hmembers⟩, ?_⟩
      · exact printable_definition hjob hrun hds
      · exact hremark.append hremarks

/-- A module of routines with unbroken names, printed with comments. Its comments are
those that the statements of the routines leave. Each is printed as a comment and the
lines that its text goes on with, and everything else as one line that is no comment. So
the lines of comments can be deleted, to leave the module printed without comments,
exactly if no line of a comment after its first is code. -/
theorem deleteComments_finish {jobs : List Job} {p : Plan} {m : Assembly} {log log' : Log}
    (hnames : ∀ job ∈ jobs, job.routine.Printable) (hp : p.IsCodeOf jobs true)
    (hm : p.assemble.run log = ((.ok (), m), log')) :
    ∃ m', p.withoutComments.IsCodeOf jobs false
      ∧ p.withoutComments.assemble.run log = ((.ok (), m'), log')
      ∧ m.finish.text = Piece.join m.finish.pieces
      ∧ (m.finish.pieces.filter (·.isComment)).Perm
          ((jobs.flatMap fun job => job.routine.remarks).map commentPiece)
      ∧ (∀ c ∈ m.finish.pieces, c.isComment = false → c.IsLine)
      ∧ (∀ c, (commentPiece c).Confined ↔ ¬Escapes c)
      ∧ (deleteComments m.finish.text = m'.finish.text
          ↔ ∀ job ∈ jobs, ∀ c ∈ job.routine.remarks, ¬Escapes c) := by
  obtain ⟨hcode, hmembers, hremarks⟩ := hp.withoutComments hnames
  have hcollects : Collects p.members m := (p.ends_assemble).of_ok hm
  have hprintable := hcollects.printable_finish hmembers
  have hperm := hcollects.perm_remarks.trans hremarks
  refine ⟨m.withoutComments, hcode, ?_, m.finish.join_pieces.symm, ?_,
    fun c hc => hprintable.isLine hc, fun c => Llvm.confined_commentPiece, ?_⟩
  · rw [p.assemble_withoutComments, hm]
    rfl
  · rw [m.finish.filter_isComment_pieces]
    exact hperm.map _
  · rw [m.finish_withoutComments, hprintable.deleteComments_text]
    simp only [hperm.mem_iff, List.mem_flatMap]
    exact ⟨fun h job hjob c hc => h c ⟨job, hjob, hc⟩, fun h c ⟨job, hjob, hc⟩ => h job hjob c hc⟩

/-- Return nothing, after a remark. -/
def noted (remark : String) : Routine where
  name := "f"
  addr := 4096
  signature := ⟨[], [], false⟩
  entry := 4096
  blocks := [⟨4096, 4, [], [.comment remark, .instruction 0 "ret"], .ret [], ∅⟩]

theorem blockMap_noted (remark : String) :
    (noted remark).blockMap = .ok ⟨(noted remark).blocks, Dict.ofList [(4096, [])]⟩ :=
  BlockMap.build_of_pairwise (List.pairwise_singleton _ _) rfl rfl rfl

theorem printable_noted (remark : String) : (noted remark).Printable where
  name := show Unbroken "f" by decide
  reads b hb v hv := by
    obtain rfl := List.mem_singleton.1 hb
    exact absurd hv List.not_mem_nil

/-- The code of the routine, with the remark as it is. -/
def notedCode (remark : String) : LoweredDefinition :=
  ⟨"f", .struct [], [], [⟨.block 4096, [], [.comment remark, .comment "0x1000: ret"],
    .ret ⟨.struct [], .undef⟩⟩]⟩

theorem routine_noted (remark : String) : ∃ log,
    Succeeds (routine (Target.withComments default true) (noted remark)) #[]
      ⟨notedCode remark, ∅⟩ log := by
  have hmark : Numeral.hex 4096 ++ ": " ++ "ret" = "0x1000: ret" := by decide +kernel
  unfold notedCode routine
  rw [blockMap_noted, ← hmark]
  exact ⟨_, rfl⟩

/-- One definition that needs no declarations makes up a module by itself. -/
theorem text_finish_singleton (d : LoweredDefinition) :
    (Assembly.finish ⟨[d], ∅⟩).text = "\n" ++ d.text := by
  have hfinish : Assembly.finish ⟨[d], ∅⟩ = ⟨[], [d]⟩ := by
    unfold Assembly.finish
    rw [List.mergeSort_singleton]
    rfl
  rw [hfinish]
  unfold Llvm.Module.text
  rw [List.mergeSort_nil]
  exact String.empty_append

theorem finish_noted (remark : String) : ∃ (p : Plan) (m m' : Assembly) (log : Log),
    p.IsCodeOf [⟨default, noted remark⟩] true ∧ p.assemble.run #[] = ((.ok (), m), log)
      ∧ p.withoutComments.assemble.run #[] = ((.ok (), m'), log)
      ∧ m.finish.text = "\n" ++ (notedCode remark).text
      ∧ m'.finish.text = "\n" ++ (notedCode remark).withoutComments.text := by
  obtain ⟨log, hrun⟩ := routine_noted remark
  refine ⟨.add .empty ⟨notedCode remark, ∅⟩, _, _, _, .cons ⟨_, _, hrun⟩ .nil, rfl, rfl, ?_, ?_⟩
  · exact text_finish_singleton _
  · exact text_finish_singleton _

/-- A remark of one line can be deleted. -/
theorem deleteComments_finish_noted : ∃ (p : Plan) (m m' : Assembly) (log : Log),
    p.IsCodeOf [⟨default, noted "done"⟩] true ∧ p.assemble.run #[] = ((.ok (), m), log)
      ∧ p.withoutComments.IsCodeOf [⟨default, noted "done"⟩] false
      ∧ p.withoutComments.assemble.run #[] = ((.ok (), m'), log)
      ∧ m.finish.text = "\ndefine \x7b\x7d @f() \x7b\nblock_1000:\n"
        ++ "  ; done\n  ; 0x1000: ret\n  ret \x7b\x7d undef\n\x7d\n"
      ∧ deleteComments m.finish.text = m'.finish.text := by
  obtain ⟨p, m, m', log, hp, hm, hm', htext, -⟩ := finish_noted "done"
  have hnames : ∀ job ∈ [(⟨default, noted "done"⟩ : Job)], job.routine.Printable :=
    List.forall_mem_singleton.2 (printable_noted "done")
  obtain ⟨m'', hcode, hm'', -, -, -, -, hdelete⟩ := deleteComments_finish hnames hp hm
  obtain rfl : m'' = m' := congrArg (fun out => out.1.2) (hm''.symm.trans hm')
  refine ⟨p, m, m'', log, hp, hm, hcode, hm', htext.trans (by decide +kernel), hdelete.2 ?_⟩
  refine List.forall_mem_singleton.2 fun c hc => Llvm.not_escapes_of_unbroken ?_
  have hremarks : (noted "done").remarks = ["done", "0x1000: ret"] := by decide +kernel
  rw [hremarks] at hc
  rcases List.mem_pair.1 hc with rfl | rfl <;> decide

/-- What follows the end of a line in a remark is an instruction. -/
theorem finish_escapes : ∃ (p : Plan) (m m' : Assembly) (log : Log),
    (noted "done\nunreachable").Printable
      ∧ p.IsCodeOf [⟨default, noted "done\nunreachable"⟩] true
      ∧ p.assemble.run #[] = ((.ok (), m), log)
      ∧ p.withoutComments.IsCodeOf [⟨default, noted "done\nunreachable"⟩] false
      ∧ p.withoutComments.assemble.run #[] = ((.ok (), m'), log)
      ∧ deleteComments m.finish.text
        = "\ndefine \x7b\x7d @f() \x7b\nblock_1000:\nunreachable\n  ret \x7b\x7d undef\n\x7d\n"
      ∧ deleteComments m.finish.text ≠ m'.finish.text := by
  obtain ⟨p, m, m', log, hp, hm, hm', htext, htext'⟩ := finish_noted "done\nunreachable"
  have hnames := printable_noted "done\nunreachable"
  refine ⟨p, m, m', log, hnames, hp, hm, (hp.withoutComments ?_).1, hm', ?_, ?_⟩
  · exact List.forall_mem_singleton.2 hnames
  · rw [htext]
    decide +kernel
  · rw [htext, htext']
    decide +kernel

end LiftedCode.Lowering
