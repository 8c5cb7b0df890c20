/-
The printed form of code, line by line. A module is printed as pieces (`pieces`), of
which those for comments alone are meant as comments, and without these it is printed
as the module that has none (`pieces_withoutComments`). All other pieces are one line
each, and none of them a comment, if no name in the code has the end of a line in it
(`Definition.Printable`).
-/
import LiftedCode.Proofs.Llvm.Symbols
import LiftedCode.Proofs.Text.Lines
import Mathlib.Data.List.Basic

namespace LiftedCode.Llvm

-- ================================================================ comments

/-- Whether the instruction is none, but a comment. -/
def Instr.isComment : Instr → Bool
  | comment _ => true
  | assign _ _ | store _ _ | call _ _ | asm _ => false

/-- The text of a comment. -/
def Instr.remark? : Instr → Option String
  | comment s => some s
  | assign _ _ | store _ _ | call _ _ | asm _ => none

/-- The block with its instructions only. -/
def Block.withoutComments (b : Block Instr Terminator) : Block Instr Terminator :=
  { b with instrs := b.instrs.filter (!·.isComment) }

/-- The definition with the instructions of its blocks only. -/
def Definition.withoutComments (d : Code) : Code :=
  { d with blocks := d.blocks.map Block.withoutComments }

/-- The module with the instructions of its definitions only. -/
def Module.withoutComments (m : Module Instr Terminator) : Module Instr Terminator :=
  { m with definitions := m.definitions.map Definition.withoutComments }

/-- The texts of the comments in the code. -/
def Definition.remarks (d : Code) : List String :=
  d.blocks.flatMap fun b => b.instrs.filterMap Instr.remark?

/-- The texts of all comments of a module. -/
def Module.remarks (m : Module Instr Terminator) : List String :=
  m.definitions.flatMap Definition.remarks

-- ================================================================== pieces

/-- A line of code. -/
def codePiece (body : String) : Piece := ⟨false, body⟩

/-- What an instruction or a comment is printed as. -/
def Instr.piece (i : Instr) : Piece := ⟨i.isComment, "  " ++ i.text⟩

/-- What a comment is printed as. -/
def commentPiece (remark : String) : Piece := (Instr.comment remark).piece

/-- The pieces of a printed block: label, phi variables, instructions and terminator. -/
def Block.pieces (b : Block Instr Terminator) : List Piece :=
  codePiece (b.label.text ++ ":") :: (b.phis.map fun p => codePiece ("  " ++ p.text))
    ++ b.instrs.map Instr.piece ++ [codePiece ("  " ++ b.terminator.text)]

/-- The line in front of the blocks. -/
def Definition.header (d : Code) : String :=
  "define " ++ d.ret.text ++ " @" ++ d.name ++ "("
    ++ commaSeparated (d.params.map fun p => p.1.text ++ " %" ++ p.2.text) ++ ") \x7b"

/-- The pieces of a printed definition: header, blocks with empty lines between, closing
brace. -/
def Definition.pieces (d : Code) : List Piece :=
  codePiece d.header
    :: ([codePiece ""].intercalate (d.blocks.map Block.pieces) ++ [codePiece "\x7d"])

/-- The pieces of a printed module: the declarations by name, then each definition after an
empty line. -/
def Module.pieces (m : Module Instr Terminator) : List Piece :=
  ((m.declarations.mergeSort fun a b => compare a.name b.name != .gt).map
      fun d => codePiece d.text)
    ++ m.definitions.flatMap fun d => codePiece "" :: d.pieces

theorem join_append (ps qs : List Piece) :
    Piece.join (ps ++ qs) = Piece.join ps ++ Piece.join qs := by
  rw [Piece.join, List.map_append, String.join_append]
  rfl

theorem join_cons (p : Piece) (ps : List Piece) :
    Piece.join (p :: ps) = p.text ++ Piece.join ps := by
  rw [Piece.join, List.map_cons, String.join_cons]
  rfl

/-- The pieces of a block make up its text. -/
theorem Block.join_pieces (b : Block Instr Terminator) : Piece.join b.pieces = b.text := by
  unfold Block.pieces Block.text Piece.join
  simp only [List.map_append, List.map_map, List.map_cons, List.map_nil, List.cons_append,
    String.join_cons, codePiece, Piece.text, String.append_assoc]
  rfl

theorem join_intercalate (pss : List (List Piece)) :
    Piece.join ([codePiece ""].intercalate pss) = "\n".intercalate (pss.map Piece.join) := by
  induction pss with
  | nil => rfl
  | cons ps pss ih =>
      cases pss with
      | nil => simp [List.intercalate]
      | cons qs pss =>
          simp only [List.map_cons] at ih ⊢
          rw [List.intercalate_cons_cons, join_append, join_append, ih,
            String.intercalate_cons_cons]
          rfl

/-- The pieces of a definition make up its text. -/
theorem Definition.join_pieces (d : Code) : Piece.join d.pieces = d.text := by
  unfold Definition.pieces Definition.text
  rw [join_cons, join_append, join_intercalate, List.map_map]
  have hblocks : d.blocks.map (Piece.join ∘ Block.pieces) = d.blocks.map Block.text :=
    List.map_congr_left fun b _ => b.join_pieces
  rw [hblocks]
  unfold codePiece Piece.text Definition.header
  simp only [String.append_assoc]
  rfl

/-- The pieces of a module make up its text. -/
theorem Module.join_pieces (m : Module Instr Terminator) : Piece.join m.pieces = m.text := by
  unfold Module.pieces Module.text
  rw [join_append]
  congr 1
  · rw [Piece.join, List.map_map]
    rfl
  · induction m.definitions with
    | nil => rfl
    | cons d ds ih =>
        rw [List.flatMap_cons, join_append, join_cons, d.join_pieces, ih, List.map_cons,
          String.join_cons]
        rfl

-- ================================================= without the comments

/-- Lines of code are no comments. -/
theorem filter_map_codePiece {α : Type} (f : α → String) (as : List α) :
    (as.map fun a => codePiece (f a)).filter (!·.isComment) = as.map fun a => codePiece (f a) := by
  refine List.filter_eq_self.2 fun p hp => ?_
  obtain ⟨a, -, rfl⟩ := List.mem_map.1 hp
  rfl

/-- Without its comments a block has the same pieces but for those of comments. -/
theorem Block.pieces_withoutComments (b : Block Instr Terminator) :
    b.withoutComments.pieces = b.pieces.filter (!·.isComment) := by
  have hinstrs : (b.instrs.filter (!·.isComment)).map Instr.piece
      = (b.instrs.map Instr.piece).filter (!·.isComment) := by
    rw [List.filter_map]
    rfl
  unfold Block.pieces
  rw [List.filter_append, List.filter_append, ← hinstrs, List.filter_cons, filter_map_codePiece]
  rfl

theorem filter_intercalate (pss : List (List Piece)) :
    ([codePiece ""].intercalate pss).filter (!·.isComment)
      = [codePiece ""].intercalate (pss.map (List.filter (!·.isComment))) := by
  induction pss with
  | nil => rfl
  | cons ps pss ih =>
      cases pss with
      | nil => simp [List.intercalate]
      | cons qs pss =>
          simp only [List.map_cons] at ih ⊢
          rw [List.intercalate_cons_cons, List.filter_append, List.filter_append, ih,
            List.intercalate_cons_cons]
          rfl

/-- Without its comments a definition has the same pieces but for those of comments. -/
theorem Definition.pieces_withoutComments (d : Code) :
    d.withoutComments.pieces = d.pieces.filter (!·.isComment) := by
  have hblocks : d.withoutComments.blocks.map Block.pieces
      = (d.blocks.map Block.pieces).map (List.filter (!·.isComment)) := by
    rw [Definition.withoutComments, List.map_map, List.map_map]
    exact List.map_congr_left fun b _ => b.pieces_withoutComments
  rw [Definition.pieces, hblocks, ← filter_intercalate, Definition.pieces, List.filter_cons,
    List.filter_append]
  rfl

/-- The module without comments is printed as the pieces that are none. -/
theorem Module.pieces_withoutComments (m : Module Instr Terminator) :
    m.withoutComments.pieces = m.pieces.filter (!·.isComment) := by
  unfold Module.pieces Module.withoutComments
  rw [List.filter_append]
  congr 1
  · exact (filter_map_codePiece _ _).symm
  · induction m.definitions with
    | nil => rfl
    | cons d ds ih =>
        rw [List.map_cons, List.flatMap_cons, List.flatMap_cons, List.filter_append, ih,
          List.filter_cons, d.pieces_withoutComments]
        rfl

-- ================================================================== texts

mutual

/-- No type is written with a line break. -/
theorem Ty.unbroken_text : (t : Ty) → Unbroken t.text
  | .int w => by simp only [Ty.text, Unbroken.append_iff, unbroken_toString]; decide
  | .half | .float | .double | .extended | .ptr | .void => by decide
  | .vector n t => by
    simp only [Ty.text, Unbroken.append_iff, unbroken_toString, t.unbroken_text]
    decide
  | .struct [] => by decide
  | .struct (t :: ts) => by
    have hfields : Unbroken (commaSeparated (t.text :: Ty.texts ts)) :=
      Unbroken.commaSeparated (List.forall_mem_cons.2 ⟨t.unbroken_text, Ty.unbroken_texts ts⟩)
    simp only [Ty.text, Unbroken.append_iff, hfields]
    decide

theorem Ty.unbroken_texts : (ts : List Ty) → ∀ s ∈ Ty.texts ts, Unbroken s
  | [] => fun _ hs => absurd hs List.not_mem_nil
  | t :: ts => List.forall_mem_cons.2 ⟨t.unbroken_text, Ty.unbroken_texts ts⟩

end

mutual

/-- No type is mangled into a line break. -/
theorem Ty.unbroken_mangled : (t : Ty) → Unbroken t.mangled
  | .int w => by simp only [Ty.mangled, Unbroken.append_iff, unbroken_toString]; decide
  | .half | .float | .double | .extended | .ptr | .void => by decide
  | .vector n t => by
    simp only [Ty.mangled, Unbroken.append_iff, unbroken_toString, t.unbroken_mangled]
    decide
  | .struct ts => by
    simp only [Ty.mangled, Unbroken.append_iff, Ty.unbroken_mangledAll ts]
    decide

theorem Ty.unbroken_mangledAll : (ts : List Ty) → Unbroken (Ty.mangledAll ts)
  | [] => by decide
  | t :: ts => Unbroken.append_iff.2 ⟨t.unbroken_mangled, Ty.unbroken_mangledAll ts⟩

end

attribute [simp] Ty.unbroken_text Ty.unbroken_mangled

/-- The names in an operand are unbroken. -/
structure Operand.Printable (o : Operand) : Prop where
  symbols : ∀ f ∈ o.symbols, Unbroken f
  locals : ∀ x ∈ o.locals, Unbroken x.text

theorem Operand.Printable.text {o : Operand} (h : o.Printable) : Unbroken o.text := by
  cases o with
  | reg x => exact Unbroken.append_iff.2 ⟨by decide, h.locals x List.mem_cons_self⟩
  | global f => exact Unbroken.append_iff.2 ⟨by decide, h.symbols f List.mem_cons_self⟩
  | int n => exact unbroken_toString n
  | allOnes | undef => decide
  | bool b => cases b <;> decide
  | functionAddress f =>
      have hf : Unbroken f := h.symbols f List.mem_cons_self
      unfold Operand.text
      simp only [Unbroken.append_iff, hf]
      decide
  | verbatim s => exact h.symbols s List.mem_cons_self

theorem unbroken_typed {x : Typed} (h : x.operand.Printable) : Unbroken x.text := by
  unfold Typed.text
  simp only [Unbroken.append_iff, Ty.unbroken_text, h.text]
  decide

theorem unbroken_listText {xs : List Typed} (h : ∀ x ∈ xs, x.operand.Printable) :
    Unbroken (Typed.listText xs) :=
  Unbroken.commaSeparated (List.forall_mem_map.2 fun x hx => unbroken_typed (h x hx))

theorem AsmValue.unbroken_code (c : AsmValue) : Unbroken c.code := by
  unfold AsmValue.code
  split <;> decide +kernel

/-- An operation on printable operands is written in one line. -/
theorem Op.unbroken_text {op : Op} (h : ∀ o ∈ op.operands, o.Printable) : Unbroken op.text := by
  cases op with
  | binary op a b | compare op a b | floatCompare op a b =>
      obtain ⟨ha, hb, -⟩ := by simpa only [Op.operands, List.forall_mem_cons] using h
      unfold Op.text
      simp only [Unbroken.append_iff, unbroken_typed ha, hb.text]
      cases op <;> decide
  | cast op a t =>
      obtain ⟨ha, -⟩ := by simpa only [Op.operands, List.forall_mem_cons] using h
      unfold Op.text
      simp only [Unbroken.append_iff, unbroken_typed ha, Ty.unbroken_text]
      cases op <;> decide
  | select c a b =>
      obtain ⟨hc, ha, hb, -⟩ := by simpa only [Op.operands, List.forall_mem_cons] using h
      refine Unbroken.append_iff.2 ⟨by decide, unbroken_listText ?_⟩
      simpa only [List.forall_mem_cons] using ⟨hc, ha, hb, nofun⟩
  | extractValue a i =>
      obtain ⟨ha, -⟩ := by simpa only [Op.operands, List.forall_mem_cons] using h
      unfold Op.text
      simp only [Unbroken.append_iff, unbroken_typed ha, unbroken_toString]
      decide
  | insertValue a x i =>
      obtain ⟨ha, hx, -⟩ := by simpa only [Op.operands, List.forall_mem_cons] using h
      unfold Op.text
      simp only [Unbroken.append_iff, unbroken_typed ha, unbroken_typed hx,
        unbroken_toString]
      decide
  | extractFirst v =>
      obtain ⟨hv, -⟩ := by simpa only [Op.operands, List.forall_mem_cons] using h
      unfold Op.text
      simp only [Unbroken.append_iff, unbroken_typed hv]
      decide
  | insertFirst v x =>
      obtain ⟨hv, hx, -⟩ := by simpa only [Op.operands, List.forall_mem_cons] using h
      unfold Op.text
      simp only [Unbroken.append_iff, unbroken_typed hv, unbroken_typed hx]
      decide
  | load t p =>
      obtain ⟨hp, -⟩ := by simpa only [Op.operands, List.forall_mem_cons] using h
      unfold Op.text
      simp only [Unbroken.append_iff, unbroken_typed hp, Ty.unbroken_text]
      decide
  | call tail t f args =>
      obtain ⟨hf, hargs⟩ := List.forall_mem_cons.1 h
      have htail : Unbroken (if tail then "tail " else "") := by cases tail <;> decide
      unfold Op.text
      simp only [Unbroken.append_iff, htail, Ty.unbroken_text, hf.text,
        unbroken_listText (List.forall_mem_map.1 hargs)]
      decide
  | asm c =>
      have hargs : ∀ x ∈ c.args, x.operand.Printable := List.forall_mem_map.1 h
      unfold Op.text
      simp only [Unbroken.append_iff, unbroken_listText hargs, Ty.unbroken_text,
        c.unbroken_code]
      decide

/-- The names in an instruction are unbroken. -/
structure Instr.Printable (i : Instr) : Prop where
  operands : ∀ o ∈ i.operands, o.Printable
  results : ∀ x ∈ i.results, Unbroken x.text
  callee : ∀ k ∈ i.directCall?, Unbroken k.name

/-- A printable instruction is written in one line. Comments may not be. -/
theorem Instr.unbroken_text {i : Instr} (h : i.Printable) (hi : i.isComment = false) :
    Unbroken i.text := by
  cases i with
  | comment => contradiction
  | assign x op =>
      unfold Instr.text
      simp only [Unbroken.append_iff, h.results x List.mem_cons_self,
        Op.unbroken_text h.operands]
      decide
  | store v p =>
      obtain ⟨hv, hp, -⟩ := by simpa only [Instr.operands, List.forall_mem_cons] using h.operands
      unfold Instr.text
      simp only [Unbroken.append_iff, unbroken_typed hv, unbroken_typed hp]
      decide
  | call f args =>
      unfold Instr.text
      simp only [Unbroken.append_iff, h.callee _ rfl,
        unbroken_listText (List.forall_mem_map.1 h.operands)]
      decide
  | asm c =>
      cases c with
      | storeX87Control p =>
          obtain ⟨hp, -⟩ := by simpa only [Instr.operands, List.forall_mem_cons] using h.operands
          unfold Instr.text AsmEffect.text
          simp only [Unbroken.append_iff, hp.text]
          decide
      | emptyMmx => decide

/-- The label is one of generated code. -/
def BlockName.Generated (l : BlockName) : Prop := ∀ s, l ≠ .named s

theorem BlockName.Generated.text {l : BlockName} (h : l.Generated) : Unbroken l.text := by
  cases l with
  | init | tableFailure => decide
  | block l => exact Unbroken.append_iff.2 ⟨by decide, unbroken_digits 16 (by decide) l⟩
  | named s => exact absurd rfl (h s)

/-- The labels that the transfer of control leads to. -/
def Terminator.labels : Terminator → List BlockName
  | jump l => [l]
  | branch _ l m => [l, m]
  | switch _ l _ ts => l :: ts.map (·.2)
  | ret _ | unreachable => []

/-- What a terminator reads, and where it leads, is printed in one line. -/
structure Terminator.Printable (t : Terminator) : Prop where
  operands : ∀ o ∈ t.operands, o.Printable
  labels : ∀ l ∈ t.labels, l.Generated

theorem Terminator.Printable.text {t : Terminator} (h : t.Printable) : Unbroken t.text := by
  cases t with
  | jump l =>
      exact Unbroken.append_iff.2 ⟨by decide, (h.labels l List.mem_cons_self).text⟩
  | branch c l m =>
      obtain ⟨hl, hm, -⟩ := by simpa only [Terminator.labels, List.forall_mem_cons] using h.labels
      unfold Terminator.text
      simp only [Unbroken.append_iff, hl.text, hm.text,
        unbroken_typed (h.operands _ List.mem_cons_self)]
      decide
  | switch i l w ts =>
      obtain ⟨hl, hts⟩ := List.forall_mem_cons.1 h.labels
      have htargets : Unbroken (LiftedCode.blankSeparated (ts.map fun e =>
          "i" ++ toString w ++ " " ++ toString e.1 ++ ", label %" ++ e.2.text)) := by
        refine Unbroken.blankSeparated (List.forall_mem_map.2 fun e he => ?_)
        have hlabel := (List.forall_mem_map.1 hts e he).text
        simp only [Unbroken.append_iff, unbroken_toString, hlabel]
        decide
      unfold Terminator.text
      simp only [Unbroken.append_iff, hl.text, htargets,
        unbroken_typed (h.operands _ List.mem_cons_self)]
      decide
  | ret v =>
      exact Unbroken.append_iff.2 ⟨by decide, unbroken_typed (h.operands _ List.mem_cons_self)⟩
  | unreachable => decide

/-- What a phi variable is called, and what it is given, is printed in one line. -/
structure Phi.Printable (p : Phi) : Prop where
  name : Unbroken p.name.text
  incoming : ∀ e ∈ p.incoming, e.1.Printable ∧ e.2.Generated

theorem Phi.Printable.text {p : Phi} (h : p.Printable) : Unbroken p.text := by
  have hincoming : Unbroken (LiftedCode.commaSeparated (p.incoming.map fun e =>
      "[ " ++ e.1.text ++ ", %" ++ e.2.text ++ " ]")) := by
    refine Unbroken.commaSeparated (List.forall_mem_map.2 fun e he => ?_)
    obtain ⟨hop, hlabel⟩ := h.incoming e he
    simp only [Unbroken.append_iff, hop.text, hlabel.text]
    decide
  unfold Phi.text
  simp only [Unbroken.append_iff, h.name, Ty.unbroken_text, hincoming]
  decide

-- =================================================================== lines

/-- The names in the code are unbroken. -/
structure Definition.Printable (d : Code) : Prop where
  name : Unbroken d.name
  params : ∀ p ∈ d.params, Unbroken p.2.text
  labels : ∀ b ∈ d.blocks, b.label.Generated
  phis : ∀ b ∈ d.blocks, ∀ p ∈ b.phis, p.Printable
  instrs : ∀ b ∈ d.blocks, ∀ i ∈ b.instrs, i.Printable
  terminators : ∀ b ∈ d.blocks, b.terminator.Printable

/-- A declaration is printed in one line. -/
class Declaration.Printable (d : Declaration) : Prop where
  name : Unbroken d.name
  attributes : ∀ a ∈ d.attributes, Unbroken a

/-- Everything in a module but comments is printed in one line each. -/
structure Module.Printable (m : Module Instr Terminator) : Prop where
  definitions : ∀ d ∈ m.definitions, d.Printable
  declarations : ∀ d ∈ m.declarations, d.Printable

/-- Whether the text starts with a character that is neither a blank nor the start of
a comment. -/
def startsCode (s : String) : Bool :=
  s.toList.head?.any fun c => c != ';' && c != ' ' && c != '\t'

theorem startsCode_append {s : String} (h : startsCode s = true) (t : String) :
    startsCode (s ++ t) = true := by
  unfold startsCode at *
  rw [String.toList_append]
  cases hs : s.toList with
  | nil =>
      rw [hs] at h
      contradiction
  | cons c cs =>
      rw [hs] at h
      exact h

/-- A text without line breaks that begins like code is a line of code. -/
theorem isLine_codePiece {s : String} (h : Unbroken s) (hs : startsCode s = true) :
    (codePiece s).IsLine := by
  refine ⟨Piece.lines_text h, ?_⟩
  rw [Piece.toList_text]
  unfold startsCode at hs
  cases hl : s.toList with
  | nil =>
      rw [hl] at hs
      contradiction
  | cons c cs =>
      rw [hl] at hs
      have hc : c ≠ ';' ∧ c ≠ ' ' ∧ c ≠ '\t' := by simpa [and_assoc] using hs
      have hdrop : (c :: cs ++ ['\n']).dropWhile (fun c => c == ' ' || c == '\t')
          = c :: cs ++ ['\n'] := List.dropWhile_cons_of_neg (by simp [hc.2.1, hc.2.2])
      rw [show (codePiece s).body.toList = c :: cs from hl, isCommentLine, hdrop]
      exact beq_false_of_ne fun h => hc.1 (Option.some.inj h)

/-- Blanks in front make no difference. -/
theorem isLine_indented {s : String} (h : Unbroken s) (hs : startsCode s = true) :
    (codePiece ("  " ++ s)).IsLine := by
  refine ⟨Piece.lines_text (Unbroken.append_iff.2 ⟨by decide, h⟩), ?_⟩
  have hline := (isLine_codePiece h hs).code
  rw [Piece.toList_text] at *
  have hbody : (codePiece ("  " ++ s)).body.toList = ' ' :: ' ' :: (codePiece s).body.toList :=
    String.toList_append
  rw [hbody]
  exact hline

theorem BlockName.Generated.startsCode {l : BlockName} (h : l.Generated) :
    startsCode l.text = true := by
  cases l with
  | init | tableFailure => decide
  | block l => exact startsCode_append (by decide) _
  | named s => exact absurd rfl (h s)

/-- What is no comment begins like code. -/
theorem Instr.startsCode_text {i : Instr} (hi : i.isComment = false) :
    startsCode i.text = true := by
  cases i with
  | comment => contradiction
  | assign | store | call | asm =>
      unfold Instr.text
      simp only [String.append_assoc]
      exact startsCode_append (by decide) _

theorem Terminator.startsCode_text (t : Terminator) : startsCode t.text = true := by
  cases t with
  | jump | branch | switch | ret =>
      unfold Terminator.text
      simp only [String.append_assoc]
      exact startsCode_append (by decide) _
  | unreachable => decide

theorem Phi.startsCode_text (p : Phi) : startsCode p.text = true := by
  unfold Phi.text
  simp only [String.append_assoc]
  exact startsCode_append (by decide) _

theorem Instr.Printable.isLine {i : Instr} (h : i.Printable) (hi : i.piece.isComment = false) :
    i.piece.IsLine := by
  have hpiece : i.piece = codePiece ("  " ++ i.text) := by
    rw [Instr.piece, codePiece, show i.isComment = false from hi]
  rw [hpiece]
  exact isLine_indented (Instr.unbroken_text h hi) (Instr.startsCode_text hi)

/-- The pieces of a printable block that are no comments are lines of code. -/
theorem Definition.Printable.isLine_block {d : Code} (h : d.Printable)
    {b : Block Instr Terminator} (hb : b ∈ d.blocks) {p : Piece} (hp : p ∈ b.pieces)
    (hcode : p.isComment = false) : p.IsLine := by
  rw [Block.pieces, List.mem_append, List.mem_append, List.mem_cons, List.mem_singleton] at hp
  rcases hp with ((rfl | hp) | hp) | rfl
  · have hlabel := h.labels b hb
    exact isLine_codePiece (Unbroken.append_iff.2 ⟨hlabel.text, by decide⟩)
      (startsCode_append hlabel.startsCode _)
  · obtain ⟨q, hq, rfl⟩ := List.mem_map.1 hp
    exact isLine_indented (h.phis b hb q hq).text q.startsCode_text
  · obtain ⟨i, hi, rfl⟩ := List.mem_map.1 hp
    exact (h.instrs b hb i hi).isLine hcode
  · exact isLine_indented (h.terminators b hb).text b.terminator.startsCode_text

theorem Definition.Printable.isLine_header {d : Code} (h : d.Printable) :
    (codePiece d.header).IsLine := by
  have hparams :
      Unbroken (commaSeparated (d.params.map fun p => p.1.text ++ " %" ++ p.2.text)) := by
    refine Unbroken.commaSeparated (List.forall_mem_map.2 fun p hp => ?_)
    simp only [Unbroken.append_iff, Ty.unbroken_text, h.params p hp]
    decide
  refine isLine_codePiece ?_ ?_
  · unfold Definition.header
    simp only [Unbroken.append_iff, Ty.unbroken_text, h.name, hparams]
    decide
  · unfold Definition.header
    simp only [String.append_assoc]
    exact startsCode_append (by decide) _

theorem isLine_empty : (codePiece "").IsLine := ⟨rfl, rfl⟩

/-- What stands between lists is a member of one of them or the separator. -/
theorem mem_intercalate {p q : Piece} {pss : List (List Piece)} (h : p ∈ [q].intercalate pss) :
    p = q ∨ ∃ ps ∈ pss, p ∈ ps := by
  induction pss with
  | nil => exact absurd h List.not_mem_nil
  | cons ps pss ih =>
      cases pss with
      | nil =>
          rw [List.intercalate_singleton] at h
          exact .inr ⟨ps, List.mem_cons_self, h⟩
      | cons qs pss =>
          rw [List.intercalate_cons_cons, List.mem_append, List.mem_append,
            List.mem_singleton] at h
          rcases h with (h | h) | h
          · exact .inr ⟨ps, List.mem_cons_self, h⟩
          · exact .inl h
          · exact (ih h).imp_right fun ⟨rs, hrs, hp⟩ => ⟨rs, List.mem_cons_of_mem ps hrs, hp⟩

/-- The pieces of a printable definition that are no comments are lines of code. -/
theorem Definition.Printable.isLine {d : Code} (h : d.Printable) {p : Piece} (hp : p ∈ d.pieces)
    (hcode : p.isComment = false) : p.IsLine := by
  rw [Definition.pieces, List.mem_cons, List.mem_append, List.mem_singleton] at hp
  rcases hp with rfl | hp | rfl
  · exact h.isLine_header
  · rcases mem_intercalate hp with rfl | ⟨ps, hps, hp⟩
    · exact isLine_empty
    · obtain ⟨b, hb, rfl⟩ := List.mem_map.1 hps
      exact h.isLine_block hb hp hcode
  · exact isLine_codePiece (by decide) (by decide)

theorem Declaration.Printable.isLine {d : Declaration} (h : d.Printable) :
    (codePiece d.text).IsLine := by
  have hargs : Unbroken (commaSeparated (d.args.map Ty.text)) :=
    Unbroken.commaSeparated (List.forall_mem_map.2 fun t _ => t.unbroken_text)
  have hattributes : Unbroken (String.join (d.attributes.map (" " ++ ·))) :=
    Unbroken.join (List.forall_mem_map.2 fun a ha =>
      Unbroken.append_iff.2 ⟨by decide, h.attributes a ha⟩)
  refine isLine_codePiece ?_ ?_
  · unfold Declaration.text
    simp only [Unbroken.append_iff, Ty.unbroken_text, h.name, hargs, hattributes]
    decide
  · unfold Declaration.text
    simp only [String.append_assoc]
    exact startsCode_append (by decide) _

/-- Everything but a comment is printed as one line, which is no comment. -/
theorem Module.Printable.isLine {m : Module Instr Terminator} (h : m.Printable) {p : Piece}
    (hp : p ∈ m.pieces) (hcode : p.isComment = false) : p.IsLine := by
  rw [Module.pieces, List.mem_append] at hp
  rcases hp with hp | hp
  · obtain ⟨d, hd, rfl⟩ := List.mem_map.1 hp
    exact (h.declarations d (List.mem_mergeSort.1 hd)).isLine
  · obtain ⟨d, hd, hp⟩ := List.mem_flatMap.1 hp
    rcases List.mem_cons.1 hp with rfl | hp
    · exact isLine_empty
    · exact (h.definitions d hd).isLine hp hcode

-- ================================================================= remarks

/-- Whether the text of a comment leaves the comment: a line after its first is
none. -/
def Escapes (remark : String) : Prop :=
  ∃ l ∈ (lines (remark.toList ++ ['\n'])).tail, isCommentLine l = false

/-- A comment starts as one, and goes on with the lines that its text goes on with. -/
theorem lines_commentPiece (remark : String) :
    ∃ l, isCommentLine l = true ∧ lines (commentPiece remark).text.toList
      = l :: (lines (remark.toList ++ ['\n'])).tail := by
  have htext : (commentPiece remark).text.toList
      = ' ' :: ' ' :: ';' :: ' ' :: (remark.toList ++ ['\n']) := by
    have hbody : (commentPiece remark).body = "  " ++ ("; " ++ remark) := rfl
    rw [Piece.toList_text, hbody, String.toList_append, String.toList_append]
    rfl
  rw [htext]
  cases hl : lines (remark.toList ++ ['\n']) with
  | nil =>
      have hflat := flatten_lines (remark.toList ++ ['\n'])
      rw [hl] at hflat
      exact absurd hflat.symm (by simp)
  | cons l ls =>
      refine ⟨' ' :: ' ' :: ';' :: ' ' :: l, rfl, ?_⟩
      have hcons : ∀ (c : Char) (l cs : List Char) ls, endsLine c = false → lines cs = l :: ls →
          lines (c :: cs) = (c :: l) :: ls := by
        intro c l cs ls hc hcs
        rw [lines, if_neg (by rw [hc]; decide), hcs]
      exact hcons _ _ _ _ rfl (hcons _ _ _ _ rfl (hcons _ _ _ _ rfl (hcons _ _ _ _ rfl hl)))

/-- A comment stays within its lines exactly if its text does not escape. -/
theorem confined_commentPiece {remark : String} :
    (commentPiece remark).Confined ↔ ¬Escapes remark := by
  obtain ⟨l, hl, hlines⟩ := lines_commentPiece remark
  rw [Piece.Confined, hlines, List.forall_mem_cons, Escapes]
  constructor
  · rintro ⟨-, h⟩ ⟨l', hmem, hcode⟩
    rw [h l' hmem] at hcode
    contradiction
  · intro h
    refine ⟨hl, fun l' hmem => ?_⟩
    cases hcode : isCommentLine l' with
    | true => rfl
    | false => exact absurd ⟨l', hmem, hcode⟩ h

/-- A text in which no line ends stays in its comment. -/
theorem not_escapes_of_unbroken {remark : String} (h : Unbroken remark) : ¬Escapes remark := by
  rintro ⟨l, hl, -⟩
  rw [lines_of_forall h rfl] at hl
  exact absurd hl List.not_mem_nil

/-- Lines of code are not meant as comments. -/
theorem filter_isComment_map_codePiece {α : Type} (f : α → String) (as : List α) :
    (as.map fun a => codePiece (f a)).filter (·.isComment) = [] := by
  refine List.filter_eq_nil_iff.2 fun p hp => ?_
  obtain ⟨a, -, rfl⟩ := List.mem_map.1 hp
  exact Bool.false_ne_true

/-- The comments among the pieces of a block are those of its instructions. -/
theorem Block.filter_isComment_pieces (b : Block Instr Terminator) :
    b.pieces.filter (·.isComment) = (b.instrs.filterMap Instr.remark?).map commentPiece := by
  have hinstrs : ∀ is : List Instr, (is.map Instr.piece).filter (·.isComment)
      = (is.filterMap Instr.remark?).map commentPiece := by
    intro is
    induction is with
    | nil => rfl
    | cons i is ih =>
        rw [List.map_cons, List.filter_cons, ih, List.filterMap_cons]
        cases i <;> rfl
  unfold Block.pieces
  rw [List.filter_append, List.filter_append, hinstrs, List.filter_cons,
    filter_isComment_map_codePiece]
  exact List.append_nil _

theorem filter_isComment_intercalate (pss : List (List Piece)) :
    ([codePiece ""].intercalate pss).filter (·.isComment)
      = pss.flatMap (List.filter (·.isComment)) := by
  induction pss with
  | nil => rfl
  | cons ps pss ih =>
      cases pss with
      | nil => simp [List.intercalate]
      | cons qs pss =>
          rw [List.intercalate_cons_cons, List.filter_append, List.filter_append, ih,
            List.flatMap_cons]
          exact congrArg (· ++ _) (List.append_nil _)

/-- The comments among the pieces of a definition are its remarks. -/
theorem Definition.filter_isComment_pieces (d : Code) :
    d.pieces.filter (·.isComment) = d.remarks.map commentPiece := by
  rw [Definition.pieces, List.filter_cons, List.filter_append, filter_isComment_intercalate,
    List.flatMap_map, Definition.remarks, List.map_flatMap]
  refine (List.append_nil _).trans (List.flatMap_congr fun b _ => b.filter_isComment_pieces)

/-- The pieces that are meant as comments are those of the comments. -/
theorem Module.filter_isComment_pieces (m : Module Instr Terminator) :
    m.pieces.filter (·.isComment) = m.remarks.map commentPiece := by
  rw [Module.pieces, List.filter_append, filter_isComment_map_codePiece, List.nil_append,
    List.filter_flatMap, Module.remarks, List.map_flatMap]
  exact List.flatMap_congr fun d _ => d.filter_isComment_pieces

/-- Without its comments, the printed module is the one that has none, exactly if no
comment escapes. -/
theorem Module.Printable.deleteComments_text {m : Module Instr Terminator} (h : m.Printable) :
    deleteComments m.text = m.withoutComments.text ↔ ∀ c ∈ m.remarks, ¬Escapes c := by
  rw [← m.join_pieces, ← m.withoutComments.join_pieces, m.pieces_withoutComments,
    Piece.deleteComments_join fun p hp => h.isLine hp]
  constructor
  · intro hconfined c hc
    have hmem : commentPiece c ∈ m.pieces.filter (·.isComment) := by
      rw [m.filter_isComment_pieces]
      exact List.mem_map_of_mem hc
    obtain ⟨hp, hcomment⟩ := List.mem_filter.1 hmem
    exact confined_commentPiece.1 (hconfined _ hp hcomment)
  · intro hescapes p hp hcomment
    have hmem : p ∈ m.pieces.filter (·.isComment) := List.mem_filter.2 ⟨hp, hcomment⟩
    rw [m.filter_isComment_pieces] at hmem
    obtain ⟨c, hc, rfl⟩ := List.mem_map.1 hmem
    exact confined_commentPiece.2 (hescapes c hc)

end LiftedCode.Llvm
