/-
Kinds of memory are labels. The classifier decides nothing about a trace but the
kinds that its accesses carry, and of the classifier nothing counts but the
addresses of the instructions that access memory (`classification_labels`).

- An access carries what the classifier has at the address of the last
  instruction mark before it, or of the block if there is none
  (`accessAddresses`, `kinds_of_stmts`).
- Two traces of one block run in step (`Agree`). Between the statements they
  agree in everything but the kinds of their events (`Like`), so they go on alike
  wherever both classifiers answer, or neither does (`agree_stmts`).
-/
import LiftedCode.Proofs.Agreement
import LiftedCode.Proofs.Trace.Step

namespace LiftedCode

-- ====================================================== memory statements

/-- Whether a right-hand side is a read from memory. -/
def Rhs.isRead {ν : Type} : Rhs ν → Bool
  | read _ _ => true
  | app _ | undefined _ | readIf _ _ _ _ | machine _ => false

namespace Stmt

/-- Whether a statement is an access to memory that can be traced. -/
def accesses : Stmt → Bool
  | assign a => a.rhs.isRead
  | write _ _ _ => true
  | writeIf _ _ _ _ | call _ | machine _ | comment _ | instruction _ _ => false

/-- The address of the current instruction after a statement of a block that
starts at `start`. -/
def addressAfter (start current : Nat) : Stmt → Nat
  | instruction offset _ => start + offset
  | assign _ | write _ _ _ | writeIf _ _ _ _ | call _ | machine _ | comment _ => current

end Stmt

namespace Trace

open Smt (Term TermSort)

/-- The addresses of the instructions that access memory, one per access. Every
access belongs to the last instruction mark before it, and the ones in front of
all marks to `current`. -/
def accessAddresses (start current : Nat) : List Stmt → List Nat
  | [] => []
  | c :: cs =>
    (if c.accesses then [current] else [])
      ++ accessAddresses start (c.addressAfter start current) cs

-- ================================================================== kinds

/-- The kind of memory that an event accesses. -/
def Event.kind? : Event → Option AccessKind
  | read _ _ _ k | write _ _ _ k => some k
  | command _ | warning _ | instruction _ | fetch _ => none

/-- The event with another kind of memory. -/
def Event.mapKind (f : AccessKind → AccessKind) : Event → Event
  | read t l x k => read t l x (f k)
  | write t l u k => write t l u (f k)
  | command c => command c
  | warning w => warning w
  | instruction a => instruction a
  | fetch rs => fetch rs

/-- Kinds replaced by themselves are the same kinds. -/
theorem Event.mapKind_id : Event.mapKind id = id := by
  funext e
  cases e <;> rfl

/-- The trace with other kinds of memory. -/
def BlockTrace.mapKind (f : AccessKind → AccessKind) (t : BlockTrace) : BlockTrace :=
  { t with events := t.events.map (Event.mapKind f) }

theorem BlockTrace.mapKind_id : BlockTrace.mapKind id = id := by
  funext t
  rw [mapKind, Event.mapKind_id, List.map_id]
  rfl

/-- The trace without its kinds of memory. -/
def BlockTrace.withoutKinds (t : BlockTrace) : BlockTrace := t.mapKind fun _ => .heap

/-- The kinds of memory that some events access, in order. -/
def kinds (es : List Event) : List AccessKind := es.filterMap Event.kind?

section

variable {ctx : Context} {s s' : State} {u : Unit} {c : Stmt}

/-- An operation is no read. -/
theorem isRead_of_isOperation {r : Rhs Value} (h : isOperation r = true) : r.isRead = false := by
  cases r with
  | app | machine => rfl
  | undefined | read | readIf => contradiction

/-- What is traced of a statement carries the kind of memory at the current
instruction, if it is an access. -/
theorem Traced.kinds (h : Traced ctx s c s') :
    s'.current = c.addressAfter ctx.start s.current
      ∧ (Trace.kinds s'.events.toList).map some = (Trace.kinds s.events.toList).map some
        ++ (if c.accesses then [s.current] else []).map ctx.classifier.get? := by
  cases h with
  | defined hterm =>
      have hread := isRead_of_isOperation (isOperation_of_rhsTerm hterm)
      simp [Trace.kinds, Event.kind?, Stmt.addressAfter, Stmt.accesses, hread]
  | approximated _ _ hop | unrepresented _ _ hop =>
      have hread := isRead_of_isOperation hop
      simp [Trace.kinds, Event.kind?, Stmt.addressAfter, Stmt.accesses, hread]
  | declared hrhs | sortless hrhs =>
      simp [Trace.kinds, Event.kind?, Stmt.addressAfter, Stmt.accesses, hrhs, Rhs.isRead]
  | read hrhs _ hkind =>
      simp [Trace.kinds, Event.kind?, Stmt.addressAfter, Stmt.accesses, hrhs, Rhs.isRead, hkind]
  | write _ _ hkind =>
      simp [Trace.kinds, Event.kind?, Stmt.addressAfter, Stmt.accesses, hkind]
  | comment | instruction | passedOver =>
      simp [Trace.kinds, Event.kind?, Stmt.addressAfter, Stmt.accesses]

/-- What is traced of some statements carries the kinds of memory at the
instructions of their accesses. -/
theorem kinds_of_stmts {cs : List Stmt} (h : Succeeds (cs.forM (stmt ctx)) s u s') :
    (kinds s'.events.toList).map some = (kinds s.events.toList).map some
      ++ (accessAddresses ctx.start s.current cs).map ctx.classifier.get? := by
  induction cs generalizing s with
  | nil =>
      obtain ⟨-, rfl⟩ := succeeds_pure h
      simp [accessAddresses]
  | cons c cs ih =>
      obtain ⟨_, s₁, hc, hcs⟩ := succeeds_bind h
      obtain ⟨hcurrent, hkinds⟩ := (traced_of_succeeds hc).kinds
      rw [ih hcs, hkinds, hcurrent, accessAddresses, List.map_append, List.append_assoc]

end

-- ========================================================== runs in step

/-- Two states at one instruction that are the same but for the kinds of memory,
which `f` makes the same. -/
structure Like (f : AccessKind → AccessKind) (addr : Nat) (s t : State) : Prop where
  events : s.events.toList.map (Event.mapKind f) = t.events.toList.map (Event.mapKind f)
  nextLocal : s.nextLocal = t.nextLocal
  left : s.current = addr
  right : t.current = addr
  bindings : s.bindings = t.bindings

section

variable {f : AccessKind → AccessKind} {addr : Nat}

/-- Computations that agree from like states on, with the same result. -/
abbrev Alike (f : AccessKind → AccessKind) (addr : Nat) {α : Type} (x y : Step α) : Prop :=
  Agree (Like f addr) Eq (Like f addr) x y

-- ------------------------------------------------------------ basic steps

theorem alike_record (r : LogRecord) : Alike f addr (Step.record r) (Step.record r) :=
  agree_modify fun _ _ h => ⟨h.events, h.nextLocal, h.left, h.right, h.bindings⟩

/-- Events that are the same but for the kind of memory. -/
theorem alike_emit {d e : Event} (h : d.mapKind f = e.mapKind f) :
    Alike f addr (Step.emit d) (Step.emit e) := by
  refine agree_modify fun s t hst => ⟨?_, hst.nextLocal, hst.left, hst.right, hst.bindings⟩
  rw [Array.toList_push, Array.toList_push, List.map_append, List.map_append, hst.events]
  exact congrArg _ (congrArg (fun e => [e]) h)

theorem alike_freshName : Alike f addr Step.freshName Step.freshName := by
  refine agree_get.bindRel fun s t h => ?_
  rw [h.nextLocal]
  refine (agree_ofExcept _).bind fun next => ?_
  have hset : Like f addr { s with nextLocal := next } { t with nextLocal := next } :=
    ⟨h.events, rfl, h.left, h.right, h.bindings⟩
  exact (agree_set hset).bind fun _ => agree_pure rfl

theorem alike_define (sort : TermSort) (t : Term) :
    Alike f addr (Step.define sort t) (Step.define sort t) :=
  alike_freshName.bind fun _ => (alike_emit rfl).bind fun _ => agree_pure rfl

theorem alike_declare (sort : TermSort) :
    Alike f addr (Step.declare sort) (Step.declare sort) :=
  alike_freshName.bind fun _ => (alike_emit rfl).bind fun _ => agree_pure rfl

theorem alike_warn (what : Approximation) : Alike f addr (Step.warn what) (Step.warn what) := by
  refine agree_get.bindRel fun s t h => ?_
  rw [h.left, h.right]
  exact (alike_record _).bind fun _ => alike_emit rfl

theorem alike_bind (id : Ident) (b : Binding) :
    Alike f addr (Step.bind id b) (Step.bind id b) := by
  refine agree_get.bindRel fun s t h => ?_
  rw [h.bindings]
  have hmodify : Alike f addr
      (modify fun s => { s with bindings := s.bindings.insert id b } : Step Unit)
      (modify fun s => { s with bindings := s.bindings.insert id b } : Step Unit) :=
    agree_modify fun s t h =>
      ⟨h.events, h.nextLocal, h.left, h.right, congrArg (·.insert id b) h.bindings⟩
  refine hmodify.bind fun _ => ?_
  split
  case isTrue => exact agree_throw _
  case isFalse => exact agree_pure rfl

-- ------------------------------------------------------------- assignments

theorem alike_bindUnknown (a : Assignment Value) :
    Alike f addr (bindUnknown a) (bindUnknown a) := by
  refine (agree_ofExcept _).bind fun sort => ?_
  cases sort with
  | some s => exact (alike_declare s).bind fun _ => alike_bind _ _
  | none => exact alike_bind _ _

theorem alike_bindTerm (a : Assignment Value) (what : Approximation) (t : Option Term) :
    Alike f addr (bindTerm a what t) (bindTerm a what t) := by
  cases t with
  | some t =>
      have hsort : Alike f addr (resultSort a) (resultSort a) := by
        refine (agree_ofExcept _).bind fun sort => ?_
        cases sort with
        | some s => exact agree_pure rfl
        | none => exact agree_throw _
      exact hsort.bind fun s => (alike_define s t).bind fun _ => alike_bind _ _
  | none => exact (alike_warn what).bind fun _ => alike_bindUnknown a

variable {registers : RegisterTerms} {start : Nat} {C C' : Classifier}

/-- Terms do not depend on the classifier. -/
theorem alike_term (v : Value) :
    Alike f addr (term ⟨registers, start, C⟩ v) (term ⟨registers, start, C'⟩ v) := by
  refine agree_get.bindRel fun s t h => ?_
  rw [h.bindings]
  exact agree_ofExcept _

/-- Where both classifiers answer, or neither does, they classify alike. -/
theorem agree_classify (h : (C.get? addr).map f = (C'.get? addr).map f) :
    Agree (Like f addr) (fun k k' => f k = f k') (Like f addr)
      (classify ⟨registers, start, C⟩) (classify ⟨registers, start, C'⟩) := by
  refine agree_get.bindRel fun s t hst => ?_
  rw [hst.left, hst.right]
  dsimp only
  cases hk : C.get? addr with
  | some k =>
      cases hk' : C'.get? addr with
      | some k' =>
          rw [hk, hk'] at h
          exact agree_pure (Option.some.inj h)
      | none =>
          rw [hk, hk'] at h
          contradiction
  | none =>
      cases hk' : C'.get? addr with
      | some k' =>
          rw [hk, hk'] at h
          contradiction
      | none => exact agree_throw _

/-- An assignment is traced alike where the kinds of reads are. -/
theorem alike_assign (a : Assignment Value)
    (h : a.rhs.isRead = true → (C.get? addr).map f = (C'.get? addr).map f) :
    Alike f addr (assign ⟨registers, start, C⟩ a) (assign ⟨registers, start, C'⟩ a) := by
  refine (alike_record _).bind fun _ => ?_
  cases hrhs : a.rhs with
  | app g =>
      refine agree_get.bindRel fun s t hst => ?_
      rw [hst.bindings]
      exact (agree_ofExcept _).bind fun t => alike_bindTerm a _ t
  | undefined => exact alike_bindUnknown a
  | read v l =>
      have hkind := h (by rw [hrhs]; rfl)
      refine (alike_term v).bind fun t => ?_
      refine (agree_classify hkind).bindRel fun k k' hk => ?_
      refine alike_freshName.bind fun name => ?_
      have hevent : (Event.read t l name k).mapKind f = (Event.read t l name k').mapKind f :=
        congrArg (Event.read t l name) hk
      exact (alike_emit hevent).bind fun _ => alike_bind _ _
  | readIf => exact agree_throw _
  | machine g =>
      refine agree_get.bindRel fun s t hst => ?_
      rw [hst.bindings]
      exact (agree_ofExcept _).bind fun t => alike_bindTerm a _ t

-- -------------------------------------------------------------- statements

/-- A statement is traced alike if the classifiers agree on its instruction, in
case it is an access. -/
theorem agree_stmt (c : Stmt)
    (h : c.accesses = true → (C.get? addr).map f = (C'.get? addr).map f) :
    Agree (Like f addr) Eq (Like f (c.addressAfter start addr))
      (stmt ⟨registers, start, C⟩ c) (stmt ⟨registers, start, C'⟩ c) := by
  have hfail : ∀ e : Nat → TraceError, Alike f addr
      (do throw (e (← get).current) : Step Unit) (do throw (e (← get).current)) := by
    intro e
    refine agree_get.bindRel fun s t hst => ?_
    rw [hst.left, hst.right]
    exact agree_throw _
  cases c with
  | assign a => exact alike_assign a h
  | write v l w =>
      refine (alike_term v).bind fun t => ?_
      refine (alike_term w).bind fun u => ?_
      refine (agree_classify (h rfl)).bindRel fun k k' hk => ?_
      have hevent : (Event.write t l u k).mapKind f = (Event.write t l u k').mapKind f :=
        congrArg (Event.write t l u) hk
      exact alike_emit hevent
  | writeIf => exact hfail .conditionalWrite
  | call => exact hfail .call
  | machine m =>
      cases m with
      | emptyMmx => exact alike_warn _
      | storeX87Control | repeatMove | repeatStore => exact hfail (.machineStmt · _)
  | comment => exact agree_pure rfl
  | instruction offset name =>
      -- The next address is the same on both sides, and fixed by the mark.
      have hadd : Agree (Like f addr) (fun a b => a = start + offset ∧ b = start + offset)
          (Like f addr) (Step.ofFault (Address.add start offset))
          (Step.ofFault (Address.add start offset)) := by
        refine agree_ofExcept_of fun a ha => ?_
        obtain rfl := of_address_add (ok_of_mapError ha)
        exact ⟨rfl, rfl⟩
      refine hadd.bindRel fun a b hab => ?_
      obtain ⟨rfl, rfl⟩ := hab
      have hmove : Agree (Like f addr) Eq (Like f (start + offset))
          (modify fun s => { s with current := start + offset } : Step Unit)
          (modify fun s => { s with current := start + offset } : Step Unit) :=
        agree_modify fun s t h => ⟨h.events, h.nextLocal, rfl, rfl, h.bindings⟩
      exact hmove.bind fun _ => (alike_record _).bind fun _ => alike_emit rfl

/-- Some statements are traced alike if the classifiers agree on the instructions
of their accesses. -/
theorem agree_stmts (cs : List Stmt)
    (h : ∀ a ∈ accessAddresses start addr cs, (C.get? a).map f = (C'.get? a).map f) :
    ∃ last, Agree (Like f addr) Eq (Like f last)
      (cs.forM (stmt ⟨registers, start, C⟩)) (cs.forM (stmt ⟨registers, start, C'⟩)) := by
  induction cs generalizing addr with
  | nil => exact ⟨addr, agree_pure rfl⟩
  | cons c cs ih =>
      have hc : c.accesses = true → (C.get? addr).map f = (C'.get? addr).map f := by
        intro hc
        exact h addr (by simp [accessAddresses, hc])
      have hcs := fun a ha => h a (List.mem_append_right _ ha)
      obtain ⟨last, hlast⟩ := ih hcs
      exact ⟨last, (agree_stmt c hc).bind fun _ => hlast⟩

-- ============================================================ whole blocks

theorem alike_registerTerms (l : List (Register × Value)) :
    Alike f addr (registerTerms ⟨registers, start, C⟩ l)
      (registerTerms ⟨registers, start, C'⟩ l) := by
  induction l with
  | nil => exact agree_pure rfl
  | cons e l ih => exact (alike_term e.2).bind fun t => ih.bind fun ts => agree_pure rfl

theorem alike_ending (e : BlockEnd) :
    Alike f addr (ending ⟨registers, start, C⟩ e) (ending ⟨registers, start, C'⟩ e) := by
  cases e with
  | fetch values => exact (alike_registerTerms _).bind fun _ => alike_emit rfl
  | untranslated values message =>
      refine agree_get.bindRel fun s t hst => ?_
      rw [hst.left, hst.right]
      exact agree_throw _
  | exit e values =>
      refine agree_get.bindRel fun s t hst => ?_
      rw [hst.left, hst.right]
      exact agree_throw _

/-- A block is traced alike where the kinds at its accesses are. -/
theorem agree_body (b : MachineBlock)
    (h : ∀ a ∈ accessAddresses start start b.stmts, (C.get? a).map f = (C'.get? a).map f) :
    ∃ last, Agree (Like f start) Eq (Like f last)
      (body ⟨registers, start, C⟩ b) (body ⟨registers, start, C'⟩ b) := by
  obtain ⟨last, hstmts⟩ := agree_stmts b.stmts h
  exact ⟨last, hstmts.bind fun _ => alike_ending b.ending⟩

/-- Two classifiers that `f` makes the same at the instructions of a block's
accesses lead to traces that it makes the same, or to the same error. -/
theorem map_block_eq (n : Nat) (b : MachineBlock) (log : Log)
    (h : ∀ a ∈ accessAddresses start start b.stmts, (C.get? a).map f = (C'.get? a).map f) :
    ((block ⟨registers, start, C⟩ n b).run.run log).1.map (BlockTrace.mapKind f)
      = ((block ⟨registers, start, C'⟩ n b).run.run log).1.map (BlockTrace.mapKind f) := by
  obtain ⟨last, hbody⟩ := agree_body b h
  have hstart : Like f start ⟨#[], n, start, ∅, log.push (.tracingBlock start)⟩
      ⟨#[], n, start, ∅, log.push (.tracingBlock start)⟩ := ⟨rfl, rfl, rfl, rfl, rfl⟩
  simp only [block, ExceptT.run_mk, StateT.run]
  rcases hbody.run hstart with ⟨_, _, s, t, hs, ht, -, hst⟩ | ⟨e, s, t, hs, ht⟩
  · rw [hs, ht]
    simp only [Except.map, BlockTrace.mapKind, hst.events, hst.nextLocal]
  · rw [hs, ht]

end

/-- A lookup in a part of a classifier finds what is at an address within. -/
theorem get?_restrictedTo {C : Classifier} {lo hi a : Nat} (hlo : lo ≤ a) (hhi : a < hi) :
    (C.restrictedTo lo hi).get? a = C.get? a := by
  apply Option.ext
  intro k
  rw [Dict.get?_eq_some_iff, Dict.get?_eq_some_iff, Classifier.restrictedTo, Dict.filter,
    List.mem_filter]
  simp [hlo, hhi]

/-- The classifier labels accesses, and does no more.

- The accesses of a trace carry what the classifier has at the addresses of
  their instructions.
- Two classifiers for the same addresses lead to traces that are the same but
  for the kinds of their accesses, or to the same error.
- Of a classifier, only the part that covers the instructions of the block's
  accesses counts. -/
theorem classification_labels (registers : RegisterTerms) (start : Nat) (C : Classifier) (n : Nat)
    (b : MachineBlock) (log : Log) :
    (∀ trace log', Succeeds (block ⟨registers, start, C⟩ n b) log trace log' →
        (kinds trace.events).map some = (accessAddresses start start b.stmts).map C.get?)
      ∧ (∀ C' : Classifier, (∀ a, (C.get? a).isSome = (C'.get? a).isSome) →
        ((block ⟨registers, start, C⟩ n b).run.run log).1.map BlockTrace.withoutKinds
          = ((block ⟨registers, start, C'⟩ n b).run.run log).1.map BlockTrace.withoutKinds)
      ∧ ∀ lo hi, (∀ a ∈ accessAddresses start start b.stmts, lo ≤ a ∧ a < hi) →
        ((block ⟨registers, start, C.restrictedTo lo hi⟩ n b).run.run log).1
          = ((block ⟨registers, start, C⟩ n b).run.run log).1 := by
  refine ⟨?_, ?_, ?_⟩
  · intro trace log' h
    obtain ⟨s₀, s, values, terms, hevents, -, hcurrent, -, hstmts, -, -, htrace, -⟩ :=
      state_of_block h
    have hkinds := kinds_of_stmts hstmts
    rw [hevents, hcurrent] at hkinds
    rw [htrace, kinds, List.filterMap_append, List.filterMap_cons_none rfl, List.filterMap_nil,
      List.append_nil]
    exact hkinds
  · intro C' hsame
    refine map_block_eq n b log fun a _ => ?_
    have ha := hsame a
    cases hk : C.get? a <;> cases hk' : C'.get? a <;> simp_all
  · intro lo hi hin
    have hsame : ∀ a ∈ accessAddresses start start b.stmts,
        ((C.restrictedTo lo hi).get? a).map id = (C.get? a).map id := by
      intro a ha
      rw [get?_restrictedTo (hin a ha).1 (hin a ha).2]
    have hmap := @map_block_eq id registers start _ C n b log hsame
    rwa [BlockTrace.mapKind_id, Except.map_id, id, id] at hmap

/-- What is in memory where a register points. -/
def copied : Assignment Value := ⟨0, .read (.initial (.gp 0)) (.bits 8 .little), .bits 64⟩

/-- A block of two instructions: one that reads memory, and one that writes what
was there to where another register points. -/
def copyBlock : MachineBlock :=
  ⟨4096, 8, [.instruction 0 "mov", .assign copied, .instruction 4 "mov",
      .write (.initial (.gp 1)) (.bits 8 .little) (.assigned copied)],
    .fetch ∅⟩

/-- What the two registers hold. -/
def copyRegisters : RegisterTerms := Dict.ofList [(.gp 0, .var "rax"), (.gp 1, .var "rcx")]

/-- The kinds of the accesses of the two instructions, and of one elsewhere. -/
def copyClassifier (source target : AccessKind) : Classifier :=
  Dict.ofList [(4096, source), (4100, target), (8192, .heap)]

/-- The read and the write carry the kinds at their own instructions. With the
kinds exchanged, the trace is the same but for them, and without the address
elsewhere it is the same. -/
theorem classification_labels_copy :
    (∃ trace log, Succeeds (block ⟨copyRegisters, 4096, copyClassifier .heap .binaryOnly⟩ 0
        copyBlock) #[] trace log
      ∧ (kinds trace.events).map some = [some .heap, some .binaryOnly])
      ∧ ((block ⟨copyRegisters, 4096, copyClassifier .heap .binaryOnly⟩ 0
          copyBlock).run.run #[]).1.map BlockTrace.withoutKinds
        = ((block ⟨copyRegisters, 4096, copyClassifier .binaryOnly .heap⟩ 0
          copyBlock).run.run #[]).1.map BlockTrace.withoutKinds
      ∧ ((block ⟨copyRegisters, 4096, (copyClassifier .heap .binaryOnly).restrictedTo 4096 4104⟩ 0
          copyBlock).run.run #[]).1
        = ((block ⟨copyRegisters, 4096, copyClassifier .heap .binaryOnly⟩ 0
          copyBlock).run.run #[]).1 := by
  obtain ⟨hkinds, hsame, hpart⟩ := classification_labels copyRegisters 4096
    (copyClassifier .heap .binaryOnly) 0 copyBlock #[]
  refine ⟨⟨_, _, rfl, hkinds _ _ rfl⟩, hsame _ fun a => ?_, hpart 4096 4104 (by decide)⟩
  simp only [copyClassifier, Dict.ofList, Dict.insertAll, List.foldl_cons, List.foldl_nil,
    Dict.get?_insert, Dict.get?_empty]
  grind

end Trace

end LiftedCode
