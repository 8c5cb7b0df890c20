/-
The discipline of statements. Machine operations need operands of the widths
that the machine has for them (`MachineFn.Architectural`), writes and
assignments those that they were checked for, and the results of a call are
bound with the types of its signature.
-/
import LiftedCode.Proofs.Lowering.Sound.Operation

namespace LiftedCode

-- ============================================== operands of the machine

/-- Whether the operands have the widths that the machine has for them. -/
def MachineFn.Architectural : MachineFn Value → Prop
  | readFsBase | readGsBase | readTimestamp => True
  | cpuid a b => a.ty = .bits 32 ∧ b.ty = .bits 32
  | readControl a => a.ty = .bits 32
  | shuffleBytes n a b => a.ty = .bits (8 * n) ∧ b.ty = .bits (8 * n)

/-- Whether the operands have the widths that the machine has for them; addresses
may have any. -/
def MachineStmt.Architectural : MachineStmt Value → Prop
  | storeX87Control a => ∃ w, a.ty = .bits w
  | repeatMove _ d a n _ => (∃ w, d.ty = .bits w) ∧ (∃ w, a.ty = .bits w) ∧ n.ty = .bits 64
  | repeatStore k d v n _ => (∃ w, d.ty = .bits w) ∧ v.ty = .bits (8 * k) ∧ n.ty = .bits 64
  | emptyMmx => True

namespace Stmt

/-- Whether the statement was made with its checks, and has the operands that
the machine has. -/
def WellTyped : Stmt → Prop
  | assign a => Assignment.make a.id a.rhs = .ok a ∧ ∀ f, a.rhs = .machine f → f.Architectural
  | write a l v => ofWrite a l v = .ok (.write a l v)
  | writeIf p a l v => ofWriteIf p a l v = .ok (.writeIf p a l v)
  | machine f => f.Architectural
  | call _ | comment _ | instruction _ _ => True

/-- The identifiers that the statement binds, with their types. -/
def bindings : Stmt → List (Ident × Ty)
  | assign a => [(a.id, a.ty)]
  | call f => f.returns.map fun v => (v.id, v.ty)
  | _ => []

/-- The types of all results of a call. -/
def resultTys : Stmt → List Ty
  | call f => f.signature.rets
  | _ => []

/-- Whether the statement assigns an operation that is lowered to a cast of an
integer of one bit to its own type. -/
def castsUnit : Stmt → Bool
  | assign a => match a.rhs with
    | .app f => f.castsUnit
    | _ => false
  | _ => false

end Stmt

namespace Lowering

open Llvm (Typed Operand Op Calls AsmValue)

variable {c : Setting} {s s' : State} {a b v : Value} {t : Llvm.Ty} {x : Typed}

-- ====================================================== machine operations

/-- Machine code with operands of 32 bits. -/
theorem yields_asm {m : AsmValue} (h : ∀ a ∈ m.args, c.Sees s a (.int 32)) :
    Yields c (Step.assign m.ty (.asm m)) s m.ty := by
  refine yields_assign ?_ nofun (fun _ => rfl) (fun _ => ⟨?_, rfl⟩)
    fun hc _ => .inl fun a ha => ⟨(h a ha).ty hc, (h a ha).wellTyped hc⟩
  · intro o ho
    obtain ⟨a, ha, rfl⟩ := List.mem_map.1 ho
    exact (h a ha).finds
  · cases m <;> rfl

theorem yields_joinHalves (hx : c.Sees s x (.struct [.int 32, .int 32])) :
    Yields c (joinHalves x) s (.int 64) := by
  refine (yields_extractValue hx fun _ => rfl).bind fun lo₀ s₁ h₁ hlo₀ => ?_
  refine (yields_extractValue (hx.mono h₁) fun _ => rfl).bind fun hi₀ s₂ h₂ hhi₀ => ?_
  refine (yields_zext (hlo₀.mono h₂) fun _ => by decide).bind fun lo s₃ h₃ hlo => ?_
  refine (yields_zext (hhi₀.mono h₃) fun _ => by decide).bind fun hi₁ s₄ h₄ hhi₁ => ?_
  refine (yields_binary hhi₁ (Setting.sees_int 32 hhi₁.pos) fun _ => rfl).bind
    fun hi s₅ h₅ hhi => ?_
  exact yields_binary hhi (hlo.mono (h₄.trans h₅)) fun _ => rfl

theorem yields_shuffle128 (ha : c.Reads a (.int 128)) (hb : c.Reads b (.int 128)) :
    Yields c (shuffle128 c.env a b) s (.int 128) := by
  have hcast : ∀ {s : State} {x : Typed}, c.Sees s x (.int 128) →
      Yields c (Step.cast .bitcast x (.vector 16 (.int 8))) s (.vector 16 (.int 8)) :=
    fun hx => yields_bitcast hx (fun _ => ⟨rfl, rfl⟩) fun _ => rfl
  refine (yields_value ha).bind fun x₀ s₁ _ hx₀ => ?_
  refine (hcast hx₀).bind fun x s₂ _ hx => ?_
  refine (yields_value hb).bind fun i₀ s₃ h₃ hi₀ => ?_
  refine (hcast hi₀).bind fun i s₄ h₄ hi => ?_
  refine (yields_call (d := Llvm.Intrinsic.shuffle128)
    (.cons (hx.mono (h₃.trans h₄)) (.cons hi .nil)) fun _ => rfl).bind fun r s₅ _ hr => ?_
  exact yields_bitcast hr (fun _ => ⟨rfl, rfl⟩) fun _ => rfl

/-- A machine function whose operands are of the widths of the machine. -/
theorem yields_machineFn {f : MachineFn Value} {τ : Ty}
    (hv : ∀ v ∈ f.operands, c.Reads v (.ofTy v.ty)) (hf : c.typed → f.Architectural)
    (hτ : c.typed → f.ty = .ok τ) : Yields c (machineFn c.env f) s (.ofTy τ) := by
  have hof : ∀ {υ : Ty}, (c.typed → f.ty = .ok υ) → c.typed → Llvm.Ty.ofTy υ = .ofTy τ :=
    fun h hc => congrArg _ (Except.ok.inj ((h hc).symm.trans (hτ hc)))
  cases f with
  | readFsBase => exact Yields.of_eq (yields_asm (m := .readFsBase) nofun) (hof fun _ => rfl)
  | readGsBase => exact Yields.of_eq (yields_asm (m := .readGsBase) nofun) (hof fun _ => rfl)
  | cpuid a b =>
      have ha : c.Reads a (.int 32) :=
        (hv a (by simp [MachineFn.operands])).of_ty fun hc => (hf hc).1
      have hb : c.Reads b (.int 32) :=
        (hv b (by simp [MachineFn.operands])).of_ty fun hc => (hf hc).2
      refine Yields.of_eq ?_ (hof fun _ => rfl)
      refine (keeps_operands ha hb).bind fun p s₁ _ h => ?_
      exact yields_asm (m := .cpuid p.1 p.2) (forall_mem_pair h.1 h.2)
  | readTimestamp =>
      exact Yields.of_eq (yields_call (d := Llvm.Intrinsic.readTimestamp) .nil fun _ => rfl)
        (hof fun _ => rfl)
  | readControl a =>
      have ha : c.Reads a (.int 32) := (hv a (by simp [MachineFn.operands])).of_ty hf
      refine Yields.of_eq ?_ (hof fun _ => rfl)
      refine (yields_value ha).bind fun x s₁ _ hx => ?_
      refine (yields_asm (m := .readControl x) ?_).bind fun r s₂ _ hr => yields_joinHalves hr
      exact List.forall_mem_singleton.2 hx
  | shuffleBytes n a b =>
      by_cases hn : n = 16
      · subst hn
        have ha : c.Reads a (.int 128) :=
          (hv a (by simp [MachineFn.operands])).of_ty fun hc => (hf hc).1
        have hb : c.Reads b (.int 128) :=
          (hv b (by simp [MachineFn.operands])).of_ty fun hc => (hf hc).2
        exact Yields.of_eq (yields_shuffle128 ha hb) (hof fun _ => rfl)
      · unfold machineFn
        split
        case h_6 a b heq => exact absurd (MachineFn.shuffleBytes.inj heq).1 hn
        case h_7 => exact keeps_throw
        all_goals contradiction

theorem keeps_forwards {f : MachineStmt Value} :
    Keeps c (forwards f v) s fun _ _ => True := by
  unfold forwards
  split
  · exact keeps_pure trivial
  · exact keeps_throw

theorem yields_lengthInBytes {n : Nat} (hv : c.Reads v (.int 64)) :
    Yields c (lengthInBytes c.env v n) s (.int 64) := by
  refine (yields_value hv).bind fun x s₁ _ hx => ?_
  by_cases h1 : n = 1
  · simp only [if_pos h1]
    exact keeps_pure hx
  · simp only [if_neg h1]
    have hn : c.Sees s₁ (.int 64 n) (.int 64) := Setting.sees_int n fun _ => by decide
    exact yields_operator (y := .int 64 n) hx hn (fun _ => rfl) fun _ => rfl

/-- A machine statement whose operands are of the widths of the machine. -/
theorem keeps_machineStmt {f : MachineStmt Value}
    (hv : ∀ v ∈ f.operands, c.Reads v (.ofTy v.ty)) (hf : c.typed → f.Architectural) :
    Keeps c (machineStmt c.env f) s fun _ _ => True := by
  cases f with
  | storeX87Control a =>
      have ha : c.Addresses a := (hv a (by simp [MachineStmt.operands])).addresses hf
      refine (yields_address ha).bind fun p s₁ _ hp => keeps_emit rfl ?_ ?_ fun hc => ?_
      · simpa [Llvm.Instr.operands] using hp.finds
      · exact fun k hk => absurd hk (Option.not_mem_none k)
      · have hwell := (hp.wellTyped hc).operand
        rw [hp.ty hc] at hwell
        exact hwell
  | repeatMove n d a m e =>
      have hd : c.Addresses d :=
        (hv d (by simp [MachineStmt.operands])).addresses fun hc => (hf hc).1
      have ha : c.Addresses a :=
        (hv a (by simp [MachineStmt.operands])).addresses fun hc => (hf hc).2.1
      have hm : c.Reads m (.int 64) :=
        (hv m (by simp [MachineStmt.operands])).of_ty fun hc => (hf hc).2.2
      refine keeps_forwards.bind fun _ s₁ _ _ => ?_
      refine (yields_address hd).bind fun p s₂ _ hp => ?_
      refine (yields_address ha).bind fun q s₃ h₃ hq => ?_
      refine (yields_lengthInBytes hm).bind fun k s₄ h₄ hk => ?_
      exact keeps_callVoid (d := Llvm.Intrinsic.moveBytes) (.cons (hp.mono (h₃.trans h₄))
        (.cons (hq.mono h₄) (.cons hk (.cons (Setting.sees_bool false) .nil)))) rfl
  | repeatStore n d v m e =>
      by_cases hn : n = 1
      · subst hn
        have hd : c.Addresses d :=
          (hv d (by simp [MachineStmt.operands])).addresses fun hc => (hf hc).1
        have hv' : c.Reads v (.int 8) :=
          (hv v (by simp [MachineStmt.operands])).of_ty fun hc => (hf hc).2.1
        have hm : c.Reads m (.int 64) :=
          (hv m (by simp [MachineStmt.operands])).of_ty fun hc => (hf hc).2.2
        refine keeps_forwards.bind fun _ s₁ _ _ => ?_
        refine (yields_address hd).bind fun p s₂ _ hp => ?_
        refine (yields_value hv').bind fun x s₃ h₃ hx => ?_
        refine (yields_lengthInBytes hm).bind fun k s₄ h₄ hk => ?_
        exact keeps_callVoid (d := Llvm.Intrinsic.fillBytes) (.cons (hp.mono (h₃.trans h₄))
          (.cons (hx.mono h₄) (.cons hk (.cons (Setting.sees_bool false) .nil)))) rfl
      · unfold machineStmt
        split
        case h_3 heq => exact absurd (MachineStmt.repeatStore.inj heq).1 hn
        case h_4 => exact keeps_throw
        all_goals contradiction
  | emptyMmx =>
      exact keeps_emit rfl (List.forall_mem_nil _) (fun k hk => absurd hk (Option.not_mem_none k))
        fun _ => trivial

-- ============================================================= assignments

/-- What is promised of a statement where types are looked at, and of its
operands. -/
structure Setting.Admissible (c : Setting) (st : Stmt) : Prop where
  reads : ∀ v ∈ st.operands, c.Reads v (.ofTy v.ty)
  wellTyped : c.typed → st.WellTyped
  binds : c.typed → ∀ e ∈ st.bindings, c.kinds e.1 e.2 ∧ e.2.lowerable = true
  results : c.typed → ∀ t ∈ st.resultTys, t.lowerable = true
  casts : c.typed → st.castsUnit = true → c.casts

/-- An assignment that is admissible, with a cast of a bit to a bit if it has one. -/
theorem keeps_assignment {a : Assignment Value} (h : c.Admissible (.assign a)) :
    Keeps c (assignment c.env a) s fun _ s' =>
      c.typed → (Stmt.assign a).castsUnit = true → c.CastsUnit s' := by
  have hkind : c.typed → c.kinds a.id a.ty ∧ a.ty.lowerable = true := fun hc =>
    h.binds hc (a.id, a.ty) List.mem_cons_self
  have hmade : c.typed → a.rhs.check = .ok () ∧ a.rhs.ty = .ok a.ty := fun hc =>
    Assignment.of_make (h.wellTyped hc).1
  have hlegal : c.typed → (Llvm.Ty.ofTy a.ty).legal = true := fun hc =>
    Ty.legal_of_lowerable (hkind hc).2
  have hreads := h.reads
  unfold assignment
  rw [Stmt.operands] at hreads
  have hcasts := h.casts
  rw [Stmt.castsUnit] at hcasts ⊢
  have hbind : ∀ {m : Step Typed} {P : Prop}, YieldsCast c m s (.ofTy a.ty) P →
      Keeps c (m >>= Step.bind a.id) s fun _ s' => c.typed → P → c.CastsUnit s' := by
    intro m P hm
    refine hm.bind fun x s₁ _ hx => ?_
    exact (keeps_bindIdent (fun hc => (hkind hc).1) hx.1).grows.imp
      fun _ _ hg hc hP => (hx.2 hc hP).mono hg.2
  cases hrhs : a.rhs with
  | app f =>
      rw [hrhs] at hreads hmade hcasts
      exact hbind (yieldsCast_app hreads (fun hc => (hmade hc).1)
        (fun hc => ⟨(hmade hc).2, (hkind hc).2⟩) hcasts)
  | undefined t =>
      rw [hrhs] at hmade
      have hty : c.typed → t = a.ty := fun hc => Except.ok.inj (hmade hc).2
      have hundef : Yields c (pure ⟨.ofTy t, .undef⟩) s (.ofTy a.ty) :=
        keeps_pure ((Setting.sees_undef fun hc => by rw [hty hc]; exact hlegal hc).of_eq
          fun hc => congrArg _ (hty hc))
      exact hbind (hundef.without_cast Bool.false_ne_true)
  | read addr l =>
      rw [hrhs] at hreads hmade
      have hl : c.typed → l.ty = a.ty := fun hc => Layout.of_checkedTy (hmade hc).2
      have haddr : c.Addresses addr :=
        (hreads addr List.mem_cons_self).addresses fun hc => Rhs.of_check_read (hmade hc).1
      have hread : Yields c (read c.env addr l) s (.ofTy a.ty) :=
        Yields.of_eq (yields_read haddr fun hc => by rw [hl hc]; exact hlegal hc)
          fun hc => congrArg _ (hl hc)
      exact hbind (hread.without_cast Bool.false_ne_true)
  | readIf l p addr d =>
      rw [hrhs] at hreads hmade
      have hl : c.typed → l.ty = a.ty := fun hc => Layout.of_checkedTy (hmade hc).2
      have hcheck := fun hc => Rhs.of_check_readIf (hmade hc).1
      have hp : c.Reads p (.int 1) :=
        (hreads p (by simp [Rhs.operands])).of_ty fun hc => (hcheck hc).1
      have haddr : c.Addresses addr :=
        (hreads addr (by simp [Rhs.operands])).addresses fun hc => (hcheck hc).2.1
      have hd : c.Reads d (.ofTy l.ty) :=
        (hreads d (by simp [Rhs.operands])).of_ty fun hc => (hcheck hc).2.2
      have hread : Yields c (readIf c.env l p addr d) s (.ofTy a.ty) :=
        Yields.of_eq (yields_readIf hp haddr hd) fun hc => congrArg _ (hl hc)
      exact hbind (hread.without_cast Bool.false_ne_true)
  | machine f =>
      rw [hrhs] at hreads hmade
      have hmachine : Yields c (machineFn c.env f) s (.ofTy a.ty) :=
        yields_machineFn hreads (fun hc => (h.wellTyped hc).2 f hrhs) fun hc => (hmade hc).2
      exact hbind (hmachine.without_cast Bool.false_ne_true)

-- ================================================================= calls

/-- An operand that can be called with a signature. A function that it names is
declared with it. -/
structure Setting.Callable (c : Setting) (s : State) (f : Operand) (σ : Signature) : Prop where
  finds : c.Finds s f
  named : ∀ name, f = .global name → (c.scope s).declared (.ofFunction name σ)
  calls : c.typed → ∀ xs : List Typed, xs.map (·.ty) = Llvm.Ty.ofTys σ.args →
    Calls (c.scope s) f (.ofResults σ) xs

theorem Setting.Callable.mono {f : Operand} {σ : Signature} (h : c.Callable s f σ)
    (hs : Grows s s') : c.Callable s' f σ :=
  ⟨h.finds.mono hs, fun name hf => (Setting.scope_mono hs).declared _ (h.named name hf),
    fun hc xs hxs => (h.calls hc xs hxs).mono (Setting.scope_mono hs)⟩

/-- Addresses are cast to pointers, which are in temporaries. -/
theorem keeps_address (ha : c.Addresses v) : Keeps c (address c.env v) s fun p s' =>
    c.Sees s' p .ptr ∧ ∃ n, p.operand = .reg (.temp n) := by
  intro p s' hrun hs
  obtain ⟨hs', hg, hp⟩ := yields_address ha p s' hrun hs
  refine ⟨hs', hg, hp, ?_⟩
  obtain ⟨x, s₁, -, hcast⟩ := succeeds_bind hrun
  cases hcast
  exact ⟨_, rfl⟩

/-- A destination at an address, whatever the type of the code there. -/
theorem keeps_calleeAt {σ : Signature} (hv : c.Reads v (.ofTy v.ty)) :
    Keeps c (calleeAt c.env v) s fun f s' => c.Callable s' f σ := by
  refine (keeps_check _).bind fun _ s₁ _ hty => ?_
  have ha : c.Addresses v := hv.addresses fun _ => ⟨64, App.eq_of_expectTy hty⟩
  refine (keeps_address ha).bind fun p s₂ _ h => keeps_pure ?_
  obtain ⟨hp, n, hn⟩ := h
  refine ⟨hp.finds, fun name hname => ?_, fun hc xs _ => ?_⟩
  · exact nomatch hn.symm.trans hname
  have hptr := (hp.wellTyped hc).operand
  rw [hp.ty hc] at hptr
  exact .address _ _ xs hptr

/-- What is called is declared, or an address. -/
theorem keeps_callee {σ : Signature} (hv : c.Reads v (.ofTy v.ty)) :
    Keeps c (callee c.env v σ) s fun f s' => c.Callable s' f σ := by
  refine keeps_guard fun _ => ?_
  cases v with
  | entry f =>
      refine keeps_guard fun hσ => ?_
      refine (keeps_declare _).bind fun _ s₁ _ hd => keeps_pure
        ⟨Setting.finds_global hd, fun name hname => ?_, fun hc xs hxs => ?_⟩
      · obtain rfl := Operand.global.inj hname
        exact hd
      exact .declared (.ofFunction f.name σ) xs hd hxs.symm
  | bits | bool | assigned | initial | phi | returned | arg => exact keeps_calleeAt hv

/-- Arguments are in sight at the types of the signature. -/
theorem keeps_arguments {i : Nat} {vs : List Value} {ts : List Ty} (hlen : vs.length = ts.length)
    (hv : ∀ v ∈ vs, c.Reads v (.ofTy v.ty)) :
    Keeps c (arguments c.env i vs ts) s
      fun xs s' => List.Forall₂ (c.Sees s') xs (Llvm.Ty.ofTys ts) := by
  induction vs generalizing i ts s with
  | nil =>
      cases ts with
      | nil => exact keeps_pure .nil
      | cons => contradiction
  | cons v vs ih =>
      cases ts with
      | nil => contradiction
      | cons t ts =>
          refine (keeps_check _).bind fun _ s₁ _ hty => ?_
          rw [← App.eq_of_expectTy hty]
          refine (yields_value (hv v List.mem_cons_self)).bind fun x s₂ _ hx => ?_
          refine (ih (Nat.succ.inj hlen) fun u hu => hv u (List.mem_cons_of_mem v hu)).bind
            fun xs s₃ h₃ hxs => ?_
          exact keeps_pure (.cons (hx.mono h₃) hxs)

/-- The structure of results of legal types is legal. -/
theorem legal_ofResults {σ : Signature} (h : ∀ t ∈ σ.rets, t.lowerable = true) :
    (Llvm.Ty.ofResults σ).legal = true := by
  rw [Llvm.Ty.ofResults, Llvm.Ty.legal, Llvm.Ty.ofTys_eq_map, Llvm.Ty.allLegal_iff,
    List.forall_mem_map]
  exact fun t ht => Ty.legal_of_lowerable (h t ht)

/-- A call gives the structure of all results. -/
theorem yields_callResults {tail : Bool} {σ : Signature} {vs : List Value}
    (hv : ∀ u ∈ v :: vs, c.Reads u (.ofTy u.ty))
    (hσ : c.typed → ∀ t ∈ σ.rets, t.lowerable = true) :
    Yields c (callResults c.env tail v σ vs) s (.ofResults σ) := by
  have hlegal : c.typed → (Llvm.Ty.ofResults σ).legal = true := fun hc => legal_ofResults (hσ hc)
  refine (keeps_callee (hv v List.mem_cons_self)).bind fun f s₁ _ hf => ?_
  refine keeps_guard fun hlen => ?_
  refine (keeps_arguments (Decidable.not_not.1 hlen) fun u hu =>
    hv u (List.mem_cons_of_mem v hu)).bind fun xs s₂ h₂ hxs => ?_
  have hf := hf.mono h₂
  obtain ⟨hfinds, htyped⟩ := of_forall₂_sees hxs
  refine yields_assign ?_ ?_ (fun _ => rfl) (fun hc => ⟨hlegal hc, rfl⟩) fun hc _ => .inl ?_
  · rw [Op.operands, List.forall_mem_cons, List.forall_mem_map]
    exact ⟨hf.finds, hfinds⟩
  · intro k hk
    obtain ⟨hname, hret, hargs⟩ := Op.of_directCall?_call hk
    exact ⟨_, hf.named k.name hname, rfl, hret.symm, by rw [hargs]; exact hxs.length_eq.symm⟩
  · exact ⟨hlegal hc, hf.calls hc xs (htyped hc).1.symm, (htyped hc).2⟩

/-- Variables are bound to the fields of a structure from a place on. -/
theorem keeps_bindResults {r : Typed} {ts us : List Ty} {vs : List Variable} {i : Nat}
    (hr : c.Sees s r (.struct (Llvm.Ty.ofTys ts))) (hus : us = ts.drop i)
    (hk : c.typed → ∀ v ∈ vs, c.kinds v.id v.ty) :
    Keeps c (bindResults r i vs us) s fun _ _ => True := by
  induction vs generalizing i us s with
  | nil => exact keeps_pure trivial
  | cons v vs ih =>
      cases us with
      | nil => exact keeps_pure trivial
      | cons t us =>
          refine (keeps_check _).bind fun _ s₁ h₁ hty => ?_
          have hi : ts[i]? = some t := by
            rw [← List.head?_drop, ← hus]
            rfl
          have hfield : (Llvm.Ty.ofTys ts)[i]? = some (.ofTy t) := by
            rw [Llvm.Ty.ofTys_eq_map, List.getElem?_map, hi]
            rfl
          refine (yields_extractValue (hr.mono h₁) fun _ => hfield).bind fun x s₂ h₂ hx => ?_
          rw [← App.eq_of_expectTy hty] at hx
          refine (keeps_bindIdent (fun hc => hk hc v List.mem_cons_self) hx).bind
            fun _ s₃ h₃ _ => ?_
          refine ih ((hr.mono h₁).mono (h₂.trans h₃)) ?_ fun hc u hu =>
            hk hc u (List.mem_cons_of_mem v hu)
          rw [← List.tail_drop, ← hus]
          rfl

/-- A call that is admissible. -/
theorem keeps_call {f : Call} (h : c.Admissible (.call f)) :
    Keeps c (call c.env f) s fun _ _ => True := by
  refine (yields_callResults h.reads h.results).bind fun r s₁ _ hr => ?_
  refine keeps_guard fun _ => ?_
  refine keeps_bindResults hr rfl fun hc v hv => ?_
  exact (h.binds hc (v.id, v.ty) (List.mem_map.2 ⟨v, hv, rfl⟩)).1

-- ============================================================= statements

theorem keeps_remark {st : Stmt} (h : IsRemark st) :
    Keeps c (stmt c.env st) s fun _ _ => True := by
  intro _ s' hrun hs
  rcases succeeds_remark hrun h with rfl | ⟨text, rfl⟩
  · exact ⟨hs, .refl s', trivial⟩
  · exact keeps_emit (i := .comment text) rfl nofun nofun (fun _ => trivial) () _ rfl hs

/-- A statement that is not said to make a cast has none to make. -/
theorem Keeps.without_cast {st : Stmt} {m : Step Unit} {Q : Unit → State → Prop}
    (h : Keeps c m s Q) (hst : ¬st.castsUnit = true) :
    Keeps c m s fun _ s' => c.typed → st.castsUnit = true → c.CastsUnit s' :=
  h.imp fun _ _ _ _ hcast => absurd hcast hst

/-- A statement that is said to be lowered to a cast of an integer of one bit to
its own type is. -/
theorem keeps_stmt {st : Stmt} (h : c.Admissible st) : Keeps c (stmt c.env st) s fun _ s' =>
    c.typed → st.castsUnit = true → c.CastsUnit s' := by
  cases st with
  | assign a => exact keeps_assignment h
  | write addr l v =>
      have hmade := fun hc => Stmt.of_ofWrite (h.wellTyped hc)
      have ha : c.Addresses addr :=
        (h.reads addr (by simp [Stmt.operands])).addresses fun hc => (hmade hc).1
      exact (keeps_write ha (h.reads v (by simp [Stmt.operands])) fun hc => by
        rw [(hmade hc).2]).without_cast Bool.false_ne_true
  | writeIf p addr l v =>
      have hmade := fun hc => Stmt.of_ofWriteIf (h.wellTyped hc)
      have hp : c.Reads p (.int 1) :=
        (h.reads p (by simp [Stmt.operands])).of_ty fun hc => (hmade hc).1
      have ha : c.Addresses addr :=
        (h.reads addr (by simp [Stmt.operands])).addresses fun hc => (hmade hc).2.1
      exact (keeps_writeIf hp ha (h.reads v (by simp [Stmt.operands])) fun hc => by
        rw [(hmade hc).2.2]).without_cast Bool.false_ne_true
  | call f => exact (keeps_call h).without_cast Bool.false_ne_true
  | machine f => exact (keeps_machineStmt h.reads h.wellTyped).without_cast Bool.false_ne_true
  | comment | instruction =>
      refine Keeps.without_cast (Q := fun _ _ => True) ?_ Bool.false_ne_true
      exact keeps_remark trivial

/-- Statements that are admissible, with a cast of a bit to a bit if one of them has one. -/
theorem keeps_stmts {sts : List Stmt} (h : ∀ st ∈ sts, c.Admissible st) :
    Keeps c (sts.forM (stmt c.env)) s fun _ s' =>
      c.typed → (∃ st ∈ sts, st.castsUnit = true) → c.CastsUnit s' := by
  induction sts generalizing s with
  | nil => exact keeps_pure fun _ hcast => absurd hcast (by simp)
  | cons st sts ih =>
      refine (keeps_stmt (h st List.mem_cons_self)).bind fun _ s₁ _ hst => ?_
      refine (ih fun st' hst' => h st' (List.mem_cons_of_mem st hst')).grows.imp
        fun _ s' hsts hc hcast => ?_
      obtain ⟨st', hmem, hcast⟩ := hcast
      rcases List.mem_cons.1 hmem with rfl | hmem
      · exact (hst hc hcast).mono hsts.2
      · exact hsts.1 hc ⟨st', hmem, hcast⟩

end Lowering

end LiftedCode
