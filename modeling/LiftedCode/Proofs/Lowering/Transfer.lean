/-
The lowering of a block's end. A transfer of control and the terminator that it
is lowered to do the same, each on what it goes by (`Leads`): the condition and
the index have one value, what is returned has the fields that are returned,
and a call at the end gives what the code at the address gives.
-/
import LiftedCode.Proofs.Lowering.Block
import LiftedCode.Proofs.Llvm.Execution

namespace LiftedCode.Lowering

open Llvm (Typed Operand Data Frame Linkage Terminator)

section

variable (link : Linkage) (args : List Datum)

/-- Whether data that are returned are those of a structure, as far as they are
not left open. -/
def Returns (slots : List (Option Datum)) (x : Data) : Prop :=
  ∀ i d, slots[i]? = some (some d) → x.field i = some (.ofDatum d)

/-- A transfer and a terminator that do the same. -/
inductive Leads (σ : Store) (ρ : Frame) : Transfer → Terminator → Prop where
  | jump (l : Label) : Leads σ ρ (.jump l) (.jump (.block l))
  | branch (c : Value) (x : Typed) (p : Bool) (l m : Label)
      (hc : (inputs link args).value σ c = .ok (.bool p))
      (hx : x.eval link ρ = some (.bits 1 (BitVec.ofBool p))) :
      Leads σ ρ (.branch c l m) (.branch x (.block l) (.block m))
  | table (i : Value) (x : Typed) (w : Nat) (n : BitVec w) (ls : List Label)
      (hi : (inputs link args).value σ i = .ok (.bits w n))
      (hx : x.eval link ρ = some (.bits w n)) :
      Leads σ ρ (.table i ls)
        (.switch x .tableFailure w (ls.zipIdx.map fun e => (e.2, .block e.1)))
  | ret (vs : List (Option Value)) (ds : List (Option Datum)) (x : Typed) (D : Data)
      (hvs : (inputs link args).slots σ vs = .ok ds) (hx : x.eval link ρ = some D)
      (hD : Returns ds D) : Leads σ ρ (.ret vs) (.ret x)
  | tailCall (f : Value) (a : BitVec 64) (t : Signature) (vs : List Value) (ds : List Datum)
      (x : Typed) (hf : (inputs link args).value σ f = .ok (.bits 64 a))
      (hvs : (inputs link args).values σ vs = .ok ds)
      (hx : x.eval link ρ = some (link.result a (Data.ofData ds))) :
      Leads σ ρ (.tailCall f t vs) (.ret x)

end

-- ================================================================ tables

/-- An index selects the target at its place, and there is none beyond the
table. -/
theorem switchTarget_table {w : Nat} (n : BitVec w) (ls : List Label) :
    Llvm.switchTarget n .tableFailure (ls.zipIdx.map fun e => (e.2, .block e.1)) =
      match ls[n.toNat]? with
      | some l => .block l
      | none => .tableFailure := by
  have hfrom : ∀ (ls : List Label) (i : Nat), i ≤ n.toNat →
      Llvm.switchTarget n .tableFailure ((ls.zipIdx i).map fun e => (e.2, .block e.1)) =
        match ls[n.toNat - i]? with
        | some l => .block l
        | none => .tableFailure := by
    intro ls
    induction ls with
    | nil => intro i _; rfl
    | cons l ls ih =>
        intro i hi
        unfold Llvm.switchTarget
        rw [List.zipIdx_cons, List.map_cons, List.find?_cons]
        have hmod : i % 2 ^ w = i := Nat.mod_eq_of_lt (Nat.lt_of_le_of_lt hi n.isLt)
        -- the places before the index are smaller numbers, and so none of them matches
        by_cases he : i = n.toNat
        · have hb : (BitVec.ofNat w i == n) = true := by
            rw [beq_iff_eq, he]
            exact BitVec.eq_of_toNat_eq (by rw [BitVec.toNat_ofNat, Nat.mod_eq_of_lt n.isLt])
          rw [hb, he, Nat.sub_self]
          rfl
        · have hb : (BitVec.ofNat w i == n) = false := by
            rw [beq_eq_false_iff_ne]
            intro h
            apply he
            rw [← h, BitVec.toNat_ofNat, hmod]
          rw [hb]
          have hsub : n.toNat - i = (n.toNat - (i + 1)) + 1 := by omega
          rw [hsub, List.getElem?_cons_succ]
          exact ih (i + 1) (by omega)
  exact hfrom ls 0 (Nat.zero_le _)

-- =============================================================== results

variable {link : Linkage} {args : List Datum} {env : Env} {b : RoutineBlock}
  {ρ₀ ρ : Frame} {s s' : State} {σ : Store}

theorem succeeds_check {α : Type} {x : Except CodeError α} {a : α}
    (h : Succeeds (Step.check x) s a s') : x = .ok a ∧ s = s' := by
  obtain ⟨hx, hs⟩ := succeeds_ofExcept h
  exact ⟨ok_of_mapError hx, hs⟩

/-- A field of a structure is replaced. -/
theorem gives_insertValue {x y : Typed} {fields : List Llvm.Ty} {t : Llvm.Ty} {i : Nat} {d D : Data}
    (hx : Stands link s ρ x (.struct fields) D) (hD : D.IsStruct fields.length)
    (hy : Stands link s ρ y t d) (hi : i < fields.length) :
    ∃ D', Gives link (fun _ => True) True (Step.assign x.ty (.insertValue x y i)) s ρ
        (.struct fields) D'
      ∧ D'.IsStruct fields.length ∧ D'.field i = some d
      ∧ ∀ j, j < fields.length → j ≠ i → D'.field j = D.field j := by
  obtain ⟨D', hset, hD', hself, hother⟩ := Data.setField_of_isStruct hD hi
  refine ⟨D', ?_, hD', hself, hother⟩
  rw [hx.ty]
  apply gives_assign
  rw [Llvm.Op.eval, hx.eval, hy.eval, hx.ty]
  exact hset

/-- Returned values are put into a structure from a place on. What was put there
before stays. -/
theorem Tracks.returnSlots (hb : b.WellMade) (hargs : Ty.admitsEach env.args args = true)
    {fields : List Llvm.Ty} {vs : List (Option Value)} {ts : List Ty} {i : Nat} {r x : Typed}
    {D : Data} (h : Tracks link args b ρ₀ s σ ρ)
    (hvs : ∀ v, some v ∈ vs → v ∈ b.reads) (hlen : vs.length = ts.length)
    (hi : i + ts.length = fields.length) (hr : Stands link s ρ r (.struct fields) D)
    (hD : D.IsStruct fields.length) (hrun : Succeeds (returnSlots env i r vs ts) s x s') :
    ∃ ds D' ρ', After link s ρ s' ρ' ∧ (inputs link args).slots σ vs = .ok ds
      ∧ Stands link s' ρ' x (.struct fields) D' ∧ (∀ j, j < i → D'.field j = D.field j)
      ∧ ∀ j d, ds[j]? = some (some d) → D'.field (i + j) = some (.ofDatum d) := by
  induction vs generalizing s ρ ts i r D with
  | nil =>
      cases ts with
      | cons => exact nomatch hlen
      | nil =>
          obtain ⟨rfl, rfl⟩ := succeeds_pure hrun
          exact ⟨[], D, ρ, .refl s ρ, rfl, hr, fun _ _ => rfl, nofun⟩
  | cons v vs ih =>
      cases ts with
      | nil => exact nomatch hlen
      | cons t ts =>
          have hlen₁ : vs.length = ts.length := Nat.succ.inj hlen
          have hi₁ : (i + 1) + ts.length = fields.length := by
            rw [← hi, List.length_cons]
            omega
          have hvs' : ∀ u, some u ∈ vs → u ∈ b.reads := fun u hu =>
            hvs u (List.mem_cons_of_mem v hu)
          cases v with
          | none =>
              obtain ⟨ds, D', ρ', hf, hds, hx, hold, hnew⟩ := ih h hvs' hlen₁ hi₁ hr hD hrun
              refine ⟨none :: ds, D', ρ', hf, ?_, hx, fun j hj => hold j (by omega), ?_⟩
              · rw [Inputs.slots, hds]
                rfl
              · intro j d hj
                cases j with
                | zero => exact nomatch hj
                | succ j =>
                    rw [← hnew j d hj]
                    congr 1
                    omega
          | some v =>
              obtain ⟨_, s₁, hcheck, hrun⟩ := succeeds_bind hrun
              obtain ⟨-, rfl⟩ := succeeds_check hcheck
              obtain ⟨y, s₂, hy, hrun⟩ := succeeds_bind hrun
              obtain ⟨r', s₃, hr', hrun⟩ := succeeds_bind hrun
              obtain ⟨d, ρ₂, hf₂, hd, -, hsy⟩ :=
                h.succeeds_value hb hargs (hvs v List.mem_cons_self) hy
              obtain ⟨D₃, hg, hD₃, hself, hother⟩ :=
                gives_insertValue (hr.mono hf₂) hD hsy (by omega : i < fields.length)
              obtain ⟨ρ₃, hf₃, hr₃⟩ := hg.of_succeeds hr'
              obtain ⟨ds, D', ρ', hf, hds, hx, hold, hnew⟩ :=
                ih ((h.follows hf₂).follows hf₃) hvs' hlen₁ hi₁ hr₃ hD₃ hrun
              refine ⟨some d :: ds, D', ρ', (hf₂.trans hf₃).trans hf, ?_, hx, ?_, ?_⟩
              · rw [Inputs.slots, hd, hds]
                rfl
              · intro j hj
                rw [hold j (by omega)]
                exact hother j (by omega) (by omega)
              · intro j e hj
                cases j with
                | zero =>
                    obtain rfl : d = e := Option.some.inj (Option.some.inj hj)
                    rw [Nat.add_zero, hold i (Nat.lt_succ_self i)]
                    exact hself
                | succ j =>
                    rw [← hnew j e hj]
                    congr 1
                    omega

-- ================================================================= calls

/-- A destination at an address: the operand leads to the address, also later. -/
theorem Tracks.calleeAt (h : Tracks link args b ρ₀ s σ ρ) (hb : b.WellMade)
    (hargs : Ty.admitsEach env.args args = true) {f : Value} {o : Operand} (hmem : f ∈ b.reads)
    (hrun : Succeeds (calleeAt env f) s o s') :
    ∃ a ρ', After link s ρ s' ρ' ∧ (inputs link args).value σ f = .ok (.bits 64 a)
      ∧ ∀ s₁ ρ₁, After link s' ρ' s₁ ρ₁ → Llvm.calleeAddress link ρ₁ o = some a := by
  obtain ⟨_, s₁, hcheck, hrun⟩ := succeeds_bind hrun
  obtain ⟨hty, rfl⟩ := succeeds_check hcheck
  obtain ⟨x, s₂, haddr, hrun⟩ := succeeds_bind hrun
  obtain ⟨rfl, rfl⟩ := succeeds_pure hrun
  obtain ⟨y, s₃, hy, hcast⟩ := succeeds_bind haddr
  obtain ⟨d, ρ₃, hf₃, hd, hadm, hs⟩ := h.succeeds_value hb hargs hmem hy
  rw [App.eq_of_expectTy hty] at hadm hs
  obtain ⟨a, rfl⟩ := Ty.eq_bits_of_admits_bits hadm
  have hg : Gives link (fun _ => True) True (Step.pointer y) s₃ ρ₃ .ptr (.bits 64 a) :=
    gives_cast hs rfl
  obtain ⟨ρ', hf', hx⟩ := hg.of_succeeds hcast
  refine ⟨a, ρ', hf₃.trans hf', hd, ?_⟩
  intro s₄ ρ₄ hf₄
  have hx₄ := hx.mono hf₄
  apply Llvm.calleeAddress_of_eval
  rw [← hx₄.ty]
  exact hx₄.eval

/-- The destination of a call: the operand leads to the address, also later. -/
theorem Tracks.callee (h : Tracks link args b ρ₀ s σ ρ) (hb : b.WellMade)
    (hargs : Ty.admitsEach env.args args = true) {f : Value} {t : Signature} {o : Operand}
    (hmem : f ∈ b.reads) (hrun : Succeeds (callee env f t) s o s') :
    ∃ a ρ', After link s ρ s' ρ' ∧ (inputs link args).value σ f = .ok (.bits 64 a)
      ∧ ∀ s₁ ρ₁, After link s' ρ' s₁ ρ₁ → Llvm.calleeAddress link ρ₁ o = some a := by
  obtain ⟨-, hrun⟩ := succeeds_guard hrun
  cases f with
  | entry f =>
      obtain ⟨-, hrun⟩ := succeeds_guard hrun
      obtain ⟨_, s₁, hdecl, hrun⟩ := succeeds_bind hrun
      obtain ⟨rfl, rfl⟩ := succeeds_pure hrun
      have hl : Lowers link (fun _ => True) True (Step.declare (.ofFunction f.name t)) s ρ
          fun _ _ _ => True := lowers_declare trivial
      obtain ⟨ρ', hf', -⟩ := hl.of_succeeds hdecl
      exact ⟨link.address f.name, ρ', hf', rfl, fun _ _ _ => rfl⟩
  | bits | bool | assigned | phi | returned | initial | arg =>
      exact h.calleeAt hb hargs hmem hrun

/-- The arguments of a call: the operands stand for them, also later. -/
theorem Tracks.arguments (hb : b.WellMade) (hargs : Ty.admitsEach env.args args = true)
    {vs : List Value} {ts : List Ty} {i : Nat} {xs : List Typed}
    (h : Tracks link args b ρ₀ s σ ρ) (hvs : ∀ v ∈ vs, v ∈ b.reads)
    (hlen : vs.length = ts.length) (hrun : Succeeds (arguments env i vs ts) s xs s') :
    ∃ ds ρ', After link s ρ s' ρ' ∧ (inputs link args).values σ vs = .ok ds
      ∧ ∀ s₁ ρ₁, After link s' ρ' s₁ ρ₁ →
        xs.mapM (Typed.eval link ρ₁) = some (Data.ofData ds) := by
  induction vs generalizing s ρ ts i xs with
  | nil =>
      obtain ⟨rfl, rfl⟩ := succeeds_pure hrun
      exact ⟨[], ρ, .refl s ρ, rfl, fun _ _ _ => rfl⟩
  | cons v vs ih =>
      cases ts with
      | nil => exact nomatch hlen
      | cons t ts =>
          obtain ⟨_, s₁, hcheck, hrun⟩ := succeeds_bind hrun
          obtain ⟨-, rfl⟩ := succeeds_check hcheck
          obtain ⟨x, s₂, hx, hrun⟩ := succeeds_bind hrun
          obtain ⟨ys, s₃, hys, hrun⟩ := succeeds_bind hrun
          obtain ⟨rfl, rfl⟩ := succeeds_pure hrun
          obtain ⟨d, ρ₂, hf₂, hd, -, hs⟩ :=
            h.succeeds_value hb hargs (hvs v List.mem_cons_self) hx
          obtain ⟨ds, ρ', hf', hds, heval⟩ := ih (h.follows hf₂)
            (fun u hu => hvs u (List.mem_cons_of_mem v hu)) (Nat.succ.inj hlen) hys
          refine ⟨d :: ds, ρ', hf₂.trans hf', ?_, ?_⟩
          · rw [Inputs.values, hd, hds]
            rfl
          · intro s₄ ρ₄ hf₄
            rw [List.mapM_cons, ((hs.mono hf').mono hf₄).eval, heval s₄ ρ₄ hf₄]
            rfl

/-- A call: its results are what the code at the address gives. -/
theorem Tracks.callResults (h : Tracks link args b ρ₀ s σ ρ) (hb : b.WellMade)
    (hargs : Ty.admitsEach env.args args = true) {isTail : Bool} {f : Value} {t : Signature}
    {vs : List Value} {x : Typed} (hf : f ∈ b.reads) (hvs : ∀ v ∈ vs, v ∈ b.reads)
    (hrun : Succeeds (callResults env isTail f t vs) s x s') :
    ∃ a ds ρ', After link s ρ s' ρ' ∧ (inputs link args).value σ f = .ok (.bits 64 a)
      ∧ (inputs link args).values σ vs = .ok ds
      ∧ x.eval link ρ' = some (link.result a (Data.ofData ds)) := by
  obtain ⟨o, s₁, ho, hrun⟩ := succeeds_bind hrun
  obtain ⟨hlen, hrun⟩ := succeeds_guard hrun
  obtain ⟨xs, s₂, hxs, hcall⟩ := succeeds_bind hrun
  obtain ⟨a, ρ₁, hf₁, ha, haddr⟩ := h.callee hb hargs hf ho
  obtain ⟨ds, ρ₂, hf₂, hds, heval⟩ :=
    (h.follows hf₁).arguments hb hargs hvs (Decidable.not_not.1 hlen) hxs
  have hop : (Llvm.Op.call isTail (.ofResults t) o xs).eval link ρ₂
      = some (link.result a (Data.ofData ds)) := by
    rw [Llvm.Op.eval, heval s₂ ρ₂ (.refl s₂ ρ₂)]
    show Llvm.callResult link ρ₂ (.ofResults t) o (Data.ofData ds) = _
    have hnone : Llvm.builtin? o (.ofResults t) = none := by cases o <;> rfl
    rw [Llvm.callResult, hnone]
    dsimp only
    rw [haddr s₂ ρ₂ hf₂]
    rfl
  have hg : Gives link (fun _ => True) True
      (Step.assign (.ofResults t) (.call isTail (.ofResults t) o xs)) s₂ ρ₂ (.ofResults t)
      (link.result a (Data.ofData ds)) := gives_assign hop
  obtain ⟨ρ', hf', hx⟩ := hg.of_succeeds hcall
  exact ⟨a, ds, ρ', (hf₁.trans hf₂).trans hf', ha, hds, hx.eval⟩

-- ============================================================= transfers

theorem Tracks.transfer (h : Tracks link args b ρ₀ s σ ρ) (hb : b.WellMade)
    (hargs : Ty.admitsEach env.args args = true) {sig : Signature} {term : Terminator}
    (hrun : Succeeds (transfer env sig b.transfer) s term s') :
    ∃ ρ', After link s ρ s' ρ' ∧ Leads link args σ ρ' b.transfer term := by
  have hreads : ∀ v ∈ b.transfer.operands, v ∈ b.reads := fun v hv =>
    RoutineBlock.mem_reads_of_transfer hv
  cases ht : b.transfer with
  | jump l =>
      rw [ht] at hrun
      obtain ⟨rfl, rfl⟩ := succeeds_pure hrun
      exact ⟨ρ, .refl s ρ, .jump l⟩
  | branch c l m =>
      rw [ht] at hrun hreads
      obtain ⟨_, s₁, hcheck, hrun⟩ := succeeds_bind hrun
      obtain ⟨hty, rfl⟩ := succeeds_check hcheck
      obtain ⟨x, s₂, hx, hrun⟩ := succeeds_bind hrun
      obtain ⟨rfl, rfl⟩ := succeeds_pure hrun
      obtain ⟨d, ρ', hf, hd, hadm, hs⟩ :=
        h.succeeds_value hb hargs (hreads c List.mem_cons_self) hx
      rw [App.eq_of_expectTy hty] at hadm
      obtain ⟨p, rfl⟩ := Ty.eq_bool_of_admits hadm
      exact ⟨ρ', hf, .branch c x p l m hd hs.eval⟩
  | table i ls =>
      rw [ht] at hrun hreads
      obtain ⟨w, s₁, hcheck, hrun⟩ := succeeds_bind hrun
      obtain ⟨hty, rfl⟩ := succeeds_check hcheck
      obtain ⟨-, hrun⟩ := succeeds_guard hrun
      obtain ⟨x, s₂, hx, hrun⟩ := succeeds_bind hrun
      obtain ⟨rfl, rfl⟩ := succeeds_pure hrun
      obtain ⟨d, ρ', hf, hd, hadm, hs⟩ :=
        h.succeeds_value hb hargs (hreads i List.mem_cons_self) hx
      rw [App.eq_of_expectBits hty] at hadm
      obtain ⟨n, rfl⟩ := Ty.eq_bits_of_admits_bits hadm
      exact ⟨ρ', hf, .table i x w n ls hd hs.eval⟩
  | ret vs =>
      rw [ht] at hrun hreads
      obtain ⟨hne, hrun⟩ := succeeds_guard hrun
      obtain ⟨x, s₁, hx, hrun⟩ := succeeds_bind hrun
      obtain ⟨rfl, rfl⟩ := succeeds_pure hrun
      have hvs : ∀ v, some v ∈ vs → v ∈ b.reads := fun v hv =>
        hreads v (List.mem_filterMap.2 ⟨some v, hv, rfl⟩)
      have hr : Stands link s ρ ⟨.ofResults sig, .undef⟩ (.ofResults sig) .poison :=
        ⟨rfl, rfl, nofun⟩
      obtain ⟨ds, D, ρ', hf, hds, hs, -, hD⟩ := h.returnSlots hb hargs hvs
        (Decidable.not_not.1 hne) (by rw [Nat.zero_add, length_ofTys]) hr trivial hx
      refine ⟨ρ', hf, .ret vs ds x D hds hs.eval ?_⟩
      intro i d hd
      rw [← hD i d hd, Nat.zero_add]
  | tailCall f t vs =>
      rw [ht] at hrun hreads
      obtain ⟨-, hrun⟩ := succeeds_guard hrun
      obtain ⟨x, s₁, hcall, hrun⟩ := succeeds_bind hrun
      obtain ⟨rfl, rfl⟩ := succeeds_pure hrun
      obtain ⟨a, ds, ρ', hf, ha, hds, hx⟩ := h.callResults hb hargs
        (hreads f List.mem_cons_self) (fun v hv => hreads v (List.mem_cons_of_mem f hv)) hcall
      exact ⟨ρ', hf, .tailCall f a t vs ds x ha hds hx⟩

end LiftedCode.Lowering
