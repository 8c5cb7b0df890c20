/-
The sorts in a trace. Every event of a block is well sorted under the sorts of
the names before it (`WellSorted`): what a definition gives a name has the sort
that it declares, which is that of the assignment's type, what is written has
the sort of its layout, and the registers are handed on with terms of their
values' types (`events_sorted`). `Sorted` is what every statement keeps.

As for the meaning of a trace, the locals must be new to the terms of the
registers: a block whose registers speak of its first local gives that local
another sort (`events_missorted`).
-/
import LiftedCode.Proofs.Expr.Checked
import LiftedCode.Proofs.Expr.Reach
import LiftedCode.Proofs.Trace.EncodingSort
import LiftedCode.Proofs.Trace.Names

namespace LiftedCode

-- ================================================== what is promised of a block

/-- Whether machine code has the value: a literal, a register, or an
assignment. -/
def Value.isMachine : Value → Bool
  | bits _ | bool _ | assigned _ | initial _ => true
  | phi _ | returned _ | arg _ _ | entry _ => false

/-- Whether something in a block is made of the value. -/
def MachineBlock.Reaches (b : MachineBlock) (v : Value) : Prop :=
  (∃ c ∈ b.stmts, ∃ u ∈ c.roots, v.Within u) ∨ ∃ u ∈ b.ending.regs.values, v.Within u

/-- What is promised of the values of a machine block: they are literals,
registers and assignments, which were made with their checks and of which no
two share an identifier; writes passed their checks, and a shuffle is of vectors
of its own size. -/
structure MachineBlock.WellTyped (b : MachineBlock) : Prop where
  machine : ∀ v, b.Reaches v → v.isMachine = true
  made : ∀ a, b.Reaches (.assigned a) → Assignment.make a.id a.rhs = .ok a
  consistent : ∀ a a', b.Reaches (.assigned a) → b.Reaches (.assigned a') → a.id = a'.id → a = a'
  writes : ∀ addr l v, .write addr l v ∈ b.stmts →
    Stmt.ofWrite addr l v = .ok (.write addr l v)
  shuffles : ∀ a x y, .assign a ∈ b.stmts → a.rhs = .machine (.shuffleBytes 16 x y) →
    x.ty.width? = some 128 ∧ y.ty.width? = some 128

namespace MachineBlock

variable {b : MachineBlock}

/-- A block reaches what is within the values that it reaches. -/
theorem Reaches.within {u v : Value} (hv : b.Reaches v) (hu : u.Within v) : b.Reaches u := by
  rcases hv with ⟨c, hc, w, hw, hvw⟩ | ⟨w, hw, hvw⟩
  · exact .inl ⟨c, hc, w, hw, hu.trans hvw⟩
  · exact .inr ⟨w, hw, hu.trans hvw⟩

theorem reaches_assigned {a : Assignment Value} (h : .assign a ∈ b.stmts) :
    b.Reaches (.assigned a) :=
  .inl ⟨.assign a, h, .assigned a, List.mem_singleton.2 rfl, .self _⟩

theorem reaches_operand {a : Assignment Value} {v : Value} (h : .assign a ∈ b.stmts)
    (hv : v ∈ a.rhs.operands) : b.Reaches v :=
  (reaches_assigned h).within (.operand hv (.self v))

/-- No value of the block has a part of zero width. -/
theorem WellTyped.nonempty_ty (hb : b.WellTyped) {v : Value} (hv : b.Reaches v) :
    v.ty.nonempty = true := by
  refine Value.nonempty_ty v (fun a ha => hb.made a (hv.within ha)) fun u hu hleaf => ?_
  have hmachine := hb.machine u (hv.within hu)
  cases u with
  | bits l => simpa [Value.ty, Ty.nonempty] using Nat.ne_of_gt l.width_pos
  | bool => rfl
  | initial r => cases r <;> rfl
  | assigned | phi | returned | arg | entry => contradiction

end MachineBlock

/-- The sort of the value that a statement assigns. -/
def Stmt.sort? : Stmt → Option Smt.TermSort
  | assign a => Trace.sortOf a.ty
  | write _ _ _ | writeIf _ _ _ _ | call _ | machine _ | comment _ | instruction _ _ => none

namespace Trace

open Smt (Term TermSort Sorting)

/-- The sort of a type without parts of zero width has at least one bit. -/
theorem positive_of_nonempty {τ : Ty} {s : TermSort} (h : τ.nonempty = true)
    (hs : sortOf τ = some s) : s.Positive := by
  by_cases hb : τ = .bool
  · subst hb
    cases hs
    trivial
  · have hs' : τ.width?.map TermSort.bits = some s := by
      cases τ with
      | bool => exact absurd rfl hb
      | bits | float | tuple | vector => exact hs
    obtain ⟨w, hw, rfl⟩ := Option.map_eq_some_iff.1 hs'
    exact Ty.width_pos τ h hw

-- ======================================================= sorts of events

namespace Event

/-- The name that an event introduces, and its sort. -/
def binding? : Event → Option (String × TermSort)
  | command (.define x _ s _) | command (.declare x _ s) => some (x, s)
  | read _ l x _ => (sortOf l.ty).map (x, ·)
  | warning _ | instruction _ | write _ _ _ _ | fetch _ => none

/-- The sorts of names after an event. -/
def extend (Γ : Sorting) (e : Event) : Sorting :=
  match e.binding? with
  | some (x, s) => fun y => if y = x then some s else Γ y
  | none => Γ

/-- Whether the terms of an event have the sorts that it needs: a body that of
its definition, what is written that of its layout, and an address one of
bitvectors. -/
def WellSorted (Γ : Sorting) : Event → Prop
  | command (.define _ ps s t) => ps = [] ∧ t.sort? Γ = some s ∧ s.Positive
  | command (.declare _ ps s) => ps = [] ∧ s.Positive
  | read a l _ _ => (∃ w, a.sort? Γ = some (.bits w)) ∧ ∃ s, sortOf l.ty = some s ∧ s.Positive
  | write a l v _ => (∃ w, a.sort? Γ = some (.bits w)) ∧ HasTy Γ v l.ty
  | fetch rs => ∀ t ∈ rs.values, ∃ s, t.sort? Γ = some s
  | warning _ | instruction _ => True

/-- Every term of a well-sorted event has a sort. -/
theorem WellSorted.exists_sort {Γ : Sorting} {e : Event} (h : e.WellSorted Γ) {t : Term}
    (ht : t ∈ e.terms) : ∃ s, t.sort? Γ = some s := by
  cases e with
  | command c =>
      cases c with
      | define x ps s u =>
          obtain rfl := List.mem_singleton.1 ht
          exact ⟨s, h.2.1⟩
      | declare => exact absurd ht List.not_mem_nil
  | read a l x k =>
      obtain rfl := List.mem_singleton.1 ht
      exact ⟨_, h.1.choose_spec⟩
  | write a l v k =>
      obtain ⟨⟨w, hw⟩, s, -, hs⟩ := h
      rcases List.mem_pair.1 ht with rfl | rfl
      · exact ⟨_, hw⟩
      · exact ⟨_, hs⟩
  | fetch rs => exact h t ht
  | warning | instruction => exact absurd ht List.not_mem_nil

/-- A name that a well-sorted event introduces has at least one bit. -/
theorem WellSorted.positive {Γ : Sorting} {e : Event} (h : e.WellSorted Γ) {x : String}
    {s : TermSort} (hx : e.binding? = some (x, s)) : s.Positive := by
  cases e with
  | command c =>
      cases c with
      | define =>
          cases hx
          exact h.2.2
      | declare =>
          cases hx
          exact h.2
  | read a l y k =>
      obtain ⟨-, s', hs', hpos⟩ := h
      rw [binding?, hs'] at hx
      cases hx
      exact hpos
  | warning | instruction | write | fetch => contradiction

/-- What a name stands for after an event that introduces one. -/
theorem extend_of_binding {Γ : Sorting} {e : Event} {x : String} {s : TermSort}
    (h : e.binding? = some (x, s)) : e.extend Γ = fun y => if y = x then some s else Γ y := by
  rw [extend, h]

/-- An event that introduces no name changes none. -/
theorem extend_of_none {Γ : Sorting} {e : Event} (h : e.binding? = none) : e.extend Γ = Γ := by
  rw [extend, h]

end Event

/-- The sorts of names after some events. -/
def sortsAfter (Γ : Sorting) (es : List Event) : Sorting := es.foldl Event.extend Γ

/-- Whether every event is well sorted under the sorts of the names before. -/
def WellSorted (Γ : Sorting) : List Event → Prop
  | [] => True
  | e :: es => e.WellSorted Γ ∧ WellSorted (e.extend Γ) es

section

variable {Γ : Sorting} {es fs : List Event} {e : Event}

/-- The sorts after one more event. -/
theorem sortsAfter_append_singleton : sortsAfter Γ (es ++ [e]) = e.extend (sortsAfter Γ es) := by
  rw [sortsAfter, List.foldl_append]
  rfl

/-- Events after others are under the sorts of their names. -/
theorem wellSorted_append :
    WellSorted Γ (es ++ fs) ↔ WellSorted Γ es ∧ WellSorted (sortsAfter Γ es) fs := by
  induction es generalizing Γ with
  | nil => exact (and_iff_right trivial).symm
  | cons e es ih =>
      rw [List.cons_append, WellSorted, WellSorted, ih, and_assoc]
      rfl

theorem wellSorted_singleton : WellSorted Γ [e] ↔ e.WellSorted Γ := and_iff_left trivial

/-- Names have at least one bit after well-sorted events. -/
theorem WellSorted.positive (h : WellSorted Γ es) (hΓ : ∀ x s, Γ x = some s → s.Positive)
    (x : String) (s : TermSort) (hx : sortsAfter Γ es x = some s) : s.Positive := by
  induction es generalizing Γ with
  | nil => exact hΓ x s hx
  | cons e es ih =>
      refine ih h.2 (fun y s' hy => ?_) hx
      cases hb : e.binding? with
      | none =>
          rw [Event.extend_of_none hb] at hy
          exact hΓ y s' hy
      | some p =>
          obtain ⟨z, s''⟩ := p
          rw [Event.extend_of_binding hb] at hy
          dsimp only at hy
          split at hy
          case isTrue =>
            cases hy
            exact h.1.positive hb
          case isFalse => exact hΓ y s' hy

/-- The terms of well-sorted events are sound under the sorts of the names
before. -/
theorem WellSorted.sound {before after : List Event} (h : WellSorted Γ es)
    (hΓ : ∀ x s, Γ x = some s → s.Positive) (hes : es = before ++ e :: after) {t : Term}
    (ht : t ∈ e.terms) : t.Sound (sortsAfter Γ before) := by
  subst hes
  obtain ⟨hbefore, he, -⟩ := wellSorted_append.1 h
  obtain ⟨s, hs⟩ := he.exists_sort ht
  exact Term.sound_of_sort? (hbefore.positive hΓ) hs

end

-- ========================================================== the invariant

/-- Whether every register holds a term of its type. -/
def RegisterTerms.Sorted (registers : RegisterTerms) (Γ : Sorting) : Prop :=
  ∀ r t, registers.get? r = some t → HasTy Γ t r.ty

/-- What is known of the sorts of a trace under way. -/
structure Sorted (b : MachineBlock) (Γ : Sorting) (s : State) : Prop where
  events : WellSorted Γ s.events.toList
  /-- No name from before has another sort. -/
  kept : ∀ x σ, Γ x = some σ → sortsAfter Γ s.events.toList x = some σ
  /-- The locals to come are new. -/
  fresh : ∀ k, s.nextLocal ≤ k → sortsAfter Γ s.events.toList (localName k) = none
  /-- What an assignment is bound to is of the assignment's type. -/
  bound : ∀ id t, s.bindings.get? id = some (.term t) →
    ∃ a, b.Reaches (.assigned a) ∧ a.id = id ∧ HasTy (sortsAfter Γ s.events.toList) t a.ty

section

variable {ctx : Context} {b : MachineBlock} {Γ : Sorting} {s s' : State} {e : Event}
  {a : Assignment Value} {t : Term} {current : Nat} {log : Log}

/-- The term for a value is of the value's type. -/
theorem Sorted.valueTerm (h : Sorted b Γ s) (hb : b.WellTyped) (hregs : ctx.registers.Sorted Γ)
    {v : Value} (hv : b.Reaches v) (ht : valueTerm ctx.registers s.bindings v = .ok t) :
    HasTy (sortsAfter Γ s.events.toList) t v.ty := by
  cases v with
  | bits l =>
      cases ht
      exact hasTy_bits.2 (Term.sort?_bits l.width_pos l.magnitude_lt)
  | bool c =>
      cases ht
      exact hasTy_bool.2 rfl
  | assigned a =>
      rw [Trace.valueTerm] at ht
      split at ht
      case h_1 u hu =>
        cases ht
        obtain ⟨c, hc, hid, hty⟩ := h.bound _ _ hu
        rw [hb.consistent c a hc hv hid] at hty
        exact hty
      case h_2 | h_3 => contradiction
  | initial r =>
      rw [Trace.valueTerm] at ht
      split at ht
      case h_1 u hu =>
        cases ht
        exact (hregs r _ hu).mono h.kept
      case h_2 => contradiction
  | phi | returned | arg | entry => contradiction

/-- The term for an address is a bitvector. -/
theorem Sorted.addressTerm (h : Sorted b Γ s) (hb : b.WellTyped)
    (hregs : ctx.registers.Sorted Γ) {v : Value} (hv : b.Reaches v) (hty : ∃ w, v.ty = .bits w)
    (ht : Trace.valueTerm ctx.registers s.bindings v = .ok t) :
    ∃ w, t.sort? (sortsAfter Γ s.events.toList) = some (.bits w) := by
  obtain ⟨w, hw⟩ := hty
  have hsort := h.valueTerm hb hregs hv ht
  rw [hw, hasTy_bits] at hsort
  exact ⟨w, hsort⟩

/-- The term for what an assignment computes is of the assignment's type. -/
theorem Sorted.rhsTerm (h : Sorted b Γ s) (hb : b.WellTyped) (hregs : ctx.registers.Sorted Γ)
    (hmem : .assign a ∈ b.stmts)
    (ht : rhsTerm (Trace.valueTerm ctx.registers s.bindings) a.rhs = .ok (some t)) :
    HasTy (sortsAfter Γ s.events.toList) t a.ty := by
  obtain ⟨hcheck, hty⟩ := Assignment.of_make (hb.made a (b.reaches_assigned hmem))
  have hops : ∀ v u, v ∈ a.rhs.operands → Trace.valueTerm ctx.registers s.bindings v = .ok u →
      HasTy (sortsAfter Γ s.events.toList) u v.ty :=
    fun v u hv hu => h.valueTerm hb hregs (b.reaches_operand hmem hv) hu
  cases hrhs : a.rhs with
  | app f =>
      rw [hrhs] at hcheck hty ht hops
      exact appTerm_hasTy (App.typed_of_check hcheck) ht hty hops
  | machine f =>
      rw [hrhs] at hty ht hops
      obtain ⟨src, index, x, y, rfl, hx, hy, rfl⟩ := of_machineFnTerm ht
      obtain ⟨hsrc, hindex⟩ := hb.shuffles a src index hmem hrhs
      have hwide : ∀ v u, v ∈ [src, index] → Trace.valueTerm ctx.registers s.bindings v = .ok u →
          v.ty.width? = some 128 → u.sort? (sortsAfter Γ s.events.toList) = some (.bits 128) := by
        intro v u hv hu hw
        refine (hasTy_of_width ?_ hw).1 (hops v u hv hu)
        rintro heq
        rw [heq] at hw
        contradiction
      have hty : Except.ok (.bits 128) = Except.ok a.ty := hty
      rw [← Except.ok.inj hty]
      exact hasTy_bits.2 (sort?_shuffle128 (hwide src x (by simp) hx hsrc) (Nat.le_refl 128)
        (hwide index y (by simp) hy hindex))
  | undefined | read | readIf =>
      rw [hrhs] at ht
      exact nomatch Except.ok.inj ht

/-- An event that introduces nothing. -/
theorem Sorted.pass (h : Sorted b Γ s) (hnone : e.binding? = none)
    (he : e.WellSorted (sortsAfter Γ s.events.toList)) :
    Sorted b Γ ⟨s.events.push e, s.nextLocal, current, s.bindings, log⟩ := by
  have hsorts : sortsAfter Γ (s.events.push e).toList = sortsAfter Γ s.events.toList := by
    rw [Array.toList_push, sortsAfter_append_singleton, Event.extend_of_none hnone]
  refine ⟨?_, ?_, ?_, ?_⟩
  · rw [Array.toList_push, wellSorted_append, wellSorted_singleton]
    exact ⟨h.events, he⟩
  · rw [hsorts]
    exact h.kept
  · rw [hsorts]
    exact h.fresh
  · rw [hsorts]
    exact h.bound

/-- An event that introduces the next local, with the sort of the assignment
that is bound to it. -/
theorem Sorted.bindLocal (h : Sorted b Γ s) (hmem : .assign a ∈ b.stmts) {σ : TermSort}
    (hbinding : e.binding? = some (localName s.nextLocal, σ)) (hσ : sortOf a.ty = some σ)
    (he : e.WellSorted (sortsAfter Γ s.events.toList)) :
    Sorted b Γ ⟨s.events.push e, s.nextLocal + 1, current,
      s.bindings.insert a.id (.term (.var (localName s.nextLocal))), log⟩ := by
  have hsorts : sortsAfter Γ (s.events.push e).toList = fun y =>
      if y = localName s.nextLocal then some σ else sortsAfter Γ s.events.toList y := by
    rw [Array.toList_push, sortsAfter_append_singleton, Event.extend_of_binding hbinding]
  -- sorts are only added, as the name is new
  have hgrow : ∀ x ς, sortsAfter Γ s.events.toList x = some ς →
      sortsAfter Γ (s.events.push e).toList x = some ς := by
    intro x ς hx
    rw [hsorts]
    dsimp only
    rw [if_neg, hx]
    rintro rfl
    rw [h.fresh _ (Nat.le_refl _)] at hx
    contradiction
  refine ⟨?_, fun x ς hx => hgrow x ς (h.kept x ς hx), ?_, ?_⟩
  · rw [Array.toList_push, wellSorted_append, wellSorted_singleton]
    exact ⟨h.events, he⟩
  · intro k hk
    have hk : s.nextLocal < k := hk
    rw [hsorts]
    dsimp only
    rw [if_neg]
    · exact h.fresh k (Nat.le_of_lt hk)
    · intro heq
      have := localName_injective heq
      omega
  · intro id u hu
    dsimp only at hu
    rw [Dict.get?_insert] at hu
    split at hu
    case isTrue hid =>
      cases hu
      refine ⟨a, b.reaches_assigned hmem, hid, σ, hσ, ?_⟩
      rw [Term.sort?, hsorts]
      exact if_pos rfl
    case isFalse =>
      obtain ⟨c, hc, hid, hty⟩ := h.bound id u hu
      exact ⟨c, hc, hid, hty.mono hgrow⟩

/-- An assignment that is bound to nothing that can be used. -/
theorem Sorted.bindNothing (h : Sorted b Γ s) {id : Ident} :
    Sorted b Γ ⟨s.events, s.nextLocal, current, s.bindings.insert id .opaqueValue, log⟩ where
  events := h.events
  kept := h.kept
  fresh := h.fresh
  bound i u hu := by
    dsimp only at hu
    rw [Dict.get?_insert] at hu
    split at hu
    case isTrue => exact nomatch hu
    case isFalse => exact h.bound i u hu

/-- The sort of an assignment in the block has at least one bit. -/
theorem positive_of_reaches (hb : b.WellTyped) (hmem : .assign a ∈ b.stmts) {σ : TermSort}
    (hσ : sortOf a.ty = some σ) : σ.Positive :=
  positive_of_nonempty (hb.nonempty_ty (b.reaches_assigned hmem)) hσ

/-- The events of a statement are well sorted. -/
theorem Sorted.stmt {c : Stmt} (h : Sorted b Γ s) (hb : b.WellTyped)
    (hregs : ctx.registers.Sorted Γ) (hmem : c ∈ b.stmts) (ht : Traced ctx s c s') :
    Sorted b Γ s' := by
  cases ht with
  | @defined a t sort log hterm hsort =>
      obtain ⟨σ, hσ, htσ⟩ := h.rhsTerm hb hregs hmem hterm
      rw [hsort] at hσ
      cases hσ
      exact h.bindLocal hmem rfl hsort ⟨rfl, htσ, positive_of_reaches hb hmem hsort⟩
  | declared _ hsort =>
      exact h.bindLocal hmem rfl hsort ⟨rfl, positive_of_reaches hb hmem hsort⟩
  | sortless => exact h.bindNothing
  | comment => exact h
  | @read a addr layout t kind log hrhs haddr =>
      obtain ⟨hcheck, hty⟩ := Assignment.of_make (hb.made a (b.reaches_assigned hmem))
      rw [hrhs] at hcheck hty
      have hlayout : layout.ty = a.ty := Layout.of_checkedTy hty
      obtain ⟨σ, hσ⟩ := exists_sortOf_layout layout
      have haddr := h.addressTerm hb hregs
        (b.reaches_operand hmem (by rw [hrhs]; exact List.mem_singleton.2 rfl))
        (Rhs.of_check_read hcheck) haddr
      refine h.bindLocal hmem (by rw [Event.binding?, hσ]; rfl) (hlayout ▸ hσ) ⟨haddr, σ, hσ, ?_⟩
      exact positive_of_reaches hb hmem (hlayout ▸ hσ)
  | @write addr value layout t u kind log haddr hvalue =>
      obtain ⟨hbits, hlayout⟩ := Stmt.of_ofWrite (hb.writes _ _ _ hmem)
      have hroots : ∀ v ∈ [addr, value], b.Reaches v :=
        fun v hv => .inl ⟨_, hmem, v, hv, .self v⟩
      refine h.pass rfl ⟨h.addressTerm hb hregs (hroots addr (by simp)) hbits haddr, ?_⟩
      rw [← hlayout]
      exact h.valueTerm hb hregs (hroots value (by simp)) hvalue
  | instruction | passedOver => exact h.pass rfl trivial
  | @approximated a what sort log _ hsort =>
      have hwarn : Sorted b Γ
          ⟨s.events.push (.warning what), s.nextLocal, s.current, s.bindings, log⟩ :=
        h.pass rfl trivial
      exact hwarn.bindLocal hmem rfl hsort ⟨rfl, positive_of_reaches hb hmem hsort⟩
  | @unrepresented a what log =>
      have hwarn : Sorted b Γ
          ⟨s.events.push (.warning what), s.nextLocal, s.current, s.bindings, log⟩ :=
        h.pass rfl trivial
      exact hwarn.bindNothing

/-- A statement introduces a name exactly if what it assigns has a sort, which
is that of the name. -/
theorem bindings_of_traced {c : Stmt} (hb : b.WellTyped) (hmem : c ∈ b.stmts)
    (ht : Traced ctx s c s') :
    s'.events.toList.filterMap (·.binding?.map (·.2))
      = s.events.toList.filterMap (·.binding?.map (·.2)) ++ c.sort?.toList := by
  cases ht with
  | defined _ hsort | declared _ hsort | approximated _ hsort | unrepresented _ hsort =>
      simp [Event.binding?, Stmt.sort?, hsort]
  | sortless _ hsort => simp [Stmt.sort?, hsort]
  | @read a addr layout t kind log hrhs =>
      obtain ⟨-, hty⟩ := Assignment.of_make (hb.made a (b.reaches_assigned hmem))
      rw [hrhs] at hty
      have hlayout : layout.ty = a.ty := Layout.of_checkedTy hty
      obtain ⟨σ, hσ⟩ := exists_sortOf_layout layout
      simp [Event.binding?, Stmt.sort?, hσ, ← hlayout]
  | write | comment | instruction | passedOver => simp [Event.binding?, Stmt.sort?]

/-- Statements introduce names of the sorts of what they assign, in order. -/
theorem bindings_of_stmts {cs : List Stmt} {u : Unit} (hb : b.WellTyped)
    (hmem : ∀ c ∈ cs, c ∈ b.stmts) (h : Succeeds (cs.forM (Trace.stmt ctx)) s u s') :
    s'.events.toList.filterMap (·.binding?.map (·.2))
      = s.events.toList.filterMap (·.binding?.map (·.2)) ++ cs.filterMap Stmt.sort? := by
  induction cs generalizing s with
  | nil =>
      obtain ⟨-, rfl⟩ := succeeds_pure h
      simp
  | cons c cs ih =>
      obtain ⟨_, s₁, hc, hcs⟩ := succeeds_bind h
      have h₁ := bindings_of_traced hb (hmem c List.mem_cons_self) (traced_of_succeeds hc)
      rw [ih (fun d hd => hmem d (List.mem_cons_of_mem c hd)) hcs, h₁, List.append_assoc]
      cases hsort : c.sort? <;> simp [hsort]

end

-- ============================================================ whole blocks

/-- The events of a block are well sorted. Where the registers hold terms of
their types, none of which speaks of a local that is still free, every event is
well sorted under the sorts of the names before it, and so is every term in it;
the names have the sorts of what the statements assign, in order; and every
register is handed on with a term of its value's type. -/
theorem events_sorted {ctx : Context} {n : Nat} {b : MachineBlock} {trace : BlockTrace}
    {log log' : Log} {Γ : Sorting} (hrun : Succeeds (block ctx n b) log trace log')
    (hb : b.WellTyped) (hregs : ctx.registers.Sorted Γ) (hΓ : ∀ x s, Γ x = some s → s.Positive)
    (hfresh : ∀ k, n ≤ k → Γ (localName k) = none) :
    WellSorted Γ trace.events
      ∧ trace.events.filterMap (·.binding?.map (·.2)) = b.stmts.filterMap Stmt.sort?
      ∧ (∀ before e after, trace.events = before ++ e :: after →
        ∀ t ∈ e.terms, t.Sound (sortsAfter Γ before))
      ∧ ∃ values terms before, b.ending = .fetch values ∧ trace.events = before ++ [.fetch terms]
        ∧ (∀ r v, values.get? r = some v →
          ∃ t, terms.get? r = some t ∧ HasTy (sortsAfter Γ before) t v.ty)
        ∧ ∀ r, values.get? r = none → terms.get? r = none := by
  obtain ⟨start, s, values, terms, hevents, hnext, hbindings, hstmts, hend, hterms, htrace⟩ :=
    of_block hrun
  have hstart : Sorted b Γ start := by
    refine ⟨?_, ?_, ?_, ?_⟩
    · rw [hevents]
      exact trivial
    · rw [hevents]
      exact fun x σ hx => hx
    · rw [hevents, hnext]
      exact hfresh
    · rw [hbindings]
      exact nofun
  have hs : Sorted b Γ s :=
    invariant_of_stmts (fun c hc s₁ s₂ h₁ ht => h₁.stmt hb hregs hc ht) hstmts hstart
  have hreaches : ∀ r v, (r, v) ∈ values.entries → b.Reaches v := fun r v hmem =>
    .inr ⟨v, by rw [hend]; exact List.mem_map.2 ⟨(r, v), hmem, rfl⟩, .self v⟩
  have hfetch : (Event.fetch terms).WellSorted (sortsAfter Γ s.events.toList) := by
    intro t ht
    obtain ⟨⟨r, u⟩, hmem, rfl⟩ := List.mem_map.1 ht
    obtain ⟨v, hv, hu⟩ := of_get?_registerTerms hterms ((Dict.get?_eq_some_iff _ _ _).2 hmem)
    obtain ⟨σ, -, hσ⟩ := hs.valueTerm hb hregs (hreaches r v hv) hu
    exact ⟨σ, hσ⟩
  have hsorted : WellSorted Γ trace.events := by
    rw [htrace, wellSorted_append, wellSorted_singleton]
    exact ⟨hs.events, hfetch⟩
  obtain ⟨-, hin, hout⟩ := succeeds_registerTerms values.sorted hterms
  refine ⟨hsorted, ?_, fun before e after heq t ht => hsorted.sound hΓ heq ht, values, terms,
    s.events.toList, hend, htrace, fun r v hv => ?_, fun r hr => ?_⟩
  · rw [htrace, List.filterMap_append, bindings_of_stmts hb (fun _ hc => hc) hstmts, hevents]
    simp [Event.binding?]
  · have hmem := (Dict.get?_eq_some_iff _ _ _).1 hv
    obtain ⟨t, ht, htv⟩ := hin r v hmem
    exact ⟨t, ht, hs.valueTerm hb hregs (hreaches r v hmem) htv⟩
  · refine hout r fun v hv => ?_
    rw [(Dict.get?_eq_some_iff values r v).2 hv] at hr
    contradiction

-- =========================================================== examples

/-- What is in memory where a register points. -/
def loaded : Assignment Value := ⟨0, .read (.initial (.gp 0)) (.bits 8 .little), .bits 64⟩

/-- Whether that is zero. -/
def loadedIsZero : Assignment Value :=
  ⟨1, .app (.eq (.assigned loaded) (.bits (.word 0#64))), .bool⟩

/-- A block that reads memory, writes it back, and sets a flag if it is zero. -/
def probeBlock : MachineBlock :=
  ⟨4096, 4, [.assign loaded, .assign loadedIsZero,
      .write (.initial (.gp 0)) (.bits 8 .little) (.assigned loaded)],
    .fetch (Dict.ofList [(.gp 0, .initial (.gp 0)), (.flag .zero, .assigned loadedIsZero)])⟩

/-- A register that holds the variable `x`; all of memory is the heap. -/
def probeContext (x : String) : Context :=
  ⟨Dict.ofList [(.gp 0, .var x)], 4096, Dict.ofList [(4096, .heap)]⟩

/-- The trace of the block, with the locals from `k` on free. -/
def probeTrace (x : String) (k : Nat) : BlockTrace :=
  ⟨[.read (.var x) (.bits 8 .little) (localName k) .heap,
      .command (.define (localName (k + 1)) [] .bool
        (.eq (.var (localName k)) (.bits 64 0))),
      .write (.var x) (.bits 8 .little) (.var (localName k)) .heap,
      .fetch (Dict.ofList [(.gp 0, .var x), (.flag .zero, .var (localName (k + 1)))])],
    k + 2, 4⟩

/-- The variable `x` is a bitvector of 64 bits, and nothing else is there. -/
def probeSorts (x : String) : Sorting := fun y => if y = x then some (.bits 64) else none

/-- The values that the block is made of. -/
theorem reaches_probe {v : Value} (h : probeBlock.Reaches v) :
    v = .assigned loaded ∨ v = .assigned loadedIsZero ∨ v = .initial (.gp 0)
      ∨ v = .bits (.word 0#64) := by
  have hreg : v.Within (.initial (.gp 0)) ↔ v = .initial (.gp 0) := Value.within_of_leaf rfl
  have hbits : v.Within (.bits (.word 0#64))
      ↔ v = .bits (.word 0#64) := Value.within_of_leaf rfl
  have hloaded : v.Within (.assigned loaded) ↔ v = .assigned loaded ∨ v = .initial (.gp 0) := by
    simp [Value.within_assigned, loaded, Rhs.operands, hreg]
  have hzero : v.Within (.assigned loadedIsZero) ↔ v = .assigned loadedIsZero
      ∨ (v = .assigned loaded ∨ v = .initial (.gp 0))
      ∨ v = .bits (.word 0#64) := by
    simp [Value.within_assigned, loadedIsZero, Rhs.operands, App.operands, hloaded, hbits]
  rcases h with ⟨c, hc, u, hu, hw⟩ | ⟨u, hu, hw⟩
  · simp only [probeBlock, List.mem_cons, List.not_mem_nil, or_false] at hc
    rcases hc with rfl | rfl | rfl
    · obtain rfl := List.mem_singleton.1 hu
      grind
    · obtain rfl := List.mem_singleton.1 hu
      grind
    · rcases List.mem_pair.1 hu with rfl | rfl
      · grind
      · grind
  · have hu : u ∈ [.initial (.gp 0), .assigned loadedIsZero] := hu
    rcases List.mem_pair.1 hu with rfl | rfl
    · grind
    · grind

theorem wellTyped_probe : probeBlock.WellTyped where
  machine v hv := by
    rcases reaches_probe hv with rfl | rfl | rfl | rfl <;> rfl
  made a ha := by
    rcases reaches_probe ha with h | h | h | h
    · cases h
      rfl
    · cases h
      rfl
    · contradiction
    · contradiction
  consistent a c ha hc hid := by
    rcases reaches_probe ha with h | h | h | h <;>
      rcases reaches_probe hc with h' | h' | h' | h' <;>
        cases h <;> cases h' <;> first | rfl | contradiction
  writes addr l v h := by
    obtain ⟨rfl, rfl, rfl⟩ : addr = .initial (.gp 0) ∧ l = .bits 8 .little
        ∧ v = .assigned loaded := by
      simpa [probeBlock] using h
    rfl
  shuffles a x y h hrhs := by
    have h : a = loaded ∨ a = loadedIsZero := by simpa [probeBlock] using h
    rcases h with rfl | rfl <;> simp [loaded, loadedIsZero] at hrhs

/-- The register holds a term of its type. -/
theorem sorted_probe (x : String) : (probeContext x).registers.Sorted (probeSorts x) := by
  intro r t ht
  have ht : (r, t) ∈ [(.gp 0, .var x)] := (Dict.get?_eq_some_iff _ _ _).1 ht
  obtain ⟨rfl, rfl⟩ := Prod.mk.inj (List.mem_singleton.1 ht)
  exact hasTy_bits.2 (if_pos rfl)

/-- The one variable has bits. -/
theorem positive_probe {x y : String} {s : TermSort} (h : probeSorts x y = some s) :
    s.Positive := by
  unfold probeSorts at h
  split at h
  case isTrue =>
    cases h
    exact Nat.succ_pos 63
  case isFalse => contradiction

/-- With a variable that is no local, the block introduces a bitvector and a
truth value, and hands on its register and its flag as they should be. -/
theorem events_sorted_probe :
    WellSorted (probeSorts "rax") (probeTrace "rax" 0).events
      ∧ (probeTrace "rax" 0).events.filterMap (·.binding?.map (·.2)) = [.bits 64, .bool]
      ∧ ∃ terms before t u, (probeTrace "rax" 0).events = before ++ [.fetch terms]
        ∧ terms.get? (.gp 0) = some t ∧ HasTy (sortsAfter (probeSorts "rax") before) t (.bits 64)
        ∧ terms.get? (.flag .zero) = some u
        ∧ HasTy (sortsAfter (probeSorts "rax") before) u .bool := by
  have hfresh : ∀ k, 0 ≤ k → probeSorts "rax" (localName k) = none := by
    intro k _
    refine if_neg fun h => ?_
    have hname : "x" ++ toString k = "rax" := h
    have hhead := congrArg (·.toList.head?) hname
    simp at hhead
  obtain ⟨hsorted, hbindings, -, values, terms, before, hend, htrace, hin, -⟩ :=
    @events_sorted (probeContext "rax") 0 probeBlock (probeTrace "rax" 0) #[] _
      (probeSorts "rax") rfl wellTyped_probe (sorted_probe "rax") (fun _ _ => positive_probe) hfresh
  cases hend
  obtain ⟨t, ht, htreg⟩ := hin (.gp 0) (.initial (.gp 0)) rfl
  obtain ⟨u, hu, huflag⟩ := hin (.flag .zero) (.assigned loadedIsZero) rfl
  exact ⟨hsorted, hbindings, terms, before, t, u, htrace, ht, htreg, hu, huflag⟩

/-- With its locals numbered from the first, the block gives the variable of its
register another sort: the register is handed on as a truth value. -/
theorem events_missorted :
    ∃ trace log terms,
      Succeeds (block (probeContext "x1") 0 probeBlock) #[] trace log
      ∧ probeBlock.WellTyped ∧ (probeContext "x1").registers.Sorted (probeSorts "x1")
      ∧ .fetch terms ∈ trace.events ∧ terms.get? (.gp 0) = some (.var "x1")
      ∧ (Term.var "x1").sort? (sortsAfter (probeSorts "x1") trace.events) = some .bool
      ∧ ¬ WellSorted (probeSorts "x1") trace.events := by
  refine ⟨probeTrace "x1" 0, _, _, rfl, wellTyped_probe, sorted_probe "x1",
    List.mem_of_getLast? rfl, rfl, rfl, ?_⟩
  rintro ⟨-, -, ⟨⟨w, hw⟩, -⟩, -⟩
  have hw : some TermSort.bool = some (.bits w) := hw
  exact nomatch Option.some.inj hw

end Trace

end LiftedCode
