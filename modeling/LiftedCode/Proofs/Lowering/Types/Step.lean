/-
The types of operands, and the faults of the steps that produce them. Lowering says the
type of every operand that it makes: that of the width that an operation names, that of
another operand, what a function returns, or what a conversion leads to. What an operand
that an identifier is bound to is of, it was bound with (`Held`), so all types are known
from those that identifiers may have been bound with.

A step keeps this knowledge, whether or not it succeeds, and its result is an operand of
a type that is known. The widths that are computed on the way are those of the operands
at hand, and so, provided that these are 32-bit numbers, no step ends in a fault
(`Obtains`). Where nothing is known of numbers, the types are what they are all the same.

Two widths are computed that no check has seen: that of a value that is compared or
reversed as an integer, and that of an odd number of bytes with one more byte in front
(`reversedWidth?`, `ReversalFits`).
-/
import LiftedCode.Lowering.Memory
import LiftedCode.Proofs.Expr.Checked
import LiftedCode.Proofs.Lowering.Block
import LiftedCode.Proofs.Verdict

namespace LiftedCode

namespace Value

/-- The identifier under which a value is bound, if it is bound under one. -/
def ident? : Value → Option Ident
  | assigned a => some a.id
  | phi v | returned v => some v.id
  | bits _ | bool _ | initial _ | arg _ _ | entry _ => none

/-- Whether the operand for the value may be of the type, where what is bound to
identifiers may be of these. -/
def MayBe (types : Ident → Llvm.Ty → Prop) (v : Value) (t : Llvm.Ty) : Prop :=
  match v.ident? with
  | some id => types id t
  | none => t = .ofTy v.ty

end Value

namespace Lowering

open Llvm (Typed Instr Op BinaryOperator IntPredicate CastOperator Declaration)

-- ============================================================== the rules

/-- Where a step ends, whether or not it succeeds. -/
def Step.after {α : Type} (m : Step α) (s : State) : State := (m.run.run s).2

/-- The operands that identifiers are bound to are of types that they may be of. -/
def Held (types : Ident → Llvm.Ty → Prop) (s : State) : Prop :=
  ∀ id x, s.values.get? id = some x → types id x.ty

/-- Whether a result of type `u`, computed from some values, may have the type: that
for `u`, or that of an operand for one of the values, if it is of type `u`. -/
def ResultTy (types : Ident → Llvm.Ty → Prop) (vs : List Value) (u : Ty) (t : Llvm.Ty) : Prop :=
  t = .ofTy u ∨ ∃ v ∈ vs, v.ty = u ∧ v.MayBe types t

/-- The step keeps operands of the types that they may be of, whatever becomes of it, and
its result is as `Q` says. If numbers are known to fit, it does not end in a fault. -/
structure Obtains (types : Ident → Llvm.Ty → Prop) (fits : Prop) {α : Type} (m : Step α)
    (Q : α → Prop) : Prop where
  keeps : ∀ {s}, Held types s → Held types (m.after s)
  result : ∀ {s a s'}, Held types s → Succeeds m s a s' → Q a
  verdict : ∀ {s e}, fits → Held types s → (m.run.run s).1 = .error e → IsVerdict e

/-- The width of the integer whose bytes are reversed when a value of the type is
brought to the byte order of a layout. -/
def reversedWidth? : Layout → Llvm.Ty → Option Nat
  | .bits _ _, .int w => some w
  | .float _ _, t => t.width?
  | _, _ => none

/-- Whether there is room for one more byte, in case there is an odd number of them
to be reversed. -/
def ReversalFits (w : Nat) : Prop :=
  w % 8 = 0 → w ≠ 8 → w % 16 ≠ 0 → w + 8 < Width.limit

section

variable {types : Ident → Llvm.Ty → Prop} {fits : Prop} {α β : Type} {m : Step α}
  {Q Q' : α → Prop} {R : β → Prop} {s s' : State}

-- =============================================================== results

/-- A result of the type for `u` may have it. -/
theorem ResultTy.own {vs : List Value} {u : Ty} {t : Llvm.Ty} (h : t = .ofTy u) :
    ResultTy types vs u t := .inl h

/-- A result may have the type of an operand of its own type. -/
theorem ResultTy.operand {vs : List Value} {v : Value} {u : Ty} {t : Llvm.Ty} (hv : v ∈ vs)
    (hu : v.ty = u) (ht : v.MayBe types t) : ResultTy types vs u t := .inr ⟨v, hv, hu, ht⟩

/-- The width of an operand is a 32-bit number if those of whatever is bound are,
and that of the value. -/
theorem widthFits_of_mayBe {v : Value} {t : Llvm.Ty} (h : v.MayBe types t)
    (hbound : ∀ id t, types id t → t.widthFits = true) (hv : v.ty.widthFits = true) :
    t.widthFits = true := by
  unfold Value.MayBe at h
  split at h
  · exact hbound _ t h
  · rw [h, widthFits_ofTy]
    exact hv

-- ========================================================= primitive steps

/-- Where a step ends that succeeds. -/
theorem after_of_succeeds {a : α} (h : Succeeds m s a s') : m.after s = s' := congrArg Prod.snd h

/-- Two steps one after the other end where the second does, or the first if that fails. -/
theorem after_bind (m : Step α) (f : α → Step β) (s : State) :
    (∃ e, m.run.run s = (.error e, m.after s)) ∧ (m >>= f).after s = m.after s
      ∨ ∃ a, Succeeds m s a (m.after s) ∧ (m >>= f).after s = (f a).after (m.after s) := by
  unfold Step.after Succeeds
  rw [run_bind]
  rcases m.run.run s with ⟨e | a, s₁⟩
  · exact .inl ⟨⟨e, rfl⟩, rfl⟩
  · exact .inr ⟨a, rfl, rfl⟩

/-- Operands are of the same types where the same identifiers are bound to them. -/
theorem Held.of_values (h : Held types s) (hv : s'.values = s.values) : Held types s' := by
  unfold Held
  rw [hv]
  exact h

/-- One step after the other. -/
theorem Obtains.bind {f : α → Step β} (h : Obtains types fits m Q)
    (hf : ∀ a, Q a → Obtains types fits (f a) R) : Obtains types fits (m >>= f) R where
  keeps {s} hs := by
    rcases after_bind m f s with ⟨-, hend⟩ | ⟨a, hm, hend⟩
    · rw [hend]
      exact h.keeps hs
    · rw [hend]
      exact (hf a (h.result hs hm)).keeps (h.keeps hs)
  result {s c s'} hs hrun := by
    obtain ⟨a, s₁, hm, hrest⟩ := succeeds_bind hrun
    have hs₁ : Held types s₁ := after_of_succeeds hm ▸ h.keeps hs
    exact (hf a (h.result hs hm)).result hs₁ hrest
  verdict {s e} hfits hs he := by
    rw [run_bind] at he
    split at he
    case h_1 a s₁ hm =>
      have hs₁ : Held types s₁ := after_of_succeeds hm ▸ h.keeps hs
      exact (hf a (h.result hs hm)).verdict hfits hs₁ he
    case h_2 e' s₁ hm =>
      cases he
      exact h.verdict hfits hs (congrArg Prod.fst hm)

/-- Less may be said of the result. -/
theorem Obtains.imp (h : Obtains types fits m Q) (hQ : ∀ a, Q a → Q' a) : Obtains types fits m Q' :=
  ⟨h.keeps, fun hs hrun => hQ _ (h.result hs hrun), h.verdict⟩

/-- If numbers fit, what comes of the step is a result or a verdict. -/
theorem Obtains.settles (h : Obtains types True m Q) (hs : Held types s) :
    Settles (m.run.run s).1 fun _ => True := by
  cases he : (m.run.run s).1 with
  | ok a => trivial
  | error e => exact h.verdict trivial hs he

/-- A step that binds nothing wherever it begins. -/
theorem obtains_of_values (hv : ∀ s, (m.after s).values = s.values)
    (hr : ∀ {s a s'}, Succeeds m s a s' → Q a)
    (he : ∀ {s e}, fits → (m.run.run s).1 = .error e → IsVerdict e) : Obtains types fits m Q :=
  ⟨fun hs => hs.of_values (hv _), fun _ => hr, fun hfits _ => he hfits⟩

/-- A step that does nothing has the result that it is given. -/
theorem obtains_pure {a : α} (h : Q a) : Obtains types fits (pure a) Q :=
  obtains_of_values (fun _ => rfl) (fun hrun => (succeeds_pure hrun).1 ▸ h) nofun

/-- A step may fail with a verdict. -/
theorem obtains_throw {e : LoweringError} (h : IsVerdict e) : Obtains types fits (throw e) Q := by
  refine obtains_of_values (fun _ => rfl) (fun hrun => absurd hrun not_succeeds_throw) ?_
  rintro _ _ _ ⟨⟩
  exact h

/-- A guard may refuse with a verdict, and what follows is known to have passed it. -/
theorem obtains_guard {p : Prop} [Decidable p] {e : LoweringError} {m : Step α} (he : IsVerdict e)
    (h : ¬p → Obtains types fits m Q) : Obtains types fits (if p then throw e else m) Q := by
  split
  case isTrue => exact obtains_throw he
  case isFalse hp => exact h hp

theorem obtains_ofExcept {x : Except LoweringError α} {P : α → Prop} (h : fits → Settles x P) :
    Obtains types fits (Step.ofExcept x) fun a => x = .ok a := by
  refine obtains_of_values (fun _ => rfl) (fun hrun => (succeeds_ofExcept hrun).1) ?_
  rintro _ e hfits rfl
  exact h hfits

/-- A check comes to a verdict, whatever numbers there are. -/
theorem obtains_check {x : Except CodeError α} (h : Settles x Q) :
    Obtains types fits (Step.check x) Q := by
  have hsettles := h.eq_ok.mapError fun _ => isVerdict_code
  refine (obtains_ofExcept fun _ => hsettles).imp fun a ha => ?_
  rw [ha] at hsettles
  exact hsettles.1

/-- Arithmetic that settles, where things fit. -/
theorem obtains_ofFault {x : Except Fault α} {P : α → Prop} (h : fits → Settles x P) :
    Obtains types fits (Step.ofFault x) fun a => x = .ok a := by
  have hsettles : fits → Settles (x.mapError (LoweringError.code ∘ .fault)) P := fun hfits =>
    (h hfits).mapError fun e he => absurd rfl (he e)
  exact (obtains_ofExcept hsettles).imp fun _ => ok_of_mapError

/-- A layout whose widths are 32-bit numbers can be named where it is refused. -/
theorem obtains_refuse {what : Layout → Unsupported} {l : Layout}
    (hl : fits → l.bitsFit = true) : Obtains types fits (Step.refuse what l : Step α) Q :=
  (obtains_ofFault fun hfits => settles_inRange (hl hfits)).bind fun _ _ => obtains_throw nofun

theorem obtains_emit (i : Instr) : Obtains types fits (Step.emit i) fun _ => True :=
  obtains_of_values (fun _ => rfl) (fun _ => trivial) nofun

/-- A result has the type that was said. -/
theorem obtains_assign (t : Llvm.Ty) (op : Op) :
    Obtains types fits (Step.assign t op) (·.ty = t) := by
  refine obtains_of_values (fun _ => rfl) (fun hrun => ?_) nofun
  cases hrun
  rfl

/-- Declarations conflict or do not. -/
theorem settles_declaration (ds : Declarations) (d : Declaration) (log : Log) :
    Settles ((ds.declare d).run.run log).1 fun _ => True := by
  unfold Declarations.declare
  split
  · split
    · trivial
    · exact nofun
  · trivial

theorem after_declare_values (d : Declaration) (s : State) :
    ((Step.declare d).after s).values = s.values := by
  unfold Step.after
  rw [run_declare]
  rcases (s.declarations.declare d).run.run s.log with ⟨_ | _, _⟩ <;> rfl

theorem obtains_declare (d : Declaration) :
    Obtains types fits (Step.declare d) fun _ => True := by
  refine obtains_of_values (after_declare_values d) (fun _ => trivial) fun {s e} _ he => ?_
  have hsettles := settles_declaration s.declarations d s.log
  rw [run_declare] at he
  generalize (s.declarations.declare d).run.run s.log = out at hsettles he
  obtain ⟨_ | _, _⟩ := out
  · cases he
    exact hsettles
  · contradiction

/-- What is bound to an identifier is of a type that it may be of. -/
theorem Held.bind (hs : Held types s) {id : Ident} {x : Typed} (hx : types id x.ty) :
    Held types ((Step.bind id x).after s) := by
  intro j y hy
  have hvalues : ((Step.bind id x).after s).values = s.values.insert id x := by
    unfold Step.after
    rw [run_bindIdent]
  rw [hvalues, Dict.get?_insert] at hy
  split at hy
  case isTrue hj =>
    cases hy
    exact hj ▸ hx
  case isFalse => exact hs j y hy

/-- An identifier may be bound to an operand of its type. -/
theorem obtains_bind {id : Ident} {x : Typed} (hx : types id x.ty) :
    Obtains types fits (Step.bind id x) fun _ => True where
  keeps hs := hs.bind hx
  result _ _ := trivial
  verdict _ _ he := by
    rw [run_bindIdent] at he
    split at he
    · cases he
      rintro f ⟨⟩
    · contradiction

theorem after_bound (id : Ident) (s : State) : (Step.bound id).after s = s := by
  unfold Step.after
  cases hx : s.values.get? id with
  | some x => rw [run_bound hx]
  | none => rw [run_bound_of_none hx]

/-- What is bound has the type of its identifier. -/
theorem obtains_bound (id : Ident) : Obtains types fits (Step.bound id) fun x => types id x.ty where
  keeps {s} hs := by
    rw [after_bound]
    exact hs
  result hs hx := hs id _ (succeeds_bound hx).2
  verdict {s e} _ _ he := by
    cases hx : s.values.get? id with
    | some x =>
        rw [run_bound hx] at he
        contradiction
    | none =>
        rw [run_bound_of_none hx] at he
        cases he
        exact nofun

/-- A walk through a list keeps what every step of it keeps. -/
theorem obtains_forM {f : α → Step PUnit} {as : List α}
    (h : ∀ a ∈ as, Obtains types fits (f a) fun _ => True) :
    Obtains types fits (as.forM f) fun _ => True := by
  induction as with
  | nil => exact obtains_pure trivial
  | cons a as ih =>
      exact (h a List.mem_cons_self).bind fun _ _ => ih fun b hb => h b (List.mem_cons_of_mem a hb)

-- ================================================= instructions by shape

theorem obtains_binary (op : BinaryOperator) (x y : Typed) :
    Obtains types fits (Step.binary op x y) (·.ty = x.ty) := obtains_assign _ _

theorem obtains_compare (pred : IntPredicate) (x y : Typed) :
    Obtains types fits (Step.compare pred x y) (·.ty = .int 1) := obtains_assign _ _

theorem obtains_cast (op : CastOperator) (x : Typed) (t : Llvm.Ty) :
    Obtains types fits (Step.cast op x t) (·.ty = t) := obtains_assign _ _

theorem obtains_select (c x y : Typed) :
    Obtains types fits (Step.select c x y) (·.ty = x.ty) := obtains_assign _ _

/-- The result of a call has the type that the declaration says. -/
theorem obtains_call (d : Declaration) (xs : List Typed) :
    Obtains types fits (Step.call d xs) (·.ty = d.ret) :=
  (obtains_declare d).bind fun _ _ => obtains_assign _ _

theorem obtains_callVoid (d : Declaration) (xs : List Typed) :
    Obtains types fits (Step.callVoid d xs) fun _ => True :=
  (obtains_emit _).bind fun _ _ => obtains_declare d

-- =============================================================== values

/-- The operand for a value has a type that it may have. -/
theorem obtains_value (env : Env) (v : Value) :
    Obtains types fits (value env v) fun x => v.MayBe types x.ty := by
  cases v with
  | bits | bool => exact obtains_pure rfl
  | assigned | phi | returned => exact obtains_bound _
  | initial => exact obtains_throw nofun
  | arg i t =>
      simp only [value]
      split
      · exact obtains_throw nofun
      · exact (obtains_check (settles_expectTy _ _ _)).bind fun _ _ => obtains_pure rfl
  | entry => exact (obtains_declare _).bind fun _ _ => obtains_pure rfl

-- =============================================================== memory

/-- A value of known width is an integer of that width. -/
theorem obtains_asInt {x : Typed} (hx : fits → x.ty.widthFits = true) :
    Obtains types fits (Step.asInt x) fun i => ∀ w, i.ty = .int w → x.ty.width? = some w := by
  unfold Step.asInt
  split
  · refine obtains_pure fun w hw => ?_
    rw [hw]
    rfl
  · refine (obtains_ofFault fun hfits => settles_inRange (hx hfits)).bind fun width hwidth => ?_
    have hwidth : x.ty.width? = width := (ok_of_inRange hwidth).2.symm
    cases width with
    | some v =>
        refine (obtains_cast _ _ _).imp fun i hi w hw => ?_
        obtain rfl : v = w := Llvm.Ty.int.inj (hi.symm.trans hw)
        exact hwidth
    | none => exact obtains_throw nofun

/-- Reversal keeps the type. -/
theorem obtains_reverseBytes {x : Typed} (hx : fits → ∀ w, x.ty = .int w → ReversalFits w) :
    Obtains types fits (Step.reverseBytes x) (·.ty = x.ty) := by
  unfold Step.reverseBytes
  split
  case h_2 => exact obtains_throw (by rintro f ⟨⟩)
  case h_1 w hw =>
    refine obtains_guard (by rintro f ⟨⟩) fun h8 => ?_
    by_cases hbyte : w = 8
    · simp only [if_pos hbyte]
      exact obtains_pure rfl
    simp only [if_neg hbyte]
    by_cases h16 : w % 16 = 0
    · simp only [if_pos h16]
      exact obtains_call _ _
    simp only [if_neg h16]
    have hroom : fits → w + 8 < Width.limit := fun hfits =>
      hx hfits w hw (by simpa using h8) hbyte h16
    refine (obtains_ofFault fun hfits => Width.settles_add (hroom hfits)).bind fun v _ => ?_
    refine (obtains_cast _ _ _).bind fun y _ => (obtains_call _ _).bind fun z _ => ?_
    exact (obtains_binary _ _ _).bind fun r _ => (obtains_cast _ _ _).imp fun _ h => h.trans hw.symm

/-- What is asked of an operand that is brought to the byte order of a layout. -/
structure Orderable (env : Env) (l : Layout) (t : Llvm.Ty) : Prop where
  layout : l.bitsFit = true
  width : t.widthFits = true
  reversal : l.order ≠ env.target.order → ∀ w, reversedWidth? l t = some w → ReversalFits w

variable {env : Env} {l : Layout} {u v c : Value}

/-- A change of the order of bytes keeps the type. -/
theorem obtains_matchOrder {x : Typed} (hx : fits → Orderable env l x.ty) :
    Obtains types fits (Step.matchOrder env l x) (·.ty = x.ty) := by
  unfold Step.matchOrder
  by_cases ho : l.order = env.target.order
  · simp only [if_pos ho]
    exact obtains_pure rfl
  simp only [if_neg ho]
  split
  case h_1 =>
    refine obtains_reverseBytes fun hfits w hw => (hx hfits).reversal ho w ?_
    rw [hw]
    rfl
  case h_2 =>
    refine (obtains_asInt fun hfits => (hx hfits).width).bind fun i hi => ?_
    refine (obtains_reverseBytes fun hfits w hw => ?_).bind fun r _ => ?_
    · exact (hx hfits).reversal ho w (hi w hw)
    · exact obtains_cast _ _ _
  case h_3 =>
    split
    · exact obtains_pure rfl
    · split
      · exact obtains_call _ _
      · exact obtains_refuse fun hfits => (hx hfits).layout
  case h_4 => exact obtains_refuse fun hfits => (hx hfits).layout

theorem obtains_address (v : Value) : Obtains types fits (address env v) fun _ => True :=
  (obtains_value env v).bind fun _ _ => (obtains_cast _ _ _).imp fun _ _ => trivial

theorem obtains_mask (v : Value) : Obtains types fits (mask env v) fun _ => True :=
  (obtains_value env v).bind fun _ _ => (obtains_cast _ _ _).imp fun _ _ => trivial

theorem obtains_layoutTy (hl : fits → l.bitsFit = true) :
    Obtains types fits (layoutTy l) (· = .ofTy l.ty) :=
  (obtains_ofFault fun hfits => settles_inRange (hl hfits)).bind fun _ ht =>
    obtains_pure (Layout.of_checkedTy ht ▸ rfl)

/-- What is read has the type of the layout. -/
theorem obtains_read (hl : fits → Orderable env l (.ofTy l.ty)) :
    Obtains types fits (read env u l) (·.ty = .ofTy l.ty) := by
  refine (obtains_address u).bind fun p _ => ?_
  refine (obtains_layoutTy fun hfits => (hl hfits).layout).bind fun t ht => ?_
  subst ht
  refine (obtains_assign _ _).bind fun x hx => ?_
  exact (obtains_matchOrder (hx ▸ hl)).imp fun _ hr => hr.trans hx

/-- What is read under a condition has the type of the layout too, as it is taken out of
a vector of that. -/
theorem obtains_readIf (hl : fits → Orderable env l (.ofTy l.ty))
    (hv : fits → ∀ t, v.MayBe types t → Orderable env l t) :
    Obtains types fits (readIf env l c u v) (·.ty = .ofTy l.ty) := by
  have hlayout : fits → l.bitsFit = true := fun hfits => (hl hfits).layout
  unfold readIf
  by_cases hp : l.isPacked = true
  · simp only [if_pos hp]
    exact (obtains_refuse (Q := fun _ => False) hlayout).bind fun _ h => h.elim
  simp only [if_neg hp]
  refine (obtains_layoutTy hlayout).bind fun t ht => ?_
  subst ht
  refine (obtains_mask c).bind fun _ _ => (obtains_address u).bind fun _ _ => ?_
  refine (obtains_value env v).bind fun x hx => ?_
  refine (obtains_matchOrder fun hfits => hv hfits _ hx).bind fun _ _ => ?_
  refine (obtains_assign _ _).bind fun _ _ => (obtains_call _ _).bind fun _ _ => ?_
  refine (obtains_assign _ _).bind fun y hy => ?_
  exact (obtains_matchOrder (hy ▸ hl)).imp fun _ hr => hr.trans hy

/-- A write settles where its value can be brought to the order of the layout. -/
theorem obtains_write (hv : fits → ∀ t, v.MayBe types t → Orderable env l t) :
    Obtains types fits (write env u l v) fun _ => True := by
  refine (obtains_value env v).bind fun x hx => ?_
  refine (obtains_matchOrder fun hfits => hv hfits _ hx).bind fun _ _ => ?_
  exact (obtains_address u).bind fun _ _ => obtains_emit _

theorem obtains_writeIf (hl : fits → l.bitsFit = true)
    (hv : fits → ∀ t, v.MayBe types t → Orderable env l t) :
    Obtains types fits (writeIf env c u l v) fun _ => True := by
  refine (obtains_value env v).bind fun x hx => ?_
  refine (obtains_matchOrder fun hfits => hv hfits _ hx).bind fun _ _ => ?_
  by_cases hp : l.isPacked = true
  · simp only [if_pos hp]
    exact (obtains_refuse (Q := fun _ => False) hl).bind fun _ h => h.elim
  simp only [if_neg hp]
  refine (obtains_mask c).bind fun _ _ => (obtains_address u).bind fun _ _ => ?_
  exact (obtains_assign _ _).bind fun _ _ => obtains_callVoid _ _

end

end Lowering

end LiftedCode
