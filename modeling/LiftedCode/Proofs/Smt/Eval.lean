/-
The meaning of terms: the datum that a term stands for, given data for its
variables, by the theories of truth values and of bitvectors. A symbol stands
for something only on arguments of the sorts it is for. Division by zero has a
value in these theories: all ones for a quotient, the dividend for a remainder.
-/
import LiftedCode.Proofs.Meaning.Datum
import LiftedCode.Smt.Term

namespace LiftedCode.Smt

/-- Data for variables. -/
abbrev Env := String → Option Datum

-- ============================================================== symbols

/-- What a named symbol stands for on a truth value. -/
def boolCall (name : String) (a : Bool) : Option Datum :=
  match name with
  | "not" => some (.bool (!a))
  | _ => none

/-- What a named symbol stands for on two truth values. -/
def boolsCall (name : String) (a b : Bool) : Option Datum :=
  match name with
  | "and" => some (.bool (a && b))
  | "or" => some (.bool (a || b))
  | "xor" => some (.bool (a ^^ b))
  | "=" => some (.bool (a == b))
  | "distinct" => some (.bool (a != b))
  | _ => none

/-- What a named symbol stands for on a bitvector. -/
def bitsCall (name : String) {w : Nat} (x : BitVec w) : Option Datum :=
  match name with
  | "bvnot" => some (.bits w (~~~x))
  | _ => none

/-- What a named symbol stands for on two bitvectors of one width. -/
def pairCall (name : String) {w : Nat} (x y : BitVec w) : Option Datum :=
  match name with
  | "bvadd" => some (.bits w (x + y))
  | "bvsub" => some (.bits w (x - y))
  | "bvmul" => some (.bits w (x * y))
  | "bvudiv" => some (.bits w (x.smtUDiv y))
  | "bvurem" => some (.bits w (x.umod y))
  | "bvsdiv" => some (.bits w (x.smtSDiv y))
  | "bvsrem" => some (.bits w (x.srem y))
  | "bvand" => some (.bits w (x &&& y))
  | "bvor" => some (.bits w (x ||| y))
  | "bvxor" => some (.bits w (x ^^^ y))
  | "bvshl" => some (.bits w (x <<< y))
  | "bvlshr" => some (.bits w (x >>> y))
  | "bvashr" => some (.bits w (x.sshiftRight' y))
  | "bvult" => some (.bool (x.ult y))
  | "bvule" => some (.bool (x.ule y))
  | "bvslt" => some (.bool (x.slt y))
  | "bvsle" => some (.bool (x.sle y))
  | "=" => some (.bool (x == y))
  | "distinct" => some (.bool (x != y))
  | _ => none

/-- The sort of a datum; the parts of a tuple together have none. -/
def sortOfDatum : Datum → Option TermSort
  | .bool _ => some .bool
  | .bits w _ => some (.bits w)
  | .tuple _ => none

/-- What a symbol stands for on arguments. -/
def Symbol.value : Symbol → List Datum → Option Datum
  | .named name, [.bool a] => boolCall name a
  | .named name, [.bits _ x] => bitsCall name x
  | .named name, [.bool a, .bool b] => boolsCall name a b
  | .named name, [.bits v x, .bits w y] =>
    if name = "concat" then some (.bits (v + w) (x ++ y))
    else if h : v = w then pairCall name (x.cast h) y
    else none
  | .named name, [.bool c, a, b] =>
    if name = "ite" ∧ (sortOfDatum a).isSome ∧ sortOfDatum a = sortOfDatum b then
      some (if c then a else b)
    else none
  | .extract hi lo, [.bits w x] =>
    if lo ≤ hi ∧ hi < w then some (.bits (hi - lo + 1) (x.extractLsb hi lo)) else none
  | .zeroExtend n, [.bits w x] => some (.bits (w + n) (x.setWidth (w + n)))
  | .signExtend n, [.bits w x] => some (.bits (w + n) (x.signExtend (w + n)))
  | _, _ => none

-- ================================================================ terms

namespace Term

mutual

/-- The datum that a term stands for, if it stands for one. -/
def eval (ρ : Env) : Term → Option Datum
  | .var x => ρ x
  | .bool b => some (.bool b)
  | .bits w n => some (.bits w (BitVec.ofNat w n))
  | .app f ts => (evalAll ρ ts).bind f.value

/-- The data that terms stand for, if every one stands for one. -/
def evalAll (ρ : Env) : List Term → Option (List Datum)
  | [] => some []
  | t :: ts => do return (← eval ρ t) :: (← evalAll ρ ts)

end

mutual

/-- Data for more variables do not change what a term stands for. -/
theorem eval_mono {ρ σ : Env} (h : ∀ x d, ρ x = some d → σ x = some d) :
    (t : Term) → ∀ d, t.eval ρ = some d → t.eval σ = some d
  | .var x => fun d hd => h x d hd
  | .bool b => fun d hd => hd
  | .bits w n => fun d hd => hd
  | .app f ts => fun d hd => by
    rw [eval] at hd ⊢
    obtain ⟨ds, hds, hf⟩ := Option.bind_eq_some_iff.1 hd
    rw [evalAll_mono h ts ds hds]
    exact hf

/-- Data for more variables do not change what several terms stand for. -/
theorem evalAll_mono {ρ σ : Env} (h : ∀ x d, ρ x = some d → σ x = some d) :
    (ts : List Term) → ∀ ds, evalAll ρ ts = some ds → evalAll σ ts = some ds
  | [] => fun ds hds => hds
  | t :: ts => fun ds hds => by
    simp only [evalAll, Option.bind_eq_bind, Option.bind_eq_some_iff] at hds
    obtain ⟨d, hd, es, hes, hds⟩ := hds
    rw [evalAll, eval_mono h t d hd, evalAll_mono h ts es hes]
    exact hds

end

section

variable {ρ : Env} {a b c : Term} {v w : Nat}

@[simp] theorem eval_var (x : String) : (var x).eval ρ = ρ x := rfl

@[simp] theorem eval_bool (p : Bool) : (Term.bool p).eval ρ = some (.bool p) := rfl

@[simp] theorem eval_bits (n : Nat) :
    (Term.bits w n).eval ρ = some (.bits w (BitVec.ofNat w n)) := rfl

/-- What an application to one term stands for. -/
theorem eval_app_one {f : Symbol} {d : Datum} (ha : a.eval ρ = some d) :
    (app f [a]).eval ρ = f.value [d] := by
  simp [eval, evalAll, ha]

/-- What an application to two terms stands for. -/
theorem eval_app_two {f : Symbol} {d e : Datum} (ha : a.eval ρ = some d)
    (hb : b.eval ρ = some e) : (app f [a, b]).eval ρ = f.value [d, e] := by
  simp [eval, evalAll, ha, hb]

/-- Negation stands for that of truth values. -/
theorem eval_not {p : Bool} (ha : a.eval ρ = some (.bool p)) :
    (not a).eval ρ = some (.bool (!p)) :=
  eval_app_one ha

/-- A connective stands for that of truth values. -/
theorem eval_bools {name : String} {p q : Bool} (ha : a.eval ρ = some (.bool p))
    (hb : b.eval ρ = some (.bool q)) : (call name [a, b]).eval ρ = boolsCall name p q :=
  eval_app_two ha hb

/-- A symbol on two bitvectors stands for an operation on them. -/
theorem eval_binary {f : String} {x y : BitVec w} (hf : f ≠ "concat")
    (ha : a.eval ρ = some (.bits w x)) (hb : b.eval ρ = some (.bits w y)) :
    (binary f a b).eval ρ = pairCall f x y := by
  rw [binary, call, eval_app_two ha hb, Symbol.value, if_neg hf, dif_pos rfl, BitVec.cast_eq]

/-- Inequality stands for that of bitvectors. -/
theorem eval_distinct {x y : BitVec w} (ha : a.eval ρ = some (.bits w x))
    (hb : b.eval ρ = some (.bits w y)) : (distinct a b).eval ρ = some (.bool (x != y)) :=
  eval_binary (by decide) ha hb

/-- The complement stands for that of a bitvector. -/
theorem eval_complement {x : BitVec w} (ha : a.eval ρ = some (.bits w x)) :
    (complement a).eval ρ = some (.bits w (~~~x)) :=
  eval_app_one ha

/-- A concatenation stands for that of bitvectors. -/
theorem eval_concat {x : BitVec v} {y : BitVec w} (ha : a.eval ρ = some (.bits v x))
    (hb : b.eval ρ = some (.bits w y)) : (concat a b).eval ρ = some (.bits (v + w) (x ++ y)) :=
  eval_app_two ha hb

/-- Zeros in front of a bitvector leave its number as it is. -/
theorem eval_zeroExtend {n : Nat} {x : BitVec w} (ha : a.eval ρ = some (.bits w x)) :
    (zeroExtend n a).eval ρ = some (.bits (w + n) (x.setWidth (w + n))) :=
  eval_app_one ha

/-- Copies of the sign bit in front leave the signed number as it is. -/
theorem eval_signExtend {n : Nat} {x : BitVec w} (ha : a.eval ρ = some (.bits w x)) :
    (signExtend n a).eval ρ = some (.bits (w + n) (x.signExtend (w + n))) :=
  eval_app_one ha

/-- A range of bits within a bitvector. -/
theorem eval_extract {hi lo : Nat} {x : BitVec w} (h : lo ≤ hi) (hw : hi < w)
    (ha : a.eval ρ = some (.bits w x)) :
    (app (.extract hi lo) [a]).eval ρ = some (.bits (hi - lo + 1) (x.extractLsb hi lo)) := by
  rw [eval_app_one ha, Symbol.value, if_pos ⟨h, hw⟩]

theorem eval_ite_bool {p q r : Bool} (hc : c.eval ρ = some (.bool p))
    (ha : a.eval ρ = some (.bool q)) (hb : b.eval ρ = some (.bool r)) :
    (ite c a b).eval ρ = some (.bool (if p then q else r)) := by
  rw [ite, call, eval, evalAll, evalAll, evalAll, evalAll, hc, ha, hb]
  cases p <;> rfl

theorem eval_ite_bits {p : Bool} {x y : BitVec w} (hc : c.eval ρ = some (.bool p))
    (ha : a.eval ρ = some (.bits w x)) (hb : b.eval ρ = some (.bits w y)) :
    (ite c a b).eval ρ = some (.bits w (if p then x else y)) := by
  rw [ite, call, eval, evalAll, evalAll, evalAll, evalAll, hc, ha, hb]
  cases p
  · simp [Symbol.value, sortOfDatum]
  · simp [Symbol.value, sortOfDatum]

theorem eval_bitAt {i : Nat} {x : BitVec w} (hi : i < w) (ha : a.eval ρ = some (.bits w x)) :
    (bitAt i a).eval ρ = some (.bits 1 (BitVec.ofBool (x.getLsbD i))) := by
  rw [bitAt, eval_extract (Nat.le_refl i) hi ha]
  refine congrArg some (Datum.bits_congr_getLsbD (by omega) fun j hj => ?_)
  obtain rfl : j = 0 := by omega
  rw [BitVec.getLsbD_extractLsb]
  simp

theorem eval_testBit {i : Nat} {x : BitVec w} (hi : i < w) (ha : a.eval ρ = some (.bits w x)) :
    (testBit i a).eval ρ = some (.bool (x.getLsbD i)) := by
  rw [testBit, eq, ← binary, eval_binary (by decide) (eval_bitAt hi ha) (eval_bits 1)]
  cases x.getLsbD i <;> rfl

end

end Term

end LiftedCode.Smt
