/-
Terms of the verification language: variables, literals, and applications of
function symbols. The constructors below refuse literals of no bits and
extractions of no bits; a literal's value is a 128-bit number reduced to the
literal's width.
-/
import LiftedCode.Expr.Literal
import LiftedCode.Text.Numeral

namespace LiftedCode.Smt

/-- A sort of terms. -/
inductive TermSort where
  | bool
  | bits (width : Nat)
deriving DecidableEq, Repr, Inhabited

/-- The written form of a sort. -/
def TermSort.text : TermSort → String
  | bool => "Bool"
  | bits w => "(_ BitVec " ++ toString w ++ ")"

/-- A function symbol of the logic. -/
inductive Symbol where
  /-- A symbol that stands for itself. -/
  | named (name : String)
  /-- The bits from `hi` down to `lo`. -/
  | extract (hi lo : Nat)
  /-- `count` more bits, all zero. -/
  | zeroExtend (count : Nat)
  /-- `count` more bits, all like the sign bit. -/
  | signExtend (count : Nat)
deriving DecidableEq, Repr, Inhabited

/-- The written form of a symbol. -/
def Symbol.text : Symbol → String
  | named s => s
  | extract hi lo => "(_ extract " ++ toString hi ++ " " ++ toString lo ++ ")"
  | zeroExtend n => "(_ zero_extend " ++ toString n ++ ")"
  | signExtend n => "(_ sign_extend " ++ toString n ++ ")"

/-- A term. -/
inductive Term where
  | var (name : String)
  | bool (b : Bool)
  /-- A bitvector literal; the value fits in the width. -/
  | bits (width value : Nat)
  | app (symbol : Symbol) (args : List Term)
deriving Inhabited

namespace Term

-- =========================================================== equality

mutual

/-- Whether two terms are the same, by a comparison of their parts. -/
def same : Term → Term → Bool
  | .var x, .var y => x == y
  | .bool b, .bool c => b == c
  | .bits v x, .bits w y => v == w && x == y
  | .app f ts, .app g us => f == g && sameList ts us
  | _, _ => false

/-- Whether two lists of terms are equal. -/
def sameList : List Term → List Term → Bool
  | [], [] => true
  | t :: ts, u :: us => same t u && sameList ts us
  | _, _ => false

end

mutual

/-- The comparison finds equal exactly what is equal. -/
theorem same_iff : (t u : Term) → (same t u = true ↔ t = u)
  | .var x, u => by cases u <;> simp [same]
  | .bool b, u => by cases u <;> simp [same]
  | .bits v x, u => by cases u <;> simp [same]
  | .app f ts, u => by
    cases u <;> simp [same]
    intro _
    exact sameList_iff ts _

/-- The comparison of lists finds equal exactly what is equal. -/
theorem sameList_iff : (ts us : List Term) → (sameList ts us = true ↔ ts = us)
  | [], us => by cases us <;> simp [sameList]
  | t :: ts, us => by
    cases us with
    | nil => simp [sameList]
    | cons u us => simp [sameList, same_iff t u, sameList_iff ts us]

end

instance : DecidableEq Term := fun t u => decidable_of_iff _ (same_iff t u)

-- ======================================================= constructors

/-- The application of a named function. -/
def call (name : String) (args : List Term) : Term := app (.named name) args

/-- The negation of a truth value. -/
def not (a : Term) : Term := call "not" [a]

/-- The conjunction of two truth values. -/
def and (a b : Term) : Term := call "and" [a, b]

/-- The disjunction of two truth values. -/
def or (a b : Term) : Term := call "or" [a, b]

/-- Whether just one of two truth values holds. -/
def xor (a b : Term) : Term := call "xor" [a, b]

/-- Whether two terms are equal. -/
def eq (a b : Term) : Term := call "=" [a, b]

/-- Whether two terms differ. -/
def distinct (a b : Term) : Term := call "distinct" [a, b]

/-- `a` if `c` holds, `b` otherwise. -/
def ite (c a b : Term) : Term := call "ite" [c, a, b]

/-- A named function of two bitvectors. -/
def binary (name : String) (a b : Term) : Term := call name [a, b]

/-- The bits, each turned around. -/
def complement (a : Term) : Term := call "bvnot" [a]

/-- The bits of `hi` above those of `lo`. -/
def concat (hi lo : Term) : Term := call "concat" [hi, lo]

/-- `count` zeros in front of a bitvector. -/
def zeroExtend (count : Nat) (a : Term) : Term := app (.zeroExtend count) [a]

/-- `count` copies of the sign bit in front of a bitvector. -/
def signExtend (count : Nat) (a : Term) : Term := app (.signExtend count) [a]

/-- The literal of `width` bits for a number, which is reduced to them. -/
def literal (width value : Nat) : Except Fault Term :=
  if width = 0 then .error .zeroWidthTerm else .ok (bits width (reduceMagnitude width value))

/-- The literal of `width` bits whose value is the largest 128-bit number,
reduced to the width. -/
def ones (width : Nat) : Except Fault Term := literal width (largestMagnitude magnitudeBits)

/-- The bits from `hi` down to `lo`. -/
def extract (hi lo : Nat) (a : Term) : Except Fault Term :=
  if lo ≤ hi then .ok (app (.extract hi lo) [a]) else .error .emptyExtraction

/-- The one bit at an index. -/
def bitAt (i : Nat) (a : Term) : Term := app (.extract i i) [a]

/-- Whether the bit at an index is set. -/
def testBit (i : Nat) (a : Term) : Term := eq (bitAt i a) (bits 1 1)

/-- A truth value as a bitvector that is 0 or 1. -/
def ofBool (width : Nat) (c : Term) : Except Fault Term := do
  return ite c (← literal width 1) (← literal width 0)

-- =============================================================== text

/-- The number of digits of a literal: hexadecimal ones if the width is a whole
number of them, binary ones otherwise. -/
def literalDigits (width : Nat) : Nat := if width % 4 = 0 then width / 4 else width

mutual

/-- Whether no literal of a term has more digits than a numeral can be padded
to. -/
def textFits : Term → Bool
  | .var _ | .bool _ => true
  | .bits w _ => literalDigits w ≤ Numeral.paddingLimit
  | .app _ ts => textsFit ts

/-- Whether no literal of several terms has too many digits. -/
def textsFit : List Term → Bool
  | [] => true
  | t :: ts => t.textFits && textsFit ts

end

mutual

/-- The written form. Literals show all their digits. -/
def text : Term → String
  | .var x => x
  | .bool b => toString b
  | .bits w x =>
    if w % 4 = 0 then "#x" ++ Numeral.paddedDigits 16 (literalDigits w) x
    else "#b" ++ Numeral.paddedDigits 2 (literalDigits w) x
  | .app f ts => "(" ++ f.text ++ " " ++ blankSeparated (texts ts) ++ ")"

/-- The written forms of terms. -/
def texts : List Term → List String
  | [] => []
  | t :: ts => t.text :: texts ts

end

/-- The written form, if its literals can be padded to all their digits. -/
def checkedText (t : Term) : Except Fault String := inRange t.textFits t.text

end Term

end LiftedCode.Smt
