/-
The shuffle of the bytes of a 128-bit vector, as a term. Every byte of the
index picks a byte of the source with its low four bits, and makes the byte of
the result zero if its top bit is set.
-/
import LiftedCode.Smt.Term

namespace LiftedCode.Smt.Term

/-- The byte at a place, the lowest first. -/
def byteAt (i : Nat) (a : Term) : Term := app (.extract (8 * i + 7) (8 * i)) [a]

/-- Byte `i` of the shuffle of `src` by `index`. -/
def shuffledByte (src index : Term) (i : Nat) : Term :=
  let choice := byteAt i index
  let distance := binary "bvmul" (binary "bvand" choice (bits 8 15)) (bits 8 8)
  let selected := byteAt 0 (binary "bvlshr" src (zeroExtend 120 distance))
  ite (testBit 7 choice) (bits 8 0) selected

/-- The bytes of `src` shuffled by `index`, both of 128 bits. -/
def shuffle128 (src index : Term) : Term :=
  (List.range 15).foldl (fun acc i => concat (shuffledByte src index (i + 1)) acc)
    (shuffledByte src index 0)

end LiftedCode.Smt.Term
