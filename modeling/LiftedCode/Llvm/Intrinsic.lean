/-
The functions that generated code calls without any recovered function asking
for them: operations that the target language has as functions, and the one
that reports an index which a table does not have.
-/
import LiftedCode.Llvm.Definition

namespace LiftedCode.Llvm.Intrinsic

/-- The declaration of a function without attributes. -/
def plain (name : String) (ret : Ty) (args : List Ty) : Declaration := ⟨name, ret, args, []⟩

/-- Addition or subtraction that tells whether it left the range. -/
def withOverflow (signed subtract : Bool) (width : Nat) : Declaration :=
  plain ("llvm." ++ (if signed then "s" else "u") ++ (if subtract then "sub" else "add")
      ++ ".with.overflow.i" ++ toString width)
    (.struct [.int width, .int 1]) [.int width, .int width]

/-- The number of leading zeros. The flag tells whether zero is undefined. -/
def countLeadingZeros (width : Nat) : Declaration :=
  plain ("llvm.ctlz.i" ++ toString width) (.int width) [.int width, .int 1]

/-- The number of trailing zeros. The flag tells whether zero is undefined. -/
def countTrailingZeros (width : Nat) : Declaration :=
  plain ("llvm.cttz.i" ++ toString width) (.int width) [.int width, .int 1]

/-- The number of bits that are set in an integer. -/
def popCount (width : Nat) : Declaration :=
  plain ("llvm.ctpop.i" ++ toString width) (.int width) [.int width]

/-- The bytes of an integer, or of each of a vector of integers, in the
opposite order. -/
def swapBytes (t : Ty) : Declaration := plain ("llvm.bswap." ++ t.mangled) t [t]

/-- A read of one element from a pointer of a given alignment, if the mask
says so, and the element given for this case if not. -/
def maskedLoad (elem : Ty) : Declaration :=
  let v := elem.single
  plain ("llvm.masked.load." ++ v.mangled ++ ".p0") v [.ptr, .int 32, Ty.single (.int 1), v]

/-- A write of one element at a pointer of a given alignment, if the mask says
so. -/
def maskedStore (elem : Ty) : Declaration :=
  let v := elem.single
  plain ("llvm.masked.store." ++ v.mangled ++ ".p0") .void
    [v, .ptr, .int 32, Ty.single (.int 1)]

/-- The square root of a floating-point number. -/
def squareRoot (t : Ty) : Declaration := plain ("llvm.sqrt." ++ t.mangled) t [t]

/-- The number of cycles that have passed. -/
def readTimestamp : Declaration := plain "llvm.readcyclecounter" (.int 64) []

/-- A copy of bytes between ranges that may overlap. -/
def moveBytes : Declaration :=
  plain "llvm.memmove.p0.p0.i64" .void [.ptr, .ptr, .int 64, .int 1]

/-- A range filled with copies of a byte. -/
def fillBytes : Declaration :=
  plain "llvm.memset.p0.i64" .void [.ptr, .int 8, .int 64, .int 1]

/-- The shuffle of the bytes of a 128-bit vector. -/
def shuffle128 : Declaration :=
  let v := Ty.vector 16 (.int 8)
  plain "llvm.x86.ssse3.pshuf.b.128" v [v, v]

/-- The report of an index that a table does not have; it does not return. -/
def tableFailure : Declaration := ⟨"rivet.lookup_table_failure", .void, [], ["noreturn"]⟩

end LiftedCode.Llvm.Intrinsic
