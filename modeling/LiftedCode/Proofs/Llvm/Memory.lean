/-
Accesses to memory in the target language. Memory is a byte for every address, and numbers
lie in it with the lowest byte first (`Memory.load`, `Memory.store`). A value in the order of
a layout is in memory what the number with its bytes in that order is (`load_of_heldAt`,
`store_reorder`).

`Op.evalIn` and `Instr.execIn` go beyond operations on locals: they know loads and stores,
vectors of one element, pointers from addresses of any width, and the functions that read
and write under a mask or reverse the bytes of every element of a vector. These functions
are recognized by the names that they are declared under. Everything else is as it is
without memory (`Op.evalIn_of_isLocal`, `runIn_of_isLocal`).
-/
import LiftedCode.Proofs.Llvm.Eval
import LiftedCode.Proofs.Meaning.Layout

namespace LiftedCode

-- ================================================================ memory

/-- The byte at every address. -/
abbrev Memory := BitVec 64 → BitVec 8

namespace Memory

/-- The number of `w` bits at an address, the lowest byte first. -/
def load (M : Memory) (a : BitVec 64) (w : Nat) : BitVec w :=
  Bits.ofBits w fun i => (M (a + BitVec.ofNat 64 (i / 8))).getLsbD (i % 8)

/-- Memory with a number at an address, the lowest byte first. -/
def store (M : Memory) (a : BitVec 64) {w : Nat} (x : BitVec w) : Memory := fun b =>
  if (b - a).toNat < w / 8 then x.extractLsb' (8 * (b - a).toNat) 8 else M b

end Memory

namespace Layout

variable {w : Nat} {M : Memory} {a : BitVec 64} {x : BitVec w}

/-- Whether the bytes from an address on are those of a value in the order of the layout. -/
def HeldAt (l : Layout) (M : Memory) (a : BitVec 64) (x : BitVec w) : Prop :=
  ∀ k < l.byteSize, M (a + BitVec.ofNat 64 k) = l.byteAt x k

/-- Memory with the bytes of a value in the order of the layout from an address on, and
otherwise as it is. -/
def put (l : Layout) (M : Memory) (a : BitVec 64) (x : BitVec w) : Memory := fun b =>
  if (b - a).toNat < l.byteSize then l.byteAt x (b - a).toNat else M b

/-- What is put into memory is held there, if it does not reach around. -/
theorem heldAt_put {l : Layout} (hfit : l.byteSize ≤ 2 ^ 64) (M : Memory) (a : BitVec 64)
    (x : BitVec w) : l.HeldAt (l.put M a x) a x := by
  intro k hk
  have hoffset : (a + BitVec.ofNat 64 k - a).toNat = k := by
    rw [BitVec.add_comm, BitVec.add_sub_cancel, BitVec.toNat_ofNat]
    exact Nat.mod_eq_of_lt (Nat.lt_of_lt_of_le hk hfit)
  unfold put
  rw [hoffset, if_pos hk]

theorem store_reorder (l : Layout) (hw : w = 8 * l.byteSize) (M : Memory) (a : BitVec 64)
    (x : BitVec w) : M.store a (l.reorder x) = l.put M a x := by
  funext b
  unfold Memory.store put
  have hsize : w / 8 = l.byteSize := by omega
  rw [hsize]
  by_cases hb : (b - a).toNat < l.byteSize
  · rw [if_pos hb, if_pos hb, l.extractLsb'_reorder hw x hb]
  · rw [if_neg hb, if_neg hb]

theorem load_of_heldAt {l : Layout} (hw : w = 8 * l.byteSize) (h : l.HeldAt M a x) :
    M.load a w = l.reorder x := by
  apply BitVec.eq_of_getLsbD_eq
  intro i hi
  have hbit : i % 8 < 8 := Nat.mod_lt i (by decide)
  unfold Memory.load
  rw [Bits.getLsbD_ofBits _ hi, h (i / 8) (by omega), l.getLsbD_reorder x hi]
  unfold byteAt
  rw [BitVec.getLsbD_extractLsb', decide_eq_true hbit, Bool.true_and]

end Layout

namespace Llvm

-- ============================================================== accesses

namespace Data

/-- An address of any width as a pointer. -/
def toPointer : Data → Option Data
  | poison => some poison
  | bits _ a => some (bits 64 (a.setWidth 64))
  | struct _ => none

/-- The address that a pointer is. -/
def address? : Data → Option (BitVec 64)
  | bits 64 a => some a
  | _ => none

end Data

/-- Whether this is a vector of one element. -/
def Ty.isSingle : Ty → Bool
  | vector n _ => n == 1
  | _ => false

section

variable (M : Memory)

/-- What is at a pointer, as a value of a type of whole bytes. -/
def loadAs (t : Ty) (p : Data) : Option Data := do
  let a ← p.address?
  let w ← t.width?
  if w % 8 = 0 then some (.bits w (M.load a w)) else none

/-- Memory with a value of whole bytes at a pointer. -/
def storeAt (p : Data) : Data → Option Memory
  | .bits w x => do
    let a ← p.address?
    if w % 8 = 0 then some (M.store a x) else none
  | .poison | .struct _ => none

-- ==================================================== functions by name

/-- Whether a function that gives a type is the read of one element under a mask. -/
def isMaskedLoad (f : Operand) : Ty → Bool
  | .vector 1 t => f = .global (Intrinsic.maskedLoad t).name
  | _ => false

/-- Whether a function that gives a type reverses the bytes of every element. -/
def isSwapElements (f : Operand) : Ty → Bool
  | .vector n (.int w) => f = .global (Intrinsic.swapBytes (.vector n (.int w))).name
  | _ => false

/-- Whether a function is the write of one element under a mask. -/
def isMaskedStore (f : String) : List Typed → Bool
  | ⟨.vector 1 t, _⟩ :: _ => f = (Intrinsic.maskedStore t).name
  | _ => false

/-- A read of a type from a pointer if the mask says so, and a given value if not. -/
def maskedLoad (t : Ty) : List Data → Option Data
  | [p, _, .bits 1 c, d] => if c = 1#1 then loadAs M t p else some d
  | _ => none

/-- A write of a value at a pointer if the mask says so. -/
def maskedStore : List Data → Option Memory
  | [d, p, _, .bits 1 c] => if c = 1#1 then storeAt M p d else some M
  | _ => none

/-- The bytes of every element reversed. Only a whole number of byte pairs is swapped. -/
def swapElements : Ty → List Data → Option Data
  | .vector n (.int w), [.bits v x] =>
    if v = n * w ∧ w % 16 = 0 then some (.bits v (Bits.reverseElements w x)) else none
  | .vector _ (.int _), [.poison] => some .poison
  | _, _ => none

-- ============================================== code that reads and writes

variable (link : Linkage) (ρ : Frame)

/-- What an operation gives that may look at memory. -/
def Op.evalIn : Op → Option Data
  | .load t p => do loadAs M t (← p.eval link ρ)
  | .insertFirst v x => if v.ty.isSingle then x.eval link ρ else none
  | .extractFirst v => if v.ty.isSingle then v.eval link ρ else none
  | .cast op a t =>
    if op = .intToPtr then
      if a.ty.isInt ∧ t = .ptr then do (← a.eval link ρ).toPointer else none
    else Op.eval link ρ (.cast op a t)
  | .call tail t f args =>
    if isMaskedLoad f t then do maskedLoad M t (← args.mapM (Typed.eval link ρ))
    else if isSwapElements f t then do swapElements t (← args.mapM (Typed.eval link ρ))
    else Op.eval link ρ (.call tail t f args)
  | op => op.eval link ρ

/-- What an instruction makes of the locals and of memory. -/
def Instr.execIn : Instr → Option (Frame × Memory)
  | .comment _ => some (ρ, M)
  | .assign x op => (op.evalIn M link ρ).map fun d => (ρ.set x d, M)
  | .store v p => do return (ρ, ← storeAt M (← p.eval link ρ) (← v.eval link ρ))
  | .call f args =>
    if isMaskedStore f args then do
      return (ρ, ← maskedStore M (← args.mapM (Typed.eval link ρ)))
    else none
  | .asm _ => none

/-- What instructions make of the locals and of memory, one after the other. -/
def runIn (is : List Instr) : Option (Frame × Memory) :=
  is.foldlM (fun σ i => Instr.execIn σ.2 link σ.1 i) (ρ, M)

end

-- ===================================================== code without memory

/-- Whether the operation means the same without memory. -/
def Op.isLocal : Op → Bool
  | .load _ _ | .insertFirst _ _ | .extractFirst _ => false
  | .cast op _ _ => op != .intToPtr
  | .call _ t _ _ => t.isInt
  | _ => true

/-- Whether the instruction assigns the result of such an operation, or does nothing. -/
def Instr.isLocal : Instr → Bool
  | .comment _ => true
  | .assign _ op => op.isLocal
  | .store _ _ | .call _ _ | .asm _ => false

variable {link : Linkage} {M M' : Memory} {ρ ρ' : Frame}

theorem Op.evalIn_of_isLocal {op : Op} (h : op.isLocal = true) :
    op.evalIn M link ρ = op.eval link ρ := by
  cases op with
  | load | insertFirst | extractFirst => contradiction
  | cast op a t => exact if_neg (by simpa [isLocal] using h)
  | call tail t f args =>
      cases t with
      | int => rfl
      | half | float | double | extended | ptr | void | vector | struct => contradiction
  | binary | compare | floatCompare | select | extractValue | insertValue | asm => rfl

/-- Instructions that mean the same without memory leave it as it is. -/
theorem runIn_of_isLocal {is : List Instr} (h : ∀ i ∈ is, i.isLocal = true)
    (hrun : run link ρ is = some ρ') : runIn M link ρ is = some (ρ', M) := by
  induction is generalizing ρ with
  | nil =>
      cases hrun
      rfl
  | cons i is ih =>
      obtain ⟨hi, his⟩ := List.forall_mem_cons.1 h
      unfold run at hrun
      rw [List.foldlM_cons] at hrun
      obtain ⟨ρ₁, hexec, hrest⟩ := Option.bind_eq_some_iff.1 hrun
      have hexecIn : Instr.execIn M link ρ i = some (ρ₁, M) := by
        cases i with
        | comment =>
            cases hexec
            rfl
        | assign x op =>
            obtain ⟨d, hd, rfl⟩ := Option.map_eq_some_iff.1 hexec
            show (op.evalIn M link ρ).map _ = _
            rw [Op.evalIn_of_isLocal hi, hd]
            rfl
        | store | call | asm => contradiction
      unfold runIn
      rw [List.foldlM_cons, hexecIn]
      exact ih his hrest

theorem runIn_append {is js : List Instr} (h : runIn M link ρ is = some (ρ', M')) :
    runIn M link ρ (is ++ js) = runIn M' link ρ' js := by
  unfold runIn at *
  rw [List.foldlM_append, h]
  rfl

-- ============================================================== accesses

/-- A vector of one element is as wide as that. -/
theorem Ty.width?_single (t : Ty) : t.single.width? = t.width? := by
  show t.width?.map (1 * ·) = t.width?
  simp

theorem loadAs_bits {t : Ty} {w : Nat} {a : BitVec 64} (hw : t.width? = some w)
    (h8 : w % 8 = 0) : loadAs M t (.bits 64 a) = some (.bits w (M.load a w)) := by
  show t.width?.bind (fun w => if w % 8 = 0 then some (Data.bits w (M.load a w)) else none) = _
  rw [hw]
  exact if_pos h8

theorem storeAt_bits {w : Nat} {a : BitVec 64} {x : BitVec w} (h8 : w % 8 = 0) :
    storeAt M (.bits 64 a) (.bits w x) = some (M.store a x) := if_pos h8

theorem Op.evalIn_load {t : Ty} {p : Typed} {w : Nat} {a : BitVec 64}
    (hp : p.eval link ρ = some (.bits 64 a)) (hw : t.width? = some w) (h8 : w % 8 = 0) :
    (Op.load t p).evalIn M link ρ = some (.bits w (M.load a w)) := by
  rw [Op.evalIn, hp]
  exact loadAs_bits hw h8

theorem Instr.execIn_store {v p : Typed} {w : Nat} {a : BitVec 64} {x : BitVec w}
    (hp : p.eval link ρ = some (.bits 64 a)) (hv : v.eval link ρ = some (.bits w x))
    (h8 : w % 8 = 0) : (Instr.store v p).execIn M link ρ = some (ρ, M.store a x) := by
  rw [Instr.execIn, hp, hv]
  show (storeAt M (.bits 64 a) (.bits w x)).bind _ = _
  rw [storeAt_bits h8]
  rfl

theorem Op.evalIn_insertFirst (t : Ty) (o : Operand) (x : Typed) :
    (Op.insertFirst ⟨t.single, o⟩ x).evalIn M link ρ = x.eval link ρ := rfl

theorem Op.evalIn_extractFirst {v : Typed} {t : Ty} (hv : v.ty = t.single) :
    (Op.extractFirst v).evalIn M link ρ = v.eval link ρ := by
  rw [Op.evalIn, hv]
  rfl

-- ====================================================== calls of functions

theorem name_swapBytes_ne_maskedLoad (t u : Ty) :
    (Intrinsic.swapBytes t).name ≠ (Intrinsic.maskedLoad u).name := by
  intro h
  have hchar := congrArg (fun n => n.toList[5]?) h
  simp [Intrinsic.swapBytes, Intrinsic.maskedLoad, Intrinsic.plain] at hchar

section

variable {t : Ty} {w : Nat} {xs : List Typed} {a : BitVec 64} {x : BitVec w}

/-- Operands one after the other. -/
theorem Typed.mapM_eval_cons {x : Typed} {d : Data} {ds : List Data}
    (hx : x.eval link ρ = some d) (hxs : xs.mapM (Typed.eval link ρ) = some ds) :
    (x :: xs).mapM (Typed.eval link ρ) = some (d :: ds) := by
  rw [List.mapM_cons, hx, hxs]
  rfl

/-- A call of the function that reverses the bytes of every element. -/
theorem Op.evalIn_swapElements {n v : Nat} (hw : w = n * v) (h16 : v % 16 = 0)
    (hxs : xs.mapM (Typed.eval link ρ) = some [.bits w x]) :
    (Op.call false (.vector n (.int v)) (.global (Intrinsic.swapBytes (.vector n (.int v))).name)
      xs).evalIn M link ρ = some (.bits w (Bits.reverseElements v x)) := by
  have hload : isMaskedLoad (.global (Intrinsic.swapBytes (.vector n (.int v))).name)
      (.vector n (.int v)) = false := by
    unfold isMaskedLoad
    split
    · refine decide_eq_false fun h => ?_
      exact name_swapBytes_ne_maskedLoad _ _ (Operand.global.inj h)
    · rfl
  have hswap : isSwapElements (.global (Intrinsic.swapBytes (.vector n (.int v))).name)
      (.vector n (.int v)) = true := decide_eq_true rfl
  rw [Op.evalIn, hload, if_neg Bool.false_ne_true, hswap, if_pos rfl, hxs]
  exact if_pos ⟨hw, h16⟩

/-- A call of the function that reads one element under a mask. -/
theorem Op.evalIn_maskedLoad {e d : Data} {c : Bool} (hw : t.width? = some w) (h8 : w % 8 = 0)
    (hxs : xs.mapM (Typed.eval link ρ)
      = some [.bits 64 a, e, .bits 1 (BitVec.ofBool c), d]) :
    (Op.call false t.single (.global (Intrinsic.maskedLoad t).name) xs).evalIn M link ρ
      = some (if c then .bits w (M.load a w) else d) := by
  have hload : isMaskedLoad (.global (Intrinsic.maskedLoad t).name) t.single = true :=
    decide_eq_true rfl
  rw [Op.evalIn, hload, if_pos rfl, hxs]
  cases c with
  | false => rfl
  | true =>
      exact loadAs_bits (t.width?_single ▸ hw) h8

/-- A call of the function that writes one element under a mask. -/
theorem Instr.execIn_maskedStore {v p i m : Typed} {e : Data} {c : Bool} (hv : v.ty = t.single)
    (h8 : w % 8 = 0) (hxs : [v, p, i, m].mapM (Typed.eval link ρ)
      = some [.bits w x, .bits 64 a, e, .bits 1 (BitVec.ofBool c)]) :
    (Instr.call (Intrinsic.maskedStore t).name [v, p, i, m]).execIn M link ρ
      = some (ρ, if c then M.store a x else M) := by
  have hstore : isMaskedStore (Intrinsic.maskedStore t).name [v, p, i, m] = true := by
    obtain ⟨u, o⟩ := v
    obtain rfl : u = .vector 1 t := hv
    exact decide_eq_true rfl
  rw [Instr.execIn, hstore, if_pos rfl, hxs]
  cases c with
  | false => rfl
  | true =>
      show (storeAt M (.bits 64 a) (.bits w x)).bind _ = _
      rw [storeAt_bits h8]
      rfl

end

end Llvm

end LiftedCode
