/-
Registers of the x86-64 machine state: the instruction pointer, the general
purpose registers in the numbering of the instruction encoding, the status
flags, and the vector registers in their full width.
-/
import LiftedCode.Ty

namespace LiftedCode

/-- A flag of the processor. -/
inductive Flag where
  | carry
  | parity
  | adjust
  | zero
  | sign
  | direction
  | overflow
deriving DecidableEq, Repr, Inhabited

namespace Flag

/-- All flags, in order. -/
def all : List Flag := [carry, parity, adjust, zero, sign, direction, overflow]

/-- The position of a flag in the order of flags. -/
def rank : Flag → Nat
  | carry => 0
  | parity => 1
  | adjust => 2
  | zero => 3
  | sign => 4
  | direction => 5
  | overflow => 6

/-- The name of a flag. -/
def name : Flag → String
  | carry => "cf"
  | parity => "pf"
  | adjust => "af"
  | zero => "zf"
  | sign => "sf"
  | direction => "df"
  | overflow => "of"

end Flag

/-- A register that code can refer to. -/
inductive Register where
  | rip
  | gp (number : Nat)
  | flag (flag : Flag)
  | ymm (number : Nat)
deriving DecidableEq, Repr, Inhabited

namespace Register

/-- A register's place in the order of registers: first by kind, then by
number. -/
def place : Register → Nat × Nat
  | rip => (0, 0)
  | gp n => (1, n)
  | flag f => (2, f.rank)
  | ymm n => (3, n)

/-- Registers are ordered by their places. -/
instance : Ord Register :=
  ⟨compareLex (compareOn (·.place.1)) (compareOn (·.place.2))⟩

instance : Std.TransOrd Register :=
  inferInstanceAs (Std.TransCmp (compareLex (compareOn _) (compareOn _)))

/-- No two registers share a place. -/
theorem place_injective {r s : Register} (h : r.place = s.place) : r = s := by
  rcases r with _ | m | f | m <;> rcases s with _ | n | g | n <;>
    simp_all [place]
  cases f <;> cases g <;> simp_all [Flag.rank]

instance : Std.LawfulEqOrd Register where
  eq_of_compare {r s} h := by
    have h : (compare r.place.1 s.place.1).then (compare r.place.2 s.place.2) = .eq := h
    rw [Ordering.then_eq_eq] at h
    exact place_injective
      (Prod.ext (Std.LawfulEqCmp.eq_of_compare h.1) (Std.LawfulEqCmp.eq_of_compare h.2))

/-- The names of the first sixteen general purpose registers. -/
def gpNames : List String :=
  ["rax", "rcx", "rdx", "rbx", "rsp", "rbp", "rsi", "rdi", "r8", "r9", "r10", "r11", "r12",
    "r13", "r14", "r15"]

/-- The name of a register. -/
def name : Register → String
  | rip => "rip"
  | gp n => gpNames[n]?.getD ("gp" ++ toString n)
  | flag f => f.name
  | ymm n => "ymm" ++ toString n

/-- The registers that have names of their own. -/
def named : List Register := rip :: (Flag.all.map flag ++ (List.range 16).map gp)

/-- Every other register is named by its number. -/
theorem named_or_numbered (r : Register) :
    r ∈ named ∨ (∃ n, 16 ≤ n ∧ r = gp n) ∨ ∃ n, r = ymm n := by
  cases r with
  | rip => exact .inl List.mem_cons_self
  | flag f =>
    refine .inl (List.mem_cons_of_mem _ (List.mem_append_left _ (List.mem_map_of_mem ?_)))
    cases f <;> decide
  | ymm n => exact .inr (.inr ⟨n, rfl⟩)
  | gp n =>
    rcases Nat.lt_or_ge n 16 with h | h
    · refine .inl (List.mem_cons_of_mem _ (List.mem_append_right _ (List.mem_map_of_mem ?_)))
      exact List.mem_range.2 h
    · exact .inr (.inl ⟨n, h, rfl⟩)

theorem name_gp {n : Nat} (h : 16 ≤ n) : (gp n).name = "gp" ++ toString n := by
  have hnone : gpNames[n]? = none := List.getElem?_eq_none h
  rw [name, hnone, Option.getD_none]

/-- How a name begins. -/
def beginning (r : Register) : List Char := r.name.toList.take 2

theorem beginning_gp {n : Nat} (h : 16 ≤ n) : (gp n).beginning = ['g', 'p'] := by
  rw [beginning, name_gp h, String.toList_append]
  rfl

theorem beginning_ymm (n : Nat) : (ymm n).beginning = ['y', 'm'] := by
  rw [beginning, name, String.toList_append]
  rfl

/-- Names of one's own are different, and do not begin like numbered ones. -/
theorem named_distinct : ∀ r ∈ named, r.beginning ≠ ['g', 'p'] ∧ r.beginning ≠ ['y', 'm']
    ∧ ∀ s ∈ named, r.name = s.name → r = s := by
  decide

/-- No two registers share a name. -/
theorem name_injective {r s : Register} (h : r.name = s.name) : r = s := by
  have hbegin : r.beginning = s.beginning := congrArg (fun t : String => t.toList.take 2) h
  rcases named_or_numbered r with hr | ⟨m, hm, rfl⟩ | ⟨m, rfl⟩
  · obtain ⟨hgp, hymm, hnamed⟩ := named_distinct r hr
    rcases named_or_numbered s with hs | ⟨n, hn, rfl⟩ | ⟨n, rfl⟩
    · exact hnamed s hs h
    · exact absurd (hbegin.trans (beginning_gp hn)) hgp
    · exact absurd (hbegin.trans (beginning_ymm n)) hymm
  · rw [beginning_gp hm] at hbegin
    rcases named_or_numbered s with hs | ⟨n, hn, rfl⟩ | ⟨n, rfl⟩
    · exact absurd hbegin.symm (named_distinct s hs).1
    · rw [name_gp hm, name_gp hn] at h
      rw [toString_nat_injective (append_left_injective h)]
    · rw [beginning_ymm] at hbegin
      exact absurd hbegin (by decide)
  · rw [beginning_ymm] at hbegin
    rcases named_or_numbered s with hs | ⟨n, hn, rfl⟩ | ⟨n, rfl⟩
    · exact absurd hbegin.symm (named_distinct s hs).2.1
    · rw [beginning_gp hn] at hbegin
      exact absurd hbegin (by decide)
    · rw [toString_nat_injective (append_left_injective h)]

/-- The number after a text that a name begins with. -/
def numberAfter? (start name : String) : Option Nat :=
  if name.startsWith start then (name.drop start.length).toNat? else none

/-- The register with a name. -/
def ofName? (s : String) : Option Register :=
  if s = "rip" then some rip
  else if let some f := Flag.all.find? (·.name == s) then some (flag f)
  else if let some n := gpNames.idxOf? s then some (gp n)
  else ((numberAfter? "gp" s).map gp).or ((numberAfter? "ymm" s).map ymm)

/-- The type of a register's content. -/
def ty : Register → Ty
  | rip | gp _ => .bits 64
  | flag _ => .bool
  | ymm _ => .bits 256

/-- Every register of the machine state, in order. -/
def all : List Register :=
  [rip] ++ (List.range 16).map gp ++ Flag.all.map flag ++ (List.range 16).map ymm

end Register

end LiftedCode
