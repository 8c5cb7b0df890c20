/-
The log: what the passes report while they work. A record is data; its level,
its message and its fields are given once, and whether it is kept depends on
the verbosity asked for. Records that were written stay written when a pass
fails later.
-/
import LiftedCode.Stmt

namespace LiftedCode

/-- Something that verification does not model exactly. -/
inductive Approximation where
  /-- The result of an assignment's operation is left open. -/
  | operation (id : Ident) (mnemonic : String)
  /-- The result of an assignment's machine function is left open. -/
  | machineFn (id : Ident) (fn : MachineFn Value)
  /-- The statement is passed over. -/
  | emptyMmx
deriving Inhabited

/-- What is said of an approximation in the log. -/
def Approximation.text (style : ValueStyle) : Approximation → String
  | operation id name => identText id ++ ": " ++ name ++ " is not encoded exactly"
  | machineFn id f => identText id ++ ": " ++ f.text (Value.text style) ++ " is not encoded"
  | emptyMmx => "emms ignored"

/-- How important a record is, the most important first. -/
inductive LogLevel where
  | warning
  | info
  | debug
  | trace
deriving DecidableEq, Repr, Inhabited

namespace LogLevel

/-- The least verbosity at which records of the level are kept. -/
def verbosity : LogLevel → Nat
  | warning => 0
  | info => 1
  | debug => 2
  | trace => 3

/-- The name under which a level is logged. -/
def name : LogLevel → String
  | warning => "WARN"
  | info => "INFO"
  | debug => "DEBG"
  | trace => "TRCE"

end LogLevel

/-- What a pass reports. -/
inductive LogRecord where
  | builtBlockMap (blocks : Nat)
  | declaring (name : String)
  | loweringBlock (label : Label)
  | loweringRoutine (name : String) (addr : Nat)
  | approximating (addr : Nat) (what : Approximation)
  | translating (a : Assignment Value)
  | instruction (addr : Nat) (mnemonic : String)
  | tracingBlock (addr : Nat)
deriving Inhabited

/-- The value of a field of a record. -/
inductive LogField where
  | text (s : String)
  | number (n : Nat)
deriving DecidableEq, Repr, Inhabited

namespace LogRecord

/-- The level at which a record is logged. -/
def level : LogRecord → LogLevel
  | builtBlockMap _ | declaring _ | translating _ => .trace
  | loweringBlock _ | instruction _ _ | tracingBlock _ => .debug
  | loweringRoutine _ _ => .info
  | approximating _ _ => .warning

/-- The text of a record, without its fields. -/
def message : LogRecord → String
  | builtBlockMap _ => "Built block map"
  | declaring _ => "Declaring"
  | loweringBlock _ => "Lowering block"
  | loweringRoutine _ _ => "Lowering function"
  | approximating _ _ => "Approximating"
  | translating _ => "Translating assignment"
  | instruction _ _ => "Instruction"
  | tracingBlock _ => "Generating events for block"

/-- What the record says it of. -/
def fields (style : ValueStyle) : LogRecord → List (String × LogField)
  | builtBlockMap n => [("blocks", .number n)]
  | declaring name => [("name", .text name)]
  | loweringBlock l => [("label", .text (labelText l))]
  | loweringRoutine name addr => [("name", .text name), ("addr", .text (Numeral.hex addr))]
  | approximating addr what =>
    [("addr", .text (Numeral.hex addr)), ("what", .text (what.text style))]
  | translating a => [("assignment", .text (a.text style))]
  | instruction addr name => [("addr", .text (Numeral.hex addr)), ("mnemonic", .text name)]
  | tracingBlock addr => [("addr", .text (Numeral.hex addr))]

/-- Whether the record is kept at a verbosity. -/
def keptAt (verbosity : Nat) (r : LogRecord) : Bool := r.level.verbosity ≤ verbosity

end LogRecord

/-- The records written so far. -/
abbrev Log := Array LogRecord

/-- A computation that writes records, also when it fails. -/
abbrev Logged (ε α : Type) := ExceptT ε (StateM Log) α

namespace Logged

/-- Report something. -/
def write {ε : Type} (r : LogRecord) : Logged ε Unit := modify (·.push r)

/-- Write a record once a computation has succeeded. -/
def after {ε α : Type} (x : Except ε α) (r : α → LogRecord) : Logged ε α := do
  let a ← x
  write (r a)
  return a

end Logged

end LiftedCode
