/-
Commands of the verification language, which introduce names.
-/
import LiftedCode.Smt.Term

namespace LiftedCode.Smt

/-- A command of a script. -/
inductive Command where
  /-- Let a name stand for a term. -/
  | define (name : String) (params : List (String × TermSort)) (result : TermSort) (body : Term)
  /-- Let a name stand for something of a sort. -/
  | declare (name : String) (params : List TermSort) (result : TermSort)
deriving DecidableEq, Inhabited

namespace Command

/-- The name that a command introduces. -/
def name : Command → String
  | define n _ _ _ | declare n _ _ => n

/-- The written form of a command. -/
def text : Command → String
  | define n ps s t =>
    "(define-fun " ++ n ++ " (" ++
      blankSeparated (ps.map fun p => "(" ++ p.1 ++ " " ++ p.2.text ++ ")")
      ++ ") " ++ s.text ++ " " ++ t.text ++ ")"
  | declare n ps s =>
    "(declare-fun " ++ n ++ " (" ++ blankSeparated (ps.map TermSort.text) ++ ") " ++ s.text ++ ")"

/-- Whether no literal of the command has more digits than a numeral can be
padded to. -/
def textFits : Command → Bool
  | define _ _ _ t => t.textFits
  | declare _ _ _ => true

/-- The written form, if its literals can be padded to all their digits. -/
def checkedText (c : Command) : Except Fault String := inRange c.textFits c.text

end Command

end LiftedCode.Smt
