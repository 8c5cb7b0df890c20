/-
Options of the generated code, and the flags that set them. Every flag turns
one option away from its default.
-/

namespace LiftedCode

/-- Choices that affect the generated code. -/
structure Options where
  /-- Whether paths that the recovered program can never take may be given
  undefined behaviour. -/
  allowUndefined : Bool := false
  /-- Whether instruction marks and remarks become comments. -/
  comments : Bool := true
deriving DecidableEq, Inhabited

/-- A flag, as given on a command line. -/
inductive OptionFlag where
  | allowUndefined
  | disableComments
deriving DecidableEq, Repr, Inhabited

/-- No flag has the given name. -/
structure UnknownFlag where
  name : String
deriving DecidableEq, Inhabited

/-- What is said where a flag is not known. -/
def UnknownFlag.message (e : UnknownFlag) : String := "Invalid variant: " ++ e.name

namespace OptionFlag

/-- All flags. -/
def all : List OptionFlag := [allowUndefined, disableComments]

/-- The name of a flag on a command line. -/
def name : OptionFlag → String
  | allowUndefined => "allow-undefined-behavior-on-impossible-paths"
  | disableComments => "disable-instruction-comments"

/-- The flag with a name. Without regard to case, the letters of the Latin
alphabet match their counterparts of the other case. -/
def parse (ignoreCase : Bool) (s : String) : Except UnknownFlag OptionFlag :=
  match all.find? fun f => f.name == s || (ignoreCase && f.name.toLower == s.toLower) with
  | some f => .ok f
  | none => .error ⟨s⟩

/-- Options with one flag set as well. -/
def apply (o : Options) : OptionFlag → Options
  | allowUndefined => { o with allowUndefined := true }
  | disableComments => { o with comments := false }

end OptionFlag

namespace Options

/-- The options that some flags ask for. -/
def ofFlags (flags : List OptionFlag) : Options := flags.foldl OptionFlag.apply {}

/-- The options that the named flags ask for. -/
def parse (ignoreCase : Bool) (names : List String) : Except UnknownFlag Options := do
  return ofFlags (← names.mapM (OptionFlag.parse ignoreCase))

end Options

end LiftedCode
