import ScriptMachine.SyntaxError
/-!
# Failures

What a host learns when an operation on a virtual machine fails, with the text and the result code
of each failure.
-/

namespace ScriptMachine

/-- Why an operation failed. The wording of a failed evaluation is in the machine's report. -/
inductive Failure
  | token
  | parse
  | compile
  /-- The script raised a panic or broke a limit. -/
  | panic
  | unknown
  /-- A reference was released that is stale or carries no pin. -/
  | invalidRelease
  /-- A module handle was used outside of the module's loader. -/
  | invalidModuleHandle
  deriving DecidableEq, Repr

namespace Failure

/-- The failure of a stage. -/
def ofStage : Stage → Failure
  | .token => .token
  | .parse => .parse
  | .compile => .compile

def message : Failure → String
  | .token => "token error"
  | .parse => "parse error"
  | .compile => "compile error"
  | .panic => "panic"
  | .unknown => "unknown error"
  | .invalidRelease => "invalid release"
  | .invalidModuleHandle => "invalid module handle"

/-- The word that opens a report. -/
def label : Failure → String
  | .token => "TokenError"
  | .parse => "ParseError"
  | .compile => "CompileError"
  | .panic => "panic"
  | _ => "error"

/-- The result code at the boundary to other languages. -/
def code : Failure → Nat
  | .token => 1
  | .parse => 2
  | .compile => 3
  | .panic => 4
  | .unknown | .invalidRelease | .invalidModuleHandle => 5

end Failure

/-- The result code of an outcome; success is zero. -/
def resultCode {α : Type} : Except Failure α → Nat
  | .ok _ => 0
  | .error f => f.code

end ScriptMachine
