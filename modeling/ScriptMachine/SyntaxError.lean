import ScriptMachine.Token
/-!
# Static errors

Everything that can be wrong with a source text before it runs, each cause with its wording, and the
place where it was found. A cause belongs to one of three stages, which decides how a failure is
reported to the host.
-/

namespace ScriptMachine

/-- The stage that rejected a source text. -/
inductive Stage
  | token
  | parse
  | compile
  deriving DecidableEq, Repr

/-- Why a source text was rejected. -/
inductive SyntaxFault
  -- layout and lexemes
  | tabInIndentation
  | dedentMismatch
  | malformedNumber
  | unterminatedString
  | unknownEscape
  | unknownCharacter (c : Char)
  -- grammar
  | expected (wanted : TokenKind) (context : String) (found : TokenKind)
  | expectedEndOfStatement (found : TokenKind)
  | expectedExpression (found : TokenKind)
  | unexpectedIndentation
  | expectedBlock
  | notInSingleLine (keyword : TokenKind)
  | invalidTarget
  | tooManyLevels
  -- names and code
  | assignToModule (name : String)
  | assignToBuiltin (name : String)
  | alreadyBound (name : String)
  | unknownModule (name : String)
  | cyclicImport (name : String)
  | returnOutsideFunction
  | breakOutsideLoop
  | duplicateParameter (name : String)
  | unassignable (name : String)
  | moduleAsValue (name : String)
  | undefinedSymbol (name : String)
  | memberOfValue
  | unknownMember (moduleName name : String)
  | tooManyArguments (limit : Nat)
  deriving DecidableEq, Repr

/-- A cause of rejection and its place. -/
structure SyntaxError where
  fault : SyntaxFault
  pos : Position
  deriving DecidableEq, Repr

/-- A character as messages show it: printable ASCII as it is, quotes and the backslash escaped, and
every other character by its code point. -/
def escapedCharacter (c : Char) : String :=
  if c = '\t' then "\\t"
  else if c = '\r' then "\\r"
  else if c = '\n' then "\\n"
  else if c = '\'' ∨ c = '"' ∨ c = '\\' then "\\" ++ c.toString
  else if 0x20 ≤ c.toNat ∧ c.toNat ≤ 0x7e then c.toString
  else "\\u\x7b" ++ String.ofList (Nat.toDigits 16 c.toNat) ++ "\x7d"

namespace SyntaxFault

/-- The stage that finds a fault. A number token that is no number counts as a fault of its text,
also when the grammar meets it first. -/
def stage : SyntaxFault → Stage
  | .tabInIndentation | .dedentMismatch | .malformedNumber | .unterminatedString
  | .unknownEscape | .unknownCharacter _ => .token
  | .expected .. | .expectedEndOfStatement _ | .expectedExpression _ | .unexpectedIndentation
  | .expectedBlock | .notInSingleLine _ | .invalidTarget | .tooManyLevels => .parse
  | _ => .compile

def message : SyntaxFault → String
  | .tabInIndentation => "Tabs are not allowed for indentation."
  | .dedentMismatch => "Dedent does not match any outer indentation level."
  | .malformedNumber => "Malformed number literal."
  | .unterminatedString => "Unterminated string literal."
  | .unknownEscape => "Unknown escape sequence."
  | .unknownCharacter c => "Unknown character `" ++ escapedCharacter c ++ "`."
  | .expected wanted context found =>
    "Expected " ++ wanted.describe ++ " " ++ context ++ ", found " ++ found.describe ++ "."
  | .expectedEndOfStatement found =>
    "Expected end of statement, found " ++ found.describe ++ "."
  | .expectedExpression found => "Expected expression, found " ++ found.describe ++ "."
  | .unexpectedIndentation => "Unexpected indentation."
  | .expectedBlock => "Expected an indented block."
  | .notInSingleLine keyword => keyword.describe ++ " is not allowed in a single-line block."
  | .invalidTarget => "Invalid assignment target."
  | .tooManyLevels => "Too many nested levels."
  | .assignToModule name => "Can't assign to `" ++ name ++ "`, it names an imported module."
  | .assignToBuiltin name => "Can't assign to built-in `" ++ name ++ "`."
  | .alreadyBound name => "Can't import `" ++ name ++ "`, the name is already bound."
  | .unknownModule name => "Unknown module `" ++ name ++ "`."
  | .cyclicImport name => "Cyclic import of module `" ++ name ++ "`."
  | .returnOutsideFunction => "`return` outside of a function."
  | .breakOutsideLoop => "`break` outside of a loop."
  | .duplicateParameter name => "Duplicate parameter `" ++ name ++ "`."
  | .unassignable name => "Can't assign to `" ++ name ++ "`."
  | .moduleAsValue name =>
    "Module `" ++ name ++ "` can't be used as a value, access its members with `" ++ name ++
      ".name`."
  | .undefinedSymbol name => "Undefined symbol `" ++ name ++ "`."
  | .memberOfValue => "Member access is only supported on modules."
  | .unknownMember moduleName name =>
    "Module `" ++ moduleName ++ "` has no member `" ++ name ++ "`."
  | .tooManyArguments limit =>
    "Too many arguments, at most " ++ toString limit ++ " are allowed."

end SyntaxFault

namespace SyntaxError

def message (e : SyntaxError) : String := e.fault.message

def stage (e : SyntaxError) : Stage := e.fault.stage

end SyntaxError

end ScriptMachine
