import ScriptMachine.Position
/-!
# Tokens

The words of the script language. Besides literals, names, keywords, operators and punctuation there
are layout tokens: the end of a line, the opening and the closing of an indented block, and the end
of the input.
-/

namespace ScriptMachine

/-- What a token is, with its text where the text is not fixed. -/
inductive TokenKind
  /-- A number as written. -/
  | number (text : String)
  /-- A string after its escapes are resolved. -/
  | string (text : String)
  | name (text : String)
  | importKw | varKw | funcKw | returnKw | ifKw | elseKw | whileKw | breakKw | passKw
  | andKw | orKw | notKw | trueKw | falseKw | noneKw
  | plus | minus | star | slash | percent | caret
  | equal | notEqual | less | lessEqual | greater | greaterEqual
  | assign
  | leftParen | rightParen | leftBracket | rightBracket | comma | dot | colon
  | newline | indent | dedent | endOfInput
  deriving DecidableEq, Inhabited, Repr

/-- A token and the place of its first character. -/
structure Token where
  kind : TokenKind
  pos : Position
  deriving DecidableEq, Inhabited, Repr

namespace TokenKind

/-- How messages speak of a token. -/
def describe : TokenKind → String
  | .number _ => "number"
  | .string _ => "string"
  | .name _ => "identifier"
  | .importKw => "`import`"
  | .varKw => "`var`"
  | .funcKw => "`func`"
  | .returnKw => "`return`"
  | .ifKw => "`if`"
  | .elseKw => "`else`"
  | .whileKw => "`while`"
  | .breakKw => "`break`"
  | .passKw => "`pass`"
  | .andKw => "`and`"
  | .orKw => "`or`"
  | .notKw => "`not`"
  | .trueKw => "`true`"
  | .falseKw => "`false`"
  | .noneKw => "`none`"
  | .plus => "`+`"
  | .minus => "`-`"
  | .star => "`*`"
  | .slash => "`/`"
  | .percent => "`%`"
  | .caret => "`^`"
  | .equal => "`==`"
  | .notEqual => "`!=`"
  | .less => "`<`"
  | .lessEqual => "`<=`"
  | .greater => "`>`"
  | .greaterEqual => "`>=`"
  | .assign => "`=`"
  | .leftParen => "`(`"
  | .rightParen => "`)`"
  | .leftBracket => "`[`"
  | .rightBracket => "`]`"
  | .comma => "`,`"
  | .dot => "`.`"
  | .colon => "`:`"
  | .newline => "end of line"
  | .indent => "indentation"
  | .dedent => "dedent"
  | .endOfInput => "end of input"

/-- The keyword that a word spells, if it is one. -/
def keyword? : String → Option TokenKind
  | "import" => some .importKw
  | "var" => some .varKw
  | "func" => some .funcKw
  | "return" => some .returnKw
  | "if" => some .ifKw
  | "else" => some .elseKw
  | "while" => some .whileKw
  | "break" => some .breakKw
  | "pass" => some .passKw
  | "and" => some .andKw
  | "or" => some .orKw
  | "not" => some .notKw
  | "true" => some .trueKw
  | "false" => some .falseKw
  | "none" => some .noneKw
  | _ => none

/-- A word is a keyword or else a name. -/
def ofWord (word : String) : TokenKind := (keyword? word).getD (.name word)

/-- The operator or punctuation mark at the front of a text, with the number of its characters. A
mark of two characters wins over its first character alone. -/
def symbol? : List Char → Option (TokenKind × Nat)
  | '=' :: '=' :: _ => some (.equal, 2)
  | '!' :: '=' :: _ => some (.notEqual, 2)
  | '<' :: '=' :: _ => some (.lessEqual, 2)
  | '>' :: '=' :: _ => some (.greaterEqual, 2)
  | '=' :: _ => some (.assign, 1)
  | '<' :: _ => some (.less, 1)
  | '>' :: _ => some (.greater, 1)
  | '+' :: _ => some (.plus, 1)
  | '-' :: _ => some (.minus, 1)
  | '*' :: _ => some (.star, 1)
  | '/' :: _ => some (.slash, 1)
  | '%' :: _ => some (.percent, 1)
  | '^' :: _ => some (.caret, 1)
  | '(' :: _ => some (.leftParen, 1)
  | ')' :: _ => some (.rightParen, 1)
  | '[' :: _ => some (.leftBracket, 1)
  | ']' :: _ => some (.rightBracket, 1)
  | ',' :: _ => some (.comma, 1)
  | '.' :: _ => some (.dot, 1)
  | ':' :: _ => some (.colon, 1)
  | _ => none

/-- The tokens that only say how lines are laid out. -/
def isLayout : TokenKind → Bool
  | .newline | .indent | .dedent => true
  | _ => false

end TokenKind

end ScriptMachine
