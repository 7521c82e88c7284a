import ScriptMachine.SyntaxError
/-!
# From text to tokens

Cuts a source text into tokens. Leading blanks become `indent` and `dedent` tokens, line ends become
`newline` tokens, and inside brackets neither matters. Comments run from two dashes to the end of
the line, and a semicolon ends a statement as a line end does.

* `scanNumber`, `scanString`, `scanWord`, `scanSymbol` read one lexeme;
* `indentation` finds the width of the next line that holds anything;
* `tokenize` reads a whole text and closes it with the end of the input.
-/

namespace ScriptMachine

/-- The characters still to be read and the place of the first of them. -/
structure Cursor where
  rest : List Char
  pos : Position
  deriving DecidableEq, Repr

namespace Cursor

/-- The characters at the front that satisfy a test. -/
def run (c : Cursor) (p : Char → Bool) : List Char := c.rest.takeWhile p

/-- The cursor after the characters at the front that satisfy a test. -/
def skip (c : Cursor) (p : Char → Bool) : Cursor :=
  ⟨c.rest.dropWhile p, c.pos.afterAll (c.rest.takeWhile p)⟩

/-- The cursor after a number of characters. -/
def drop (c : Cursor) (n : Nat) : Cursor :=
  ⟨c.rest.drop n, c.pos.afterAll (c.rest.take n)⟩

/-- Whether the next character satisfies a test. -/
def startsWith (c : Cursor) (p : Char → Bool) : Bool := c.rest.head?.any p

end Cursor

/-! ## Character classes -/

def isBlank (c : Char) : Bool := c = ' ' || c = '\t' || c = '\r'

/-- Characters that open a name. -/
def isNameStart (c : Char) : Bool := c = '_' || c.isAlpha

/-- Characters that continue a name. -/
def isNamePart (c : Char) : Bool := c = '_' || c.isAlphanum

def isHexDigit (c : Char) : Bool :=
  c.isDigit || ('a' ≤ c && c ≤ 'f') || ('A' ≤ c && c ≤ 'F')

/-- Two dashes open a comment. -/
def opensComment : List Char → Bool
  | '-' :: '-' :: _ => true
  | _ => false

/-- The character that an escape letter stands for. -/
def escape? (c : Char) : Option Char :=
  match c with
  | 'n' => some '\n'
  | 't' => some '\t'
  | 'r' => some '\r'
  | '0' => some '\x00'
  | '\\' => some '\\'
  | '\'' => some '\''
  | '"' => some '"'
  | _ => none

/-! ## Lexemes -/

/-- A number's exponent at the cursor, if its mark is there: the mark, an optional sign and digits,
of which there must be at least one. -/
def exponentLength (cs : List Char) : Option Nat :=
  match cs with
  | c :: r =>
    if c = 'e' || c = 'E' then
      let signed := if r.head?.any fun s => s = '+' || s = '-' then 1 else 0
      let digits := ((r.drop signed).takeWhile Char.isDigit).length
      if digits = 0 then none else some (1 + signed + digits)
    else some 0
  | [] => some 0

/-- Whether a text begins as a hexadecimal number does. -/
def opensHexadecimal : List Char → Bool
  | '0' :: c :: _ => c = 'x' || c = 'X'
  | _ => false

/-- The number of characters of a fraction at the front of a text. A point belongs to the number
only if a digit follows it. -/
def fractionLength : List Char → Nat
  | '.' :: r =>
    let digits := (r.takeWhile Char.isDigit).length
    if digits = 0 then 0 else 1 + digits
  | _ => 0

/-- The number of characters of a number literal at the front of a text; none if an exponent or the
digits after `0x` are missing. -/
def numberLength (cs : List Char) : Option Nat :=
  if opensHexadecimal cs then
    let digits := ((cs.drop 2).takeWhile isHexDigit).length
    if digits = 0 then none else some (2 + digits)
  else
    let whole := (cs.takeWhile Char.isDigit).length
    let fraction := fractionLength (cs.drop whole)
    (exponentLength (cs.drop (whole + fraction))).map (whole + fraction + ·)

/-- A number literal. It must not run into a letter, a digit or an underscore. -/
def scanNumber (c : Cursor) : Except SyntaxError (TokenKind × Cursor) :=
  match numberLength c.rest with
  | none => .error ⟨.malformedNumber, c.pos⟩
  | some n =>
    let after := c.drop n
    if after.startsWith isNamePart then .error ⟨.malformedNumber, c.pos⟩
    else .ok (.number (String.ofList (c.rest.take n)), after)

/-- The rest of a string literal behind its opening quote, which stands at `start`: the characters
it denotes and the cursor behind the closing quote. -/
def stringBody (quote : Char) (start : Position) :
    Position → List Char → Except SyntaxError (List Char × Cursor)
  | _, [] => .error ⟨.unterminatedString, start⟩
  | pos, c :: cs =>
    if c = '\n' then .error ⟨.unterminatedString, start⟩
    else if c = '\\' then
      match cs with
      | [] => .error ⟨.unknownEscape, pos⟩
      | e :: cs =>
        match escape? e with
        | none => .error ⟨.unknownEscape, pos⟩
        | some d =>
          match stringBody quote start ((pos.after c).after e) cs with
          | .ok (ds, cursor) => .ok (d :: ds, cursor)
          | .error err => .error err
    else if c = quote then .ok ([], ⟨cs, pos.after c⟩)
    else
      match stringBody quote start (pos.after c) cs with
      | .ok (ds, cursor) => .ok (c :: ds, cursor)
      | .error err => .error err

def scanString (quote : Char) (c : Cursor) : Except SyntaxError (TokenKind × Cursor) :=
  match stringBody quote c.pos (c.pos.after quote) (c.rest.drop 1) with
  | .ok (ds, cursor) => .ok (.string (String.ofList ds), cursor)
  | .error err => .error err

def scanWord (c : Cursor) : TokenKind × Cursor :=
  (.ofWord (String.ofList (c.run isNamePart)), c.skip isNamePart)

def scanSymbol (c : Cursor) (first : Char) : Except SyntaxError (TokenKind × Cursor) :=
  match TokenKind.symbol? c.rest with
  | some (kind, width) => .ok (kind, c.drop width)
  | none => .error ⟨.unknownCharacter first, c.pos⟩

/-! ## Layout -/

/-- Looks for the next line that holds more than blanks and comments, from a place at the start of a
line or `width` blanks into one. Gives the indentation of that line and the cursor at its first
character, or no width at the end of the text. Carriage returns do not count, and tabs are
refused. -/
def indentation : (comment : Bool) → (width : Nat) → Position → List Char →
    Except SyntaxError (Option Nat × Cursor)
  | _, _, pos, [] => .ok (none, ⟨[], pos⟩)
  | comment, width, pos, c :: cs =>
    if c = '\n' then indentation false 0 (pos.after c) cs
    else if comment then indentation true 0 (pos.after c) cs
    else if c = ' ' then indentation false (width + 1) (pos.after c) cs
    else if c = '\r' then indentation false width (pos.after c) cs
    else if c = '\t' then .error ⟨.tabInIndentation, pos⟩
    else if opensComment (c :: cs) then indentation true 0 (pos.after c) cs
    else .ok (some width, ⟨c :: cs, pos⟩)

/-! ## Whole texts -/

/-- A text that is read in part: what is left, whether a line starts there, how many brackets are
open, the widths of the open blocks with the innermost first, and the tokens so far with the newest
first. -/
structure Scan where
  cursor : Cursor
  lineStart : Bool := true
  brackets : Nat := 0
  indents : List Nat := []
  tokens : List Token := []
  deriving Repr

namespace Scan

/-- The scan before the first character. -/
def start (source : String) : Scan := { cursor := ⟨source.toList, .start⟩ }

/-- A line end closes a statement; blank lines and block boundaries give none. -/
def pushNewline (s : Scan) (pos : Position) : Scan :=
  match s.tokens with
  | [] => s
  | last :: _ =>
    if last.kind.isLayout then s else { s with tokens := ⟨.newline, pos⟩ :: s.tokens }

/-- Opens or closes blocks so that the line at the cursor, indented by `width`, fits. -/
def layout (s : Scan) (width : Nat) : Except SyntaxError Scan :=
  let pos := s.cursor.pos
  let top := s.indents.headD 0
  if top < width then
    .ok { s with indents := width :: s.indents, tokens := ⟨.indent, pos⟩ :: s.tokens }
  else
    let closed := s.indents.takeWhile fun level => decide (width < level)
    let kept := s.indents.drop closed.length
    if kept.headD 0 = width then
      .ok { s with
        indents := kept
        tokens := closed.map (fun _ => ⟨.dedent, pos⟩) ++ s.tokens }
    else .error ⟨.dedentMismatch, pos⟩

/-- Adds a token that starts where the scan stands and ends at `cursor`. -/
def push (s : Scan) (kind : TokenKind) (cursor : Cursor) : Scan :=
  let brackets := match kind with
    | .leftParen | .leftBracket => s.brackets + 1
    | .rightParen | .rightBracket => s.brackets - 1
    | _ => s.brackets
  { s with cursor, brackets, tokens := ⟨kind, s.cursor.pos⟩ :: s.tokens }

/-- Ends a statement with the character at the cursor, unless a bracket is open. -/
def endLine (s : Scan) (lineStart : Bool) : Scan :=
  let next := { s with cursor := s.cursor.drop 1 }
  if s.brackets = 0 then { next.pushNewline s.cursor.pos with lineStart } else next

/-- Reads the lexeme at the cursor, which stands before the character `c`. -/
def lexeme (s : Scan) (c : Char) : Except SyntaxError Scan :=
  if c = '\n' then .ok (s.endLine true)
  else if opensComment s.cursor.rest then
    .ok { s with cursor := s.cursor.skip fun d => d != '\n' }
  else if c = ';' then .ok (s.endLine false)
  else
    let read :=
      if c.isDigit then scanNumber s.cursor
      else if c = '\'' || c = '"' then scanString c s.cursor
      else if isNameStart c then .ok (scanWord s.cursor)
      else scanSymbol s.cursor c
    read.map fun (kind, cursor) => s.push kind cursor

/-- Handles the indentation if a line starts at the cursor; the flag tells whether the text goes
on. -/
def lineIndent (s : Scan) : Except SyntaxError (Bool × Scan) :=
  if s.lineStart then
    match indentation false 0 s.cursor.pos s.cursor.rest with
    | .error e => .error e
    | .ok (none, cursor) => .ok (false, { s with cursor })
    | .ok (some width, cursor) =>
      ({ s with cursor, lineStart := false }.layout width).map (true, ·)
  else .ok (true, s)

/-- Reads what comes next; the flag tells whether there was anything. -/
def step (s : Scan) : Except SyntaxError (Bool × Scan) :=
  match s.lineIndent with
  | .error e => .error e
  | .ok (false, s) => .ok (false, s)
  | .ok (true, s) =>
    let s := { s with cursor := s.cursor.skip isBlank }
    match s.cursor.rest with
    | [] => .ok (false, s)
    | c :: _ => (s.lexeme c).map (true, ·)

/-- Reads to the end of the text, in at most `fuel` steps. -/
def run : (fuel : Nat) → Scan → Except SyntaxError Scan
  | 0, s => .ok s
  | fuel + 1, s =>
    match s.step with
    | .error e => .error e
    | .ok (false, s) => .ok s
    | .ok (true, s) => run fuel s

/-- Closes the last statement and all open blocks, and ends the input. -/
def finish (s : Scan) : List Token :=
  let pos := s.cursor.pos
  let closing : List Token := s.indents.map fun _ => ⟨.dedent, pos⟩
  (⟨.endOfInput, pos⟩ :: (closing ++ (s.pushNewline pos).tokens)).reverse

end Scan

/-- The tokens of a source text. Every step reads at least one character, so one step more than
there are characters reaches the end. -/
def tokenize (source : String) : Except SyntaxError (List Token) :=
  let s := Scan.start source
  (s.run (s.cursor.rest.length + 1)).map Scan.finish

end ScriptMachine
