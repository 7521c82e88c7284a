import ScriptMachine.Ast
import ScriptMachine.SyntaxError
import ScriptMachine.Number.Literal
/-!
# From tokens to syntax trees

A recursive-descent grammar with two limits. Every parenthesis, bracket, prefix operator, exponent
and block opens a *level*, of which at most `maxNesting` may be open; and the tree may be at most
`maxExprDepth` nodes deep, where also each operator of a left-associative chain counts. The limits
are what the recursion runs on: a `Level` holds the parsers that are available behind an opened
level, and `levels n` has `n` of them stacked, so the recursion is on `n`; a chain goes on while
there is room for one more node, so its recursion is on the room.

Precedence from loose to tight: `or`, `and`, `not`, comparisons, sums, products, prefix minus,
powers (to the right), and calls, indexing and member access.

* `levels`, the stack of grammars;
* `parse`, a token list to a program.
-/

namespace ScriptMachine

namespace Grammar

/-- The most levels that may be open at once. -/
def maxNesting : Nat := 100

/-- The greatest depth of an expression tree. -/
def maxExprDepth : Nat := 400

/-- A parser takes tokens from the front of a list and leaves the rest. -/
abbrev Parser (α : Type) := List Token → Except SyntaxError (α × List Token)

/-! ## Looking at tokens -/

/-- The next token; a list that ran out reads as the end of the input. -/
def peek : List Token → Token
  | [] => ⟨.endOfInput, {}⟩
  | t :: _ => t

/-- Whether the next token is of a kind without text. -/
def check (kind : TokenKind) (ts : List Token) : Bool := (peek ts).kind == kind

/-- Takes a token of a kind without text, or says what was expected. -/
def expect (kind : TokenKind) (context : String) : Parser Unit := fun ts =>
  let t := peek ts
  if t.kind = kind then .ok ((), ts.drop 1)
  else .error ⟨.expected kind context t.kind, t.pos⟩

def expectName (context : String) : Parser Param := fun ts =>
  let t := peek ts
  match t.kind with
  | .name id => .ok (⟨id, t.pos⟩, ts.drop 1)
  | found => .error ⟨.expected (.name "") context found, t.pos⟩

/-- Too deep a nesting is reported at the token that follows. -/
def tooDeep {α : Type} : Parser α := fun ts => .error ⟨.tooManyLevels, (peek ts).pos⟩

/-- A simple statement ends at a line end, before the end of a block, or with the input. -/
def endStatement : Parser Unit := fun ts =>
  let t := peek ts
  match t.kind with
  | .newline => .ok ((), ts.drop 1)
  | .dedent | .endOfInput => .ok ((), ts)
  | found => .error ⟨.expectedEndOfStatement found, t.pos⟩

/-! ## Levels -/

/-- The parsers behind an opened level. Each is given the room that is left for depth. -/
structure Level where
  expr : Nat → Parser Expr
  notExpr : Nat → Parser Expr
  signed : Nat → Parser Expr
  block : (context : String) → Nat → Parser (List Stmt)

/-- When no more levels may be opened, everything behind one is too deep. -/
def Level.closed : Level where
  expr _ := tooDeep
  notExpr _ := tooDeep
  signed _ := tooDeep
  block _ _ := tooDeep

/-- Opening a level takes one node of room. -/
def enter {α : Type} (inner : Nat → Parser α) : Nat → Parser α
  | 0 => tooDeep
  | room + 1 => inner room

/-! ## Chains of operators -/

/-- Goes on with a left-associative chain while an operator follows and there is room. -/
def chainFrom (op? : TokenKind → Option (Position → Expr → Expr → Expr))
    (operand : Nat → Parser Expr) : (room : Nat) → Expr → Parser Expr
  | room, lhs, ts =>
    match op? (peek ts).kind with
    | none => .ok (lhs, ts)
    | some node =>
      match room with
      | 0 => tooDeep (ts.drop 1)
      | room + 1 => do
        let (rhs, rest) ← operand room (ts.drop 1)
        chainFrom op? operand room (node (peek ts).pos lhs rhs) rest

/-- A left-associative chain of operands. -/
def chain (op? : TokenKind → Option (Position → Expr → Expr → Expr))
    (operand : Nat → Parser Expr) (room : Nat) : Parser Expr := fun ts => do
  let (lhs, rest) ← operand room ts
  chainFrom op? operand room lhs rest

/-- The loosest operator. -/
def orOp : TokenKind → Option (Position → Expr → Expr → Expr)
  | .orKw => some (.logical · .or)
  | _ => none

def andOp : TokenKind → Option (Position → Expr → Expr → Expr)
  | .andKw => some (.logical · .and)
  | _ => none

/-- Comparisons, which chain to the left as any other operator. -/
def comparisonOp : TokenKind → Option (Position → Expr → Expr → Expr)
  | .equal => some (.binary · .eq)
  | .notEqual => some (.binary · .ne)
  | .less => some (.binary · .lt)
  | .lessEqual => some (.binary · .le)
  | .greater => some (.binary · .gt)
  | .greaterEqual => some (.binary · .ge)
  | _ => none

def sumOp : TokenKind → Option (Position → Expr → Expr → Expr)
  | .plus => some (.binary · .add)
  | .minus => some (.binary · .sub)
  | _ => none

def productOp : TokenKind → Option (Position → Expr → Expr → Expr)
  | .star => some (.binary · .mul)
  | .slash => some (.binary · .div)
  | .percent => some (.binary · .mod)
  | _ => none

/-! ## Expressions -/

/-- One or more items with commas between them; a comma may also follow the last one. Each round
takes at least one token, so the length of the list is fuel enough. -/
def itemsFrom (item : Parser Expr) (close : TokenKind) : (fuel : Nat) → Parser (List Expr)
  | 0, ts => .ok ([], ts)
  | fuel + 1, ts => do
    let (e, rest) ← item ts
    if check .comma rest && !check close (rest.drop 1) then
      let (es, rest) ← itemsFrom item close fuel (rest.drop 1)
      .ok (e :: es, rest)
    else if check .comma rest then .ok ([e], rest.drop 1)
    else .ok ([e], rest)

/-- Items up to a closing bracket. -/
def items (item : Parser Expr) (close : TokenKind) (context : String) : Parser (List Expr) :=
  fun ts => do
    let (es, rest) ← if check close ts then .ok ([], ts) else itemsFrom item close ts.length ts
    let ((), rest) ← expect close context rest
    .ok (es, rest)

/-- Literals, names, lists and parenthesised expressions; `sub` reads an expression one level
further in. -/
def primary (sub : Parser Expr) : Parser Expr := fun ts =>
  let t := peek ts
  let rest := ts.drop 1
  match t.kind with
  | .number text =>
    match Double.ofLiteral? text with
    | some x => .ok (.number t.pos x, rest)
    | none => .error ⟨.malformedNumber, t.pos⟩
  | .string text => .ok (.string t.pos text, rest)
  | .trueKw => .ok (.boolean t.pos true, rest)
  | .falseKw => .ok (.boolean t.pos false, rest)
  | .noneKw => .ok (.none t.pos, rest)
  | .name id => .ok (.name t.pos id, rest)
  | .leftParen => do
    let (inner, rest) ← sub rest
    let ((), rest) ← expect .rightParen "to close parenthesized expression" rest
    .ok (inner, rest)
  | .leftBracket => do
    let (es, rest) ← items sub .rightBracket "to close list" rest
    .ok (.list t.pos es, rest)
  | found => .error ⟨.expectedExpression found, t.pos⟩

/-- Calls, indexing and member access behind an expression, each of which takes room. -/
def suffixes (sub : Nat → Parser Expr) : (room : Nat) → Expr → Parser Expr
  | room, e, ts =>
    let t := peek ts
    match t.kind, room with
    | .leftParen, 0 | .leftBracket, 0 | .dot, 0 => tooDeep ts
    | .leftParen, room + 1 => do
      let (args, rest) ← items (sub room) .rightParen "to close call" (ts.drop 1)
      suffixes sub room (.call t.pos e args) rest
    | .leftBracket, room + 1 => do
      let (index, rest) ← sub room (ts.drop 1)
      let ((), rest) ← expect .rightBracket "to close index" rest
      suffixes sub room (.index t.pos e index) rest
    | .dot, room + 1 => do
      let (id, rest) ← expectName "after `.`" (ts.drop 1)
      suffixes sub room (.member t.pos e id.name) rest
    | _, _ => .ok (e, ts)

/-- A primary expression with its suffixes. -/
def postfixExpr (sub : Nat → Parser Expr) (room : Nat) : Parser Expr := fun ts => do
  let (e, rest) ← primary (sub room) ts
  suffixes sub room e rest

namespace Level

variable (inner : Level)

/-- A whole expression one level further in. -/
def subExpr : Nat → Parser Expr := enter inner.expr

/-- Powers: the exponent is a signed operand one level further in. -/
def powerWithin (room : Nat) : Parser Expr := fun ts => do
  let (base, rest) ← postfixExpr inner.subExpr room ts
  if check .caret rest then
    let (exponent, rest') ← enter inner.signed room (rest.drop 1)
    .ok (.binary (peek rest).pos .pow base exponent, rest')
  else .ok (base, rest)

/-- A power, or a prefix minus before an operand one level further in. -/
def signedWithin (room : Nat) : Parser Expr := fun ts =>
  if check .minus ts then do
    let (operand, rest) ← enter inner.signed room (ts.drop 1)
    .ok (.unary (peek ts).pos .neg operand, rest)
  else inner.powerWithin room ts

/-- Chains of products, of sums and of comparisons. -/
def comparisonWithin : Nat → Parser Expr :=
  chain comparisonOp (chain sumOp (chain productOp inner.signedWithin))

/-- A comparison, or `not` before an operand one level further in. -/
def notWithin (room : Nat) : Parser Expr := fun ts =>
  if check .notKw ts then do
    let (operand, rest) ← enter inner.notExpr room (ts.drop 1)
    .ok (.unary (peek ts).pos .not operand, rest)
  else inner.comparisonWithin room ts

/-- A whole expression. -/
def exprWithin : Nat → Parser Expr :=
  chain orOp (chain andOp inner.notWithin)

/-! ## Statements -/

/-- An expression, or an assignment to the name or the list element that it denotes. -/
def exprStatement (room : Nat) : Parser Stmt := fun ts => do
  let (target, rest) ← inner.subExpr room ts
  if check .assign rest then
    let (value, rest') ← inner.subExpr room (rest.drop 1)
    match target with
    | .name pos id => .ok (.assign pos id value false, rest')
    | .index _ object index => .ok (.setIndex (peek rest).pos object index value, rest')
    | e => .error ⟨.invalidTarget, e.pos⟩
  else .ok (.expr target, rest)

/-- A statement without a block. -/
def simpleStatement (room : Nat) : Parser Stmt := fun ts =>
  let t := peek ts
  let rest := ts.drop 1
  match t.kind with
  | .importKw => do
    let (id, rest) ← expectName "after `import`" rest
    .ok (.importModule t.pos id.name, rest)
  | .varKw => do
    let (id, rest) ← expectName "after `var`" rest
    let ((), rest) ← expect .assign "in variable declaration" rest
    let (value, rest) ← inner.subExpr room rest
    .ok (.assign t.pos id.name value true, rest)
  | .returnKw =>
    match (peek rest).kind with
    | .newline | .dedent | .endOfInput => .ok (.ret t.pos none, rest)
    | _ => do
      let (value, rest) ← inner.subExpr room rest
      .ok (.ret t.pos (some value), rest)
  | .breakKw => .ok (.leave t.pos, rest)
  | .passKw => .ok (.pass, rest)
  | .funcKw | .ifKw | .whileKw => .error ⟨.notInSingleLine t.kind, t.pos⟩
  | _ => inner.exprStatement room ts

/-- Parameter names with commas between them. -/
def paramsFrom : (fuel : Nat) → Parser (List Param)
  | 0, ts => .ok ([], ts)
  | fuel + 1, ts => do
    let (p, rest) ← expectName "in parameter list" ts
    if check .comma rest then
      let (ps, rest) ← paramsFrom fuel (rest.drop 1)
      .ok (p :: ps, rest)
    else .ok ([p], rest)

/-- A function: its name, its parameters and its body. -/
def funcStatement (room : Nat) : Parser Stmt := fun ts => do
  let (id, rest) ← expectName "after `func`" (ts.drop 1)
  let ((), rest) ← expect .leftParen "after function name" rest
  let (params, rest) ←
    if check .rightParen rest then .ok ([], rest) else paramsFrom rest.length rest
  let ((), rest) ← expect .rightParen "to close parameter list" rest
  let (body, rest) ← enter (inner.block "after function signature") room rest
  .ok (.func (peek ts).pos id.name params body, rest)

/-- Further conditions and the last block of a conditional. Each round takes at least one token. -/
def elseFrom (room : Nat) : (fuel : Nat) → Parser Else
  | 0, ts => .ok (.nothing, ts)
  | fuel + 1, ts =>
    if check .elseKw ts then
      let rest := ts.drop 1
      if check .ifKw rest then do
        let (cond, rest) ← inner.subExpr room (rest.drop 1)
        let (body, rest) ← enter (inner.block "after `else if` condition") room rest
        let (tail, rest) ← elseFrom room fuel rest
        .ok (.elseIf cond body tail, rest)
      else do
        let (body, rest) ← enter (inner.block "after `else`") room rest
        .ok (.block body, rest)
    else .ok (.nothing, ts)

/-- A conditional. -/
def ifStatement (room : Nat) : Parser Stmt := fun ts => do
  let (cond, rest) ← inner.subExpr room (ts.drop 1)
  let (body, rest) ← enter (inner.block "after `if` condition") room rest
  let (tail, rest) ← inner.elseFrom room rest.length rest
  .ok (.branch cond body tail, rest)

/-- A loop. -/
def whileStatement (room : Nat) : Parser Stmt := fun ts => do
  let (cond, rest) ← inner.subExpr room (ts.drop 1)
  let (body, rest) ← enter (inner.block "after `while` condition") room rest
  .ok (.loop cond body, rest)

/-- A statement without a block, to its end. -/
def simpleLine (room : Nat) : Parser Stmt := fun ts => do
  let (s, rest) ← inner.simpleStatement room ts
  let ((), rest) ← endStatement rest
  .ok (s, rest)

/-- Any statement. -/
def statement (room : Nat) : Parser Stmt := fun ts =>
  match (peek ts).kind with
  | .funcKw => inner.funcStatement room ts
  | .ifKw => inner.ifStatement room ts
  | .whileKw => inner.whileStatement room ts
  | .indent => .error ⟨.unexpectedIndentation, (peek ts).pos⟩
  | _ => inner.simpleLine room ts

/-- Statements up to the end of the input, or also of a block; empty lines between them are skipped.
Each round takes at least one token. -/
def statements (room : Nat) (inBlock : Bool) : (fuel : Nat) → Parser (List Stmt)
  | 0, ts => .ok ([], ts)
  | fuel + 1, ts =>
    match (peek ts).kind, inBlock with
    | .endOfInput, _ | .dedent, true => .ok ([], ts)
    | .newline, _ => statements room inBlock fuel (ts.drop 1)
    | _, _ => do
      let (s, rest) ← inner.statement room ts
      let (ss, rest) ← statements room inBlock fuel rest
      .ok (s :: ss, rest)

/-- A colon, and behind it a simple statement on the same line or an indented block. -/
def blockWithin (context : String) (room : Nat) : Parser (List Stmt) := fun ts => do
  let ((), rest) ← expect .colon context ts
  if check .newline rest then
    let rest := rest.drop 1
    if check .indent rest then
      let (body, rest) ← inner.statements room true rest.length (rest.drop 1)
      .ok (body, if check .dedent rest then rest.drop 1 else rest)
    else .error ⟨.expectedBlock, (peek rest).pos⟩
  else
    let (s, rest) ← inner.simpleLine room rest
    .ok ([s], rest)

/-- The grammar on top of the one that an opened level leads to. -/
def within : Level where
  expr := inner.exprWithin
  notExpr := inner.notWithin
  signed := inner.signedWithin
  block := inner.blockWithin

end Level

/-- The grammar with a number of levels that may be opened. -/
def levels : Nat → Level
  | 0 => .closed
  | n + 1 => (levels n).within

end Grammar

/-- The program that a token list spells. A list is read up to the first end-of-input token. -/
def parse (tokens : List Token) : Except SyntaxError Program := do
  let inner := Grammar.levels Grammar.maxNesting
  let (program, _) ← inner.statements Grammar.maxExprDepth false (tokens.length + 1) tokens
  .ok program

end ScriptMachine
