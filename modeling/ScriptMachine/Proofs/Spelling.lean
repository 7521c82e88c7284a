import ScriptMachine.Ast
import ScriptMachine.Token
import ScriptMachine.Number.Literal
/-!
# How programs are spelled

The grammar of the language, as a relation between syntax trees and the tokens that spell them.
Operators hold their operands together with one of nine strengths; an operand that is looser than
its place allows stands in parentheses, and any other may. Every token is accounted for.

* `Expr.Spelling`: the tokens of expressions;
* `Stmt.Simple`, `Stmt.Spelling`, `Stmt.Block`, `Stmt.Lines`: the tokens of statements;
* `Expr.At`, `Stmt.At`: something holds of all places in a tree, which are places of tokens that
  spell it.
-/

namespace ScriptMachine

/-! ## Operators -/

/-- How tightly an expression holds together, from loose to tight. -/
inductive Strength
  | disjunction | conjunction | negation | comparison | sum | product | signed | power | suffixed
  deriving DecidableEq, Repr

/-- The strength of the operands that a looser expression is made of. -/
def Strength.tighter : Strength → Strength
  | .disjunction => .conjunction
  | .conjunction => .negation
  | .negation => .comparison
  | .comparison => .sum
  | .sum => .product
  | .product => .signed
  | .signed => .power
  | .power | .suffixed => .suffixed

/-- The place of a strength in the order. -/
def Strength.rank : Strength → Nat
  | .disjunction => 0
  | .conjunction => 1
  | .negation => 2
  | .comparison => 3
  | .sum => 4
  | .product => 5
  | .signed => 6
  | .power => 7
  | .suffixed => 8

theorem Strength.rank_le_tighter (k : Strength) : k.rank ≤ k.tighter.rank := by
  cases k <;> decide

namespace UnaryOp

/-- The token of an operator. -/
def kind : UnaryOp → TokenKind
  | .neg => .minus
  | .not => .notKw

/-- The strength of an operator, which is that of its operand as well. -/
def strength : UnaryOp → Strength
  | .neg => .signed
  | .not => .negation

end UnaryOp

namespace BinaryOp

/-- The token of an operator. -/
def kind : BinaryOp → TokenKind
  | .add => .plus
  | .sub => .minus
  | .mul => .star
  | .div => .slash
  | .mod => .percent
  | .pow => .caret
  | .eq => .equal
  | .ne => .notEqual
  | .lt => .less
  | .le => .lessEqual
  | .gt => .greater
  | .ge => .greaterEqual

/-- The strength of an operator. -/
def strength : BinaryOp → Strength
  | .eq | .ne | .lt | .le | .gt | .ge => .comparison
  | .add | .sub => .sum
  | .mul | .div | .mod => .product
  | .pow => .power

/-- The strength of the first operand: chains of operators lean to the left, but for powers. -/
def lhs : BinaryOp → Strength
  | .pow => .suffixed
  | op => op.strength

/-- The strength of the second operand. An exponent may have a sign, or be a power itself. -/
def rhs : BinaryOp → Strength
  | .pow => .signed
  | op => op.strength.tighter

variable {op : BinaryOp} (h : op.strength ≠ .power)

include h

theorem lhs_eq : op.lhs = op.strength := by
  cases op <;> first | rfl | exact absurd rfl h

theorem rhs_eq : op.rhs = op.strength.tighter := by
  cases op <;> first | rfl | exact absurd rfl h

end BinaryOp

namespace LogicalOp

/-- The token of an operator. -/
def kind : LogicalOp → TokenKind
  | .and => .andKw
  | .or => .orKw

/-- The strength of an operator, which is that of its first operand as well. -/
def strength : LogicalOp → Strength
  | .and => .conjunction
  | .or => .disjunction

end LogicalOp

/-! ## Expressions -/

mutual

/-- Tokens that spell an expression, where nothing looser than a strength may stand without
parentheses. Nodes keep the places of their tokens. -/
inductive Expr.Spelling : Strength → Expr → List Token → Prop
  | number {pos : Position} {text : String} {x : Double} (value : Double.ofLiteral? text = some x) :
    Expr.Spelling .suffixed (.number pos x) [⟨.number text, pos⟩]
  | string {pos : Position} {text : String} :
    Expr.Spelling .suffixed (.string pos text) [⟨.string text, pos⟩]
  | boolean {pos : Position} {b : Bool} :
    Expr.Spelling .suffixed (.boolean pos b) [⟨if b then .trueKw else .falseKw, pos⟩]
  | none {pos : Position} : Expr.Spelling .suffixed (.none pos) [⟨.noneKw, pos⟩]
  | name {pos : Position} {id : String} : Expr.Spelling .suffixed (.name pos id) [⟨.name id, pos⟩]
  | list {pos close : Position} {es : List Expr} {ts : List Token} (items : Expr.Items es ts) :
    Expr.Spelling .suffixed (.list pos es) (⟨.leftBracket, pos⟩ :: (ts ++ [⟨.rightBracket, close⟩]))
  | member {pos place : Position} {e : Expr} {id : String} {ts : List Token}
    (object : Expr.Spelling .suffixed e ts) :
    Expr.Spelling .suffixed (.member pos e id) (ts ++ [⟨.dot, pos⟩, ⟨.name id, place⟩])
  | index {pos close : Position} {e i : Expr} {ts us : List Token}
    (object : Expr.Spelling .suffixed e ts) (place : Expr.Spelling .disjunction i us) :
    Expr.Spelling .suffixed (.index pos e i)
      (ts ++ ⟨.leftBracket, pos⟩ :: (us ++ [⟨.rightBracket, close⟩]))
  | call {pos close : Position} {e : Expr} {es : List Expr} {ts us : List Token}
    (callee : Expr.Spelling .suffixed e ts) (args : Expr.Items es us) :
    Expr.Spelling .suffixed (.call pos e es)
      (ts ++ ⟨.leftParen, pos⟩ :: (us ++ [⟨.rightParen, close⟩]))
  | unary {pos : Position} {op : UnaryOp} {e : Expr} {ts : List Token}
    (operand : Expr.Spelling op.strength e ts) :
    Expr.Spelling op.strength (.unary pos op e) (⟨op.kind, pos⟩ :: ts)
  | binary {pos : Position} {op : BinaryOp} {e f : Expr} {ts us : List Token}
    (lhs : Expr.Spelling op.lhs e ts) (rhs : Expr.Spelling op.rhs f us) :
    Expr.Spelling op.strength (.binary pos op e f) (ts ++ ⟨op.kind, pos⟩ :: us)
  | logical {pos : Position} {op : LogicalOp} {e f : Expr} {ts us : List Token}
    (lhs : Expr.Spelling op.strength e ts) (rhs : Expr.Spelling op.strength.tighter f us) :
    Expr.Spelling op.strength (.logical pos op e f) (ts ++ ⟨op.kind, pos⟩ :: us)
  | parens {opening close : Position} {e : Expr} {ts : List Token}
    (inner : Expr.Spelling .disjunction e ts) :
    Expr.Spelling .suffixed e (⟨.leftParen, opening⟩ :: (ts ++ [⟨.rightParen, close⟩]))
  | tighter {k : Strength} {e : Expr} {ts : List Token} (tight : Expr.Spelling k.tighter e ts) :
    Expr.Spelling k e ts

/-- Tokens between brackets: expressions with commas between them, and perhaps one more behind the
last. -/
inductive Expr.Items : List Expr → List Token → Prop
  | nil : Expr.Items [] []
  | last {e : Expr} {ts : List Token} (item : Expr.Spelling .disjunction e ts) : Expr.Items [e] ts
  | cons {comma : Position} {e : Expr} {es : List Expr} {ts us : List Token}
    (item : Expr.Spelling .disjunction e ts) (items : Expr.Items es us) :
    Expr.Items (e :: es) (ts ++ ⟨.comma, comma⟩ :: us)

end

/-! ## Statements -/

/-- Tokens that spell a statement without a block, up to its end. What is assigned to is read as an
expression, so it may stand in parentheses as well. -/
inductive Stmt.Simple : Stmt → List Token → Prop
  | expr {e : Expr} {ts : List Token} (h : Expr.Spelling .disjunction e ts) :
    Stmt.Simple (.expr e) ts
  | assign {pos sign : Position} {id : String} {e : Expr} {ts us : List Token}
    (target : Expr.Spelling .disjunction (.name pos id) ts)
    (value : Expr.Spelling .disjunction e us) :
    Stmt.Simple (.assign pos id e false) (ts ++ ⟨.assign, sign⟩ :: us)
  | declare {pos place sign : Position} {id : String} {e : Expr} {ts : List Token}
    (value : Expr.Spelling .disjunction e ts) :
    Stmt.Simple (.assign pos id e true)
      (⟨.varKw, pos⟩ :: ⟨.name id, place⟩ :: ⟨.assign, sign⟩ :: ts)
  | setIndex {pos bracket : Position} {e i f : Expr} {ts us : List Token}
    (target : Expr.Spelling .disjunction (.index bracket e i) ts)
    (value : Expr.Spelling .disjunction f us) :
    Stmt.Simple (.setIndex pos e i f) (ts ++ ⟨.assign, pos⟩ :: us)
  | importModule {pos place : Position} {id : String} :
    Stmt.Simple (.importModule pos id) [⟨.importKw, pos⟩, ⟨.name id, place⟩]
  | ret {pos : Position} : Stmt.Simple (.ret pos none) [⟨.returnKw, pos⟩]
  | retValue {pos : Position} {e : Expr} {ts : List Token}
    (value : Expr.Spelling .disjunction e ts) :
    Stmt.Simple (.ret pos (some e)) (⟨.returnKw, pos⟩ :: ts)
  | leave {pos : Position} : Stmt.Simple (.leave pos) [⟨.breakKw, pos⟩]
  | pass {pos : Position} : Stmt.Simple .pass [⟨.passKw, pos⟩]

/-- The end of a line, which may be missing before the end of a block and before the end of the
input. -/
inductive LineEnd (next : TokenKind) : List Token → Prop
  | newline {pos : Position} : LineEnd next [⟨.newline, pos⟩]
  | missing (ends : next = .dedent ∨ next = .endOfInput) : LineEnd next []

/-- The kind of the first token, if one of another kind follows. -/
def TokenKind.ahead (next : TokenKind) : List Token → TokenKind
  | [] => next
  | t :: _ => t.kind

/-- Tokens that spell the parameters of a function. -/
inductive Param.Spelling : List Param → List Token → Prop
  | nil : Param.Spelling [] []
  | last {p : Param} : Param.Spelling [p] [⟨.name p.name, p.pos⟩]
  | cons {comma : Position} {p q : Param} {ps : List Param} {ts : List Token}
    (rest : Param.Spelling (q :: ps) ts) :
    Param.Spelling (p :: q :: ps) (⟨.name p.name, p.pos⟩ :: ⟨.comma, comma⟩ :: ts)

mutual

/-- Tokens that spell a statement, if a token of a kind follows. -/
inductive Stmt.Spelling : (next : TokenKind) → Stmt → List Token → Prop
  | simple {next : TokenKind} {s : Stmt} {ts us : List Token} (simple : Stmt.Simple s ts)
    (ends : LineEnd next us) : Stmt.Spelling next s (ts ++ us)
  | func {next : TokenKind} {pos place opening close : Position} {id : String} {ps : List Param}
    {ss : List Stmt} {ts us : List Token} (params : Param.Spelling ps ts)
    (body : Stmt.Block next ss us) :
    Stmt.Spelling next (.func pos id ps ss)
      (⟨.funcKw, pos⟩ :: ⟨.name id, place⟩ :: ⟨.leftParen, opening⟩ ::
        (ts ++ ⟨.rightParen, close⟩ :: us))
  | branch {next : TokenKind} {pos : Position} {c : Expr} {ss : List Stmt} {r : Else}
    {ts us vs : List Token} (cond : Expr.Spelling .disjunction c ts)
    (body : Stmt.Block (next.ahead vs) ss us)
    (tail : Else.Spelling next r vs) :
    Stmt.Spelling next (.branch c ss r) (⟨.ifKw, pos⟩ :: (ts ++ (us ++ vs)))
  | loop {next : TokenKind} {pos : Position} {c : Expr} {ss : List Stmt} {ts us : List Token}
    (cond : Expr.Spelling .disjunction c ts) (body : Stmt.Block next ss us) :
    Stmt.Spelling next (.loop c ss) (⟨.whileKw, pos⟩ :: (ts ++ us))

/-- Tokens that spell the rest of a conditional. -/
inductive Else.Spelling : (next : TokenKind) → Else → List Token → Prop
  | nothing {next : TokenKind} : Else.Spelling next .nothing []
  | elseIf {next : TokenKind} {pos place : Position} {c : Expr} {ss : List Stmt} {r : Else}
    {ts us vs : List Token} (cond : Expr.Spelling .disjunction c ts)
    (body : Stmt.Block (next.ahead vs) ss us)
    (tail : Else.Spelling next r vs) :
    Else.Spelling next (.elseIf c ss r) (⟨.elseKw, pos⟩ :: ⟨.ifKw, place⟩ :: (ts ++ (us ++ vs)))
  | block {next : TokenKind} {pos : Position} {ss : List Stmt} {ts : List Token}
    (body : Stmt.Block next ss ts) : Else.Spelling next (.block ss) (⟨.elseKw, pos⟩ :: ts)

/-- Tokens that spell a block: one statement on the same line, or lines that are indented. The end
of the indentation may be missing before the end of the input only. -/
inductive Stmt.Block : (next : TokenKind) → List Stmt → List Token → Prop
  | line {next : TokenKind} {colon : Position} {s : Stmt} {ts us : List Token}
    (simple : Stmt.Simple s ts) (ends : LineEnd next us) :
    Stmt.Block next [s] (⟨.colon, colon⟩ :: (ts ++ us))
  | indented {next : TokenKind} {colon line opening close : Position} {ss : List Stmt}
    {ts : List Token} (body : Stmt.Lines .dedent ss ts) :
    Stmt.Block next ss
      (⟨.colon, colon⟩ :: ⟨.newline, line⟩ :: ⟨.indent, opening⟩ :: (ts ++ [⟨.dedent, close⟩]))
  | toEnd {colon line opening : Position} {ss : List Stmt} {ts : List Token}
    (body : Stmt.Lines .endOfInput ss ts) :
    Stmt.Block .endOfInput ss (⟨.colon, colon⟩ :: ⟨.newline, line⟩ :: ⟨.indent, opening⟩ :: ts)

/-- Tokens that spell statements one after the other, with any number of empty lines around them. -/
inductive Stmt.Lines : (next : TokenKind) → List Stmt → List Token → Prop
  | nil {next : TokenKind} : Stmt.Lines next [] []
  | blank {next : TokenKind} {pos : Position} {ss : List Stmt} {ts : List Token}
    (lines : Stmt.Lines next ss ts) : Stmt.Lines next ss (⟨.newline, pos⟩ :: ts)
  | cons {next : TokenKind} {s : Stmt} {ss : List Stmt} {ts us : List Token}
    (line : Stmt.Spelling (next.ahead us) s ts) (lines : Stmt.Lines next ss us) :
    Stmt.Lines next (s :: ss) (ts ++ us)

end

/-- Tokens that spell a program, up to the end of the input. -/
def Program.Spelling (program : Program) (ts : List Token) : Prop :=
  Stmt.Lines .endOfInput program ts

/-! ## First tokens -/

/-- The tokens that an expression of a strength may begin with. -/
def Strength.Opens (k : Strength) : TokenKind → Prop
  | .number _ | .string _ | .name _ | .trueKw | .falseKw | .noneKw | .leftParen | .leftBracket =>
    True
  | .minus => k.rank ≤ Strength.signed.rank
  | .notKw => k.rank ≤ Strength.negation.rank
  | _ => False

theorem Strength.Opens.of_tighter {k : Strength} {kind : TokenKind} (h : k.tighter.Opens kind) :
    k.Opens kind := by
  cases kind with
  | minus | notKw => exact Nat.le_trans k.rank_le_tighter h
  | _ => exact h

/-- The first operand of an operator stands where its whole expression begins. -/
theorem BinaryOp.opens {op : BinaryOp} {kind : TokenKind} (h : op.lhs.Opens kind) :
    op.strength.Opens kind := by
  cases op with
  | pow => exact .of_tighter h
  | _ => exact h

/-- An expression has a first token, which tells that it is one. -/
theorem Expr.Spelling.opens {k : Strength} {e : Expr} {ts : List Token} (h : e.Spelling k ts) :
    ∃ t us, ts = t :: us ∧ k.Opens t.kind := by
  match h with
  | .number _ | .string | .none | .name | .list _ | .parens _ => exact ⟨_, _, rfl, trivial⟩
  | .boolean (b := b) => exact ⟨_, _, rfl, by cases b <;> trivial⟩
  | .member object | .index object _ | .call object _ =>
    obtain ⟨t, us, rfl, ht⟩ := object.opens
    exact ⟨t, _, rfl, ht⟩
  | @Expr.Spelling.unary _ op _ _ _ => exact ⟨_, _, rfl, by cases op <;> exact Nat.le_refl _⟩
  | .binary lhs _ =>
    obtain ⟨t, us, rfl, ht⟩ := lhs.opens
    exact ⟨t, _, rfl, BinaryOp.opens ht⟩
  | .logical lhs _ =>
    obtain ⟨t, us, rfl, ht⟩ := lhs.opens
    exact ⟨t, _, rfl, ht⟩
  | .tighter tight =>
    obtain ⟨t, us, rfl, ht⟩ := tight.opens
    exact ⟨t, us, rfl, ht.of_tighter⟩

/-- The tokens that a statement may begin with. -/
def Stmt.Opens : TokenKind → Prop
  | .importKw | .varKw | .funcKw | .returnKw | .ifKw | .whileKw | .breakKw | .passKw => True
  | kind => Strength.disjunction.Opens kind

theorem Stmt.Simple.opens {s : Stmt} {ts : List Token} (h : s.Simple ts) :
    ∃ t us, ts = t :: us ∧ Stmt.Opens t.kind := by
  have of_expr {kind : TokenKind} (h : Strength.disjunction.Opens kind) : Stmt.Opens kind := by
    cases kind <;> first | exact h | exact h.elim
  cases h with
  | expr he =>
    obtain ⟨t, us, rfl, ht⟩ := he.opens
    exact ⟨t, us, rfl, of_expr ht⟩
  | assign target _ | setIndex target _ =>
    obtain ⟨t, us, rfl, ht⟩ := target.opens
    exact ⟨t, _, rfl, of_expr ht⟩
  | _ => exact ⟨_, _, rfl, trivial⟩

theorem Stmt.Spelling.opens {next : TokenKind} {s : Stmt} {ts : List Token}
    (h : s.Spelling next ts) : ∃ t us, ts = t :: us ∧ Stmt.Opens t.kind := by
  cases h with
  | simple simple _ =>
    obtain ⟨t, us, rfl, ht⟩ := simple.opens
    exact ⟨t, _, rfl, ht⟩
  | _ => exact ⟨_, _, rfl, trivial⟩

/-! ## Tokens before the end -/

/-- None of the tokens is the end of the input. -/
def BeforeEnd (ts : List Token) : Prop := ∀ t ∈ ts, t.kind ≠ .endOfInput

@[simp] theorem beforeEnd_nil : BeforeEnd [] := by simp [BeforeEnd]

@[simp] theorem beforeEnd_cons {t : Token} {ts : List Token} :
    BeforeEnd (t :: ts) ↔ t.kind ≠ .endOfInput ∧ BeforeEnd ts := by simp [BeforeEnd]

@[simp] theorem beforeEnd_append {ts us : List Token} :
    BeforeEnd (ts ++ us) ↔ BeforeEnd ts ∧ BeforeEnd us := by
  simp [BeforeEnd, or_imp, forall_and]

@[simp] theorem BinaryOp.kind_ne_endOfInput (op : BinaryOp) : op.kind ≠ .endOfInput := by
  cases op <;> decide

@[simp] theorem LogicalOp.kind_ne_endOfInput (op : LogicalOp) : op.kind ≠ .endOfInput := by
  cases op <;> decide

/-! ## Places -/

section

variable {Q : Position → Prop}

mutual

/-- Something holds of all places in an expression. -/
def Expr.At (Q : Position → Prop) : Expr → Prop
  | .number pos _ | .string pos _ | .boolean pos _ | .none pos | .name pos _ => Q pos
  | .list pos items => Q pos ∧ Expr.AllAt Q items
  | .member pos object _ => Q pos ∧ object.At Q
  | .index pos object place => Q pos ∧ object.At Q ∧ place.At Q
  | .call pos callee args => Q pos ∧ callee.At Q ∧ Expr.AllAt Q args
  | .unary pos _ operand => Q pos ∧ operand.At Q
  | .binary pos _ lhs rhs => Q pos ∧ lhs.At Q ∧ rhs.At Q
  | .logical pos _ lhs rhs => Q pos ∧ lhs.At Q ∧ rhs.At Q

/-- The same for some expressions. -/
def Expr.AllAt (Q : Position → Prop) : List Expr → Prop
  | [] => True
  | e :: es => e.At Q ∧ Expr.AllAt Q es

end

theorem Expr.At.pos {e : Expr} (h : e.At Q) : Q e.pos := by
  cases e with
  | number | string | boolean | none | name => exact h
  | list | member | index | call | unary | binary | logical => exact h.1

mutual

/-- Something holds of all places in a statement. -/
def Stmt.At (Q : Position → Prop) : Stmt → Prop
  | .expr e => e.At Q
  | .assign pos _ value _ => Q pos ∧ value.At Q
  | .setIndex pos object place value => Q pos ∧ object.At Q ∧ place.At Q ∧ value.At Q
  | .importModule pos _ => Q pos
  | .func pos _ params body => Q pos ∧ (∀ p ∈ params, Q p.pos) ∧ Stmt.AllAt Q body
  | .ret pos value => Q pos ∧ ∀ e ∈ value, e.At Q
  | .branch cond body tail => cond.At Q ∧ Stmt.AllAt Q body ∧ tail.At Q
  | .loop cond body => cond.At Q ∧ Stmt.AllAt Q body
  | .leave pos => Q pos
  | .pass => True

/-- The same for some statements. -/
def Stmt.AllAt (Q : Position → Prop) : List Stmt → Prop
  | [] => True
  | s :: ss => s.At Q ∧ Stmt.AllAt Q ss

/-- The same for the rest of a conditional. -/
def Else.At (Q : Position → Prop) : Else → Prop
  | .nothing => True
  | .elseIf cond body tail => cond.At Q ∧ Stmt.AllAt Q body ∧ tail.At Q
  | .block body => Stmt.AllAt Q body

end

mutual

/-- What holds of all places holds of those in an expression. -/
theorem Expr.at_of_forall (h : ∀ pos, Q pos) : (e : Expr) → e.At Q
  | .number .. | .string .. | .boolean .. | .none _ | .name .. => h _
  | .list _ items => ⟨h _, Expr.allAt_of_forall h items⟩
  | .member _ object _ => ⟨h _, object.at_of_forall h⟩
  | .unary _ _ operand => ⟨h _, operand.at_of_forall h⟩
  | .call _ callee args => ⟨h _, callee.at_of_forall h, Expr.allAt_of_forall h args⟩
  | .index _ lhs rhs | .binary _ _ lhs rhs | .logical _ _ lhs rhs =>
    ⟨h _, lhs.at_of_forall h, rhs.at_of_forall h⟩

theorem Expr.allAt_of_forall (h : ∀ pos, Q pos) : (es : List Expr) → Expr.AllAt Q es
  | [] => trivial
  | e :: es => ⟨e.at_of_forall h, Expr.allAt_of_forall h es⟩

end

mutual

/-- What holds of all places holds of those in a statement. -/
theorem Stmt.at_of_forall (h : ∀ pos, Q pos) : (s : Stmt) → s.At Q
  | .expr e => e.at_of_forall h
  | .assign _ _ value _ => ⟨h _, value.at_of_forall h⟩
  | .setIndex _ object place value =>
    ⟨h _, object.at_of_forall h, place.at_of_forall h, value.at_of_forall h⟩
  | .importModule .. | .leave _ => h _
  | .func _ _ _ body => ⟨h _, fun p _ => h p.pos, Stmt.allAt_of_forall h body⟩
  | .ret _ _ => ⟨h _, fun e _ => e.at_of_forall h⟩
  | .branch cond body tail =>
    ⟨cond.at_of_forall h, Stmt.allAt_of_forall h body, tail.at_of_forall h⟩
  | .loop cond body => ⟨cond.at_of_forall h, Stmt.allAt_of_forall h body⟩
  | .pass => trivial

theorem Stmt.allAt_of_forall (h : ∀ pos, Q pos) : (ss : List Stmt) → Stmt.AllAt Q ss
  | [] => trivial
  | s :: ss => ⟨s.at_of_forall h, Stmt.allAt_of_forall h ss⟩

theorem Else.at_of_forall (h : ∀ pos, Q pos) : (tail : Else) → tail.At Q
  | .nothing => trivial
  | .elseIf cond body tail =>
    ⟨cond.at_of_forall h, Stmt.allAt_of_forall h body, tail.at_of_forall h⟩
  | .block body => Stmt.allAt_of_forall h body

end

mutual

/-- The places in an expression are those of tokens that spell it. -/
theorem Expr.Spelling.places {k : Strength} {e : Expr} {ts : List Token} (h : e.Spelling k ts)
    (hQ : ∀ t ∈ ts, Q t.pos) : e.At Q := by
  match h with
  | .number _ | .string | .boolean | .none | .name => exact hQ _ (List.mem_singleton_self _)
  | .list items =>
    simp only [List.forall_mem_cons, List.forall_mem_append] at hQ
    exact ⟨hQ.1, items.places hQ.2.1⟩
  | .member object =>
    simp only [List.forall_mem_cons, List.forall_mem_append] at hQ
    exact ⟨hQ.2.1, object.places hQ.1⟩
  | .index object rest | .call object rest =>
    simp only [List.forall_mem_cons, List.forall_mem_append] at hQ
    exact ⟨hQ.2.1, object.places hQ.1, rest.places hQ.2.2.1⟩
  | .unary operand =>
    simp only [List.forall_mem_cons] at hQ
    exact ⟨hQ.1, operand.places hQ.2⟩
  | .binary lhs rhs | .logical lhs rhs =>
    simp only [List.forall_mem_cons, List.forall_mem_append] at hQ
    exact ⟨hQ.2.1, lhs.places hQ.1, rhs.places hQ.2.2⟩
  | .parens inner =>
    simp only [List.forall_mem_cons, List.forall_mem_append] at hQ
    exact inner.places hQ.2.1
  | .tighter tight => exact tight.places hQ

theorem Expr.Items.places {es : List Expr} {ts : List Token} (h : Expr.Items es ts)
    (hQ : ∀ t ∈ ts, Q t.pos) : Expr.AllAt Q es := by
  match h with
  | .nil => exact trivial
  | .last item => exact ⟨item.places hQ, trivial⟩
  | .cons item items =>
    simp only [List.forall_mem_cons, List.forall_mem_append] at hQ
    exact ⟨item.places hQ.1, items.places hQ.2.2⟩

end

theorem Stmt.Simple.places {s : Stmt} {ts : List Token} (h : s.Simple ts) (hQ : ∀ t ∈ ts, Q t.pos) :
    s.At Q := by
  cases h with
  | expr he => exact he.places hQ
  | assign target value =>
    simp only [List.forall_mem_cons, List.forall_mem_append] at hQ
    exact ⟨(target.places hQ.1).pos, value.places hQ.2.2⟩
  | declare value =>
    simp only [List.forall_mem_cons] at hQ
    exact ⟨hQ.1, value.places hQ.2.2.2⟩
  | setIndex target value =>
    simp only [List.forall_mem_cons, List.forall_mem_append] at hQ
    obtain ⟨-, hobject, hplace⟩ := target.places hQ.1
    exact ⟨hQ.2.1, hobject, hplace, value.places hQ.2.2⟩
  | retValue value =>
    simp only [List.forall_mem_cons] at hQ
    exact ⟨hQ.1, fun e he => Option.some.inj he ▸ value.places hQ.2⟩
  | importModule | leave => exact hQ _ List.mem_cons_self
  | ret => exact ⟨hQ _ List.mem_cons_self, nofun⟩
  | pass => exact trivial

theorem Param.Spelling.places {ps : List Param} {ts : List Token} (h : Param.Spelling ps ts)
    (hQ : ∀ t ∈ ts, Q t.pos) : ∀ p ∈ ps, Q p.pos := by
  induction h with
  | nil => exact nofun
  | last => exact List.forall_mem_singleton.2 (hQ _ (List.mem_singleton_self _))
  | cons _ ih =>
    simp only [List.forall_mem_cons] at hQ
    exact List.forall_mem_cons.2 ⟨hQ.1, ih hQ.2.2⟩

mutual

/-- The places in a statement are those of tokens that spell it. -/
theorem Stmt.Spelling.places {next : TokenKind} {s : Stmt} {ts : List Token}
    (h : s.Spelling next ts) (hQ : ∀ t ∈ ts, Q t.pos) : s.At Q := by
  match h with
  | .simple simple _ => exact simple.places (List.forall_mem_append.1 hQ).1
  | .func params body =>
    simp only [List.forall_mem_cons, List.forall_mem_append] at hQ
    exact ⟨hQ.1, params.places hQ.2.2.2.1, body.places hQ.2.2.2.2.2⟩
  | .branch cond body tail =>
    simp only [List.forall_mem_cons, List.forall_mem_append] at hQ
    exact ⟨cond.places hQ.2.1, body.places hQ.2.2.1, tail.places hQ.2.2.2⟩
  | .loop cond body =>
    simp only [List.forall_mem_cons, List.forall_mem_append] at hQ
    exact ⟨cond.places hQ.2.1, body.places hQ.2.2⟩

theorem Else.Spelling.places {next : TokenKind} {r : Else} {ts : List Token}
    (h : r.Spelling next ts) (hQ : ∀ t ∈ ts, Q t.pos) : r.At Q := by
  match h with
  | .nothing => exact trivial
  | .elseIf cond body tail =>
    simp only [List.forall_mem_cons, List.forall_mem_append] at hQ
    exact ⟨cond.places hQ.2.2.1, body.places hQ.2.2.2.1, tail.places hQ.2.2.2.2⟩
  | .block body => exact body.places (List.forall_mem_cons.1 hQ).2

theorem Stmt.Block.places {next : TokenKind} {ss : List Stmt} {ts : List Token}
    (h : Stmt.Block next ss ts) (hQ : ∀ t ∈ ts, Q t.pos) : Stmt.AllAt Q ss := by
  match h with
  | .line simple _ =>
    simp only [List.forall_mem_cons, List.forall_mem_append] at hQ
    exact ⟨simple.places hQ.2.1, trivial⟩
  | .indented body | .toEnd body =>
    simp only [List.forall_mem_cons, List.forall_mem_append] at hQ
    first | exact body.places hQ.2.2.2.1 | exact body.places hQ.2.2.2

theorem Stmt.Lines.places {next : TokenKind} {ss : List Stmt} {ts : List Token}
    (h : Stmt.Lines next ss ts) (hQ : ∀ t ∈ ts, Q t.pos) : Stmt.AllAt Q ss := by
  match h with
  | .nil => exact trivial
  | .blank lines => exact lines.places (List.forall_mem_cons.1 hQ).2
  | .cons line lines =>
    have hQ := List.forall_mem_append.1 hQ
    exact ⟨line.places hQ.1, lines.places hQ.2⟩

end

end

end ScriptMachine
