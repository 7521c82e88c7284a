import ScriptMachine.Ast.Grammar
import ScriptMachine.Proofs.Depth
import ScriptMachine.Proofs.Spelling
/-!
# Every token is read

What the grammar returns is spelled by exactly the tokens that it took, and is not deeper than the
levels and the room allow. An error stands at a token. The loops of the grammar are counted; since
every round takes a token, a count that starts at the number of tokens does not run out.

* `Grammar.Level.Sound`: what a whole grammar reads, `Grammar.sound_levels`;
* `Grammar.Level.Settled`: no loop is cut short, `Grammar.Level.Sound.settled`.
-/

namespace ScriptMachine

namespace Grammar

variable {α β : Type} {P : TokenKind → α → List Token → Prop}
    {P' : TokenKind → β → List Token → Prop}

/-! ## Single tokens -/

@[simp] theorem peek_cons (t : Token) (ts : List Token) : peek (t :: ts) = t := rfl

theorem peek_append (ts rest : List Token) :
    (peek (ts ++ rest)).kind = (peek rest).kind.ahead ts := by
  cases ts <;> rfl

variable {ts : List Token}

/-- A list that does not begin with the end of the input begins with a token. -/
theorem eq_cons_of_peek {kind : TokenKind} (h : (peek ts).kind = kind)
    (hkind : kind ≠ .endOfInput) : ts = ⟨kind, (peek ts).pos⟩ :: ts.drop 1 := by
  cases ts with
  | nil => exact absurd h.symm hkind
  | cons t ts =>
    subst h
    rfl

theorem length_of_check {kind : TokenKind} (h : check kind ts = true) (hkind : kind ≠ .endOfInput) :
    ts.length = (ts.drop 1).length + 1 := congrArg List.length (eq_cons_of_peek (eq_of_beq h) hkind)

/-- Why the grammar stops at a token of a kind: it finds a fault of its own stage, or the token is a
number that cannot be read. -/
inductive Stops (kind : TokenKind) (fault : SyntaxFault) : Prop
  | grammar (stage : fault.stage = .parse)
  | number {text : String} (found : kind = .number text) (unread : Double.ofLiteral? text = none)

/-- A parser ends with a result that stands in a relation to the kind of the next token and to the
tokens that were taken, or with an error at a token. Neither is behind the end of the input. -/
inductive Takes (P : TokenKind → α → List Token → Prop) (ts : List Token) :
    Except SyntaxError (α × List Token) → Prop
  | ok {a : α} {taken rest : List Token} (split : ts = taken ++ rest) (before : BeforeEnd taken)
    (h : P (peek rest).kind a taken) : Takes P ts (.ok (a, rest))
  | error {e : SyntaxError} {taken rest : List Token} (split : ts = taken ++ rest)
    (before : BeforeEnd taken) (place : e.pos = (peek rest).pos)
    (stops : Stops (peek rest).kind e.fault) : Takes P ts (.error e)

/-- The same for whatever tokens. -/
def Reads (P : TokenKind → α → List Token → Prop) (p : Parser α) : Prop := ∀ ts, Takes P ts (p ts)

namespace Takes

variable {ts rest : List Token} {x : Except SyntaxError (α × List Token)}
  {f : α × List Token → Except SyntaxError (β × List Token)}

theorem done {a : α} (h : P (peek ts).kind a []) : Takes P ts (.ok (a, ts)) :=
  .ok rfl beforeEnd_nil h

theorem stop {fault : SyntaxFault} (h : Stops (peek ts).kind fault) :
    Takes P ts (.error ⟨fault, (peek ts).pos⟩) :=
  .error rfl beforeEnd_nil rfl h

theorem fail {fault : SyntaxFault} (h : fault.stage = .parse) :
    Takes P ts (.error ⟨fault, (peek ts).pos⟩) := .stop (.grammar h)

theorem mono {Q : TokenKind → α → List Token → Prop} (hx : Takes P ts x)
    (h : ∀ next a us, P next a us → Q next a us) : Takes Q ts x := by
  cases hx with
  | ok split before hP => exact .ok split before (h _ _ _ hP)
  | error split before place stops => exact .error split before place stops

/-- What is read behind tokens that were taken before. -/
theorem behind {us : List Token} (hus : BeforeEnd us)
    (hx : Takes (fun next a vs => P next a (us ++ vs)) rest x) : Takes P (us ++ rest) x := by
  cases hx with
  | ok split before h =>
    subst split
    exact .ok (List.append_assoc ..).symm (beforeEnd_append.2 ⟨hus, before⟩) h
  | error split before place stops =>
    subst split
    exact .error (List.append_assoc ..).symm (beforeEnd_append.2 ⟨hus, before⟩) place stops

/-- A token that was looked at is taken. -/
theorem token {kind : TokenKind} (hpeek : (peek ts).kind = kind) (hkind : kind ≠ .endOfInput)
    (hx : Takes (fun next a us => P next a (⟨kind, (peek ts).pos⟩ :: us)) (ts.drop 1) x) :
    Takes P ts x := by
  have h : Takes P ([⟨kind, (peek ts).pos⟩] ++ ts.drop 1) x := behind (by simpa using hkind) hx
  rwa [List.singleton_append, ← eq_cons_of_peek hpeek hkind] at h

/-- A parser and what comes behind it. -/
theorem bind (hx : Takes P ts x) (hf : ∀ a us rest, ts = us ++ rest → P (peek rest).kind a us →
    Takes (fun next b vs => P' next b (us ++ vs)) rest (f (a, rest))) : Takes P' ts (x >>= f) := by
  cases hx with
  | ok split before h =>
    subst split
    exact behind before (hf _ _ _ rfl h)
  | error split before place stops => exact .error split before place stops

/-- A parser whose result is put into another one. -/
theorem last (hx : Takes P ts x) (hf : ∀ a us rest, ts = us ++ rest → P (peek rest).kind a us →
    ∃ b, f (a, rest) = .ok (b, rest) ∧ P' (peek rest).kind b us) : Takes P' ts (x >>= f) := by
  cases hx with
  | ok split before h =>
    obtain ⟨b, hb, h⟩ := hf _ _ _ split h
    show Takes P' ts (f _)
    rw [hb]
    exact .ok split before h
  | error split before place stops => exact .error split before place stops

theorem expect {kind : TokenKind} (context : String)
    {f : Unit × List Token → Except SyntaxError (α × List Token)} (hkind : kind ≠ .endOfInput)
    (hf : ∀ pos rest, Takes (fun next a us => P next a (⟨kind, pos⟩ :: us)) rest (f ((), rest))) :
    Takes P ts (Grammar.expect kind context ts >>= f) := by
  unfold Grammar.expect
  dsimp only
  split
  case isTrue hpeek => exact .token hpeek hkind (hf _ _)
  case isFalse => exact .fail rfl

theorem expectName (context : String) {f : Param × List Token → Except SyntaxError (α × List Token)}
    (hf : ∀ p rest, Takes (fun next a us => P next a (⟨.name p.name, p.pos⟩ :: us)) rest
      (f (p, rest))) :
    Takes P ts (Grammar.expectName context ts >>= f) := by
  unfold Grammar.expectName
  dsimp only
  split
  case h_1 id hpeek => exact .token hpeek (by simp) (hf ⟨id, _⟩ _)
  case h_2 => exact .fail rfl

end Takes

theorem reads_endStatement : Reads (fun next _ ts => LineEnd next ts) endStatement := by
  intro ts
  unfold endStatement
  dsimp only
  split
  case h_1 hpeek => exact .token hpeek (by simp) (.done .newline)
  case h_2 hpeek => exact .done (.missing (.inl hpeek))
  case h_3 hpeek => exact .done (.missing (.inr hpeek))
  case h_4 => exact .fail rfl

/-- What is read one level further in is bounded as what is read there. -/
theorem reads_enter {P : Nat → TokenKind → α → List Token → Prop} {bound : Nat → Nat}
    {inner : Nat → Parser α} (h : ∀ room, Reads (P (bound room)) (inner room)) (room : Nat) :
    Reads (P (inside bound room)) (enter inner room) := by
  cases room with
  | zero => exact fun ts => .fail rfl
  | succ room => exact h room

/-! ## Chains of operators -/

/-- Tokens spell an expression of a strength and at most of a depth. -/
structure Fits (k : Strength) (d : Nat) (next : TokenKind) (e : Expr) (ts : List Token) : Prop where
  spelling : e.Spelling k ts
  depth_le : e.depth ≤ d

section Chain

variable {op? : TokenKind → Option (Position → Expr → Expr → Expr)} {operand : Nat → Parser Expr}
    {k : Strength}
  {bound : Nat → Nat}

/-- The node of an operator makes expressions of a strength out of operands that are tighter on the
right. -/
structure Joins (k : Strength) (kind : TokenKind) (node : Position → Expr → Expr → Expr) :
    Prop where
  kind_ne : kind ≠ .endOfInput
  depth (pos : Position) (lhs rhs : Expr) : (node pos lhs rhs).depth = 1 + max lhs.depth rhs.depth
  spelling {pos : Position} {lhs rhs : Expr} {ts us : List Token} (hl : Expr.Spelling k lhs ts)
    (hr : Expr.Spelling k.tighter rhs us) :
      Expr.Spelling k (node pos lhs rhs) (ts ++ ⟨kind, pos⟩ :: us)

theorem joins_logical (op : LogicalOp) : Joins op.strength op.kind (.logical · op) :=
  ⟨op.kind_ne_endOfInput, fun _ _ _ => rfl, fun hl hr => .logical hl hr⟩

/-- Powers are the only operators that are not read in a chain. -/
theorem joins_binary {kind : TokenKind} (op : BinaryOp) (hk : op.strength = k)
    (hkind : op.kind = kind) (h : k ≠ .power) : Joins k kind (.binary · op) := by
  subst hk hkind
  refine ⟨op.kind_ne_endOfInput, fun _ _ _ => rfl, fun hl hr => .binary ?_ ?_⟩
  · rwa [BinaryOp.lhs_eq h]
  · rwa [BinaryOp.rhs_eq h]

section

variable (kind : TokenKind) (node)

theorem joins_orOp (h : orOp kind = some node) : Joins .disjunction kind node := by
  unfold orOp at h
  split at h <;> cases h
  exact joins_logical .or

theorem joins_andOp (h : andOp kind = some node) : Joins .conjunction kind node := by
  unfold andOp at h
  split at h <;> cases h
  exact joins_logical .and

theorem joins_comparisonOp (h : comparisonOp kind = some node) : Joins .comparison kind node := by
  unfold comparisonOp at h
  split at h <;> cases h <;> exact joins_binary _ rfl rfl (by decide)

theorem joins_sumOp (h : sumOp kind = some node) : Joins .sum kind node := by
  unfold sumOp at h
  split at h <;> cases h <;> exact joins_binary _ rfl rfl (by decide)

theorem joins_productOp (h : productOp kind = some node) : Joins .product kind node := by
  unfold productOp at h
  split at h <;> cases h <;> exact joins_binary _ rfl rfl (by decide)

end

variable (hop : ∀ kind node, op? kind = some node → Joins k kind node)
    (hbound : ∀ room, bound room ≤ bound (room + 1))
  (hoperand : ∀ room, Reads (Fits k.tighter (bound room)) (operand room)) (room : Nat)

include hop hbound hoperand

/-- A chain goes on behind the tokens of what it has so far, and puts at most as many nodes on top
as there is room. -/
theorem reads_chainFrom {lhs : Expr} {before : List Token} (hlhs : Expr.Spelling k lhs before) :
    Reads (fun next e ts => Fits k (max lhs.depth (bound room) + room) next e (before ++ ts))
      (chainFrom op? operand room lhs) := by
  induction room generalizing lhs before with
  | zero =>
    intro ts
    unfold chainFrom
    split
    case h_1 => exact .done ⟨by simpa using hlhs, by omega⟩
    case h_2 node hnode => exact .token rfl (hop _ _ hnode).kind_ne (.fail rfl)
  | succ room ih =>
    intro ts
    unfold chainFrom
    split
    case h_1 => exact .done ⟨by simpa using hlhs, by omega⟩
    case h_2 node hnode =>
      -- What there is so far becomes the first operand: chains lean to the left.
      have hjoin := hop _ _ hnode
      refine .token rfl hjoin.kind_ne ((hoperand room _).bind fun rhs us rest _ hrhs => ?_)
      refine (ih (hjoin.spelling hlhs hrhs.spelling) rest).mono fun next e vs he =>
        ⟨by simpa using he.spelling, ?_⟩
      have hdepth := he.depth_le
      have hrhs := hrhs.depth_le
      have hroom := hbound room
      rw [hjoin.depth] at hdepth
      omega

theorem reads_chain : Reads (Fits k (bound room + room)) (chain op? operand room) := by
  refine fun ts => (hoperand room ts).bind fun lhs us rest _ hlhs => ?_
  refine (reads_chainFrom hop hbound hoperand room (.tighter hlhs.spelling) rest).mono
    fun next e vs he => ?_
  have hdepth := he.depth_le
  have hlhs := hlhs.depth_le
  exact ⟨he.spelling, by omega⟩

end Chain

/-! ## Primary expressions and suffixes -/

theorem items_eq (item : Parser Expr) (close : TokenKind) (context : String) (ts : List Token) :
    items item close context ts =
      (if check close ts then .ok ([], ts) else itemsFrom item close ts.length ts) >>= fun p =>
        expect close context p.2 >>= fun q => .ok (p.1, q.2) := by
  unfold items
  split <;> rfl

section Suffixes

variable {item : Parser Expr} {sub : Nat → Parser Expr} {d : Nat} {bound : Nat → Nat}

section

variable (hitem : Reads (Fits .disjunction d) item)

include hitem

/-- Items up to a token that is no comma. -/
theorem reads_itemsFrom (close : TokenKind) (fuel : Nat) :
    Reads (fun _ es ts => Expr.Items es ts ∧ Expr.depthAll es ≤ d) (itemsFrom item close fuel) := by
  induction fuel with
  | zero => exact fun ts => .done ⟨.nil, Nat.zero_le d⟩
  | succ fuel ih =>
    refine fun ts => (hitem ts).bind fun e us rest _ he => ?_
    have hlast : Expr.depthAll [e] ≤ d := Nat.max_le.2 ⟨he.depth_le, Nat.zero_le d⟩
    dsimp only
    split
    case isTrue hcomma =>
      refine .token (eq_of_beq (Bool.and_eq_true_iff.1 hcomma).1) (by simp) ((ih _).last
        fun es vs _ _ hes => ?_)
      exact ⟨_, rfl, .cons he.spelling hes.1, Nat.max_le.2 ⟨he.depth_le, hes.2⟩⟩
    case isFalse =>
      split
      -- The comma stands behind the last item.
      case isTrue hcomma =>
        exact .token (eq_of_beq hcomma) (by simp) (.done ⟨.cons he.spelling .nil, hlast⟩)
      case isFalse => exact .done ⟨by simpa using Expr.Items.last he.spelling, hlast⟩

theorem Takes.items {close : TokenKind} (context : String)
    {f : List Expr × List Token → Except SyntaxError (α × List Token)} {ts : List Token}
    (hclose : close ≠ .endOfInput) (hf : ∀ es us pos rest, Expr.Items es us → Expr.depthAll es ≤ d →
      Takes (fun next a vs => P next a (us ++ ⟨close, pos⟩ :: vs)) rest (f (es, rest))) :
    Takes P ts (items item close context ts >>= f) := by
  have hfirst : Takes (fun _ es us => Expr.Items es us ∧ Expr.depthAll es ≤ d) ts
      (if check close ts then .ok ([], ts) else itemsFrom item close ts.length ts) := by
    split
    case isTrue => exact .done ⟨.nil, Nat.zero_le d⟩
    case isFalse => exact reads_itemsFrom hitem close _ ts
  rw [items_eq, bind_assoc]
  refine hfirst.bind fun es us rest _ hes => ?_
  rw [bind_assoc]
  exact .expect context hclose fun pos rest' => hf es us pos rest' hes.1 hes.2

theorem reads_primary : Reads (Fits .suffixed (1 + d)) (primary item) := by
  intro ts
  have hone : 1 ≤ 1 + d := Nat.le_add_right 1 d
  unfold primary
  dsimp only
  split
  case h_1 text hpeek =>
    split
    case h_1 x hx => exact .token hpeek (by simp) (.done ⟨.number hx, hone⟩)
    case h_2 hx => exact .stop (.number hpeek hx)
  case h_2 hpeek => exact .token hpeek (by simp) (.done ⟨.string, hone⟩)
  case h_3 hpeek => exact .token hpeek (by simp) (.done ⟨.boolean, hone⟩)
  case h_4 hpeek => exact .token hpeek (by simp) (.done ⟨.boolean, hone⟩)
  case h_5 hpeek => exact .token hpeek (by simp) (.done ⟨.none, hone⟩)
  case h_6 hpeek => exact .token hpeek (by simp) (.done ⟨.name, hone⟩)
  case h_7 hpeek =>
    refine .token hpeek (by simp) ((hitem _).bind fun e us rest _ he => .expect _ (by simp)
      fun pos rest' => ?_)
    exact .done ⟨.parens he.spelling, Nat.le_trans he.depth_le (Nat.le_add_left d 1)⟩
  case h_8 hpeek =>
    refine .token hpeek (by simp) (.items hitem _ (by simp) fun es us pos rest hes hd => ?_)
    exact .done ⟨.list hes, Nat.add_le_add_left hd 1⟩
  case h_9 => exact .fail rfl

end

variable (hbound : ∀ room, bound room ≤ bound (room + 1))
  (hsub : ∀ room, Reads (Fits .disjunction (bound room)) (sub room)) (room : Nat)

include hbound hsub

/-- Suffixes go on behind the tokens of what they are put on, and are at most as many as there is
room. -/
theorem reads_suffixes {e : Expr} {before : List Token} (he : Expr.Spelling .suffixed e before) :
    Reads (fun next e' ts => Fits .suffixed (max e.depth (bound room) + room) next e'
      (before ++ ts)) (suffixes sub room e) := by
  induction room generalizing e before with
  | zero =>
    intro ts
    unfold suffixes
    dsimp only
    split
    case h_1 | h_2 | h_3 => exact .fail rfl
    case h_7 => exact .done ⟨by simpa using he, by omega⟩
    all_goals rename_i hroom; cases hroom
  | succ room ih =>
    intro ts
    have hmono := hbound room
    unfold suffixes
    dsimp only
    split
    case h_4 hpeek hroom =>
      cases hroom
      refine .token hpeek (by simp) (.items (hsub room) _ (by simp)
        fun args us pos rest hargs hd => ?_)
      refine (ih (.call he hargs) rest).mono fun next e' vs he' => ⟨by simpa using he'.spelling, ?_⟩
      have hdepth := he'.depth_le
      simp only [Expr.depth] at hdepth
      omega
    case h_5 hpeek hroom =>
      cases hroom
      refine .token hpeek (by simp) ((hsub room _).bind fun index us rest _ hindex =>
        .expect _ (by simp) fun pos rest' => ?_)
      refine (ih (.index he hindex.spelling) rest').mono fun next e' vs he' =>
        ⟨by simpa using he'.spelling, ?_⟩
      have hdepth := he'.depth_le
      have hindex := hindex.depth_le
      simp only [Expr.depth] at hdepth
      omega
    case h_6 hpeek hroom =>
      cases hroom
      refine .token hpeek (by simp) (.expectName _ fun id rest => ?_)
      refine (ih (.member he) rest).mono fun next e' vs he' => ⟨by simpa using he'.spelling, ?_⟩
      have hdepth := he'.depth_le
      simp only [Expr.depth] at hdepth
      omega
    case h_7 => exact .done ⟨by simpa using he, by omega⟩
    all_goals rename_i hroom; cases hroom

theorem reads_postfixExpr : Reads (Fits .suffixed (1 + bound room + room))
    (postfixExpr sub room) := by
  refine fun ts => (reads_primary (hsub room) ts).bind fun e us rest _ he => ?_
  refine (reads_suffixes hbound hsub room he.spelling rest).mono fun next e' vs he' => ?_
  have hdepth := he'.depth_le
  have he := he.depth_le
  exact ⟨he'.spelling, by omega⟩

end Suffixes

/-! ## Levels -/

/-- Tokens spell a statement without a block, and its expressions are at most of a depth. -/
abbrev FitsSimple (d : Nat) (_ : TokenKind) (s : Stmt) (ts : List Token) : Prop :=
  Stmt.Simple s ts ∧ Shallow d s.exprs

/-- The same for any statement. -/
abbrev FitsStmt (d : Nat) (next : TokenKind) (s : Stmt) (ts : List Token) : Prop :=
  Stmt.Spelling next s ts ∧ Shallow d s.exprs

/-- The same for a block. -/
abbrev FitsBlock (d : Nat) (next : TokenKind) (ss : List Stmt) (ts : List Token) : Prop :=
  Stmt.Block next ss ts ∧ Shallow d (Stmt.allExprs ss)

/-- Everything that is read behind a level is spelled by the tokens that were taken, and within the
bounds for the levels that are left. -/
structure Level.Sound (n : Nat) (inner : Level) : Prop where
  expr (room : Nat) : Reads (Fits .disjunction (deepestBehind n room)) (inner.expr room)
  notExpr (room : Nat) : Reads (Fits .negation (deepestBehind n room)) (inner.notExpr room)
  signed (room : Nat) : Reads (Fits .signed (signedBehind n room)) (inner.signed room)
  block (context : String) (room : Nat) :
    Reads (FitsBlock (deepestBehind n room)) (inner.block context room)

namespace Level

variable {inner : Level} {n : Nat}

theorem funcStatement_eq (room : Nat) (ts : List Token) :
    inner.funcStatement room ts =
      expectName "after `func`" (ts.drop 1) >>= fun id =>
        expect .leftParen "after function name" id.2 >>= fun p =>
        (if check .rightParen p.2 then .ok ([], p.2) else paramsFrom p.2.length p.2) >>=
          fun params =>
          expect .rightParen "to close parameter list" params.2 >>= fun q =>
            enter (inner.block "after function signature") room q.2 >>= fun body =>
              .ok (.func (peek ts).pos id.1.name params.1 body.1, body.2) := by
  unfold funcStatement
  congr 1
  funext ⟨id, behind⟩
  dsimp only
  congr 1
  funext ⟨⟨⟩, inside⟩
  dsimp only
  split <;> rfl

namespace Sound

variable (hi : inner.Sound n) (room : Nat)

include hi

theorem subExpr : Reads (Fits .disjunction (deepestSub n room)) (inner.subExpr room) :=
  reads_enter (P := Fits .disjunction) hi.expr room

theorem subSigned : Reads (Fits .signed (inside (signedBehind n) room)) (enter inner.signed room) :=
  reads_enter (P := Fits .signed) hi.signed room

theorem subBlock (context : String) :
    Reads (FitsBlock (deepestSub n room)) (enter (inner.block context) room) :=
  reads_enter (P := FitsBlock) (hi.block context) room

theorem powerWithin : Reads (Fits .power (deepestSigned n room)) (inner.powerWithin room) := by
  refine fun ts => (reads_postfixExpr (deepestSub_mono_succ n) hi.subExpr room ts).bind
    fun base us rest _ hbase => ?_
  dsimp only
  split
  case isTrue hcaret =>
    refine .token (eq_of_beq hcaret) (by simp) ((hi.subSigned room _).last
      fun exponent vs _ _ hexponent => ?_)
    have hroom := power_le (Nat.lt_of_lt_of_le exponent.depth_pos hexponent.depth_le)
    have hdepth := signed_le n room
    have hbase' := hbase.depth_le
    have hexponent' := hexponent.depth_le
    refine ⟨_, rfl, @Expr.Spelling.binary _ .pow _ _ _ _ hbase.spelling hexponent.spelling, ?_⟩
    simp only [Expr.depth]
    omega
  case isFalse =>
    refine .done ⟨?_, Nat.le_trans hbase.depth_le (deepestSub_le_signed n room)⟩
    rw [List.append_nil]
    exact .tighter hbase.spelling

theorem signedWithin : Reads (Fits .signed (deepestSigned n room)) (inner.signedWithin room) := by
  intro ts
  unfold Level.signedWithin
  split
  case isTrue hminus =>
    refine .token (eq_of_beq hminus) (by simp) ((hi.subSigned room _).last
      fun operand us _ _ hoperand => ?_)
    refine ⟨_, rfl, @Expr.Spelling.unary _ .neg _ _ hoperand.spelling, ?_⟩
    exact Nat.le_trans (Nat.add_le_add_left hoperand.depth_le 1) (signed_le n room)
  case isFalse =>
    exact (hi.powerWithin room ts).mono fun _ _ _ he => ⟨.tighter he.spelling, he.depth_le⟩

theorem comparisonWithin :
    Reads (Fits .comparison (deepestSigned n room + 3 * room)) (inner.comparisonWithin room) := by
  have hmono := deepestSigned_mono_succ n
  have hproduct := reads_chain joins_productOp hmono hi.signedWithin
  have hsum :=
    reads_chain joins_sumOp (fun room => Nat.add_le_add (hmono room) (Nat.le_succ room)) hproduct
  have hcomparison := reads_chain joins_comparisonOp
    (fun room => Nat.add_le_add (Nat.add_le_add (hmono room) (Nat.le_succ room)) (Nat.le_succ room))
    hsum
  refine fun ts => (hcomparison room ts).mono fun _ e _ he => ⟨he.spelling, ?_⟩
  have hdepth := he.depth_le
  omega

theorem notWithin : Reads (Fits .negation (deepestSigned n room + 3 * room))
    (inner.notWithin room) := by
  intro ts
  unfold Level.notWithin
  split
  case isTrue hnot =>
    have hsub := reads_enter (P := Fits .negation) hi.notExpr room
    refine .token (eq_of_beq hnot) (by simp) ((hsub _).last fun operand us _ _ hoperand => ?_)
    refine ⟨_, rfl, @Expr.Spelling.unary _ .not _ _ hoperand.spelling, ?_⟩
    have hdepth : operand.depth ≤ deepestSub n room := hoperand.depth_le
    have hroom := deepestSub_le_signed n room
    simp only [Expr.depth]
    omega
  case isFalse =>
    exact (hi.comparisonWithin room ts).mono fun _ _ _ he => ⟨.tighter he.spelling, he.depth_le⟩

/-- **No expression is deeper** than the levels and the room allow. -/
theorem exprWithin : Reads (Fits .disjunction (deepest n room)) (inner.exprWithin room) := by
  have hmono (room : Nat) : deepestSigned n room + 3 * room ≤ deepestSigned n (room + 1) + 3 *
      (room + 1) :=
    Nat.add_le_add (deepestSigned_mono_succ n room) (by omega)
  have hand := reads_chain joins_andOp hmono hi.notWithin
  have hor :=
    reads_chain joins_orOp (fun room => Nat.add_le_add (hmono room) (Nat.le_succ room)) hand
  refine fun ts => (hor room ts).mono fun _ e _ he => ⟨he.spelling, ?_⟩
  have hdepth := he.depth_le
  rw [deepest_eq]
  omega

/-! ## Statements -/

/-- What is assigned to is read as an expression, and an error about it points into that
expression. -/
theorem exprStatement : Reads (FitsSimple (deepestSub n room)) (inner.exprStatement room) := by
  intro ts
  have hsub := hi.subExpr room ts
  unfold Level.exprStatement
  generalize inner.subExpr room ts = x at hsub ⊢
  cases hsub with
  | error split before place stops => exact .error split before place stops
  | @ok target us rest split before htarget =>
    subst split
    dsimp only [bind, Except.bind]
    split
    case isTrue hassign =>
      have hvalue : Takes (fun next e vs' => ∃ vs, vs' = us ++ ⟨.assign, (peek rest).pos⟩ :: vs ∧
          Fits .disjunction (deepestSub n room) next e vs) (us ++ rest)
              (inner.subExpr room (rest.drop 1)) :=
        .behind before (.token (eq_of_beq hassign) (by simp)
          ((hi.subExpr room _).mono fun _ _ vs hvalue => ⟨vs, rfl, hvalue⟩))
      generalize inner.subExpr room (rest.drop 1) = y at hvalue ⊢
      cases hvalue with
      | error split before place stops => exact .error split before place stops
      | @ok value _ rest' split before' h =>
        obtain ⟨vs, rfl, hvalue⟩ := h
        dsimp only
        split
        case h_1 =>
          exact .ok split before'
            ⟨.assign htarget.spelling hvalue.spelling, by simpa [Stmt.exprs] using hvalue.depth_le⟩
        case h_2 =>
          have htarget' := htarget.depth_le
          have hvalue' := hvalue.depth_le
          simp only [Expr.depth] at htarget'
          refine .ok split before' ⟨.setIndex htarget.spelling hvalue.spelling, ?_⟩
          simp only [Stmt.exprs, shallow_cons, shallow_nil, and_true]
          omega
        case h_3 =>
          obtain ⟨t, ht, hpos⟩ := (htarget.spelling.places (Q := fun pos => ∃ t ∈ us, t.pos = pos)
            fun t ht => ⟨t, ht, rfl⟩).pos
          obtain ⟨vs, ws, rfl⟩ := List.append_of_mem ht
          exact .error (List.append_assoc ..) (beforeEnd_append.1 before).1 hpos.symm (.grammar rfl)
    case isFalse =>
      exact .ok rfl before ⟨.expr htarget.spelling, by simpa [Stmt.exprs] using htarget.depth_le⟩

theorem simpleStatement : Reads (FitsSimple (deepestSub n room)) (inner.simpleStatement room) := by
  intro ts
  unfold Level.simpleStatement
  dsimp only
  split
  case h_1 hpeek =>
    exact .token hpeek (by simp) (.expectName _ fun id rest =>
      .done ⟨.importModule, by simp [Stmt.exprs]⟩)
  case h_2 hpeek =>
    refine .token hpeek (by simp) (.expectName _ fun id rest => .expect _ (by simp)
      fun sign rest' => ?_)
    refine (hi.subExpr room rest').last fun value us _ _ hvalue => ⟨_, rfl,
      .declare hvalue.spelling, ?_⟩
    simpa [Stmt.exprs] using hvalue.depth_le
  case h_3 hpeek =>
    refine .token hpeek (by simp) ?_
    split
    case h_4 =>
      refine (hi.subExpr room _).last fun value us _ _ hvalue => ⟨_, rfl, .retValue hvalue.spelling,
        ?_⟩
      simpa [Stmt.exprs] using hvalue.depth_le
    all_goals exact .done ⟨.ret, by simp [Stmt.exprs]⟩
  case h_4 hpeek => exact .token hpeek (by simp) (.done ⟨.leave, by simp [Stmt.exprs]⟩)
  case h_5 hpeek => exact .token hpeek (by simp) (.done ⟨.pass, by simp [Stmt.exprs]⟩)
  case h_9 => exact hi.exprStatement room ts
  all_goals exact .fail rfl

theorem simpleLine :
    Reads (fun next s ts => (∃ us vs, ts = us ++ vs ∧ Stmt.Simple s us ∧ LineEnd next vs) ∧
      Shallow (deepestSub n room) s.exprs) (inner.simpleLine room) := by
  refine fun ts => (hi.simpleStatement room ts).bind fun s us rest _ hs => ?_
  exact (reads_endStatement rest).last fun _ vs _ _ hend =>
    ⟨s, rfl, ⟨us, vs, rfl, hs.1, hend⟩, hs.2⟩

omit hi in
/-- A comma is followed by one more parameter, unless the count ran out before it. -/
theorem paramsFrom (fuel : Nat) (ts : List Token) (hfuel : ts.length ≤ fuel) :
    Takes (fun _ ps us => Param.Spelling ps us ∧ (0 < fuel → ps ≠ [])) ts
      (Level.paramsFrom fuel ts) := by
  induction fuel generalizing ts with
  | zero => exact .done ⟨.nil, fun h => absurd h (Nat.lt_irrefl 0)⟩
  | succ fuel ih =>
    unfold Level.paramsFrom Grammar.expectName
    dsimp only
    split
    case h_2 => exact .fail rfl
    case h_1 id hpeek =>
      refine .token hpeek (by simp) ?_
      dsimp only [bind, Except.bind]
      split
      case isTrue hcomma =>
        -- The count exceeds what is left to read, so there is another round, which gives a
        -- parameter.
        have hlength := congrArg List.length (eq_cons_of_peek hpeek (by simp))
        have hbehind := length_of_check hcomma (by simp)
        rw [List.length_cons] at hlength
        refine .token (eq_of_beq hcomma) (by simp) ((ih _ (by omega)).last fun ps us _ _ hps => ?_)
        obtain ⟨q, qs, rfl⟩ := List.exists_cons_of_ne_nil (hps.2 (by omega))
        exact ⟨_, rfl, .cons (p := ⟨id, (peek ts).pos⟩) hps.1, fun _ => by simp⟩
      case isFalse => exact .done ⟨.last (p := ⟨id, (peek ts).pos⟩), fun _ => by simp⟩

variable {ts : List Token}

theorem funcStatement (hfunc : (peek ts).kind = .funcKw) :
    Takes (FitsStmt (deepestSub n room)) ts (inner.funcStatement room ts) := by
  rw [funcStatement_eq]
  refine .token hfunc (by simp) (.expectName _ fun id rest => .expect _ (by simp)
    fun opening inside => ?_)
  have hparams : Takes (fun _ ps us => Param.Spelling ps us) inside
      (if check .rightParen inside then .ok ([], inside)
          else Level.paramsFrom inside.length inside) := by
    split
    case isTrue => exact .done .nil
    case isFalse => exact (paramsFrom _ inside (Nat.le_refl _)).mono fun _ _ _ hps => hps.1
  refine hparams.bind fun params us rest _ hps => .expect _ (by simp) fun close behind => ?_
  exact (hi.subBlock room _ behind).last fun body vs _ _ hbody =>
    ⟨_, rfl, .func hps hbody.1, hbody.2⟩

theorem elseFrom (fuel : Nat) :
    Reads (fun next r us => Else.Spelling next r us ∧ Shallow (deepestSub n room) r.exprs)
      (inner.elseFrom room fuel) := by
  induction fuel with
  | zero => exact fun ts => .done ⟨.nothing, by simp [Else.exprs]⟩
  | succ fuel ih =>
    intro ts
    unfold Level.elseFrom
    dsimp only
    split
    case isTrue helse =>
      refine .token (eq_of_beq helse) (by simp) ?_
      split
      case isTrue hif =>
        refine .token (eq_of_beq hif) (by simp) ((hi.subExpr room _).bind
          fun cond us behind _ hcond => ?_)
        refine (hi.subBlock room _ behind).bind fun body vs rest _ hbody => (ih rest).last
          fun tail ws _ hws htail => ?_
        -- The block is followed by the tail, if there is one, or by what follows the statement.
        rw [hws, peek_append] at hbody
        refine ⟨_, rfl, .elseIf hcond.spelling hbody.1 htail.1, ?_⟩
        simpa [Else.exprs] using ⟨hcond.depth_le, hbody.2, htail.2⟩
      case isFalse =>
        exact (hi.subBlock room _ _).last fun body us _ _ hbody => ⟨_, rfl, .block hbody.1, hbody.2⟩
    case isFalse => exact .done ⟨.nothing, by simp [Else.exprs]⟩

theorem ifStatement (hif : (peek ts).kind = .ifKw) :
    Takes (FitsStmt (deepestSub n room)) ts (inner.ifStatement room ts) := by
  refine .token hif (by simp) ((hi.subExpr room _).bind fun cond us behind _ hcond => ?_)
  refine (hi.subBlock room _ behind).bind fun body vs rest _ hbody =>
    (hi.elseFrom room _ rest).last fun tail ws _ hws htail => ?_
  rw [hws, peek_append] at hbody
  refine ⟨_, rfl, .branch hcond.spelling hbody.1 htail.1, ?_⟩
  simpa [Stmt.exprs] using ⟨hcond.depth_le, hbody.2, htail.2⟩

theorem whileStatement (hwhile : (peek ts).kind = .whileKw) :
    Takes (FitsStmt (deepestSub n room)) ts (inner.whileStatement room ts) := by
  refine .token hwhile (by simp) ((hi.subExpr room _).bind fun cond us behind _ hcond => ?_)
  refine (hi.subBlock room _ behind).last fun body vs _ _ hbody => ⟨_, rfl,
    .loop hcond.spelling hbody.1, ?_⟩
  simpa [Stmt.exprs] using ⟨hcond.depth_le, hbody.2⟩

theorem statement : Reads (FitsStmt (deepestSub n room)) (inner.statement room) := by
  intro ts
  unfold Level.statement
  split
  case h_1 hpeek => exact hi.funcStatement room hpeek
  case h_2 hpeek => exact hi.ifStatement room hpeek
  case h_3 hpeek => exact hi.whileStatement room hpeek
  case h_4 => exact .fail rfl
  case h_5 =>
    refine (hi.simpleLine room ts).mono fun _ s _ hs => ?_
    obtain ⟨⟨us, vs, rfl, hs, hend⟩, hshallow⟩ := hs
    exact ⟨.simple hs hend, hshallow⟩

/-- With enough rounds, statements are read up to the end of the input or of the block. -/
theorem statements (inBlock : Bool) (fuel : Nat) (ts : List Token) (hfuel : ts.length < fuel) :
    Takes (fun next ss us => Stmt.Lines next ss us ∧
      Shallow (deepestSub n room) (Stmt.allExprs ss) ∧
      (next = .endOfInput ∨ inBlock = true ∧ next = .dedent)) ts
        (inner.statements room inBlock fuel ts) := by
  induction fuel generalizing ts with
  | zero => exact absurd hfuel (Nat.not_lt_zero _)
  | succ fuel ih =>
    unfold Level.statements
    split
    case h_1 hpeek => exact .done ⟨.nil, by simp [Stmt.allExprs], .inl hpeek⟩
    case h_2 hpeek => exact .done ⟨.nil, by simp [Stmt.allExprs], .inr ⟨rfl, hpeek⟩⟩
    case h_3 hpeek =>
      have hlength := congrArg List.length (eq_cons_of_peek hpeek (by simp))
      rw [List.length_cons] at hlength
      exact .token hpeek (by simp) ((ih _ (by omega)).mono fun _ _ _ hss => ⟨.blank hss.1, hss.2⟩)
    case h_4 =>
      refine (hi.statement room ts).bind fun s us rest hts hs => ?_
      -- A statement takes at least one token.
      obtain ⟨t, us', hus, -⟩ := hs.1.opens
      rw [hts, hus, List.cons_append, List.length_cons, List.length_append] at hfuel
      refine (ih rest (by omega)).last fun ss vs _ hvs hss => ?_
      rw [hvs, peek_append] at hs
      exact ⟨_, rfl, .cons hs.1 hss.1, by simpa [Stmt.allExprs] using ⟨hs.2, hss.2.1⟩, hss.2.2⟩

theorem blockWithin (context : String) :
    Reads (FitsBlock (deepestSub n room)) (inner.blockWithin context room) := by
  refine fun ts => .expect context (by simp) fun colon behind => ?_
  dsimp only
  split
  case isTrue hline =>
    refine .token (eq_of_beq hline) (by simp) ?_
    split
    case isTrue hindent =>
      have hlength := length_of_check hindent (by simp)
      refine .token (eq_of_beq hindent) (by simp)
        ((hi.statements room true _ _ (by omega)).bind fun body us rest _ hbody => ?_)
      obtain ⟨hlines, hshallow, hend⟩ := hbody
      -- If there is no end of the indentation, then there is nothing else either.
      dsimp only
      split
      case isTrue hdedent =>
        rw [eq_of_beq hdedent] at hlines
        exact .token (eq_of_beq hdedent) (by simp) (.done ⟨.indented hlines, hshallow⟩)
      case isFalse hdedent =>
        have hend : (peek rest).kind = .endOfInput :=
          hend.resolve_right fun h => hdedent (beq_of_eq h.2)
        rw [hend] at hlines
        refine .done ⟨?_, hshallow⟩
        rw [hend, List.append_nil]
        exact .toEnd hlines
    case isFalse => exact .fail rfl
  case isFalse =>
    refine (hi.simpleLine room behind).last fun s ts' _ _ hs => ?_
    obtain ⟨⟨us, vs, rfl, hs, hend⟩, hshallow⟩ := hs
    exact ⟨_, rfl, .line hs hend, by simpa [Stmt.allExprs] using hshallow⟩

theorem within : inner.within.Sound (n + 1) where
  expr := hi.exprWithin
  notExpr room ts := (hi.notWithin room ts).mono fun _ e _ he => by
    refine ⟨he.spelling, Nat.le_trans he.depth_le ?_⟩
    show _ ≤ deepest n room
    rw [deepest_eq]
    omega
  signed := hi.signedWithin
  block context room ts := (hi.blockWithin room context ts).mono fun _ ss _ hss =>
    ⟨hss.1, fun e he => Nat.le_trans (hss.2 e he) (deepestSub_le n room)⟩

end Sound

end Level

theorem sound_levels (n : Nat) : (levels n).Sound n := by
  induction n with
  | zero =>
    exact ⟨fun _ _ => .fail rfl, fun _ _ => .fail rfl, fun _ _ => .fail rfl, fun _ _ _ => .fail rfl⟩
  | succ n ih => exact ih.within

/-! ## Counts

Every round of a loop takes a token, so a loop that may go round once per token ends by itself. -/

/-- One parser after the other. -/
theorem exists_of_bind {ε : Type} {x : Except ε (α × List Token)} {f : α × List Token → Except ε β}
    {b : β} (h : x >>= f = .ok b) : ∃ a rest, x = .ok (a, rest) ∧ f (a, rest) = .ok b := by
  cases x with
  | error e => exact nomatch h
  | ok p => exact ⟨p.1, p.2, rfl, h⟩

theorem bind_congr_ok {ε : Type} {x : Except ε α} {f g : α → Except ε β}
    (h : ∀ a, x = .ok a → f a = g a) : x >>= f = x >>= g := by
  cases x with
  | error e => rfl
  | ok a => exact h a rfl

variable {rest : List Token}

theorem Takes.taken {a : α} (h : Takes P ts (.ok (a, rest))) :
    ∃ us, ts = us ++ rest ∧ BeforeEnd us ∧ P (peek rest).kind a us := by
  cases h with
  | ok split before h => exact ⟨_, split, before, h⟩

theorem Reads.length_le {p : Parser α} (hp : Reads P p) {a : α}
    (h : p ts = .ok (a, rest)) : rest.length ≤ ts.length := by
  obtain ⟨us, rfl, -⟩ := (h ▸ hp ts).taken
  simp

/-- A count that makes no difference once it is large enough. -/
theorem eq_of_succ {f : Nat → β} {n fuel : Nat} (hf : ∀ k, n ≤ k → f (k + 1) = f k) (h : n ≤ fuel) :
    f fuel = f n := by
  induction h with
  | refl => rfl
  | step h ih => exact (hf _ h).trans ih

theorem itemsFrom_succ {item : Parser Expr} {d fuel : Nat}
    (hitem : Reads (Fits .disjunction d) item) (close : TokenKind) (h : ts.length ≤ fuel)
    (hpos : 0 < fuel) : itemsFrom item close (fuel + 1) ts = itemsFrom item close fuel ts := by
  induction fuel generalizing ts with
  | zero => exact absurd hpos (Nat.lt_irrefl 0)
  | succ fuel ih =>
    refine bind_congr_ok fun ⟨e, rest⟩ he => ?_
    -- The item has a first token, so the count is still large enough behind it.
    obtain ⟨us, rfl, -, hus⟩ := (he ▸ hitem ts).taken
    obtain ⟨t, us, rfl, -⟩ := hus.spelling.opens
    dsimp only
    split
    case isTrue hcomma =>
      have hrest := length_of_check (Bool.and_eq_true_iff.1 hcomma).1 (by simp)
      simp only [List.length_append, List.length_cons] at h
      rw [ih (by omega) (by omega)]
    case isFalse => rfl

theorem paramsFrom_succ {fuel : Nat} (h : ts.length ≤ fuel) (hpos : 0 < fuel) :
    Level.paramsFrom (fuel + 1) ts = Level.paramsFrom fuel ts := by
  induction fuel generalizing ts with
  | zero => exact absurd hpos (Nat.lt_irrefl 0)
  | succ fuel ih =>
    refine bind_congr_ok fun ⟨p, rest⟩ hp => ?_
    have hname : ts.length = rest.length + 1 := by
      unfold expectName at hp
      dsimp only at hp
      split at hp
      case h_1 id hpeek =>
        cases hp
        exact congrArg List.length (eq_cons_of_peek hpeek (by simp))
      case h_2 => exact nomatch hp
    dsimp only
    split
    case isTrue hcomma =>
      have hrest := length_of_check hcomma (by simp)
      rw [ih (by omega) (by omega)]
    case isFalse => rfl

namespace Level.Sound

variable {inner : Level} {n : Nat} (hi : inner.Sound n) (room : Nat)

include hi

variable {ts : List Token}

/-- A statement takes at least one token. -/
theorem statement_progress {s : Stmt}
    (h : inner.statement room ts = .ok (s, rest)) : rest.length < ts.length := by
  obtain ⟨us, rfl, -, hs, -⟩ := (h ▸ hi.statement room ts).taken
  obtain ⟨t, us, rfl, -⟩ := hs.opens
  simp only [List.length_append, List.length_cons]
  omega

theorem elseFrom_succ {fuel : Nat} (h : ts.length ≤ fuel) :
    inner.elseFrom room (fuel + 1) ts = inner.elseFrom room fuel ts := by
  induction fuel generalizing ts with
  | zero =>
    obtain rfl := List.length_eq_zero_iff.1 (Nat.le_zero.1 h)
    rfl
  | succ fuel ih =>
    unfold Level.elseFrom
    dsimp only
    split
    case isTrue helse =>
      have := length_of_check helse (by simp)
      split
      case isTrue hif =>
        have := length_of_check hif (by simp)
        refine bind_congr_ok fun ⟨cond, behind⟩ hcond => bind_congr_ok fun ⟨body, rest⟩ hbody => ?_
        have := (hi.subExpr room).length_le hcond
        have := (hi.subBlock room _).length_le hbody
        dsimp only at *
        rw [ih (by omega)]
      case isFalse => rfl
    case isFalse => rfl

theorem statements_succ (inBlock : Bool) {fuel : Nat} (h : ts.length ≤ fuel) :
    inner.statements room inBlock (fuel + 1) ts = inner.statements room inBlock fuel ts := by
  induction fuel generalizing ts with
  | zero =>
    obtain rfl := List.length_eq_zero_iff.1 (Nat.le_zero.1 h)
    rfl
  | succ fuel ih =>
    unfold Level.statements
    split
    case h_1 | h_2 => rfl
    case h_3 hpeek =>
      have := congrArg List.length (eq_cons_of_peek hpeek (by simp))
      rw [List.length_cons] at this
      exact ih (by omega)
    case h_4 =>
      refine bind_congr_ok fun ⟨s, rest⟩ hs => ?_
      have := hi.statement_progress room hs
      dsimp only
      rw [ih (by omega)]

end Level.Sound

/-- No loop behind a level is cut short: with a round for each token, more rounds make no
difference. -/
structure Level.Settled (inner : Level) : Prop where
  items (room : Nat) (close : TokenKind) (ts : List Token) (fuel : Nat) (hts : ts ≠ [])
    (h : ts.length ≤ fuel) : itemsFrom (inner.subExpr room) close fuel ts =
      itemsFrom (inner.subExpr room) close ts.length ts
  params (ts : List Token) (fuel : Nat) (hts : ts ≠ []) (h : ts.length ≤ fuel) :
    Level.paramsFrom fuel ts = Level.paramsFrom ts.length ts
  elses (room : Nat) (ts : List Token) (fuel : Nat) (h : ts.length ≤ fuel) :
    inner.elseFrom room fuel ts = inner.elseFrom room ts.length ts
  statements (room : Nat) (inBlock : Bool) (ts : List Token) (fuel : Nat) (h : ts.length ≤ fuel) :
    inner.statements room inBlock fuel ts = inner.statements room inBlock ts.length ts

theorem Level.Sound.settled {inner : Level} {n : Nat} (hi : inner.Sound n) : inner.Settled where
  items room close ts _ hts :=
    eq_of_succ (f := (itemsFrom (inner.subExpr room) close · ts)) fun _ hk =>
      itemsFrom_succ (hi.subExpr room) close hk (Nat.lt_of_lt_of_le (List.length_pos_iff.2 hts) hk)
  params ts _ hts := eq_of_succ (f := (Level.paramsFrom · ts)) fun _ hk =>
    paramsFrom_succ hk (Nat.lt_of_lt_of_le (List.length_pos_iff.2 hts) hk)
  elses room ts _ :=
    eq_of_succ (f := (inner.elseFrom room · ts)) fun _ hk => hi.elseFrom_succ room hk
  statements room inBlock ts _ :=
    eq_of_succ (f := (inner.statements room inBlock · ts)) fun _ hk =>
      hi.statements_succ room inBlock hk

/-! ## Programs -/

/-- What stands before the end of the input is taken whole. -/
theorem eq_of_beforeEnd {ts us rest : List Token} {pos : Position}
    (h : ts ++ [⟨.endOfInput, pos⟩] = us ++ rest) (hts : BeforeEnd ts) (hus : BeforeEnd us)
    (hrest : (peek rest).kind = .endOfInput) : us = ts ∧ rest = [⟨.endOfInput, pos⟩] := by
  -- Neither of the two parts can end before the other one: it would be followed by the end of the
  -- input.
  induction ts generalizing us with
  | nil =>
    cases us with
    | nil => exact ⟨rfl, h.symm⟩
    | cons t us =>
      obtain ⟨rfl, -⟩ := List.cons.inj h
      exact absurd rfl (beforeEnd_cons.1 hus).1
  | cons t ts ih =>
    cases us with
    | nil =>
      rw [List.nil_append] at h
      subst h
      exact absurd hrest (beforeEnd_cons.1 hts).1
    | cons t' us =>
      rw [List.cons_append, List.cons_append, List.cons.injEq] at h
      obtain ⟨rfl, h⟩ := h
      obtain ⟨rfl, rfl⟩ := ih h (beforeEnd_cons.1 hts).2 (beforeEnd_cons.1 hus).2
      exact ⟨rfl, rfl⟩

/-- A program is read up to the end of the input, and no further. -/
theorem statements_program (n room fuel : Nat) (ts : List Token) (pos : Position)
    (hts : BeforeEnd ts) (hfuel : ts.length + 1 < fuel) {program : Program}
    (h : (levels n).statements room false fuel (ts ++ [⟨.endOfInput, pos⟩]) = .ok (program, rest)) :
    Program.Spelling program ts ∧ rest = [⟨.endOfInput, pos⟩] := by
  obtain ⟨us, hus, hbefore, hlines, -, hstop⟩ :=
    (h ▸ (sound_levels n).statements room false fuel _ (by simpa using hfuel)).taken
  have hstop : (peek rest).kind = .endOfInput := hstop.resolve_right fun h => (nomatch h.1)
  obtain ⟨rfl, rfl⟩ := eq_of_beforeEnd hus hts hbefore hstop
  rw [hstop] at hlines
  exact ⟨hlines, rfl⟩

end Grammar

open Grammar

theorem parse_eq (input : List Token) :
    parse input =
      (levels maxNesting).statements maxExprDepth false (input.length + 1) input >>= fun result =>
        .ok result.1 := rfl

/-- **Tokens and trees agree.** For tokens that end with the end of the input, a program that comes
out is spelled by exactly the tokens before it. The statements are read up to the end of the input,
however many rounds are allowed, and neither is any other loop of the grammar cut short. -/
theorem parse_spells (ts : List Token) (pos : Position) (hts : BeforeEnd ts) :
    (∀ program, parse (ts ++ [⟨.endOfInput, pos⟩]) = .ok program → Program.Spelling program ts) ∧
    (∀ fuel, ts.length + 1 ≤ fuel →
      (levels maxNesting).statements maxExprDepth false fuel (ts ++ [⟨.endOfInput, pos⟩]) =
        (parse (ts ++ [⟨.endOfInput, pos⟩])).map (·, [⟨.endOfInput, pos⟩])) ∧
    ∀ n, (levels n).Settled := by
  generalize hinput : ts ++ [⟨.endOfInput, pos⟩] = input
  have hlength : input.length = ts.length + 1 := by simp [← hinput]
  have hread {program rest}
      (h : (levels maxNesting).statements maxExprDepth false (input.length + 1) input =
      .ok (program, rest)) : Program.Spelling program ts ∧ rest = [⟨.endOfInput, pos⟩] := by
    subst hinput
    exact statements_program _ _ _ ts pos hts (by omega) h
  refine ⟨fun program h => ?_, fun fuel hfuel => ?_, fun n => (sound_levels n).settled⟩
  · obtain ⟨program', rest, hstatements, h⟩ := exists_of_bind h
    cases h
    exact (hread hstatements).1
  · have hsettled := (sound_levels maxNesting).settled.statements maxExprDepth false input
    rw [hsettled fuel (by omega), ← hsettled (input.length + 1) (by omega), parse_eq]
    cases hstatements :
        (levels maxNesting).statements maxExprDepth false (input.length + 1) input with
    | error e => rfl
    | ok result =>
      obtain ⟨program, rest⟩ := result
      obtain ⟨-, rfl⟩ := hread hstatements
      rfl

/-- `while (a):` and an indented line `f(b,)` whose block is closed by the end of the input. -/
theorem parse_spells_unclosed :
    Program.Spelling [.loop (.name {} "a") [.expr (.call {} (.name {} "f") [.name {} "b"])]]
      ([.whileKw, .leftParen, .name "a", .rightParen, .colon, .newline, .indent, .name "f",
        .leftParen, .name "b", .comma, .rightParen].map (⟨·, {}⟩)) :=
  (parse_spells _ {} (by simp)).1 _ (by cbv)

/-- An empty line before the first statement belongs to no statement. -/
theorem parse_empty_line_first :
    parse [⟨.newline, ⟨1, 1, 0⟩⟩, ⟨.name "x", ⟨1, 2, 1⟩⟩, ⟨.endOfInput, ⟨1, 3, 2⟩⟩] =
        .ok [.expr (.name ⟨1, 2, 1⟩ "x")] ∧
      ∀ next us vs, [⟨.newline, ⟨1, 1, 0⟩⟩, ⟨.name "x", ⟨1, 2, 1⟩⟩] = us ++ vs →
        ¬Stmt.Spelling next (.expr (.name ⟨1, 2, 1⟩ "x")) us := by
  refine ⟨by cbv, fun next us vs h hspelled => ?_⟩
  obtain ⟨t, us, rfl, ht⟩ := hspelled.opens
  obtain ⟨rfl, -⟩ := List.cons.inj h
  exact ht

end ScriptMachine
