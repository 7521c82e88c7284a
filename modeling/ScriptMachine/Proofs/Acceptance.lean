import ScriptMachine.Proofs.Towers
/-!
# Every spelling is accepted

Tokens that spell a program are read as this program, unless there are too many levels. Before an
operator that goes on with a chain, what was read so far is its first operand.

* `Grammar.Level.read`, `Grammar.Level.resume`: the parser of a strength, and the rest of it behind
  an operand;
* `Expr.Spelling.accepted`, `Stmt.Spelling.accepted`, `Program.Spelling.accepted`.
-/

namespace ScriptMachine

namespace Grammar

open Tower (binding)

variable {α β : Type}

/-! ## Too many levels -/

/-- The first answer is the second one, or that there are too many levels, which is possible only if
the condition holds. -/
def UnlessTooDeep (deep : Prop) (x y : Except SyntaxError α) : Prop :=
  x = y ∨ deep ∧ ∃ pos, x = .error ⟨.tooManyLevels, pos⟩

/-- There may be more tokens than levels or room. -/
abbrev Short (n room size : Nat) : Prop := n < size ∨ room < size

namespace UnlessTooDeep

variable {deep deep' : Prop} {x y z : Except SyntaxError α}

theorem refl (x : Except SyntaxError α) : UnlessTooDeep deep x x := .inl rfl

theorem tooDeep {y : Except SyntaxError (α × List Token)} (h : deep) (ts : List Token) :
    UnlessTooDeep deep (Grammar.tooDeep ts) y := .inr ⟨h, _, rfl⟩

theorem mono (h : UnlessTooDeep deep x y) (hdeep : deep → deep') : UnlessTooDeep deep' x y :=
  h.imp_right (.imp_left hdeep)

theorem trans (h : UnlessTooDeep deep x y) (h' : UnlessTooDeep deep y z) :
    UnlessTooDeep deep x z := by
  obtain rfl | h := h
  · exact h'
  · exact .inr h

theorem congr_bind (h : UnlessTooDeep deep x y) (f : α → Except SyntaxError β) :
    UnlessTooDeep deep (x >>= f) (y >>= f) := by
  obtain rfl | ⟨hdeep, pos, rfl⟩ := h
  · exact .refl _
  · exact .inr ⟨hdeep, pos, rfl⟩

/-- What comes behind a parser goes on with its answer. -/
theorem bind {a : α} (h : UnlessTooDeep deep x (.ok a)) {f : α → Except SyntaxError β}
    {z : Except SyntaxError β} (hf : UnlessTooDeep deep (f a) z) : UnlessTooDeep deep (x >>= f) z :=
  (h.congr_bind f).trans hf

/-- The same for a parser that takes a part of the tokens. -/
theorem followed {a : α} (h : UnlessTooDeep deep x (.ok a)) (hdeep : deep → deep')
    {f : α → Except SyntaxError β} {z : Except SyntaxError β} (hf : UnlessTooDeep deep' (f a) z) :
    UnlessTooDeep deep' (x >>= f) z :=
  (h.mono hdeep).bind hf

end UnlessTooDeep

/-- What is one level further in has one level and some room less. -/
theorem unlessTooDeep_enter {p : Nat → Nat → Parser α} (hp : ∀ room ts, p 0 room ts = tooDeep ts)
    {ts : List Token} {y : Except SyntaxError (α × List Token)} {size : Nat}
    (h : ∀ n room, UnlessTooDeep (Short n room size) (p (n + 1) room ts) y) (n room : Nat) :
    UnlessTooDeep (Short n room (size + 1)) (enter (p n) room ts) y := by
  cases room with
  | zero => exact .tooDeep (.inr (Nat.succ_pos size)) ts
  | succ room =>
    cases n with
    | zero =>
      show UnlessTooDeep _ (p 0 room ts) y
      rw [hp]
      exact .tooDeep (.inl (Nat.succ_pos size)) ts
    | succ n => exact (h n room).mono (Or.imp Nat.succ_lt_succ Nat.succ_lt_succ)

/-! ## Parsers by strength -/

end Grammar

variable {kind : TokenKind}

namespace Strength

open Grammar

/-- The operators of the chains of a strength. -/
def op? : Strength → TokenKind → Option (Position → Expr → Expr → Expr)
  | .disjunction => orOp
  | .conjunction => andOp
  | .comparison => comparisonOp
  | .sum => sumOp
  | .product => productOp
  | _ => fun _ => none

/-- Expressions of the strength are chains of operators. -/
def Chains (k : Strength) : Prop := k ∈ [.disjunction, .conjunction, .comparison, .sum, .product]

theorem Chains.ne_suffixed {k : Strength} (h : k.Chains) : k ≠ .suffixed := by
  rintro rfl
  exact absurd h (by simp [Chains])

/-- An expression is ended by any token that binds less tightly. -/
def limit : Strength → Nat
  | .disjunction => 1
  | .conjunction => 2
  | .negation | .comparison => 3
  | .sum => 4
  | .product => 5
  | .signed | .power => 6
  | .suffixed => 7

/-- An expression is ended, or is the first operand of a greater one, before any token that binds
less tightly. -/
def reach : Strength → Nat
  | .disjunction => 2
  | .conjunction | .negation => 3
  | .comparison => 4
  | .sum => 5
  | .product | .signed | .power => 6
  | .suffixed => 8

theorem limit_le_reach (k : Strength) : k.limit ≤ k.reach := by cases k <;> decide

theorem reach_le_limit {k : Strength} (hk : k ≠ .suffixed) : k.reach ≤ k.tighter.limit := by
  cases k <;> first | decide | exact absurd rfl hk

theorem op?_eq_none {k : Strength} (h : Tower.binding kind < k.limit) : k.op? kind = none := by
  cases k with
  | disjunction => exact Tower.orOp_none kind h
  | conjunction => exact Tower.andOp_none kind h
  | comparison => exact Tower.comparisonOp_none kind h
  | sum => exact Tower.sumOp_none kind h
  | product => exact Tower.productOp_none kind h
  | _ => rfl

end Strength

section

variable {op : BinaryOp} (h : op.strength ≠ .power)

include h

theorem BinaryOp.op?_kind : op.strength.op? op.kind = some (.binary · op) := by
  cases op <;> first | rfl | exact absurd rfl h

theorem BinaryOp.chains : op.strength.Chains := by
  cases op <;> first | exact absurd rfl h | simp [Strength.Chains, BinaryOp.strength]

theorem BinaryOp.binding_kind : Grammar.Tower.binding op.kind < op.strength.reach := by
  cases op <;> first | decide | exact absurd rfl h

end

theorem LogicalOp.op?_kind (op : LogicalOp) : op.strength.op? op.kind = some (.logical · op) := by
  cases op <;> rfl

theorem LogicalOp.chains (op : LogicalOp) : op.strength.Chains := by
  cases op <;> simp [Strength.Chains, LogicalOp.strength]

theorem LogicalOp.binding_kind (op : LogicalOp) :
    Grammar.Tower.binding op.kind < op.strength.reach := by
  cases op <;> decide

namespace Grammar

open Tower (binding)

namespace Level

/-- The parser for expressions of a strength. -/
def read (inner : Level) : Strength → Nat → Parser Expr
  | .disjunction => inner.exprWithin
  | .conjunction => chain andOp inner.notWithin
  | .negation => inner.notWithin
  | .comparison => inner.comparisonWithin
  | .sum => chain sumOp (chain productOp inner.signedWithin)
  | .product => chain productOp inner.signedWithin
  | .signed => inner.signedWithin
  | .power => inner.powerWithin
  | .suffixed => postfixExpr inner.subExpr

/-- What the parser does behind an expression of the strength: it goes on with its chain or its
suffixes. -/
def resume (inner : Level) (k : Strength) (room : Nat) (e : Expr) : Parser Expr :=
  match k with
  | .suffixed => suffixes inner.subExpr room e
  | k => chainFrom k.op? (inner.read k.tighter) room e

variable {inner : Level} {k : Strength}

theorem read_of_chains (hk : k.Chains) : inner.read k = chain k.op? (inner.read k.tighter) := by
  simp only [Strength.Chains, List.mem_cons, List.not_mem_nil, or_false] at hk
  obtain rfl | rfl | rfl | rfl | rfl := hk <;> rfl

theorem resume_suffixed (room : Nat) (e : Expr) :
    inner.resume .suffixed room e = suffixes inner.subExpr room e := rfl

theorem resume_of_ne (hk : k ≠ .suffixed) (room : Nat) (e : Expr) :
    inner.resume k room e = chainFrom k.op? (inner.read k.tighter) room e := by
  cases k <;> first | rfl | exact absurd rfl hk

theorem resume_stop {rest : List Token} (h : binding (peek rest).kind < k.limit)
    (room : Nat) (e : Expr) : inner.resume k room e rest = .ok (e, rest) := by
  by_cases hk : k = .suffixed
  · subst hk
    exact Tower.suffixes_stop h e
  · rw [resume_of_ne hk]
    unfold chainFrom
    rw [Strength.op?_eq_none h]

end Level

/-! ## Expressions -/

/-- Whatever follows the tokens and does not belong to the expression, it is read up to there and
gone on with. No token takes more than one level or node of room. -/
def Accepts (k : Strength) (e : Expr) (ts : List Token) : Prop :=
  ∀ n room rest, binding (peek rest).kind < k.reach →
    ∃ room', room ≤ room' + ts.length ∧
      UnlessTooDeep (Short n room ts.length) ((levels n).read k room (ts ++ rest))
        ((levels n).resume k room' e rest)

namespace Accepts

variable {k : Strength} {e f : Expr} {ts us rest : List Token} {pos : Position}

theorem whole (h : Accepts k e ts) (n room : Nat) (hrest : binding (peek rest).kind < k.limit) :
    UnlessTooDeep (Short n room ts.length) ((levels n).read k room (ts ++ rest))
      (.ok (e, rest)) := by
  obtain ⟨room', -, h⟩ := h n room rest (Nat.lt_of_lt_of_le hrest k.limit_le_reach)
  rwa [Level.resume_stop hrest] at h

/-- Where no chain may go on, it is enough to read the expression. -/
theorem of_whole (hk : k.reach = k.limit) (h : ∀ n room rest, binding (peek rest).kind < k.limit →
    UnlessTooDeep (Short n room ts.length) ((levels n).read k room (ts ++ rest)) (.ok (e, rest))) :
    Accepts k e ts := by
  intro n room rest hrest
  rw [hk] at hrest
  refine ⟨room, Nat.le_add_right _ _, ?_⟩
  rw [Level.resume_stop hrest]
  exact h n room rest hrest

/-- An expression one level further in. -/
theorem sub (h : Accepts .disjunction e ts) (n room : Nat) (hrest : binding (peek rest).kind < 1) :
    UnlessTooDeep (Short n room (ts.length + 1)) ((levels n).subExpr room (ts ++ rest))
      (.ok (e, rest)) :=
  unlessTooDeep_enter (p := fun n => (levels n).expr) (fun _ _ => rfl)
    (fun n room => h.whole n room hrest) n room

theorem subNot (h : Accepts .negation e ts) (n room : Nat) (hrest : binding (peek rest).kind < 3) :
    UnlessTooDeep (Short n room (ts.length + 1)) (enter (levels n).notExpr room (ts ++ rest))
      (.ok (e, rest)) :=
  unlessTooDeep_enter (p := fun n => (levels n).notExpr) (fun _ _ => rfl)
    (fun n room => h.whole n room hrest) n room

theorem subSigned (h : Accepts .signed e ts) (n room : Nat) (hrest : binding (peek rest).kind < 6) :
    UnlessTooDeep (Short n room (ts.length + 1)) (enter (levels n).signed room (ts ++ rest))
      (.ok (e, rest)) :=
  unlessTooDeep_enter (p := fun n => (levels n).signed) (fun _ _ => rfl)
    (fun n room => h.whole n room hrest) n room

/-- An operand is a chain of its own. -/
theorem of_chains (hk : k.Chains) (h : Accepts k.tighter e ts) : Accepts k e ts := by
  intro n room rest hrest
  refine ⟨room, Nat.le_add_right _ _, ?_⟩
  rw [Level.read_of_chains hk, Level.resume_of_ne hk.ne_suffixed]
  exact (h.whole n room (Nat.lt_of_lt_of_le hrest (Strength.reach_le_limit hk.ne_suffixed))).bind
    (.refl _)

theorem opens_append (h : Expr.Spelling k e ts) (rest : List Token) :
    k.Opens (peek (ts ++ rest)).kind := by
  obtain ⟨t, us, rfl, ht⟩ := h.opens
  exact ht

theorem check_false_of_opens (h : Expr.Spelling k e ts) (hk : ¬k.Opens kind) (rest : List Token) :
    check kind (ts ++ rest) = false := by
  refine beq_eq_false_iff_ne.2 fun heq => hk ?_
  rw [← heq]
  exact opens_append h rest

theorem negation (hspelled : Expr.Spelling .comparison e ts) (h : Accepts .comparison e ts) :
    Accepts .negation e ts := by
  refine of_whole rfl fun n room rest hrest => ?_
  have hread : (levels n).read .negation room (ts ++ rest) = (levels n).read .comparison room
      (ts ++ rest) := by
    show (levels n).notWithin room (ts ++ rest) = _
    unfold Level.notWithin
    rw [check_false_of_opens hspelled (by simp [Strength.Opens, Strength.rank])]
    rfl
  rw [hread]
  exact h.whole n room hrest

theorem signed (hspelled : Expr.Spelling .power e ts) (h : Accepts .power e ts) :
    Accepts .signed e ts := by
  refine of_whole rfl fun n room rest hrest => ?_
  have hread : (levels n).read .signed room (ts ++ rest) =
      (levels n).read .power room (ts ++ rest) := by
    show (levels n).signedWithin room (ts ++ rest) = _
    unfold Level.signedWithin
    rw [check_false_of_opens hspelled (by simp [Strength.Opens, Strength.rank])]
    rfl
  rw [hread]
  exact h.whole n room hrest

theorem power (h : Accepts .suffixed e ts) : Accepts .power e ts := by
  refine of_whole rfl fun n room rest hrest =>
    (h.whole n room (Nat.lt_of_lt_of_le hrest (by decide))).bind ?_
  dsimp only
  rw [Tower.check_caret hrest]
  exact .refl _

/-- **Down to looser strengths.** -/
theorem of_tighter (hspelled : Expr.Spelling k.tighter e ts) (h : Accepts k.tighter e ts) :
    Accepts k e ts := by
  cases k with
  | negation => exact .negation hspelled h
  | signed => exact .signed hspelled h
  | power => exact .power h
  | suffixed => exact h
  | _ => exact .of_chains (by simp [Strength.Chains]) h

/-- An operator goes on with a chain. -/
theorem join {node : Position → Expr → Expr → Expr} (hk : k.Chains)
    (hnode : k.op? kind = some node) (hbinding : binding kind < k.reach) (hlhs : Accepts k e ts)
    (hrhs : Accepts k.tighter f us) (pos : Position) :
    Accepts k (node pos e f) (ts ++ ⟨kind, pos⟩ :: us) := by
  intro n room rest hrest
  -- Up to the operator it is the chain of the first operand, which is resumed there.
  obtain ⟨room', hroom, h⟩ := hlhs n room (⟨kind, pos⟩ :: (us ++ rest)) hbinding
  rw [Level.resume_of_ne hk.ne_suffixed] at h
  unfold chainFrom at h
  rw [peek_cons, hnode] at h
  rw [List.append_assoc]
  simp only [List.length_append, List.length_cons]
  have h : UnlessTooDeep (Short n room (ts.length + (us.length + 1))) _ _ := h.mono (by omega)
  cases room' with
  | zero =>
    -- The first operand took all of the room.
    exact ⟨0, by omega, h.trans (.tooDeep (.inr (by omega)) _)⟩
  | succ room' =>
    have hwhole :=
      hrhs.whole n room' (Nat.lt_of_lt_of_le hrest (Strength.reach_le_limit hk.ne_suffixed))
    refine ⟨room', by omega, h.trans ?_⟩
    rw [Level.resume_of_ne hk.ne_suffixed]
    exact hwhole.followed (by omega) (.refl _)

theorem neg (h : Accepts .signed e ts) (pos : Position) :
    Accepts .signed (.unary pos .neg e) (⟨.minus, pos⟩ :: ts) :=
  of_whole rfl fun n room _ hrest => (h.subSigned n room hrest).bind (.refl _)

theorem not (h : Accepts .negation e ts) (pos : Position) :
    Accepts .negation (.unary pos .not e) (⟨.notKw, pos⟩ :: ts) :=
  of_whole rfl fun n room _ hrest => (h.subNot n room hrest).bind (.refl _)

theorem pow (hbase : Accepts .suffixed e ts) (hexponent : Accepts .signed f us) (pos : Position) :
    Accepts .power (.binary pos .pow e f) (ts ++ ⟨.caret, pos⟩ :: us) := by
  refine of_whole rfl fun n room rest hrest => ?_
  rw [List.append_assoc, List.length_append, List.length_cons]
  -- A power does not lean to the left: its base ends at the operator.
  have hcaret : binding (peek (⟨.caret, pos⟩ :: (us ++ rest))).kind < Strength.suffixed.limit :=
    Nat.le_refl 7
  refine (hbase.whole n room hcaret).followed (by omega) ?_
  exact (hexponent.subSigned n room hrest).followed (by omega) (.refl _)

/-! ### Suffixes -/

/-- A token or two in brackets, with the suffixes that follow. -/
theorem of_primary (h : ∀ n room rest,
    UnlessTooDeep (Short n room ts.length) (primary ((levels n).subExpr room) (ts ++ rest))
      (.ok (e, rest))) :
    Accepts .suffixed e ts :=
  fun n room rest _ => ⟨room, Nat.le_add_right _ _, (h n room rest).bind (.refl _)⟩

theorem number {text : String} {x : Double} (hx : Double.ofLiteral? text = some x)
    (pos : Position) : Accepts .suffixed (.number pos x) [⟨.number text, pos⟩] := by
  refine of_primary fun n room rest => ?_
  unfold primary
  simp only [List.cons_append, peek_cons, hx]
  exact .refl _

theorem parens (h : Accepts .disjunction e ts) (opening close : Position) :
    Accepts .suffixed e (⟨.leftParen, opening⟩ :: (ts ++ [⟨.rightParen, close⟩])) := by
  refine of_primary fun n room rest => ?_
  have hsub := @h.sub _ _ (⟨.rightParen, close⟩ :: rest) n room Nat.one_pos
  rw [List.cons_append, List.append_assoc, List.length_cons, List.length_append]
  exact hsub.followed (by omega) (.refl _)

variable (h : Accepts .suffixed e ts)

include h

/-- A suffix takes one node of room. -/
theorem suffix (hkind : kind = .leftParen ∨ kind = .leftBracket ∨ kind = .dot) {e' : Expr}
    (hsuffix : ∀ n room rest, UnlessTooDeep (Short n room us.length)
      (suffixes (levels n).subExpr (room + 1) e (⟨kind, pos⟩ :: (us ++ rest)))
      (suffixes (levels n).subExpr room e' rest)) :
    Accepts .suffixed e' (ts ++ ⟨kind, pos⟩ :: us) := by
  intro n room rest _
  have hbinding : binding kind < Strength.suffixed.reach := by
    obtain rfl | rfl | rfl := hkind <;> exact Nat.le_refl 8
  obtain ⟨room', hroom, h⟩ := h n room (⟨kind, pos⟩ :: (us ++ rest)) hbinding
  rw [Level.resume_suffixed] at h
  rw [List.append_assoc]
  simp only [List.length_append, List.length_cons]
  have h : UnlessTooDeep (Short n room (ts.length + (us.length + 1))) _ _ := h.mono (by omega)
  cases room' with
  | zero =>
    have htooDeep : suffixes (levels n).subExpr 0 e (⟨kind, pos⟩ :: (us ++ rest)) =
        tooDeep (⟨kind, pos⟩ :: (us ++ rest)) := by
      unfold suffixes
      obtain rfl | rfl | rfl := hkind <;> rfl
    rw [htooDeep] at h
    exact ⟨0, by omega, h.trans (.tooDeep (.inr (by omega)) _)⟩
  | succ room' => exact ⟨room', by omega, h.trans ((hsuffix n room' rest).mono (by omega))⟩

theorem member (id : String) (pos place : Position) :
    Accepts .suffixed (.member pos e id) (ts ++ [⟨.dot, pos⟩, ⟨.name id, place⟩]) := by
  refine h.suffix (.inr (.inr rfl)) fun n room rest => ?_
  conv =>
    arg 2
    unfold suffixes
  exact .refl _

theorem index (hplace : Accepts .disjunction f us) (pos close : Position) :
    Accepts .suffixed (.index pos e f)
      (ts ++ ⟨.leftBracket, pos⟩ :: (us ++ [⟨.rightBracket, close⟩])) := by
  refine h.suffix (.inr (.inl rfl)) fun n room rest => ?_
  have hsub := @hplace.sub _ _ (⟨.rightBracket, close⟩ :: rest) n room Nat.one_pos
  rw [List.length_append, List.append_assoc]
  conv =>
    arg 2
    unfold suffixes
  exact hsub.bind (.refl _)

end Accepts

/-- Items are read up to the closing bracket. -/
def AcceptsItems (es : List Expr) (ts : List Token) : Prop :=
  ∀ n room close pos rest fuel, close = .rightParen ∨ close = .rightBracket → ts.length ≤ fuel →
    UnlessTooDeep (Short n room (ts.length + 1))
      (itemsFrom ((levels n).subExpr room) close fuel (ts ++ ⟨close, pos⟩ :: rest))
        (.ok (es, ⟨close, pos⟩ :: rest))

variable {close : TokenKind}

namespace AcceptsItems

variable {e : Expr} {es : List Expr} {ts us : List Token}

theorem binding_close (h : close = .rightParen ∨ close = .rightBracket) : binding close < 1 := by
  obtain rfl | rfl := h <;> exact Nat.one_pos

variable (h : Accepts .disjunction e ts)

include h

theorem last (hts : ts ≠ []) : AcceptsItems [e] ts := by
  intro n room close pos rest fuel hclose hfuel
  obtain ⟨fuel, rfl⟩ : ∃ fuel', fuel = fuel' + 1 :=
    Nat.exists_eq_succ_of_ne_zero
      (Nat.ne_of_gt (Nat.lt_of_lt_of_le (List.length_pos_iff.2 hts) hfuel))
  have hsub := @h.sub _ _ (⟨close, pos⟩ :: rest) n room (binding_close hclose)
  refine hsub.bind ?_
  obtain rfl | rfl := hclose <;> exact .refl _

/-- A comma behind the last item. -/
theorem trailing (comma : Position) : AcceptsItems [e] (ts ++ [⟨.comma, comma⟩]) := by
  intro n room close pos rest fuel hclose hfuel
  rw [List.length_append, List.length_singleton] at *
  obtain ⟨fuel, rfl⟩ : ∃ fuel', fuel = fuel' + 1 := ⟨fuel - 1, by omega⟩
  have hsub := @h.sub _ _ (⟨.comma, comma⟩ :: ⟨close, pos⟩ :: rest) n room Nat.one_pos
  rw [List.append_assoc]
  refine hsub.followed (by omega) ?_
  obtain rfl | rfl := hclose <;> exact .refl _

/-- One item before others. -/
theorem cons (hes : AcceptsItems es us) (comma : Position)
    (hopen : ∀ close rest, close = .rightParen ∨ close = .rightBracket →
      check close (us ++ rest) = false) :
    AcceptsItems (e :: es) (ts ++ ⟨.comma, comma⟩ :: us) := by
  intro n room close pos rest fuel hclose hfuel
  rw [List.length_append, List.length_cons] at *
  obtain ⟨fuel, rfl⟩ : ∃ fuel', fuel = fuel' + 1 := ⟨fuel - 1, by omega⟩
  have hsub := @h.sub _ _ (⟨.comma, comma⟩ :: (us ++ ⟨close, pos⟩ :: rest)) n room Nat.one_pos
  rw [List.append_assoc]
  refine hsub.followed (by omega) ?_
  have hcheck : (check .comma (⟨.comma, comma⟩ :: (us ++ ⟨close, pos⟩ :: rest)) &&
      !check close (us ++ ⟨close, pos⟩ :: rest)) = true := by
    rw [hopen close _ hclose]
    rfl
  dsimp only
  rw [List.drop_one, List.tail_cons, if_pos hcheck]
  exact (hes n room close pos rest fuel hclose (by omega)).followed (by omega) (.refl _)

end AcceptsItems

/-- Items do not begin with a closing bracket. -/
theorem check_close {es : List Expr} {ts : List Token} (h : Expr.Items es ts) (hes : es ≠ [])
    (hclose : close = .rightParen ∨ close = .rightBracket) (rest : List Token) :
    check close (ts ++ rest) = false := by
  have hopens : ¬Strength.disjunction.Opens close := by obtain rfl | rfl := hclose <;> exact id
  cases h with
  | nil => exact absurd rfl hes
  | last item => exact Accepts.check_false_of_opens item hopens rest
  | cons item _ =>
    -- The comma comes behind an item, so the first token is that of the item here as well.
    rw [List.append_assoc]
    exact Accepts.check_false_of_opens item hopens _

/-- Items in their brackets. -/
theorem AcceptsItems.items {es : List Expr} {ts : List Token} (h : Expr.Items es ts)
    (hes : es ≠ [] → AcceptsItems es ts) (hclose : close = .rightParen ∨ close = .rightBracket)
    (n room : Nat) (context : String) (pos : Position) (rest : List Token) :
    UnlessTooDeep (Short n room (ts.length + 1))
      (items ((levels n).subExpr room) close context (ts ++ ⟨close, pos⟩ :: rest))
      (.ok (es, rest)) := by
  have hexpect : expect close context (⟨close, pos⟩ :: rest) = .ok ((), rest) := if_pos rfl
  rw [items_eq]
  by_cases hnil : es = []
  · subst hnil
    cases h
    have hcheck : check close (⟨close, pos⟩ :: rest) = true := beq_self_eq_true close
    rw [List.nil_append, if_pos hcheck]
    refine (UnlessTooDeep.refl _).bind ?_
    dsimp only
    rw [hexpect]
    exact .refl _
  · rw [if_neg (by rw [check_close h hnil hclose]; exact Bool.false_ne_true)]
    refine (hes hnil n room close pos rest _ hclose (by simp)).bind ?_
    dsimp only
    rw [hexpect]
    exact .refl _

theorem Accepts.list {es : List Expr} {ts : List Token} (h : Expr.Items es ts)
    (hes : es ≠ [] → AcceptsItems es ts) (pos close : Position) :
    Accepts .suffixed (.list pos es) (⟨.leftBracket, pos⟩ :: (ts ++ [⟨.rightBracket, close⟩])) := by
  refine of_primary fun n room rest => ?_
  rw [List.cons_append, List.append_assoc, List.length_cons, List.length_append]
  exact (AcceptsItems.items h hes (.inr rfl) n room _ close rest).followed (by omega) (.refl _)

theorem Accepts.call {e : Expr} {es : List Expr} {ts us : List Token}
    (hcallee : Accepts .suffixed e ts) (h : Expr.Items es us) (hes : es ≠ [] → AcceptsItems es us)
    (pos close : Position) :
    Accepts .suffixed (.call pos e es)
      (ts ++ ⟨.leftParen, pos⟩ :: (us ++ [⟨.rightParen, close⟩])) := by
  refine hcallee.suffix (.inl rfl) fun n room rest => ?_
  rw [List.length_append, List.append_assoc]
  conv =>
    arg 2
    unfold suffixes
  exact (AcceptsItems.items h hes (.inl rfl) n room _ close rest).bind (.refl _)

end Grammar

open Grammar

mutual

/-- **Expressions are accepted**, by recursion on how they are spelled. -/
theorem Expr.Spelling.accepted {k : Strength} {e : Expr} {ts : List Token}
    (h : Expr.Spelling k e ts) : Accepts k e ts := by
  match h with
  | .number value => exact .number value _
  | .string => exact .of_primary fun _ _ _ => .refl _
  | .boolean (b := b) => exact .of_primary fun _ _ _ => by cases b <;> exact .refl _
  | .none => exact .of_primary fun _ _ _ => .refl _
  | .name => exact .of_primary fun _ _ _ => .refl _
  | .list items => exact .list items items.accepted _ _
  | .member object => exact object.accepted.member _ _ _
  | .index object place => exact object.accepted.index place.accepted _ _
  | .call callee args => exact callee.accepted.call args args.accepted _ _
  | @Expr.Spelling.unary _ op _ _ operand =>
    have hoperand := operand.accepted
    cases op with
    | neg => exact hoperand.neg _
    | not => exact hoperand.not _
  | @Expr.Spelling.binary _ op _ _ _ _ lhs rhs =>
    have hlhs := lhs.accepted
    have hrhs := rhs.accepted
    -- Powers are the only operators that are not read in a chain.
    by_cases hop : op.strength = .power
    · obtain rfl : op = .pow := by cases op <;> first | rfl | cases hop
      exact hlhs.pow hrhs _
    · rw [BinaryOp.lhs_eq hop] at hlhs
      rw [BinaryOp.rhs_eq hop] at hrhs
      exact .join (BinaryOp.chains hop) (BinaryOp.op?_kind hop)
        (BinaryOp.binding_kind hop) hlhs hrhs _
  | @Expr.Spelling.logical _ op _ _ _ _ lhs rhs =>
    exact .join op.chains op.op?_kind op.binding_kind lhs.accepted rhs.accepted _
  | .parens inner => exact .parens inner.accepted _ _
  | .tighter tight => exact .of_tighter tight tight.accepted

theorem Expr.Items.accepted {es : List Expr} {ts : List Token} (h : Expr.Items es ts)
    (hes : es ≠ []) : AcceptsItems es ts := by
  match h with
  | .nil => exact absurd rfl hes
  | .last item =>
    refine .last item.accepted ?_
    obtain ⟨t, us, rfl, -⟩ := item.opens
    simp
  | @Expr.Items.cons _ _ es _ _ item items =>
    have hitem := item.accepted
    have hitems := items.accepted
    -- A comma without an item behind it is read in another way.
    cases es with
    | nil =>
      cases items
      exact .trailing hitem _
    | cons e es =>
      exact .cons hitem (hitems (by simp)) _ fun _ rest hclose =>
        check_close items (by simp) hclose rest

end

/-! ## Statements -/

namespace Grammar

/-- The tokens before which a simple statement may end. -/
def Ends (kind : TokenKind) : Prop := kind = .newline ∨ kind = .dedent ∨ kind = .endOfInput

theorem Ends.binding (h : Ends kind) : Tower.binding kind < 1 := by
  obtain rfl | rfl | rfl := h <;> exact Nat.one_pos

variable {s : Stmt} {ts us rest : List Token} {n room : Nat}

theorem exprStatement_expr {e : Expr} (he : Expr.Spelling .disjunction e ts)
    (hrest : Ends (peek rest).kind) :
      UnlessTooDeep (Short n room (ts.length + 1)) ((levels n).exprStatement room (ts ++ rest))
        (.ok (.expr e, rest)) := by
  refine (he.accepted.sub n room hrest.binding).bind ?_
  have hcheck : check .assign rest = false := by
    obtain h | h | h := hrest <;> simp [check, h]
  dsimp only
  rw [hcheck]
  exact .refl _

theorem simpleStatement_eq (h : Strength.disjunction.Opens (peek ts).kind) :
    (levels n).simpleStatement room ts = (levels n).exprStatement room ts := by
  unfold Level.simpleStatement
  dsimp only
  split
  case h_9 => rfl
  all_goals
    rename_i hpeek
    rw [hpeek] at h
    exact h.elim

theorem simpleStatement_accepted (h : Stmt.Simple s ts) (hrest : Ends (peek rest).kind) :
    UnlessTooDeep (Short n room (ts.length + 1)) ((levels n).simpleStatement room (ts ++ rest))
      (.ok (s, rest)) := by
  cases h with
  | expr he =>
    rw [simpleStatement_eq (Accepts.opens_append he rest)]
    exact exprStatement_expr he hrest
  | @assign _ sign _ _ us vs target value | @setIndex sign _ _ _ _ us vs target value =>
    have hsub := @target.accepted.sub _ _ (⟨.assign, sign⟩ :: (vs ++ rest)) n room Nat.one_pos
    rw [List.append_assoc, simpleStatement_eq (Accepts.opens_append target _), List.length_append,
      List.length_cons]
    exact hsub.followed (by omega) ((value.accepted.sub n room hrest.binding).followed
      (by omega) (.refl _))
  | declare value =>
    simp only [List.length_cons]
    exact (value.accepted.sub n room hrest.binding).followed (by omega) (.refl _)
  | ret =>
    -- A value is looked for unless the statement ends here.
    unfold Level.simpleStatement
    obtain hend | hend | hend := hrest <;>
      · simp only [List.cons_append, List.nil_append, peek_cons, List.drop_one, List.tail_cons]
        rw [hend]
        exact .refl _
  | retValue value =>
    have hopens := Accepts.opens_append value rest
    rw [List.length_cons]
    unfold Level.simpleStatement
    simp only [List.cons_append, peek_cons, List.drop_one, List.tail_cons]
    split
    case h_4 => exact (value.accepted.sub n room hrest.binding).followed (by omega) (.refl _)
    all_goals
      rename_i hpeek
      rw [hpeek] at hopens
      exact hopens.elim
  | importModule | leave | pass => exact .refl _

/-- A simple statement and the end of its line. -/
theorem simpleLine_accepted (h : Stmt.Simple s ts) (hend : LineEnd (peek rest).kind us) :
    UnlessTooDeep (Short n room (ts.length + 1)) ((levels n).simpleLine room (ts ++ us ++ rest))
      (.ok (s, rest)) := by
  rw [List.append_assoc]
  cases hend with
  | @newline pos =>
    have hread := @simpleStatement_accepted s ts (⟨.newline, pos⟩ :: rest) n room h (.inl rfl)
    exact hread.bind (.refl _)
  | missing hmissing =>
    refine (simpleStatement_accepted h (.inr hmissing)).bind ?_
    have hendStatement : endStatement rest = .ok ((), rest) := by
      unfold endStatement
      dsimp only
      obtain h | h := hmissing <;> rw [h]
    dsimp only [List.nil_append]
    rw [hendStatement]
    exact .refl _

theorem statement_eq (h : Stmt.Simple s ts) (rest : List Token) :
    (levels n).statement room (ts ++ rest) = (levels n).simpleLine room (ts ++ rest) := by
  have of_opens {us : List Token} (h : Strength.disjunction.Opens (peek us).kind) :
      (levels n).statement room us = (levels n).simpleLine room us := by
    unfold Level.statement
    split
    case h_5 => rfl
    all_goals
      rename_i hpeek
      rw [hpeek] at h
      exact h.elim
  cases h with
  | expr he => exact of_opens (Accepts.opens_append he rest)
  | assign target _ | setIndex target _ =>
    rw [List.append_assoc]
    exact of_opens (Accepts.opens_append target _)
  | _ => rfl

theorem paramsFrom_accepted {ps : List Param} (h : Param.Spelling ps ts) (hps : ps ≠ [])
    (close : Position) (fuel : Nat) (hfuel : ts.length ≤ fuel) :
    Level.paramsFrom fuel (ts ++ ⟨.rightParen, close⟩ :: rest) =
      .ok (ps, ⟨.rightParen, close⟩ :: rest) := by
  induction h generalizing fuel with
  | nil => exact absurd rfl hps
  | last =>
    obtain ⟨fuel, rfl⟩ : ∃ fuel', fuel = fuel' + 1 := ⟨fuel - 1, by simp at hfuel; omega⟩
    rfl
  | cons _ ih =>
    rw [List.length_cons, List.length_cons] at hfuel
    obtain ⟨fuel, rfl⟩ : ∃ fuel', fuel = fuel' + 1 := ⟨fuel - 1, by omega⟩
    have hrest := ih (by simp) fuel (by omega)
    show Level.paramsFrom fuel (_ ++ ⟨.rightParen, close⟩ :: rest) >>= _ = _
    rw [hrest]
    rfl

theorem params_accepted {ps : List Param} (h : Param.Spelling ps ts) (close : Position) :
    (if check .rightParen (ts ++ ⟨.rightParen, close⟩ :: rest) = true
      then .ok ([], ts ++ ⟨.rightParen, close⟩ :: rest)
      else Level.paramsFrom (ts ++ ⟨.rightParen, close⟩ :: rest).length
        (ts ++ ⟨.rightParen, close⟩ :: rest)) =
      (.ok (ps, ⟨.rightParen, close⟩ :: rest) : Except SyntaxError _) := by
  by_cases hps : ps = []
  · subst hps
    cases h
    rfl
  · have hcheck : check .rightParen (ts ++ ⟨.rightParen, close⟩ :: rest) = false := by
      cases h with
      | nil => exact absurd rfl hps
      | last | cons _ => rfl
    rw [hcheck, if_neg Bool.false_ne_true]
    exact paramsFrom_accepted h hps close _ (by simp)

variable {next : TokenKind}

variable {ss : List Stmt}

/-- No statement begins like the rest of a conditional. -/
theorem ahead_ne_elseKw (h : Stmt.Lines next ss ts) (hnext : next ≠ .elseKw) :
    next.ahead ts ≠ .elseKw := by
  cases h with
  | nil => exact hnext
  | blank _ => exact TokenKind.noConfusion
  | cons line _ =>
    obtain ⟨t, us, rfl, ht⟩ := line.opens
    intro heq
    have heq : t.kind = .elseKw := heq
    rw [heq] at ht
    exact ht

theorem statements_eq (h : Stmt.Opens (peek ts).kind) (inBlock : Bool) (fuel : Nat) :
    (levels n).statements room inBlock (fuel + 1) ts = (levels n).statement room ts >>= fun p =>
      (levels n).statements room inBlock fuel p.2 >>= fun q => .ok (p.1 :: q.1, q.2) := by
  conv =>
    lhs
    unfold Level.statements
  split
  case h_4 => rfl
  all_goals
    rename_i hpeek
    rw [hpeek] at h
    exact h.elim

theorem statements_stop {inBlock : Bool}
    (h : (peek rest).kind = .endOfInput ∨ inBlock = true ∧ (peek rest).kind = .dedent)
    (fuel : Nat) : (levels n).statements room inBlock fuel rest = .ok ([], rest) := by
  cases fuel with
  | zero => rfl
  | succ fuel =>
    unfold Level.statements
    obtain h | ⟨rfl, h⟩ := h <;> rw [h]

/-- A block begins with a colon. -/
theorem peek_block (h : Stmt.Block next ss ts) (rest : List Token) :
    (peek (ts ++ rest)).kind = .colon := by
  cases h <;> rfl

theorem cond_accepted {c : Expr} (hcond : Expr.Spelling .disjunction c ts)
    (hbody : Stmt.Block next ss us) (rest : List Token) :
    UnlessTooDeep (Short n room (ts.length + 1)) ((levels n).subExpr room (ts ++ (us ++ rest)))
      (.ok (c, us ++ rest)) := by
  refine hcond.accepted.sub n room ?_
  rw [peek_block hbody]
  exact Nat.one_pos

end Grammar

mutual

/-- **Statements are accepted**, by recursion on how they are spelled. -/
theorem Stmt.Spelling.accepted {next : TokenKind} {s : Stmt} {ts : List Token}
    (h : Stmt.Spelling next s ts) (n room : Nat) (rest : List Token)
    (hrest : (peek rest).kind = next) (hnext : next ≠ .elseKw) :
    UnlessTooDeep (Short n room (ts.length + 1)) ((levels n).statement room (ts ++ rest))
      (.ok (s, rest)) := by
  match h with
  | .simple simple ends =>
    subst hrest
    rw [List.append_assoc, statement_eq simple, ← List.append_assoc, List.length_append]
    exact (simpleLine_accepted simple ends).mono (by omega)
  | @Stmt.Spelling.func _ pos place opening close id ps ss us vs params body =>
    have hbody := body.accepted n "after function signature" room rest hrest
    have hparams := @params_accepted us (vs ++ rest) ps params close
    have hts : ⟨.funcKw, pos⟩ :: ⟨.name id, place⟩ :: ⟨.leftParen, opening⟩ ::
        (us ++ ⟨.rightParen, close⟩ :: vs) ++ rest = ⟨.funcKw, pos⟩ :: ⟨.name id, place⟩ ::
          ⟨.leftParen, opening⟩ :: (us ++ ⟨.rightParen, close⟩ :: (vs ++ rest)) := by simp
    rw [hts]
    simp only [List.length_cons, List.length_append]
    show UnlessTooDeep _ ((levels n).funcStatement room _) _
    rw [Level.funcStatement_eq]
    refine .bind (a := ((⟨id, place⟩ : Param),
      ⟨.leftParen, opening⟩ :: (us ++ ⟨.rightParen, close⟩ :: (vs ++ rest)))) (.refl _) ?_
    refine .bind (a := ((), us ++ ⟨.rightParen, close⟩ :: (vs ++ rest))) (.refl _) ?_
    refine .bind (.inl hparams) ?_
    exact .bind (a := ((), vs ++ rest)) (.refl _) (hbody.followed (by omega) (.refl _))
  | @Stmt.Spelling.branch _ pos c ss r us vs ws cond body tail =>
    have hbody :=
      body.accepted n "after `if` condition" room (ws ++ rest) (by rw [peek_append, hrest])
    have htail := tail.accepted n room (ws ++ rest).length rest hrest hnext (by simp)
    have hts : ⟨.ifKw, pos⟩ :: (us ++ (vs ++ ws)) ++ rest =
        ⟨.ifKw, pos⟩ :: (us ++ (vs ++ (ws ++ rest))) := by
      simp
    rw [hts]
    simp only [List.length_cons, List.length_append]
    exact (cond_accepted cond body (ws ++ rest)).followed (by omega)
      (hbody.followed (by omega) (htail.followed (by omega) (.refl _)))
  | @Stmt.Spelling.loop _ pos c ss us vs cond body =>
    have hbody := body.accepted n "after `while` condition" room rest hrest
    have hts : ⟨.whileKw, pos⟩ :: (us ++ vs) ++ rest = ⟨.whileKw, pos⟩ :: (us ++ (vs ++ rest)) := by
      simp
    rw [hts]
    simp only [List.length_cons, List.length_append]
    exact (cond_accepted cond body rest).followed (by omega) (hbody.followed (by omega) (.refl _))

theorem Else.Spelling.accepted {next : TokenKind} {r : Else} {ts : List Token}
    (h : Else.Spelling next r ts) (n room fuel : Nat) (rest : List Token)
    (hrest : (peek rest).kind = next) (hnext : next ≠ .elseKw) (hfuel : ts.length ≤ fuel) :
    UnlessTooDeep (Short n room (ts.length + 1)) ((levels n).elseFrom room fuel (ts ++ rest))
      (.ok (r, rest)) := by
  match h with
  | .nothing =>
    have hcheck : check .elseKw rest = false := beq_eq_false_iff_ne.2 (hrest ▸ hnext)
    cases fuel with
    | zero => exact .refl _
    | succ fuel =>
      unfold Level.elseFrom
      rw [List.nil_append, hcheck]
      exact .refl _
  | @Else.Spelling.elseIf _ pos place c ss r us vs ws cond body tail =>
    simp only [List.length_cons, List.length_append] at *
    obtain ⟨fuel, rfl⟩ : ∃ fuel', fuel = fuel' + 1 := ⟨fuel - 1, by omega⟩
    have hbody :=
      body.accepted n "after `else if` condition" room (ws ++ rest) (by rw [peek_append, hrest])
    have htail := tail.accepted n room fuel rest hrest hnext (by omega)
    have hts : ⟨.elseKw, pos⟩ :: ⟨.ifKw, place⟩ :: (us ++ (vs ++ ws)) ++ rest =
        ⟨.elseKw, pos⟩ :: ⟨.ifKw, place⟩ :: (us ++ (vs ++ (ws ++ rest))) := by simp
    rw [hts]
    exact (cond_accepted cond body (ws ++ rest)).followed (by omega)
      (hbody.followed (by omega) (htail.followed (by omega) (.refl _)))
  | @Else.Spelling.block _ pos ss us body =>
    rw [List.length_cons] at *
    obtain ⟨fuel, rfl⟩ : ∃ fuel', fuel = fuel' + 1 := ⟨fuel - 1, by omega⟩
    have hbody := body.accepted n "after `else`" room rest hrest
    have hcheck : check .ifKw (us ++ rest) = false := by
      unfold check
      rw [peek_block body]
      rfl
    rw [List.cons_append]
    unfold Level.elseFrom
    show UnlessTooDeep _ (if check .ifKw (us ++ rest) = true then _ else _) _
    rw [hcheck]
    exact hbody.followed (by omega) (.refl _)

theorem Stmt.Block.accepted {next : TokenKind} {ss : List Stmt} {ts : List Token}
    (h : Stmt.Block next ss ts) (n : Nat) (context : String) (room : Nat) (rest : List Token)
    (hrest : (peek rest).kind = next) :
    UnlessTooDeep (Short n room (ts.length + 1))
      (enter ((levels n).block context) room (ts ++ rest)) (.ok (ss, rest)) := by
  refine unlessTooDeep_enter (p := fun n => (levels n).block context) (fun _ _ => rfl)
    (fun n room => ?_) n room
  match h with
  | @Stmt.Block.line _ colon s us vs simple ends =>
    subst hrest
    -- A statement does not begin with a newline, so this is no indented block.
    have hcheck : check .newline (us ++ vs ++ rest) = false := by
      obtain ⟨t, us, rfl, ht⟩ := simple.opens
      refine beq_eq_false_iff_ne.2 fun heq => ?_
      have heq : t.kind = .newline := heq
      rw [heq] at ht
      exact ht
    rw [List.length_cons, List.length_append]
    refine .bind (a := ((), us ++ vs ++ rest)) (.refl _) ?_
    dsimp only
    rw [hcheck, if_neg Bool.false_ne_true]
    exact (simpleLine_accepted simple ends).followed (by omega) (.refl _)
  | @Stmt.Block.indented _ colon line opening close ss us body =>
    have hbody :=
      body.accepted n room true (us ++ ⟨.dedent, close⟩ :: rest).length.succ
        (⟨.dedent, close⟩ :: rest) rfl (.inr ⟨rfl, rfl⟩) (by simp; omega)
    have hts : ⟨.colon, colon⟩ :: ⟨.newline, line⟩ :: ⟨.indent, opening⟩ ::
        (us ++ [⟨.dedent, close⟩]) ++ rest =
        ⟨.colon, colon⟩ :: ⟨.newline, line⟩ :: ⟨.indent, opening⟩ ::
            (us ++ ⟨.dedent, close⟩ :: rest) := by
          simp
    rw [hts]
    simp only [List.length_cons, List.length_append]
    exact hbody.followed (by omega) (.refl _)
  | @Stmt.Block.toEnd colon line opening ss us body =>
    have hbody :=
      body.accepted n room true (us ++ rest).length.succ rest hrest (.inl rfl) (by simp; omega)
    have hcheck : check .dedent rest = false := by
      unfold check
      rw [hrest]
      rfl
    simp only [List.length_cons]
    refine hbody.followed (by omega) ?_
    dsimp only
    rw [hcheck]
    exact .refl _

theorem Stmt.Lines.accepted {next : TokenKind} {ss : List Stmt} {ts : List Token}
    (h : Stmt.Lines next ss ts) (n room : Nat) (inBlock : Bool) (fuel : Nat) (rest : List Token)
    (hrest : (peek rest).kind = next)
    (hnext : next = .endOfInput ∨ inBlock = true ∧ next = .dedent) (hfuel : ts.length ≤ fuel) :
    UnlessTooDeep (Short n room (ts.length + 1))
      ((levels n).statements room inBlock fuel (ts ++ rest)) (.ok (ss, rest)) := by
  match h with
  | .nil => exact .inl (statements_stop (hrest ▸ hnext) fuel)
  | .blank lines =>
    rw [List.length_cons] at *
    obtain ⟨fuel, rfl⟩ : ∃ fuel', fuel = fuel' + 1 := ⟨fuel - 1, by omega⟩
    exact (lines.accepted n room inBlock fuel rest hrest hnext (by omega)).mono (by omega)
  | @Stmt.Lines.cons _ s ss us vs line lines =>
    have helse : next ≠ .elseKw := by obtain rfl | ⟨-, rfl⟩ := hnext <;> exact TokenKind.noConfusion
    have hline :=
      line.accepted n room (vs ++ rest) (by rw [peek_append, hrest]) (ahead_ne_elseKw lines helse)
    have hlines (fuel : Nat) := lines.accepted n room inBlock fuel rest hrest hnext
    -- The statement takes a token, so the count is not used up for the lines behind it.
    obtain ⟨t, us, rfl, ht⟩ := line.opens
    rw [List.cons_append, List.length_cons] at hline
    rw [List.cons_append, List.length_cons, List.length_append] at *
    obtain ⟨fuel, rfl⟩ : ∃ fuel', fuel = fuel' + 1 := ⟨fuel - 1, by omega⟩
    rw [List.cons_append, List.append_assoc, statements_eq (by exact ht)]
    exact hline.followed (by omega) ((hlines fuel (by omega)).followed (by omega) (.refl _))

end

/-- **Programs are accepted.** Tokens that spell a program are read as this program, unless there
are too many levels. This takes as many tokens. -/
theorem Program.Spelling.accepted {program : Program} {ts : List Token}
    (h : Program.Spelling program ts) (pos : Position) :
    UnlessTooDeep (maxNesting ≤ ts.length) (parse (ts ++ [⟨.endOfInput, pos⟩])) (.ok program) := by
  have hlines := Stmt.Lines.accepted h maxNesting maxExprDepth false
    ((ts ++ [⟨.endOfInput, pos⟩] : List Token).length + 1)
      [⟨.endOfInput, pos⟩] rfl (.inl rfl) (by simp; omega)
  rw [parse_eq]
  refine (hlines.mono ?_).bind (.refl _)
  unfold maxNesting maxExprDepth
  omega

end ScriptMachine
