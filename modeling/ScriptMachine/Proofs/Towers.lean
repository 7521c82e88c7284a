import ScriptMachine.Proofs.Reading
/-!
# The deepest programs

The greatest depth that the levels and the room allow is reached: by lists inside of lists, and on
each of them as many members as there is room, a power, and as many operators of each kind as there
is room.

* `Grammar.Tower.exprWithin`: it is as deep as the bound;
* `parse_depth_le_iff`: **the exact bound for whole programs**.
-/

namespace ScriptMachine

namespace Grammar

namespace Tower

/-- A token at no particular place. -/
def token (kind : TokenKind) : Token := ⟨kind, {}⟩

/-- An operand behind an operator, so many times. -/
def tail (op : TokenKind) (count : Nat) : List Token :=
  (List.replicate count [token op, token (.name "a")]).flatten

/-- Operators of all kinds behind an operand of a product. -/
def tails (room : Nat) : List Token :=
  tail .star room ++
    (tail .plus room ++ (tail .equal room ++ (tail .andKw room ++ tail .orKw room)))

/-- A list with members and a power on top of it. -/
def stem (core : List Token) (power room : Nat) : List Token :=
  token .leftBracket :: (core ++ token .rightBracket :: (tail .dot room ++ tail .caret power))

/-- Tokens of an expression that is as deep as the levels and the room allow. -/
def word : (levels room : Nat) → List Token
  | 0, room => stem [] 0 room ++ tails room
  | _ + 1, 0 => stem [] 0 0 ++ tails 0
  | levels + 1, room + 1 => stem (word levels room) 1 (room + 1) ++ tails (room + 1)

/-- How tightly the tokens bind that go on with an expression. -/
def binding : TokenKind → Nat
  | .orKw => 1
  | .andKw => 2
  | .equal | .notEqual | .less | .lessEqual | .greater | .greaterEqual => 3
  | .plus | .minus => 4
  | .star | .slash | .percent => 5
  | .caret => 6
  | .leftParen | .leftBracket | .dot => 7
  | _ => 0

/-- The parser reads the tokens as an expression of the depth, up to a token that binds less
tightly. -/
def Builds (limit : Nat) (p : Parser Expr) (ts : List Token) (depth : Nat) : Prop :=
  ∀ rest, binding (peek rest).kind < limit → ∃ e, p (ts ++ rest) = .ok (e, rest) ∧ e.depth = depth

/-! ### Chains -/

section Chain

variable {op? : TokenKind → Option (Position → Expr → Expr → Expr)} {operand : Nat → Parser Expr}
  {op : TokenKind} {node : Position → Expr → Expr → Expr} {room depth : Nat} {ts rest : List Token}
    {k : Strength}

/-- What follows an operand of a chain is the operator or the end. -/
theorem binding_tail (hrest : binding (peek rest).kind < binding op) (count : Nat) :
    binding (peek (tail op count ++ rest)).kind < binding op + 1 := by
  cases count with
  | zero => exact Nat.lt_succ_of_lt hrest
  | succ count => exact Nat.lt_succ_self _

theorem chainFrom_tail (hop : ∀ kind node, op? kind = some node → Joins k kind node)
    (hnode : op? op = some node) (hnone : ∀ kind, binding kind < binding op → op? kind = none)
    (hleaf : ∀ room, Builds (binding op + 1) (operand room) [token (.name "a")] 1)
    (hrest : binding (peek rest).kind < binding op) (room : Nat) (lhs : Expr) :
    ∃ e, chainFrom op? operand room lhs (tail op room ++ rest) = .ok (e, rest) ∧
    e.depth = lhs.depth + room := by
  induction room generalizing lhs with
  | zero =>
    refine ⟨lhs, ?_, rfl⟩
    show chainFrom op? operand 0 lhs rest = _
    unfold chainFrom
    rw [hnone _ hrest]
  | succ room ih =>
    obtain ⟨a, ha, hd⟩ := hleaf room _ (binding_tail hrest room)
    obtain ⟨e, he, hed⟩ := ih (node {} lhs a)
    refine ⟨e, ?_, ?_⟩
    · have hkind : op? (peek (tail op (room + 1) ++ rest)).kind = some node := hnode
      have hdrop : (tail op (room + 1) ++ rest).drop 1 = [token (.name "a")] ++
        (tail op room ++ rest) := rfl
      unfold chainFrom
      rw [hkind]
      dsimp only
      rw [hdrop, ha]
      exact he
    · have hpos := lhs.depth_pos
      rw [hed, (hop _ _ hnode).depth, hd]
      omega

/-- A chain with as many operators as there is room. -/
theorem Builds.chain (op : TokenKind) (h : Builds (binding op + 1) (operand room) ts depth)
    (hop : ∀ kind node, op? kind = some node → Joins k kind node) (hnode : op? op = some node)
    (hnone : ∀ kind, binding kind < binding op → op? kind = none)
    (hleaf : ∀ room, Builds (binding op + 1) (operand room) [token (.name "a")] 1) :
    Builds (binding op) (chain op? operand room) (ts ++ tail op room) (depth + room) := by
  intro rest hrest
  obtain ⟨lhs, hlhs, rfl⟩ := h _ (binding_tail hrest room)
  obtain ⟨e, he, hd⟩ := chainFrom_tail hop hnode hnone hleaf hrest room lhs
  refine ⟨e, ?_, hd⟩
  unfold Grammar.chain
  rw [List.append_assoc, hlhs]
  exact he

/-- A chain without operators. -/
theorem Builds.single {limit : Nat} (hnone : ∀ kind, binding kind < limit → op? kind = none)
    (h : Builds (limit + 1) (operand room) ts depth) :
    Builds limit (Grammar.chain op? operand room) ts depth := by
  intro rest hrest
  obtain ⟨e, he, hd⟩ := h rest (Nat.lt_succ_of_lt hrest)
  refine ⟨e, ?_, hd⟩
  unfold Grammar.chain
  rw [he]
  show chainFrom op? operand room e rest = _
  unfold chainFrom
  rw [hnone _ hrest]

end Chain

/-! ### Operands -/

variable {inner : Level} {sub : Nat → Parser Expr} {room depth limit : Nat} {ts rest : List Token}

theorem suffixes_stop (h : binding (peek rest).kind < 7) (e : Expr) :
    suffixes sub room e rest = .ok (e, rest) := by
  have hne (kind : TokenKind) (hkind : 7 ≤ binding kind) : (peek rest).kind ≠ kind := by
    rintro rfl
    omega
  have hparen := hne .leftParen (by decide)
  have hbracket := hne .leftBracket (by decide)
  have hdot := hne .dot (by decide)
  unfold suffixes
  dsimp only
  split
  case h_7 => rfl
  all_goals contradiction

theorem suffixes_dots (e : Expr) (h : binding (peek rest).kind < 7) :
    ∃ e', suffixes sub room e (tail .dot room ++ rest) = .ok (e', rest) ∧
    e'.depth = e.depth + room := by
  induction room generalizing e with
  | zero => exact ⟨e, suffixes_stop h e, rfl⟩
  | succ room ih =>
    obtain ⟨e', he', hd⟩ := ih (.member {} e "a")
    refine ⟨e', ?_, ?_⟩
    · unfold suffixes
      exact he'
    · rw [hd]
      simp only [Expr.depth]
      omega

theorem check_caret (h : binding (peek rest).kind < 6) : check .caret rest = false := by
  have hne : (peek rest).kind ≠ .caret := by
    intro hkind
    rw [hkind] at h
    exact absurd h (by decide)
  simpa [check] using hne

/-- A name is an operand. -/
theorem signed_leaf (room : Nat) : Builds 6 (inner.signedWithin room) [token (.name "a")] 1 := by
  intro rest hrest
  refine ⟨.name {} "a", ?_, rfl⟩
  have hstem : postfixExpr inner.subExpr room (token (.name "a") :: rest) =
      .ok (.name {} "a", rest) :=
    suffixes_stop (Nat.lt_of_lt_of_le hrest (by decide)) _
  show inner.powerWithin room (token (.name "a") :: rest) = _
  unfold Level.powerWithin
  rw [hstem]
  show (if check .caret rest then _ else _) = _
  rw [check_caret hrest]
  rfl

theorem primary_list {item : Parser Expr} {es : List Expr}
    (h : items item .rightBracket "to close list" ts = .ok (es, rest)) :
    primary item (token .leftBracket :: ts) = .ok (.list {} es, rest) := by
  show (items item .rightBracket "to close list" ts >>= fun p => .ok (Expr.list {} p.1, p.2)) = _
  rw [h]
  rfl

/-- A list with members and a power on top of it is an operand. -/
theorem signed_stem {core : List Token} {power : Nat}
    (hcore : ∀ rest, ∃ es,
      items (inner.subExpr room) .rightBracket "to close list"
        (core ++ token .rightBracket :: rest) = .ok (es, rest) ∧ Expr.depthAll es = depth)
    (hpower : power = 0 ∨ power = 1 ∧ Builds 6 (enter inner.signed room) [token (.name "a")] 1) :
    Builds 6 (inner.signedWithin room) (stem core power room) (depth + 1 + room + power) := by
  intro rest hrest
  -- The list with its members, up to the power.
  have hstem : ∃ e, postfixExpr inner.subExpr room (stem core power room ++ rest) =
      .ok (e, tail .caret power ++ rest) ∧ e.depth = depth + 1 + room := by
    obtain ⟨es, hes, rfl⟩ := hcore (tail .dot room ++ (tail .caret power ++ rest))
    have hnext : binding (peek (tail .caret power ++ rest)).kind < 7 := binding_tail hrest power
    obtain ⟨e, he, hd⟩ : ∃ e, suffixes inner.subExpr room (.list {} es) _ = .ok (e, _) ∧ _ :=
      suffixes_dots (.list {} es) hnext
    have hstem : stem core power room ++ rest = token .leftBracket ::
        (core ++ token .rightBracket :: (tail .dot room ++ (tail .caret power ++ rest))) := by
      simp [stem]
    refine ⟨e, ?_, ?_⟩
    · unfold postfixExpr
      rw [hstem, primary_list hes]
      exact he
    · rw [hd]
      simp only [Expr.depth]
      omega
  obtain ⟨base, hbase, hd⟩ := hstem
  show ∃ e, inner.powerWithin room (stem core power room ++ rest) = .ok (e, rest) ∧ _
  unfold Level.powerWithin
  rw [hbase]
  obtain rfl | ⟨rfl, hleaf⟩ := hpower
  · refine ⟨base, ?_, hd⟩
    show (if check .caret rest then _ else _) = _
    rw [check_caret hrest]
    rfl
  · obtain ⟨exponent, he, hed⟩ := hleaf rest hrest
    refine ⟨.binary {} .pow base exponent, ?_, ?_⟩
    · show (enter inner.signed room ([token (.name "a")] ++ rest) >>= _) = _
      rw [he]
      rfl
    · simp only [Expr.depth]
      omega

/-! ### Whole expressions -/

section

variable (kind : TokenKind)

theorem productOp_none (h : binding kind < 5) : productOp kind = none := by
  unfold productOp
  split <;> first | rfl | exact absurd h (by decide)

theorem sumOp_none (h : binding kind < 4) : sumOp kind = none := by
  unfold sumOp
  split <;> first | rfl | exact absurd h (by decide)

theorem comparisonOp_none (h : binding kind < 3) : comparisonOp kind = none := by
  unfold comparisonOp
  split <;> first | rfl | exact absurd h (by decide)

theorem andOp_none (h : binding kind < 2) : andOp kind = none := by
  unfold andOp
  split <;> first | rfl | exact absurd h (by decide)

theorem orOp_none (h : binding kind < 1) : orOp kind = none := by
  unfold orOp
  split <;> first | rfl | exact absurd h (by decide)

end

/-- A comparison that does not start with `not`. -/
theorem Builds.not (hhead : ∀ rest, check .notKw (ts ++ rest) = false)
    (h : Builds limit (inner.comparisonWithin room) ts depth) :
    Builds limit (inner.notWithin room) ts depth := by
  intro rest hrest
  unfold Level.notWithin
  rw [hhead rest]
  exact h rest hrest

/-- Operands of products with operators of all kinds behind them. -/
theorem Builds.tails (hhead : ∀ rest, check .notKw (ts ++ rest) = false)
    (h : Builds 6 (inner.signedWithin room) ts depth) :
    Builds 1 (inner.exprWithin room) (ts ++ Tower.tails room) (depth + 5 * room) := by
  have leaf₅ (room : Nat) : Builds 5 (Grammar.chain productOp inner.signedWithin room)
      [token (.name "a")] 1 :=
    .single productOp_none (signed_leaf room)
  have leaf₄ (room : Nat) : Builds 4 _ [token (.name "a")] 1 := .single sumOp_none (leaf₅ room)
  have leaf₃ (room : Nat) : Builds 3 (inner.notWithin room) [token (.name "a")] 1 :=
    .not (fun _ => rfl) (.single comparisonOp_none (leaf₄ room))
  have leaf₂ (room : Nat) : Builds 2 _ [token (.name "a")] 1 := .single andOp_none (leaf₃ room)
  have hproduct : Builds 5 _ _ _ := h.chain .star joins_productOp rfl productOp_none signed_leaf
  have hsum : Builds 4 _ _ _ := hproduct.chain .plus joins_sumOp rfl sumOp_none leaf₅
  have hcomparison : Builds 3 (inner.comparisonWithin room) _ _ :=
    hsum.chain .equal joins_comparisonOp rfl comparisonOp_none leaf₄
  have hnot := hcomparison.not fun rest => by
    simp only [List.append_assoc]
    exact hhead _
  have hand : Builds 2 _ _ _ := hnot.chain .andKw joins_andOp rfl andOp_none leaf₃
  have hor : Builds 1 (inner.exprWithin room) _ _ := hand.chain .orKw joins_orOp rfl orOp_none leaf₂
  simp only [List.append_assoc] at hor
  rwa [show depth + room + room + room + room + room = depth + 5 * room by omega] at hor

theorem items_singleton {item : Parser Expr} {t : Token} {e : Expr} (ht : t.kind ≠ .rightBracket)
    (h : item (t :: ts) = .ok (e, token .rightBracket :: rest)) (context : String) :
    items item .rightBracket context (t :: ts) = .ok ([e], rest) := by
  have hcheck : check .rightBracket (t :: ts) = false := by simpa [check, peek] using ht
  have hone : itemsFrom item .rightBracket (ts.length + 1) (t :: ts) =
      .ok ([e], token .rightBracket :: rest) := by
    unfold itemsFrom
    rw [h]
    rfl
  rw [items_eq, hcheck]
  show (itemsFrom item .rightBracket (ts.length + 1) (t :: ts) >>= _) = _
  rw [hone]
  rfl

/-- A list without elements, with members on top of it. -/
theorem signed_stem_nil (room : Nat) :
    Builds 6 (inner.signedWithin room) (stem [] 0 room) (1 + room) := by
  have h : Builds 6 (inner.signedWithin room) (stem [] 0 room) (0 + 1 + room + 0) :=
    signed_stem (fun rest => ⟨[], rfl, rfl⟩) (.inl rfl)
  rwa [show 0 + 1 + room + 0 = 1 + room by omega] at h

theorem exists_word (n room : Nat) : ∃ ts, word n room = token .leftBracket :: ts := by
  cases n with
  | zero => exact ⟨_, rfl⟩
  | succ n => cases room <;> exact ⟨_, rfl⟩

/-- **Towers are as deep** as the levels and the room allow. -/
theorem exprWithin (n room : Nat) :
    Builds 1 ((levels n).exprWithin room) (word n room) (deepest n room) := by
  induction n generalizing room with
  | zero =>
    have h : Builds 1 ((levels 0).exprWithin room) _ _ := (signed_stem_nil room).tails fun _ => rfl
    rwa [deepest_eq]
  | succ n ih =>
    cases room with
    | zero => exact (signed_stem_nil 0).tails fun _ => rfl
    | succ room =>
      have hcore : ∀ rest, ∃ es,
          items ((levels (n + 1)).subExpr (room + 1)) .rightBracket "to close list"
              (word n room ++ token .rightBracket :: rest) = .ok (es, rest) ∧
                  Expr.depthAll es = deepest n room := by
        intro rest
        obtain ⟨e, he, hd⟩ := ih room (token .rightBracket :: rest) Nat.one_pos
        obtain ⟨ts, hts⟩ := exists_word n room
        refine ⟨[e], ?_, ?_⟩
        · rw [hts] at he ⊢
          exact items_singleton (by decide) he _
        · simp only [Expr.depthAll]
          omega
      have h : Builds 1 ((levels (n + 1)).exprWithin (room + 1)) _ _ :=
        (signed_stem hcore (.inr ⟨rfl, signed_leaf room⟩)).tails fun _ => rfl
      have hdepth : deepest n room + 1 + (room + 1) + 1 + 5 * (room + 1) =
          deepest (n + 1) (room + 1) := by
        simp only [deepest]
        omega
      rwa [hdepth] at h

end Tower

end Grammar

/-! ## Programs -/

section

open Grammar

theorem depth_le_of_parse {tokens : List Token} {program : Program}
    (h : parse tokens = .ok program) : ∀ e ∈ program.exprs, e.depth ≤ deepest 99 399 := by
  obtain ⟨program', rest, hprogram, h⟩ := exists_of_bind h
  cases h
  obtain ⟨us, -, -, -, hshallow, -⟩ :=
    (hprogram ▸ (sound_levels maxNesting).statements maxExprDepth false _ tokens
      (Nat.lt_succ_self _)).taken
  exact hshallow

/-- A program that is one expression. -/
theorem parse_expr {ts : List Token} {pos : Position} {e : Expr}
    (h : (levels maxNesting).subExpr maxExprDepth
      (Tower.token .leftBracket :: ts ++ [⟨.endOfInput, pos⟩]) = .ok (e, [⟨.endOfInput, pos⟩])) :
    parse (Tower.token .leftBracket :: ts ++ [⟨.endOfInput, pos⟩]) = .ok [.expr e] := by
  have hstatement : (levels maxNesting).statement maxExprDepth
      (Tower.token .leftBracket :: ts ++ [⟨.endOfInput, pos⟩]) =
          .ok (.expr e, [⟨.endOfInput, pos⟩]) := by
    show (levels maxNesting).simpleLine maxExprDepth _ = _
    unfold Level.simpleLine
    show ((levels maxNesting).exprStatement maxExprDepth _ >>= _) = _
    unfold Level.exprStatement
    rw [h]
    rfl
  unfold parse
  dsimp only
  unfold Level.statements
  show ((levels maxNesting).statement maxExprDepth _ >>= _) >>= _ = _
  rw [hstatement]
  rfl

theorem exists_parse_deepest (pos : Position) :
    ∃ program, parse (Tower.word 99 399 ++ [⟨.endOfInput, pos⟩]) = .ok program ∧
      ∃ e ∈ program.exprs, e.depth = deepest 99 399 := by
  obtain ⟨e, he, hd⟩ := Tower.exprWithin 99 399 [⟨.endOfInput, pos⟩] Nat.one_pos
  obtain ⟨ts, hts⟩ := Tower.exists_word 99 399
  rw [hts] at he ⊢
  exact ⟨[.expr e], parse_expr he, e, List.mem_singleton_self e, hd⟩

/-- **The depth of expressions in programs** is at most 209899, and no smaller number bounds it:
every token list up to an end of the input that is a program at all has expressions that deep or
less, and one has such an expression. -/
theorem parse_depth_le_iff (d : Nat) :
    (∀ ts pos program, parse (ts ++ [⟨.endOfInput, pos⟩]) = .ok program → ∀ e ∈ program.exprs,
      e.depth ≤ d) ↔ 209899 ≤ d := by
  have hdeepest : deepest 99 399 = 209899 := by decide +kernel
  constructor
  · intro h
    obtain ⟨program, hprogram, e, he, hd⟩ := exists_parse_deepest {}
    have := h _ _ _ hprogram e he
    omega
  · intro hd ts pos program hprogram e he
    have := depth_le_of_parse hprogram e he
    omega

end

end ScriptMachine
