import ScriptMachine.Proofs.Acceptance
/-!
# Programs written out

The words of a program in its plainest form: parentheses stand only around operands that are looser
than their place allows, every block is indented, and every simple statement ends its line. Read
again, the words give the same program, up to the places of its nodes.

* `Expr.words`, `Stmt.words`, `Program.words`: the words of syntax trees;
* `Program.spelling_of_words`: tokens with the words of a program spell it.
-/

namespace ScriptMachine

/-! ## Words -/

/-- How tightly an expression holds together when it stands without parentheses. -/
def Expr.strength : Expr → Strength
  | .unary _ op _ => op.strength
  | .binary _ op _ _ => op.strength
  | .logical _ op _ _ => op.strength
  | _ => .suffixed

/-- The words of an expression in its place: in parentheses, if it is looser than the place
allows. -/
def Strength.enclose (k : Strength) (e : Expr) (words : List TokenKind) : List TokenKind :=
  if k.rank ≤ e.strength.rank then words else .leftParen :: (words ++ [.rightParen])

mutual

/-- The words of an expression, with a choice of words for numbers. -/
def Expr.words (spell : Double → String) : Expr → List TokenKind
  | .number _ x => [.number (spell x)]
  | .string _ text => [.string text]
  | .boolean _ b => [if b then .trueKw else .falseKw]
  | .none _ => [.noneKw]
  | .list _ items => .leftBracket :: (Expr.itemWords spell items ++ [.rightBracket])
  | .name _ id => [.name id]
  | .member _ object id => Strength.suffixed.enclose object (object.words spell) ++ [.dot, .name id]
  | .index _ object place =>
    Strength.suffixed.enclose object (object.words spell) ++ .leftBracket ::
      (place.words spell ++ [.rightBracket])
  | .call _ callee args =>
    Strength.suffixed.enclose callee (callee.words spell) ++
      .leftParen :: (Expr.itemWords spell args ++ [.rightParen])
  | .unary _ op operand => op.kind :: op.strength.enclose operand (operand.words spell)
  | .binary _ op lhs rhs =>
    op.lhs.enclose lhs (lhs.words spell) ++ op.kind :: op.rhs.enclose rhs (rhs.words spell)
  | .logical _ op lhs rhs =>
    op.strength.enclose lhs (lhs.words spell) ++ op.kind :: op.strength.tighter.enclose rhs
      (rhs.words spell)

/-- Expressions with commas between them. -/
def Expr.itemWords (spell : Double → String) : List Expr → List TokenKind
  | [] => []
  | [e] => e.words spell
  | e :: f :: es => e.words spell ++ .comma :: Expr.itemWords spell (f :: es)

end

/-- Parameters with commas between them. -/
def Param.words : List Param → List TokenKind
  | [] => []
  | [p] => [.name p.name]
  | p :: q :: ps => .name p.name :: .comma :: Param.words (q :: ps)

/-- The layout of a block. -/
def blockWords (body : List TokenKind) : List TokenKind :=
  .colon :: .newline :: .indent :: (body ++ [.dedent])

mutual

/-- The words of a statement. -/
def Stmt.words (spell : Double → String) : Stmt → List TokenKind
  | .expr e => e.words spell ++ [.newline]
  | .assign _ id value declare =>
    (if declare then [.varKw] else []) ++ .name id :: .assign :: (value.words spell ++ [.newline])
  | .setIndex pos object place value =>
    (Expr.index pos object place).words spell ++ .assign :: (value.words spell ++ [.newline])
  | .importModule _ id => [.importKw, .name id, .newline]
  | .func _ id params body =>
    .funcKw :: .name id :: .leftParen ::
      (Param.words params ++ .rightParen :: blockWords (Stmt.allWords spell body))
  | .ret _ none => [.returnKw, .newline]
  | .ret _ (some value) => .returnKw :: (value.words spell ++ [.newline])
  | .branch cond body tail =>
    .ifKw :: (cond.words spell ++ (blockWords (Stmt.allWords spell body) ++ tail.words spell))
  | .loop cond body => .whileKw :: (cond.words spell ++ blockWords (Stmt.allWords spell body))
  | .leave _ => [.breakKw, .newline]
  | .pass => [.passKw, .newline]

/-- The words of the rest of a conditional. -/
def Else.words (spell : Double → String) : Else → List TokenKind
  | .nothing => []
  | .elseIf cond body tail =>
    .elseKw :: .ifKw ::
      (cond.words spell ++ (blockWords (Stmt.allWords spell body) ++ tail.words spell))
  | .block body => .elseKw :: blockWords (Stmt.allWords spell body)

/-- The words of statements, one after the other. -/
def Stmt.allWords (spell : Double → String) : List Stmt → List TokenKind
  | [] => []
  | s :: ss => s.words spell ++ Stmt.allWords spell ss

end

/-- The words of a program. -/
def Program.words (spell : Double → String) (program : Program) : List TokenKind :=
  Stmt.allWords spell program

/-! ## Numbers -/

mutual

/-- The numbers in an expression. -/
def Expr.numbers : Expr → List Double
  | .number _ x => [x]
  | .string _ _ | .boolean _ _ | .none _ | .name _ _ => []
  | .list _ items => Expr.allNumbers items
  | .member _ object _ => object.numbers
  | .index _ object place => object.numbers ++ place.numbers
  | .call _ callee args => callee.numbers ++ Expr.allNumbers args
  | .unary _ _ operand => operand.numbers
  | .binary _ _ lhs rhs => lhs.numbers ++ rhs.numbers
  | .logical _ _ lhs rhs => lhs.numbers ++ rhs.numbers

/-- The numbers in some expressions. -/
def Expr.allNumbers : List Expr → List Double
  | [] => []
  | e :: es => e.numbers ++ Expr.allNumbers es

end

/-- Each of the numbers is the value of the word that is chosen for it. -/
def Spells (spell : Double → String) (xs : List Double) : Prop :=
  ∀ x ∈ xs, Double.ofLiteral? (spell x) = some x

theorem spells_append {spell : Double → String} {xs ys : List Double} :
    Spells spell (xs ++ ys) ↔ Spells spell xs ∧ Spells spell ys := by
  simp [Spells, or_imp, forall_and]

/-! ## Trees without places -/

mutual

/-- An expression without the places of its nodes. -/
def Expr.bare : Expr → Expr
  | .number _ x => .number {} x
  | .string _ text => .string {} text
  | .boolean _ b => .boolean {} b
  | .none _ => .none {}
  | .list _ items => .list {} (Expr.allBare items)
  | .name _ id => .name {} id
  | .member _ object id => .member {} object.bare id
  | .index _ object place => .index {} object.bare place.bare
  | .call _ callee args => .call {} callee.bare (Expr.allBare args)
  | .unary _ op operand => .unary {} op operand.bare
  | .binary _ op lhs rhs => .binary {} op lhs.bare rhs.bare
  | .logical _ op lhs rhs => .logical {} op lhs.bare rhs.bare

/-- Expressions without the places of their nodes. -/
def Expr.allBare : List Expr → List Expr
  | [] => []
  | e :: es => e.bare :: Expr.allBare es

end

/-- A parameter without its place. -/
def Param.bare (p : Param) : Param := ⟨p.name, {}⟩

mutual

/-- A statement without the places of its nodes. -/
def Stmt.bare : Stmt → Stmt
  | .expr e => .expr e.bare
  | .assign _ id value declare => .assign {} id value.bare declare
  | .setIndex _ object place value => .setIndex {} object.bare place.bare value.bare
  | .importModule _ id => .importModule {} id
  | .func _ id params body => .func {} id (params.map Param.bare) (Stmt.allBare body)
  | .ret _ value => .ret {} (value.map Expr.bare)
  | .branch cond body tail => .branch cond.bare (Stmt.allBare body) tail.bare
  | .loop cond body => .loop cond.bare (Stmt.allBare body)
  | .leave _ => .leave {}
  | .pass => .pass

/-- The rest of a conditional without the places of its nodes. -/
def Else.bare : Else → Else
  | .nothing => .nothing
  | .elseIf cond body tail => .elseIf cond.bare (Stmt.allBare body) tail.bare
  | .block body => .block (Stmt.allBare body)

/-- Statements without the places of their nodes. -/
def Stmt.allBare : List Stmt → List Stmt
  | [] => []
  | s :: ss => s.bare :: Stmt.allBare ss

end

/-- A program without the places of its nodes. -/
def Program.bare (program : Program) : Program := Stmt.allBare program

/-! ## Expressions -/

/-- Something holds of all tokens that have these words. -/
def OnWords (words : List TokenKind) (P : List Token → Prop) :
    Prop := ∀ ts : List Token, ts.map Token.kind = words → P ts

namespace OnWords

variable {kind : TokenKind} {words words' : List TokenKind} {P Q : List Token → Prop}

theorem nil (h : P []) : OnWords [] P := by
  intro ts hts
  obtain rfl := List.map_eq_nil_iff.1 hts
  exact h

theorem cons (h : ∀ pos, OnWords words fun ts => P (⟨kind, pos⟩ :: ts)) :
    OnWords (kind :: words) P := by
  intro ts hts
  obtain ⟨⟨kind', pos⟩, us, rfl, rfl, hus⟩ := List.map_eq_cons_iff.1 hts
  exact h pos us hus

theorem word (h : ∀ pos, P [⟨kind, pos⟩]) : OnWords [kind] P := cons fun pos => nil (h pos)

theorem append (h : OnWords words Q) (hP : ∀ us, Q us → OnWords words' fun ts => P (us ++ ts)) :
    OnWords (words ++ words') P := by
  intro ts hts
  obtain ⟨us, vs, rfl, hus, hvs⟩ := List.map_eq_append_iff.1 hts
  exact hP us (h us hus) vs hvs

end OnWords

/-- A place that allows looser expressions allows the tighter ones. -/
theorem Expr.Spelling.loosen {k k' : Strength} (hk : k.rank ≤ k'.rank) {e : Expr} {ts : List Token}
    (h : Expr.Spelling k' e ts) : Expr.Spelling k e ts := by
  -- The grammar goes from one strength to the next, so the induction is on their distance.
  obtain ⟨d, hd⟩ := Nat.exists_eq_add_of_le hk
  induction d generalizing k with
  | zero =>
    obtain rfl : k = k' := by
      cases k <;> cases k' <;> first | rfl | cases hd
    exact h
  | succ d ih =>
    have hrank : k.tighter.rank = k.rank + 1 := by
      have hlt : k.rank < k'.rank := by omega
      cases k <;> first | rfl | (cases k' <;> exact absurd hlt (by decide))
    exact .tighter (ih (by omega) (by omega))

/-- An expression whose words are known is spelled in its place as well. -/
theorem Strength.spelling_of_enclose {k : Strength} {e : Expr} {words : List TokenKind}
    (h : OnWords words fun ts => ∃ e', e'.bare = e.bare ∧ Expr.Spelling e.strength e' ts) :
    OnWords (k.enclose e words) fun ts => ∃ e', e'.bare = e.bare ∧ Expr.Spelling k e' ts := by
  unfold Strength.enclose
  split
  case isTrue hk =>
    intro ts hts
    obtain ⟨e', hbare, he'⟩ := h ts hts
    exact ⟨e', hbare, he'.loosen hk⟩
  case isFalse =>
    refine .cons fun opening => .append h ?_
    rintro us ⟨e', hbare, he'⟩
    refine .word fun close => ?_
    -- Inside of parentheses every strength is allowed, and the parentheses are allowed everywhere.
    have hparens : Expr.Spelling .suffixed e'
        (⟨.leftParen, opening⟩ :: (us ++ [⟨.rightParen, close⟩])) :=
      .parens (he'.loosen (Nat.zero_le _))
    exact ⟨e', hbare, hparens.loosen (by cases k <;> decide)⟩

section

variable {spell : Double → String}

mutual

/-- **Tokens with the words of an expression spell it**, up to its places. -/
theorem Expr.spelling_of_words (e : Expr) (hnumbers : Spells spell e.numbers) :
    OnWords (e.words spell) fun ts => ∃ e', e'.bare = e.bare ∧ Expr.Spelling e.strength e' ts := by
  match e with
  | .number _ x =>
    exact .word fun pos => ⟨.number pos x, rfl, .number (hnumbers x (List.mem_singleton_self x))⟩
  | .string _ text => exact .word fun pos => ⟨.string pos text, rfl, .string⟩
  | .boolean _ b => exact .word fun pos => ⟨.boolean pos b, rfl, .boolean⟩
  | .none _ => exact .word fun pos => ⟨.none pos, rfl, .none⟩
  | .name _ id => exact .word fun pos => ⟨.name pos id, rfl, .name⟩
  | .list _ items =>
    refine .cons fun pos => .append (Expr.items_of_words items hnumbers) ?_
    rintro us ⟨items', hitems, hspelled⟩
    exact .word fun close => ⟨.list pos items', by simp only [Expr.bare, hitems], .list hspelled⟩
  | .member _ object id =>
    refine .append (Strength.spelling_of_enclose (Expr.spelling_of_words object hnumbers)) ?_
    rintro us ⟨object', hobject, hspelled⟩
    exact .cons fun pos => .word fun place =>
      ⟨.member pos object' id, by simp only [Expr.bare, hobject], .member hspelled⟩
  | .index _ object place =>
    obtain ⟨hobjects, hplaces⟩ := spells_append.1 hnumbers
    refine .append (Strength.spelling_of_enclose (Expr.spelling_of_words object hobjects)) ?_
    rintro us ⟨object', hobject, hspelled⟩
    refine .cons fun pos => .append (Expr.spelling_of_words place hplaces) ?_
    rintro vs ⟨place', hplace, hspelled'⟩
    exact .word fun close => ⟨.index pos object' place', by simp only [Expr.bare, hobject, hplace],
      .index hspelled (hspelled'.loosen (Nat.zero_le _))⟩
  | .call _ callee args =>
    obtain ⟨hcallees, hargs⟩ := spells_append.1 hnumbers
    refine .append (Strength.spelling_of_enclose (Expr.spelling_of_words callee hcallees)) ?_
    rintro us ⟨callee', hcallee, hspelled⟩
    refine .cons fun pos => .append (Expr.items_of_words args hargs) ?_
    rintro vs ⟨args', hargs, hspelled'⟩
    exact .word fun close =>
      ⟨.call pos callee' args', by simp only [Expr.bare, hcallee, hargs], .call hspelled hspelled'⟩
  | .unary _ op operand =>
    refine .cons fun pos us hus => ?_
    obtain ⟨operand', hoperand, hspelled⟩ :=
      Strength.spelling_of_enclose (Expr.spelling_of_words operand hnumbers) us hus
    exact ⟨.unary pos op operand', by simp only [Expr.bare, hoperand], .unary hspelled⟩
  | .binary _ op lhs rhs =>
    obtain ⟨hlefts, hrights⟩ := spells_append.1 hnumbers
    refine .append (Strength.spelling_of_enclose (Expr.spelling_of_words lhs hlefts)) ?_
    rintro us ⟨lhs', hlhs, hspelled⟩
    refine .cons fun pos vs hvs => ?_
    obtain ⟨rhs', hrhs, hspelled'⟩ :=
      Strength.spelling_of_enclose (Expr.spelling_of_words rhs hrights) vs hvs
    exact ⟨.binary pos op lhs' rhs', by simp only [Expr.bare, hlhs, hrhs],
      .binary hspelled hspelled'⟩
  | .logical _ op lhs rhs =>
    obtain ⟨hlefts, hrights⟩ := spells_append.1 hnumbers
    refine .append (Strength.spelling_of_enclose (Expr.spelling_of_words lhs hlefts)) ?_
    rintro us ⟨lhs', hlhs, hspelled⟩
    refine .cons fun pos vs hvs => ?_
    obtain ⟨rhs', hrhs, hspelled'⟩ :=
      Strength.spelling_of_enclose (Expr.spelling_of_words rhs hrights) vs hvs
    exact ⟨.logical pos op lhs' rhs', by simp only [Expr.bare, hlhs, hrhs],
      .logical hspelled hspelled'⟩

theorem Expr.items_of_words (es : List Expr) (hnumbers : Spells spell (Expr.allNumbers es)) :
    OnWords (Expr.itemWords spell es) fun ts => ∃ es', Expr.allBare es' = Expr.allBare es ∧
    Expr.Items es' ts := by
  match es with
  | [] => exact .nil ⟨[], rfl, .nil⟩
  | [e] =>
    intro ts hts
    obtain ⟨e', he', hspelled⟩ := Expr.spelling_of_words e (spells_append.1 hnumbers).1 ts hts
    exact ⟨[e'], by simp only [Expr.allBare, he'], .last (hspelled.loosen (Nat.zero_le _))⟩
  | e :: f :: es =>
    obtain ⟨hfirst, hothers⟩ := spells_append.1 hnumbers
    refine .append (Expr.spelling_of_words e hfirst) ?_
    rintro us ⟨e', he', hspelled⟩
    refine .cons fun comma vs hvs => ?_
    obtain ⟨es', hes', hspelled'⟩ := Expr.items_of_words (f :: es) hothers vs hvs
    refine ⟨e' :: es', ?_, .cons (hspelled.loosen (Nat.zero_le _)) hspelled'⟩
    rw [Expr.allBare, he', hes', ← Expr.allBare]

end

/-! ## Statements -/

theorem Param.spelling_of_words (ps : List Param) :
    OnWords (Param.words ps) fun ts => ∃ ps', ps'.map Param.bare = ps.map Param.bare ∧
    Param.Spelling ps' ts := by
  match ps with
  | [] => exact .nil ⟨[], rfl, .nil⟩
  | [p] => exact .word fun pos => ⟨[⟨p.name, pos⟩], rfl, .last⟩
  | p :: q :: ps =>
    refine .cons fun pos => .cons fun comma ts hts => ?_
    obtain ⟨ps', hps', hspelled⟩ := Param.spelling_of_words (q :: ps) ts hts
    -- There is a parameter behind the comma, as the grammar demands.
    obtain ⟨q', qs, rfl⟩ : ∃ q' qs, ps' = q' :: qs := by
      cases ps' with
      | nil => exact nomatch hps'
      | cons q' qs => exact ⟨q', qs, rfl⟩
    refine ⟨⟨p.name, pos⟩ :: q' :: qs, ?_, .cons hspelled⟩
    rw [List.map_cons, hps']
    rfl

/-- Tokens with the layout of a block have the words of its body inside. -/
theorem Stmt.block_of_words {body : List Stmt} {words : List TokenKind}
    (h : OnWords words fun ts => ∃ body', Stmt.allBare body' = Stmt.allBare body ∧
      Stmt.Lines .dedent body' ts) :
    OnWords (blockWords words) fun ts =>
      ∃ body', Stmt.allBare body' = Stmt.allBare body ∧ ∀ next, Stmt.Block next body' ts := by
  refine .cons fun colon => .cons fun line => .cons fun opening => .append h ?_
  rintro us ⟨body', hbody, hlines⟩
  exact .word fun close => ⟨body', hbody, fun next => .indented hlines⟩

/-- A whole expression may have any strength. -/
theorem Expr.spelling_of_words_whole (e : Expr) (hnumbers : Spells spell e.numbers) :
    OnWords (e.words spell) fun ts => ∃ e', e'.bare = e.bare ∧
    Expr.Spelling .disjunction e' ts := by
  intro ts hts
  obtain ⟨e', hbare, hspelled⟩ := e.spelling_of_words hnumbers ts hts
  exact ⟨e', hbare, hspelled.loosen (Nat.zero_le _)⟩

/-- An element that is assigned to is read as an expression. -/
theorem Expr.index_of_bare {e object place : Expr} (h : e.bare = .index {} object place) :
    ∃ pos object' place', e = .index pos object' place' ∧ object'.bare = object ∧
    place'.bare = place := by
  cases e <;> simp only [Expr.bare, Expr.index.injEq, reduceCtorEq] at h
  exact ⟨_, _, _, rfl, h.2.1, h.2.2⟩

/-- A line is a simple statement and its end. -/
theorem Stmt.spelling_of_line {s : Stmt} (words : List TokenKind)
    (h : OnWords words fun ts => ∃ s', s'.bare = s.bare ∧ Stmt.Simple s' ts) :
    OnWords (words ++ [.newline]) fun ts => ∃ s', s'.bare = s.bare ∧ ∀ next,
      Stmt.Spelling next s' ts := by
  refine .append h ?_
  rintro us ⟨s', hbare, hspelled⟩
  exact .word fun pos => ⟨s', hbare, fun next => .simple hspelled .newline⟩

theorem branch_numbers {P : Expr → Prop} {cond : Expr} {es fs : List Expr}
    (h : ∀ e ∈ cond :: (es ++ fs), P e) : P cond ∧ (∀ e ∈ es, P e) ∧ ∀ e ∈ fs, P e :=
  ⟨h cond (List.mem_cons_self ..),
    fun e he => h e (List.mem_cons_of_mem _ (List.mem_append_left _ he)),
    fun e he => h e (List.mem_cons_of_mem _ (List.mem_append_right _ he))⟩

mutual

/-- **Tokens with the words of a statement spell it**, up to its places and whatever follows. -/
theorem Stmt.spelling_of_words (s : Stmt) (hnumbers : ∀ e ∈ s.exprs, Spells spell e.numbers) :
    OnWords (s.words spell) fun ts => ∃ s', s'.bare = s.bare ∧ ∀ next,
      Stmt.Spelling next s' ts := by
  match s with
  | .expr e =>
    refine Stmt.spelling_of_line (e.words spell) fun ts hts => ?_
    obtain ⟨e', hbare, hspelled⟩ :=
      e.spelling_of_words_whole (hnumbers e (by simp [Stmt.exprs])) ts hts
    exact ⟨.expr e', by simp only [Stmt.bare, hbare], .expr hspelled⟩
  | .assign _ id value true =>
    refine Stmt.spelling_of_line (.varKw :: .name id :: .assign :: value.words spell) ?_
    refine .cons fun pos => .cons fun place => .cons fun sign ts hts => ?_
    obtain ⟨value', hbare, hspelled⟩ :=
      value.spelling_of_words_whole (hnumbers value (by simp [Stmt.exprs])) ts hts
    exact ⟨.assign pos id value' true, by simp only [Stmt.bare, hbare], .declare hspelled⟩
  | .assign _ id value false =>
    refine Stmt.spelling_of_line (.name id :: .assign :: value.words spell) ?_
    refine .cons fun pos => .cons fun sign ts hts => ?_
    obtain ⟨value', hbare, hspelled⟩ :=
      value.spelling_of_words_whole (hnumbers value (by simp [Stmt.exprs])) ts hts
    have hname : Expr.Spelling .suffixed (.name pos id) [⟨.name id, pos⟩] := .name
    exact ⟨.assign pos id value' false, by simp only [Stmt.bare, hbare],
      .assign (hname.loosen (Nat.zero_le _)) hspelled⟩
  | .setIndex pos object place value =>
    have hobjects : Spells spell (Expr.index pos object place).numbers :=
      spells_append.2 ⟨hnumbers object (by simp [Stmt.exprs]),
        hnumbers place (by simp [Stmt.exprs])⟩
    have hwords : (Stmt.setIndex pos object place value).words spell =
        ((Expr.index pos object place).words spell ++ .assign :: value.words spell) ++
            [.newline] := by
      simp [Stmt.words]
    rw [hwords]
    refine Stmt.spelling_of_line _ (.append (Expr.spelling_of_words_whole _ hobjects) ?_)
    -- What is assigned to is spelled as an expression, which turns out to be an element again.
    rintro us ⟨target, htarget, hspelled⟩
    obtain ⟨bracket, object', place', rfl, hobject, hplace⟩ := Expr.index_of_bare htarget
    refine .cons fun sign vs hvs => ?_
    obtain ⟨value', hvalue, hspelled'⟩ :=
      value.spelling_of_words_whole (hnumbers value (by simp [Stmt.exprs])) vs hvs
    exact ⟨.setIndex sign object' place' value', by simp only [Stmt.bare, hobject, hplace, hvalue],
      .setIndex hspelled hspelled'⟩
  | .importModule _ id =>
    exact Stmt.spelling_of_line [.importKw, .name id]
      (.cons fun pos => .word fun place => ⟨.importModule pos id, rfl, .importModule⟩)
  | .func _ id params body =>
    refine .cons fun pos => .cons fun place => .cons fun opening =>
      .append (Param.spelling_of_words params) ?_
    rintro us ⟨params', hparams, hspelled⟩
    refine .cons fun close vs hvs => ?_
    obtain ⟨body', hbody, hblock⟩ :=
      Stmt.block_of_words (Stmt.lines_of_words body hnumbers .dedent) vs hvs
    exact ⟨.func pos id params' body', by simp only [Stmt.bare, hparams, hbody],
      fun next => .func hspelled (hblock next)⟩
  | .ret _ none =>
    exact Stmt.spelling_of_line [.returnKw] (.word fun pos => ⟨.ret pos none, rfl, .ret⟩)
  | .ret _ (some value) =>
    refine Stmt.spelling_of_line (.returnKw :: value.words spell) (.cons fun pos ts hts => ?_)
    obtain ⟨value', hbare, hspelled⟩ :=
      value.spelling_of_words_whole (hnumbers value (by simp [Stmt.exprs])) ts hts
    exact ⟨.ret pos (some value'), by simp only [Stmt.bare, Option.map_some, hbare],
      .retValue hspelled⟩
  | .branch cond body tail =>
    obtain ⟨hcond, hbody, htail⟩ := branch_numbers hnumbers
    refine .cons fun pos => .append (cond.spelling_of_words_whole hcond) ?_
    rintro us ⟨cond', hcond', hspelled⟩
    refine .append (Stmt.block_of_words (Stmt.lines_of_words body hbody .dedent)) ?_
    rintro vs ⟨body', hbody', hblock⟩ ws hws
    obtain ⟨tail', htail', helse⟩ := Else.spelling_of_words tail htail ws hws
    exact ⟨.branch cond' body' tail', by simp only [Stmt.bare, hcond', hbody', htail'],
      fun next => .branch hspelled (hblock _) (helse next)⟩
  | .loop cond body =>
    refine .cons fun pos =>
      .append (cond.spelling_of_words_whole (hnumbers cond (List.mem_cons_self ..))) ?_
    rintro us ⟨cond', hcond', hspelled⟩ vs hvs
    obtain ⟨body', hbody', hblock⟩ := Stmt.block_of_words
      (Stmt.lines_of_words body (fun e he => hnumbers e (List.mem_cons_of_mem _ he)) .dedent) vs hvs
    exact ⟨.loop cond' body', by simp only [Stmt.bare, hcond', hbody'],
      fun next => .loop hspelled (hblock next)⟩
  | .leave _ => exact Stmt.spelling_of_line [.breakKw] (.word fun pos => ⟨.leave pos, rfl, .leave⟩)
  | .pass => exact Stmt.spelling_of_line [.passKw] (.word fun pos => ⟨.pass, rfl, .pass⟩)

theorem Else.spelling_of_words (r : Else) (hnumbers : ∀ e ∈ r.exprs, Spells spell e.numbers) :
    OnWords (r.words spell) fun ts => ∃ r', r'.bare = r.bare ∧ ∀ next,
      Else.Spelling next r' ts := by
  match r with
  | .nothing => exact .nil ⟨.nothing, rfl, fun next => .nothing⟩
  | .elseIf cond body tail =>
    obtain ⟨hcond, hbody, htail⟩ := branch_numbers hnumbers
    refine .cons fun pos => .cons fun place => .append (cond.spelling_of_words_whole hcond) ?_
    rintro us ⟨cond', hcond', hspelled⟩
    refine .append (Stmt.block_of_words (Stmt.lines_of_words body hbody .dedent)) ?_
    rintro vs ⟨body', hbody', hblock⟩ ws hws
    obtain ⟨tail', htail', helse⟩ := Else.spelling_of_words tail htail ws hws
    exact ⟨.elseIf cond' body' tail', by simp only [Else.bare, hcond', hbody', htail'],
      fun next => .elseIf hspelled (hblock _) (helse next)⟩
  | .block body =>
    refine .cons fun pos us hus => ?_
    obtain ⟨body', hbody, hblock⟩ :=
      Stmt.block_of_words (Stmt.lines_of_words body hnumbers .dedent) us hus
    exact ⟨.block body', by simp only [Else.bare, hbody], fun next => .block (hblock next)⟩

theorem Stmt.lines_of_words (ss : List Stmt)
    (hnumbers : ∀ e ∈ Stmt.allExprs ss, Spells spell e.numbers) (next : TokenKind) :
    OnWords (Stmt.allWords spell ss) fun ts =>
      ∃ ss', Stmt.allBare ss' = Stmt.allBare ss ∧ Stmt.Lines next ss' ts := by
  match ss with
  | [] => exact .nil ⟨[], rfl, .nil⟩
  | s :: ss =>
    refine .append (Stmt.spelling_of_words s fun e he => hnumbers e (List.mem_append_left _ he)) ?_
    rintro us ⟨s', hs, hspelled⟩ vs hvs
    obtain ⟨ss', hss, hlines⟩ :=
      Stmt.lines_of_words ss (fun e he => hnumbers e (List.mem_append_right _ he)) next vs hvs
    exact ⟨s' :: ss', by simp only [Stmt.allBare, hs, hss], .cons (hspelled _) hlines⟩

end

end

/-- **What is written out is read back.** Any tokens with the words of a program, up to the end of
the input, are read as the same program up to its places, or there are too many nested levels. The
latter takes many words. -/
theorem parse_words (spell : Double → String) (program : Program)
    (hnumbers : ∀ e ∈ program.exprs, ∀ x ∈ e.numbers, Double.ofLiteral? (spell x) = some x)
    (ts : List Token) (hts : ts.map Token.kind = program.words spell ++ [.endOfInput]) :
    (∃ program', parse ts = .ok program' ∧ program'.bare = program.bare) ∨
      Grammar.maxNesting ≤ (program.words spell).length ∧
        ∃ e, parse ts = .error e ∧ e.message = "Too many nested levels." := by
  obtain ⟨us, vs, rfl, hus, hvs⟩ := List.map_eq_append_iff.1 hts
  obtain ⟨⟨kind, pos⟩, rfl, rfl⟩ := List.map_eq_singleton_iff.1 hvs
  obtain ⟨program', hbare, hspelled⟩ := Stmt.lines_of_words program hnumbers .endOfInput us hus
  have hlength : (program.words spell).length = us.length := by rw [← hus, List.length_map]
  obtain hparse | ⟨hdeep, place, hparse⟩ := Program.Spelling.accepted hspelled pos
  · exact .inl ⟨program', hparse, hbare⟩
  · exact .inr ⟨hlength ▸ hdeep, _, hparse, rfl⟩

/-- `x = (-a) ^ -2`, where the base of the power needs its parentheses and the exponent needs
none. -/
theorem parse_words_power :
    ∃ program,
      parse ([.name "x", .assign, .leftParen, .minus, .name "a", .rightParen, .caret, .minus,
        .number "2", .newline, .endOfInput].map (⟨·, {}⟩)) = .ok program ∧
      Program.bare program = [.assign {} "x" (.binary {} .pow (.unary {} .neg (.name {} "a"))
        (.unary {} .neg (.number {} ⟨0x4000000000000000⟩))) false] := by
  have hnumber : Double.ofLiteral? "2" = some ⟨0x4000000000000000⟩ := by decide +kernel
  refine (parse_words (fun _ => "2")
    [.assign {} "x" (.binary {} .pow (.unary {} .neg (.name {} "a"))
      (.unary {} .neg (.number {} ⟨0x4000000000000000⟩))) false] ?_ _ (by rfl)).resolve_right
        fun h => absurd h.1 (by decide)
  simp [Stmt.allExprs, Stmt.exprs, Expr.numbers, hnumber]

end ScriptMachine
