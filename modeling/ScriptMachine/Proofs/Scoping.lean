import ScriptMachine.Proofs.Outcome
/-!
# Valid programs

At every point of a program a name is a local variable, else a module, else a global variable, else
nothing. Local variables belong to the function around the point and come from the text before it.
What the top level assigns to, defines or imports counts everywhere; what a function imports counts
in the text after it.

* `Setting.IsModule`, `Setting.IsGlobal`, `Scope.IsLocal`: what a name is at a point;
* `Setting.Valid`: programs that ask for nothing they are not given.
-/

namespace ScriptMachine

/-! ## The names of the top level -/

mutual

/-- The names that a statement assigns to or defines outside of function bodies. -/
def Stmt.bound : Stmt → List String
  | .assign _ name _ _ | .func _ name _ _ => [name]
  | .branch _ body tail => Stmt.boundAll body ++ tail.bound
  | .loop _ body => Stmt.boundAll body
  | .expr _ | .setIndex _ _ _ _ | .importModule _ _ | .ret _ _ | .leave _ | .pass => []

/-- The names that statements assign to or define outside of function bodies. -/
def Stmt.boundAll : List Stmt → List String
  | [] => []
  | s :: ss => s.bound ++ Stmt.boundAll ss

/-- The names that the rest of a conditional assigns to or defines outside of function bodies. -/
def Else.bound : Else → List String
  | .nothing => []
  | .elseIf _ body tail => Stmt.boundAll body ++ tail.bound
  | .block body => Stmt.boundAll body

end

mutual

/-- The modules that a statement imports outside of function bodies. -/
def Stmt.imported : Stmt → List String
  | .importModule _ name => [name]
  | .branch _ body tail => Stmt.importedAll body ++ tail.imported
  | .loop _ body => Stmt.importedAll body
  | .expr _ | .assign _ _ _ _ | .setIndex _ _ _ _ | .func _ _ _ _ | .ret _ _ | .leave _ | .pass =>
    []

/-- The modules that statements import outside of function bodies. -/
def Stmt.importedAll : List Stmt → List String
  | [] => []
  | s :: ss => s.imported ++ Stmt.importedAll ss

/-- The modules that the rest of a conditional imports outside of function bodies. -/
def Else.imported : Else → List String
  | .nothing => []
  | .elseIf _ body tail => Stmt.importedAll body ++ tail.imported
  | .block body => Stmt.importedAll body

end

/-! ## Points of a program -/

/-- What a point of a program takes from the text before it. -/
structure Scope where
  /-- The local variables of the function around the point; nothing if there is no function. -/
  locals : Option (List String) := none
  /-- The number of loops around the point that can be left there: those of the same function. -/
  loops : Nat := 0
  /-- The modules that function bodies have imported so far. -/
  imports : List String := []

namespace Scope

/-- The name is a local variable. -/
def IsLocal (p : Scope) (name : String) : Prop := name ∈ p.locals.getD []

instance (p : Scope) (name : String) : Decidable (p.IsLocal name) :=
  inferInstanceAs (Decidable (name ∈ p.locals.getD []))

/-- The first point of a function body. -/
def enter (p : Scope) (params : List Param) : Scope :=
  { locals := some (params.map (·.name)), imports := p.imports }

end Scope

/-- A module is imported: if it is still to be loaded, its loader runs. -/
def Machine.loadModule {σ : Type} (call : Callback σ) (m : Machine σ) (name : String) : Machine σ :=
  match m.modules.lookup name with
  | .load index handle loader =>
    (call (loader handle) (m.beginLoad index)).value?.elim m fun r => r.2.finishLoad index
  | _ => m

/-- A machine, and what the top level of a program does to its names. -/
structure Setting (σ : Type) where
  /-- How loaders run. -/
  call : Callback σ
  machine : Machine σ
  /-- The names that the program assigns to or defines outside of function bodies. -/
  bound : List String := []
  /-- The modules that the program imports outside of function bodies. -/
  imported : List String := []

namespace Setting

variable {σ : Type} (c : Setting σ)

/-! ## What a name is -/

/-- An earlier program has imported a module of this name. -/
def Known (name : String) : Prop := (c.machine.imports.lookup name).isSome

instance : DecidablePred c.Known := fun _ => inferInstanceAs (Decidable (_ = true))

/-- There is a global variable of this name, or the program makes it. -/
def Declared (name : String) : Prop := (c.machine.globals.slot? name).isSome ∨ name ∈ c.bound

instance : DecidablePred c.Declared := fun _ => inferInstanceAs (Decidable (_ ∨ _))

/-- The name is a module. -/
def IsModule (p : Scope) (name : String) : Prop :=
  ¬ p.IsLocal name ∧ (c.Known name ∨ name ∈ c.imported ∨ name ∈ p.imports)

instance (p : Scope) : DecidablePred (c.IsModule p) := fun _ => inferInstanceAs (Decidable (_ ∧ _))

/-- The name is a global variable. -/
def IsGlobal (p : Scope) (name : String) : Prop :=
  ¬ p.IsLocal name ∧ ¬ c.IsModule p name ∧ c.Declared name

instance (p : Scope) : DecidablePred (c.IsGlobal p) := fun _ => inferInstanceAs (Decidable (_ ∧ _))

/-- The global variable of this name is built in. -/
def IsBuiltin (name : String) : Prop :=
  (c.machine.globals.slot? name).any c.machine.globals.isBuiltin

instance : DecidablePred c.IsBuiltin := fun _ => inferInstanceAs (Decidable (_ = true))

/-! ## Modules -/

/-- A module of this name can be imported: it is registered, it is not in the middle of loading, and
there is no global variable of this name. -/
def Importable (name : String) : Prop :=
  (c.machine.modules.status? name).any (· ≠ .loading) ∧ ¬ c.Declared name

instance : DecidablePred c.Importable := fun _ => inferInstanceAs (Decidable (_ ∧ _))

/-- The modules that the program has imported before a point, in order. Those of the top level come
first. -/
def pending (p : Scope) : List String := c.imported.filter (fun name => ¬ c.Known name) ++ p.imports

/-- The index of the module of a name. -/
def index? (p : Scope) (name : String) : Option Nat :=
  if name ∈ c.pending p then c.machine.modules.index? name else c.machine.imports.lookup name

/-- The machine with the modules that were loaded before a point. -/
def loaded (p : Scope) : Machine σ := (c.pending p).foldl (Machine.loadModule c.call) c.machine

/-- The module of a name has a certain member. -/
def HasMember (p : Scope) (name id : String) : Prop :=
  (c.index? p name).any fun index => ((c.loaded p).modules.function? index id).isSome

instance (p : Scope) (name id : String) : Decidable (c.HasMember p name id) :=
  inferInstanceAs (Decidable (_ = true))

end Setting

/-! ## What the pieces of a program ask for -/

/-- What a piece of a program asks of its point. -/
inductive Demand
  /-- The name is used as a value. -/
  | value (name : String)
  /-- A member of a name; without a name, a member of something else. -/
  | member (name? : Option String) (id : String)
  | imports (name : String)
  /-- The name is assigned to or defined. -/
  | assigns (name : String)
  | params (names : List String)
  | args (count : Nat)
  | returns
  /-- A loop is left. -/
  | leaves

namespace Setting

variable {σ : Type} (c : Setting σ)

/-- A module of this name is there already when it is imported. The imports of the top level come
before everything else, so they do not count for each other. -/
def IsImported (p : Scope) (name : String) : Prop :=
  if p.locals.isSome then c.IsModule p name else c.Known name

instance (p : Scope) (name : String) : Decidable (c.IsImported p name) :=
  inferInstanceAs (Decidable (if p.locals.isSome then c.IsModule p name else c.Known name))

/-- A point gives what it is asked for. -/
def Meets (p : Scope) : Demand → Prop
  | .value name => p.IsLocal name ∨ c.IsGlobal p name
  | .member (some name) id => c.IsModule p name ∧ c.HasMember p name id
  | .member none _ => False
  | .imports name => c.IsImported p name ∨ c.Importable name
  | .assigns name => ¬ c.IsModule p name ∧ ¬ (c.IsGlobal p name ∧ c.IsBuiltin name)
  | .params names => names.Nodup
  | .args count => count ≤ maxCallArgs
  | .returns => p.locals.isSome
  | .leaves => 0 < p.loops

instance (p : Scope) : DecidablePred (c.Meets p)
  | .value _ => inferInstanceAs (Decidable (_ ∨ _))
  | .member (some _) _ | .assigns _ => inferInstanceAs (Decidable (_ ∧ _))
  | .member none _ => inferInstanceAs (Decidable False)
  | .imports _ => inferInstanceAs (Decidable (_ ∨ _))
  | .params _ => inferInstanceAs (Decidable (List.Nodup _))
  | .args _ => inferInstanceAs (Decidable (_ ≤ _))
  | .returns => inferInstanceAs (Decidable (_ = true))
  | .leaves => inferInstanceAs (Decidable (_ < _))

/-- The point after an assignment. In a function, a name that is declared, or that is no global
variable, is local from there on. -/
def assign (p : Scope) (name : String) (declare : Bool) : Scope :=
  { p with
    locals := p.locals.map fun locals => if declare ∨ ¬ c.IsGlobal p name then name :: locals
      else locals }

/-- The point after an import. -/
def importing (p : Scope) (name : String) : Scope :=
  if p.locals.isSome ∧ ¬ c.IsModule p name then { p with imports := p.imports ++ [name] } else p

end Setting

/-- The name that an expression is. -/
def Expr.name? : Expr → Option String
  | .name _ id => some id
  | _ => .none

mutual

/-- What an expression asks of its point. -/
def Expr.demands : Expr → List Demand
  | .number _ _ | .string _ _ | .boolean _ _ | .none _ => []
  | .list _ items => Expr.demandsAll items
  | .name _ id => [.value id]
  | .member _ object id => [.member object.name? id]
  | .index _ object i => object.demands ++ i.demands
  | .call _ callee args => .args args.length :: (callee.demands ++ Expr.demandsAll args)
  | .unary _ _ operand => operand.demands
  | .binary _ _ lhs rhs | .logical _ _ lhs rhs => lhs.demands ++ rhs.demands

/-- What expressions ask of their point. -/
def Expr.demandsAll : List Expr → List Demand
  | [] => []
  | e :: es => e.demands ++ Expr.demandsAll es

end

section

variable {σ : Type} (c : Setting σ)

mutual

/-- The point after a statement. -/
def Stmt.after : Stmt → Scope → Scope
  | .assign _ name _ declare, p => c.assign p name declare
  | .importModule _ name, p => c.importing p name
  | .func _ name params body, p =>
    c.assign { p with imports := (Stmt.afterAll body (p.enter params)).imports } name false
  | .branch _ body tail, p => tail.after (Stmt.afterAll body p)
  | .loop _ body, p => { Stmt.afterAll body { p with loops := p.loops + 1 } with loops := p.loops }
  | .expr _, p | .setIndex _ _ _ _, p | .ret _ _, p | .leave _, p | .pass, p => p

/-- The point after statements. -/
def Stmt.afterAll : List Stmt → Scope → Scope
  | [], p => p
  | s :: ss, p => Stmt.afterAll ss (s.after p)

/-- The point after the rest of a conditional. -/
def Else.after : Else → Scope → Scope
  | .nothing, p => p
  | .elseIf _ body tail, p => tail.after (Stmt.afterAll body p)
  | .block body, p => Stmt.afterAll body p

end

mutual

/-- What a statement asks, point by point. A function is assigned to its name after its body. -/
def Stmt.demands : Stmt → Scope → List (Scope × Demand)
  | .expr e, p => e.demands.map (p, ·)
  | .assign _ name value _, p => value.demands.map (p, ·) ++ [(p, .assigns name)]
  | .setIndex _ object index value, p =>
    (object.demands ++ index.demands ++ value.demands).map (p, ·)
  | .importModule _ name, p => [(p, .imports name)]
  | .func _ name params body, p =>
    (p, .params (params.map (·.name))) :: (Stmt.demandsAll body (p.enter params) ++
      [({ p with imports := (Stmt.afterAll c body (p.enter params)).imports }, .assigns name)])
  | .ret _ value, p => (p, .returns) :: (value.elim [] Expr.demands).map (p, ·)
  | .branch cond body tail, p =>
    cond.demands.map (p, ·) ++ (Stmt.demandsAll body p ++ tail.demands (Stmt.afterAll c body p))
  | .loop cond body, p =>
    cond.demands.map (p, ·) ++ Stmt.demandsAll body { p with loops := p.loops + 1 }
  | .leave _, p => [(p, .leaves)]
  | .pass, _ => []

/-- What statements ask, point by point. -/
def Stmt.demandsAll : List Stmt → Scope → List (Scope × Demand)
  | [], _ => []
  | s :: ss, p => s.demands p ++ Stmt.demandsAll ss (s.after c p)

/-- What the rest of a conditional asks, point by point. -/
def Else.demands : Else → Scope → List (Scope × Demand)
  | .nothing, _ => []
  | .elseIf cond body tail, p =>
    cond.demands.map (p, ·) ++ (Stmt.demandsAll body p ++ tail.demands (Stmt.afterAll c body p))
  | .block body, p => Stmt.demandsAll body p

end

end

/-! ## Programs -/

/-- A program in front of a machine. -/
def Program.setting {σ : Type} (program : Program) (call : Callback σ) (m : Machine σ) :
    Setting σ :=
  { call, machine := m, bound := Stmt.boundAll program, imported := Stmt.importedAll program }

/-- The program is given everything that it asks for. -/
def Program.Valid {σ : Type} (program : Program) (call : Callback σ) (m : Machine σ) : Prop :=
  ∀ x ∈ Stmt.demandsAll (program.setting call m) program {}, (program.setting call m).Meets x.1 x.2

instance {σ : Type} (program : Program) (call : Callback σ) (m : Machine σ) :
    Decidable (program.Valid call m) :=
  inferInstanceAs (Decidable (∀ _ ∈ _, _))

end ScriptMachine
