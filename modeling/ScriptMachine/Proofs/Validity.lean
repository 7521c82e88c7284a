import ScriptMachine.Proofs.Deciding
/-!
# The compiler accepts exactly the valid programs

A compilation goes through a program twice. First it collects the names of the top level, and
decides whether they can be what the program makes them. Then it goes from point to point and
decides whether each demand is met.

* `Setting.Asks.consistent`: the first pass rejects no program that the second would accept;
* `compileProgram_ok_iff_valid`: **a program compiles exactly if it is valid**, on every machine.
-/

namespace ScriptMachine

variable {σ : Type}

/-! ## Points of one function -/

/-- Two points are in the same function and the same loop. -/
structure Scope.Beside (p q : Scope) : Prop where
  isSome_locals : q.locals.isSome = p.locals.isSome
  loops : q.loops = p.loops

theorem Scope.Beside.trans {p q r : Scope} (h : p.Beside q) (h' : q.Beside r) : p.Beside r :=
  ⟨h'.isSome_locals.trans h.isSome_locals, h'.loops.trans h.loops⟩

theorem Scope.Beside.locals_eq_none_iff {p q : Scope} (h : p.Beside q) :
    q.locals = none ↔ p.locals = none := by
  rw [← Option.not_isSome_iff_eq_none, h.isSome_locals, Option.not_isSome_iff_eq_none]

theorem Setting.beside_assign (c : Setting σ) (p : Scope) (name : String) (declare : Bool) :
    p.Beside (c.assign p name declare) :=
  ⟨Option.isSome_map, rfl⟩

theorem Setting.beside_importing (c : Setting σ) (p : Scope) (name : String) :
    p.Beside (c.importing p name) := by
  unfold importing
  split <;> exact ⟨rfl, rfl⟩

mutual

theorem Stmt.beside_after (c : Setting σ) : (t : Stmt) → (p : Scope) → p.Beside (t.after c p)
  | .assign _ name _ declare, p => c.beside_assign p name declare
  | .importModule _ name, p => c.beside_importing p name
  | .func _ name params body, p =>
    have himports : p.Beside { p with
      imports := (Stmt.afterAll c body (p.enter params)).imports } := ⟨rfl, rfl⟩
    himports.trans (c.beside_assign _ name false)
  | .branch _ body tail, p => (Stmt.beside_afterAll c body p).trans (tail.beside_after c _)
  | .loop _ body, _ => ⟨(Stmt.beside_afterAll c body _).isSome_locals, rfl⟩
  | .expr _, _ | .setIndex _ _ _ _, _ | .ret _ _, _ | .leave _, _ | .pass, _ => ⟨rfl, rfl⟩

theorem Stmt.beside_afterAll (c : Setting σ) :
    (ts : List Stmt) → (p : Scope) → p.Beside (Stmt.afterAll c ts p)
  | [], _ => ⟨rfl, rfl⟩
  | t :: ts, p => (t.beside_after c p).trans (Stmt.beside_afterAll c ts _)

theorem Else.beside_after (c : Setting σ) : (tail : Else) → (p : Scope) → p.Beside (tail.after c p)
  | .nothing, _ => ⟨rfl, rfl⟩
  | .elseIf _ body tail, p => (Stmt.beside_afterAll c body p).trans (tail.beside_after c _)
  | .block body, p => Stmt.beside_afterAll c body p

end

namespace Setting

variable {c : Setting σ} {p : Scope} {d : Draft σ} {name : String} {fuel : Nat}

/-- A part of the top level binds and imports nothing but what the program does. -/
structure Covers (c : Setting σ) (p : Scope) (bound imported : List String) : Prop where
  bound : p.locals = none → ∀ name ∈ bound, name ∈ c.bound
  imported : p.locals = none → ∀ name ∈ imported, name ∈ c.imported

section

variable {q : Scope} {b b' i i' : List String} (h : c.Covers p (b ++ b') (i ++ i'))
    (hq : p.Beside q)

include h hq

theorem Covers.left : c.Covers q b i :=
  ⟨fun hlocals name hname => h.bound (hq.locals_eq_none_iff.1 hlocals) name
    (List.mem_append_left _ hname),
    fun hlocals name hname => h.imported (hq.locals_eq_none_iff.1 hlocals) name
      (List.mem_append_left _ hname)⟩

theorem Covers.right : c.Covers q b' i' :=
  ⟨fun hlocals name hname => h.bound (hq.locals_eq_none_iff.1 hlocals) name
    (List.mem_append_right _ hname),
    fun hlocals name hname => h.imported (hq.locals_eq_none_iff.1 hlocals) name
      (List.mem_append_right _ hname)⟩

end

/-- The names of the top level can be what the program makes them. What it assigns to is neither a
module nor built in, and what it imports is there, or can be imported. -/
structure Consistent (c : Setting σ) : Prop where
  bound : ∀ name ∈ c.bound, ¬ c.Known name ∧ ¬ c.IsBuiltin name ∧ name ∉ c.imported
  imported : ∀ name ∈ c.imported, c.Known name ∨ c.Importable name

/-! ## Statements -/

mutual

theorem decides_bindStmt (hc : c.Runs fuel) (hnames : c.Consistent) :
    (t : Stmt) → {p : Scope} → {d : Draft σ} → c.Describes p d → c.Covers p t.bound t.imported →
    Decides (c.MeetsAll (t.demands c p)) (fun _ k => c.Describes (t.after c p) k)
      (Compile.bindStmt c.call t d.build d.machine)
  | .expr e, _, _, h, _ => (decides_bindExpr e h).andThen fun _ _ hk => .pure hk
  | .assign pos name value declare, _, _, h, htop =>
    decides_append (decides_bindExpr value h) fun _ _ h₁ =>
      ((h₁.decides_bindTarget (fun hlocals => htop.bound hlocals name List.mem_cons_self)
        declare pos).congr meetsAll_singleton.symm).andThen fun _ _ h₂ => .pure h₂
  | .setIndex pos object place value, _, _, h, _ => by
    unfold Compile.bindStmt Stmt.demands
    rw [List.map_append, List.map_append, List.append_assoc]
    exact decides_append (decides_bindExpr object h) fun _ _ h₁ =>
      decides_append (decides_bindExpr place h₁) fun _ _ h₂ =>
        (decides_bindExpr value h₂).andThen fun _ _ h₃ => .pure h₃
  | .importModule pos name, _, _, h, htop =>
    ((h.decides_import hc (fun hlocals =>
      have hname := htop.imported hlocals name List.mem_cons_self
      ⟨hname, hnames.imported name hname⟩) pos).congr meetsAll_singleton.symm).andThen
        fun _ _ hk => .pure hk
  | .func pos name params body, p, _, h, htop => by
    unfold Compile.bindStmt Stmt.demands
    rw [← List.cons_append]
    -- The name is assigned to after the body, where the imports of the body count.
    refine decides_append (h.decides_bindFunction pos name params fun h' =>
      decides_bindBlock hc hnames body h' ⟨nofun, nofun⟩) fun v _ h₁ => ?_
    exact ((h₁.decides_bindTarget (fun hlocals => htop.bound hlocals name List.mem_cons_self)
      false pos).congr meetsAll_singleton.symm).andThen fun _ _ h₂ => .pure h₂
  | .ret pos value, _, _, h, _ => by
    unfold Compile.bindStmt Stmt.demands
    refine Decides.congr ((h.decides_requireFunction pos).bind ?_) meetsAll_cons.symm
    rintro _ _ - rfl
    cases value with
    | some e => exact (decides_bindExpr e h).andThen fun _ _ hk => .pure hk
    | none => exact .ok meetsAll_nil h
  | .branch cond body tail, p, _, h, htop =>
    decides_append (decides_bindExpr cond h) fun _ _ h₁ =>
      decides_append (decides_bindBlock hc hnames body h₁ (htop.left ⟨rfl, rfl⟩)) fun _ _ h₂ =>
        (decides_bindElse hc hnames tail h₂ (htop.right (Stmt.beside_afterAll c body p))).andThen
          fun _ _ h₃ => .pure h₃
  | .loop cond body, p, _, h, htop =>
    decides_append (decides_bindExpr cond h) fun _ _ h₁ =>
      (h₁.decides_inLoop (Stmt.beside_afterAll c body _).loops fun h' =>
        decides_bindBlock hc hnames body h' ⟨htop.bound, htop.imported⟩).andThen
          fun _ _ h₂ => .pure h₂
  | .leave pos, _, _, h, _ => by
    refine ((h.decides_requireLoop pos).congr meetsAll_singleton.symm).andThen ?_
    rintro _ _ rfl
    exact .pure h
  | .pass, _, _, h, _ => .ok meetsAll_nil h

theorem decides_bindBlock (hc : c.Runs fuel) (hnames : c.Consistent) :
    (ts : List Stmt) → {p : Scope} →
    {d : Draft σ} → c.Describes p d → c.Covers p (Stmt.boundAll ts) (Stmt.importedAll ts) →
    Decides (c.MeetsAll (Stmt.demandsAll c ts p)) (fun _ k => c.Describes (Stmt.afterAll c ts p) k)
      (Compile.bindBlock c.call ts d.build d.machine)
  | [], _, _, h, _ => .ok meetsAll_nil h
  | t :: ts, p, _, h, htop =>
    decides_append (decides_bindStmt hc hnames t h (htop.left ⟨rfl, rfl⟩)) fun _ _ h₁ =>
      (decides_bindBlock hc hnames ts h₁ (htop.right (t.beside_after c p))).andThen
        fun _ _ h₂ => .pure h₂

theorem decides_bindElse (hc : c.Runs fuel) (hnames : c.Consistent) : (tail : Else) → {p : Scope} →
    {d : Draft σ} → c.Describes p d → c.Covers p tail.bound tail.imported →
    Decides (c.MeetsAll (tail.demands c p)) (fun _ k => c.Describes (tail.after c p) k)
      (Compile.bindElse c.call tail d.build d.machine)
  | .nothing, _, _, h, _ => .ok meetsAll_nil h
  | .elseIf cond body tail, p, _, h, htop =>
    decides_append (decides_bindExpr cond h) fun _ _ h₁ =>
      decides_append (decides_bindBlock hc hnames body h₁ (htop.left ⟨rfl, rfl⟩)) fun _ _ h₂ =>
        (decides_bindElse hc hnames tail h₂ (htop.right (Stmt.beside_afterAll c body p))).andThen
          fun _ _ h₃ => .pure h₃
  | .block body, _, _, h, htop => decides_bindBlock hc hnames body h htop

end

theorem decides_bindTop (hc : c.Runs fuel) (hnames : c.Consistent) (ts : List Stmt)
    (h : c.Describes p d) (htop : c.Covers p (Stmt.boundAll ts) (Stmt.importedAll ts)) :
    Decides (c.MeetsAll (Stmt.demandsAll c ts p)) (fun _ _ => True)
      (Compile.bindTop c.call ts d.build d.machine) := by
  fun_induction Compile.bindTop c.call ts generalizing p d with
  | case1 => exact .ok meetsAll_nil trivial
  | case2 e =>
    unfold Stmt.demandsAll Stmt.demandsAll
    rw [List.append_nil]
    exact (decides_bindExpr e h).andThen fun _ _ _ => .pure trivial
  | case3 t ts hne ih =>
    exact decides_append (decides_bindStmt hc hnames t h (htop.left ⟨rfl, rfl⟩)) fun _ _ h₁ =>
      (ih h₁ (htop.right (t.beside_after c p))).andThen fun _ _ _ => .pure trivial

/-! ## The names of the top level -/

/-- More of the top level is known. -/
def extend (c : Setting σ) (bound imported : List String) : Setting σ :=
  { c with bound := c.bound ++ bound, imported := c.imported ++ imported }

theorem extend_nil (c : Setting σ) : c.extend [] [] = c := by
  simp [extend]

theorem extend_extend (c : Setting σ) (b b' i i' : List String) :
    (c.extend b i).extend b' i' = c.extend (b ++ b') (i ++ i') := by
  simp [extend]

theorem pending_extend (c : Setting σ) (bound imported : List String) :
    (c.extend bound imported).pending {} = c.pending {} ++ imported.filter
      (fun name => ¬ c.Known name) := by
  show (c.imported ++ imported).filter (fun name => ¬ c.Known name) ++ [] =
    c.imported.filter (fun name => ¬ c.Known name) ++ [] ++ imported.filter
      (fun name => ¬ c.Known name)
  rw [List.filter_append, List.append_nil, List.append_nil]

theorem isModule_start : c.IsModule {} name ↔ c.Known name ∨ name ∈ c.imported := by
  simp [IsModule, Scope.IsLocal]

theorem declared_of_isBuiltin (h : c.IsBuiltin name) : c.Declared name := by
  unfold IsBuiltin at h
  cases hslot : c.machine.globals.slot? name with
  | none => rw [hslot] at h; cases h
  | some slot => exact .inl (by rw [hslot]; rfl)

theorem Consistent.of_extend {b i : List String} (h : (c.extend b i).Consistent) :
    c.Consistent where
  bound name hname := by
    obtain ⟨hknown, hbuiltin, himported⟩ := h.bound name (List.mem_append_left _ hname)
    exact ⟨hknown, hbuiltin, fun hi => himported (List.mem_append_left _ hi)⟩
  imported name hname := by
    rcases h.imported name (List.mem_append_left _ hname) with hknown | ⟨hoffers, hfree⟩
    · exact .inl hknown
    · exact .inr ⟨hoffers, fun hd => hfree (hd.imp_right (List.mem_append_left _))⟩

theorem Consistent.extend_bound_iff (h : c.Consistent) :
    (c.extend [name] []).Consistent ↔ c.Meets {} (.assigns name) := by
  constructor
  · intro h'
    obtain ⟨hknown, hbuiltin, himported⟩ :=
      h'.bound name (List.mem_append_right _ List.mem_cons_self)
    refine ⟨fun hmodule => ?_, fun hg => hbuiltin hg.2⟩
    rcases isModule_start.1 hmodule with hk | hi
    · exact hknown hk
    · exact himported (List.mem_append_left _ hi)
  · rintro ⟨hmodule, hbuiltin⟩
    rw [isModule_start, not_or] at hmodule
    refine ⟨fun other hother => ?_, fun other hother => ?_⟩
    · show ¬ c.Known other ∧ ¬ c.IsBuiltin other ∧ other ∉ c.imported ++ []
      rw [List.append_nil]
      rcases List.mem_append.1 hother with hold | hnew
      · exact h.bound other hold
      · rw [List.mem_singleton.1 hnew]
        refine ⟨hmodule.1, fun hb => hbuiltin ⟨⟨List.not_mem_nil, ?_, declared_of_isBuiltin hb⟩,
          hb⟩, hmodule.2⟩
        rw [isModule_start, not_or]
        exact hmodule
    · replace hother : other ∈ c.imported := (List.append_nil c.imported) ▸ hother
      refine (h.imported other hother).imp_right fun hi => ⟨hi.1, ?_⟩
      rintro (hslot | hbound)
      · exact hi.2 (.inl hslot)
      · rcases List.mem_append.1 hbound with hold | hnew
        · exact hi.2 (.inr hold)
        · exact hmodule.2 (List.mem_singleton.1 hnew ▸ hother)

theorem Consistent.extend_imported_iff (h : c.Consistent) :
    (c.extend [] [name]).Consistent ↔ c.IsModule {} name ∨ c.Importable name := by
  have himportable (other : String) : (c.extend [] [name]).Importable other ↔
      c.Importable other := by
    simp [Importable, Declared, extend]
  constructor
  · intro h'
    rcases h'.imported name (List.mem_append_right _ List.mem_cons_self) with hknown | hi
    · exact .inl (isModule_start.2 (.inl hknown))
    · exact .inr ((himportable name).1 hi)
  · intro hname
    rw [isModule_start] at hname
    refine ⟨fun other hother => ?_, fun other hother => ?_⟩
    · replace hother : other ∈ c.bound := (List.append_nil c.bound) ▸ hother
      obtain ⟨hknown, hbuiltin, himported⟩ := h.bound other hother
      refine ⟨hknown, hbuiltin, fun hi => ?_⟩
      rcases List.mem_append.1 hi with hold | hnew
      · exact himported hold
      · obtain rfl := List.mem_singleton.1 hnew
        exact hname.elim (fun hmodule => hmodule.elim hknown himported) fun hi => hi.2 (.inr hother)
    · rw [himportable]
      rcases List.mem_append.1 hother with hold | hnew
      · exact h.imported other hold
      · obtain rfl := List.mem_singleton.1 hnew
        rcases hname with (hknown | hold) | hi
        · exact .inl hknown
        · exact h.imported other hold
        · exact .inr hi

/-- The top level adds a variable. -/
theorem Describes.declareGlobal (h : c.Describes {} d) (name : String) :
    (c.extend [name] []).Describes {} ⟨d.build.declareGlobal d.machine name, d.machine⟩ := by
  have hpending : (c.extend [name] []).pending {} = c.pending {} := by simp [pending_extend]
  have hdeclared (other : String) : (c.extend [name] []).Declared other ↔ c.Declared other ∨
      other = name := by
    simp [Declared, extend, or_assoc]
  unfold Build.declareGlobal
  split
  · rename_i hname
    refine ⟨h.frames, ?_⟩
    rw [hpending]
    refine { h.tracks with isGlobal := fun other => ?_ }
    rw [hdeclared, ← h.tracks.isGlobal other]
    exact ⟨.inl, fun hother => hother.elim id fun heq => heq ▸ hname⟩
  · refine ⟨h.frames, ?_⟩
    rw [hpending]
    refine { h.tracks with isGlobal := fun other => ?_ }
    rw [hdeclared, ← h.tracks.isGlobal other]
    simp [Build.isGlobal, or_assoc]

/-- A module that was imported before is imported again. -/
theorem Tracks.again (hc : c.Runs fuel) {names : List String} (h : c.Tracks names d)
    (hname : name ∈ names) : c.Tracks (names ++ [name]) d := by
  have hmem (other : String) : other ∈ names ++ [name] ↔ other ∈ names := by
    rw [List.mem_append, List.mem_singleton]
    exact ⟨fun hother => hother.elim id fun heq => heq ▸ hname, .inl⟩
  obtain ⟨index, hready⟩ := h.ready name hname
  obtain ⟨hresembles, -⟩ := h.resembles.loadModule (hc.furnish.of_succeeds h.succeeds) fuel name
  rw [Machine.loadModule_of_ready hready, ← hc.call] at hresembles
  refine { h with newImports := fun other => ?_, ready := fun other hother => ?_, resembles := ?_ }
  · rw [h.newImports]
    simp only [hmem]
  · exact h.ready other ((hmem other).1 hother)
  · rwa [List.foldl_append]

theorem Tracks.extend_imported {names : List String} (h : c.Tracks names d)
    (imported : List String) : (c.extend [] imported).Tracks names d :=
  { h with isGlobal := by simpa [Declared, extend] using h.isGlobal }

theorem pending_extend_of_known (h : c.Known name) :
    (c.extend [] [name]).pending {} = c.pending {} := by
  simp [pending_extend, h]

theorem pending_extend_of_not_known (h : ¬ c.Known name) :
    (c.extend [] [name]).pending {} = c.pending {} ++ [name] := by
  simp [pending_extend, h]

/-- The top level imports a module. -/
theorem Describes.decides_import_start (hc : c.Runs fuel) (hnames : c.Consistent)
    (h : c.Describes {} d) (name : String) (pos : Position) :
    Decides (c.extend [] [name]).Consistent (fun _ k => (c.extend [] [name]).Describes {} k)
      (Compile.importModule c.call name pos d.build d.machine) := by
  refine ((h.decides_importModule hc name pos).congr hnames.extend_imported_iff.symm).mono ?_
  rintro _ k (⟨hmodule, rfl⟩ | ⟨hmodule, hfunc, htracks⟩)
  · refine ⟨h.frames, ?_⟩
    by_cases hknown : c.Known name
    · rw [pending_extend_of_known hknown]
      exact h.tracks.extend_imported [name]
    · have hpending : name ∈ c.pending {} :=
        mem_pending.2 (.inl ⟨(isModule_start.1 hmodule).resolve_left hknown, hknown⟩)
      rw [pending_extend_of_not_known hknown]
      exact (h.tracks.again hc hpending).extend_imported [name]
  · refine ⟨by rw [hfunc]; exact h.frames, ?_⟩
    rw [pending_extend_of_not_known fun hknown => hmodule (isModule_start.2 (.inl hknown))]
    exact htracks.extend_imported [name]

/-- The top level binds a name. -/
theorem Describes.decides_declare (hnames : c.Consistent) (h : c.Describes {} d) (name : String)
    (pos : Position) :
      Decides (c.extend [name] []).Consistent (fun _ k => (c.extend [name] []).Describes {} k)
        ((do Compile.checkAssignable name pos; Compile.declareGlobal name : CompileM σ Unit) d.build
          d.machine) := by
  refine ((h.decides_checkAssignable name pos).congr hnames.extend_bound_iff.symm).andThen ?_
  rintro _ _ rfl
  exact .ok trivial (h.declareGlobal name)

mutual

theorem decides_hoistStmt : (t : Stmt) → {c : Setting σ} → {d : Draft σ} → c.Runs fuel →
    c.Consistent → c.Describes {} d →
    Decides (c.extend t.bound t.imported).Consistent
      (fun _ k => (c.extend t.bound t.imported).Describes {} k)
      (Compile.hoistStmt c.call t d.build d.machine)
  | .assign pos name _ _, _, _, _, hnames, h | .func pos name _ _, _, _, _, hnames, h =>
    h.decides_declare hnames name pos
  | .importModule pos name, _, _, hc, hnames, h => h.decides_import_start hc hnames name pos
  | .branch _ body tail, c, _, hc, hnames, h => by
    unfold Compile.hoistStmt Stmt.bound Stmt.imported
    rw [← extend_extend]
    exact (decides_hoist body hc hnames h).bind_of_imp
      (fun _ _ hnames₁ h₁ => decides_hoistElse tail ⟨hc.call, hc.furnish⟩ hnames₁ h₁) .of_extend
  | .loop _ body, _, _, hc, hnames, h => decides_hoist body hc hnames h
  | .expr _, c, _, _, hnames, h | .setIndex _ _ _ _, c, _, _, hnames, h
  | .ret _ _, c, _, _, hnames, h
  | .leave _, c, _, _, hnames, h | .pass, c, _, _, hnames, h => by
    unfold Stmt.bound Stmt.imported
    rw [extend_nil]
    exact .ok hnames h

theorem decides_hoist : (ts : List Stmt) → {c : Setting σ} → {d : Draft σ} → c.Runs fuel →
    c.Consistent → c.Describes {} d →
    Decides (c.extend (Stmt.boundAll ts) (Stmt.importedAll ts)).Consistent
      (fun _ k => (c.extend (Stmt.boundAll ts) (Stmt.importedAll ts)).Describes {} k)
      (Compile.hoist c.call ts d.build d.machine)
  | [], c, _, _, hnames, h => by
    unfold Stmt.boundAll Stmt.importedAll
    rw [extend_nil]
    exact .ok hnames h
  | t :: ts, c, _, hc, hnames, h => by
    unfold Compile.hoist Stmt.boundAll Stmt.importedAll
    rw [← extend_extend]
    exact (decides_hoistStmt t hc hnames h).bind_of_imp
      (fun _ _ hnames₁ h₁ => decides_hoist ts ⟨hc.call, hc.furnish⟩ hnames₁ h₁) .of_extend

theorem decides_hoistElse : (tail : Else) → {c : Setting σ} → {d : Draft σ} → c.Runs fuel →
    c.Consistent → c.Describes {} d →
    Decides (c.extend tail.bound tail.imported).Consistent
      (fun _ k => (c.extend tail.bound tail.imported).Describes {} k)
      (Compile.hoistElse c.call tail d.build d.machine)
  | .nothing, c, _, _, hnames, h => by
    unfold Else.bound Else.imported
    rw [extend_nil]
    exact .ok hnames h
  | .elseIf _ body tail, c, _, hc, hnames, h => by
    unfold Compile.hoistElse Else.bound Else.imported
    rw [← extend_extend]
    exact (decides_hoist body hc hnames h).bind_of_imp
      (fun _ _ hnames₁ h₁ => decides_hoistElse tail ⟨hc.call, hc.furnish⟩ hnames₁ h₁) .of_extend
  | .block body, _, _, hc, hnames, h => decides_hoist body hc hnames h

end

/-! ## Programs -/

/-- The names of a part of the top level are asked for outside of functions. -/
structure Asks (l : List (Scope × Demand)) (bound imported : List String) : Prop where
  bound : ∀ name ∈ bound, ∃ q : Scope, q.locals = none ∧ (q, .assigns name) ∈ l
  imported : ∀ name ∈ imported, ∃ q : Scope, q.locals = none ∧ (q, .imports name) ∈ l

theorem Asks.mono {l l' : List (Scope × Demand)} {b i : List String} (h : Asks l b i)
    (hl : l ⊆ l') : Asks l' b i where
  bound name hname := by
    obtain ⟨q, hq, hmem⟩ := h.bound name hname
    exact ⟨q, hq, hl hmem⟩
  imported name hname := by
    obtain ⟨q, hq, hmem⟩ := h.imported name hname
    exact ⟨q, hq, hl hmem⟩

theorem Asks.append {l l' : List (Scope × Demand)} {b b' i i' : List String} (h : Asks l b i)
    (h' : Asks l' b' i') : Asks (l ++ l') (b ++ b') (i ++ i') where
  bound name hname :=
    (List.mem_append.1 hname).elim ((h.mono (List.subset_append_left _ _)).bound name)
      ((h'.mono (List.subset_append_right _ _)).bound name)
  imported name hname :=
    (List.mem_append.1 hname).elim ((h.mono (List.subset_append_left _ _)).imported name)
      ((h'.mono (List.subset_append_right _ _)).imported name)

theorem asks_nil (l : List (Scope × Demand)) : Asks l [] [] := ⟨nofun, nofun⟩

mutual

theorem asks_stmt : (t : Stmt) → {p : Scope} → p.locals = none →
    Asks (t.demands c p) t.bound t.imported
  | .assign _ name value _, p, hp =>
    ⟨fun _ hname => ⟨p, hp,
      List.mem_append_right _ (by rw [List.mem_singleton.1 hname]; exact List.mem_cons_self)⟩,
      nofun⟩
  | .func _ name params body, p, hp =>
    ⟨fun _ hname => ⟨{ p with imports := (Stmt.afterAll c body (p.enter params)).imports }, hp,
      List.mem_cons_of_mem _
        (List.mem_append_right _ (by rw [List.mem_singleton.1 hname]; exact List.mem_cons_self))⟩,
      nofun⟩
  | .importModule _ name, p, hp =>
    ⟨nofun, fun _ hname => ⟨p, hp, by rw [List.mem_singleton.1 hname]; exact List.mem_cons_self⟩⟩
  | .branch _ body tail, p, hp =>
    ((asks_block body hp).append (asks_else tail
      ((Stmt.beside_afterAll c body p).locals_eq_none_iff.2 hp))).mono
        (List.subset_append_right _ _)
  | .loop _ body, p, hp =>
    (asks_block body (p := { p with loops := p.loops + 1 }) hp).mono (List.subset_append_right _ _)
  | .expr _, _, _ | .setIndex _ _ _ _, _, _ | .ret _ _, _, _ | .leave _, _, _ | .pass, _, _ =>
    asks_nil _

theorem asks_block : (ts : List Stmt) → {p : Scope} → p.locals = none →
    Asks (Stmt.demandsAll c ts p) (Stmt.boundAll ts) (Stmt.importedAll ts)
  | [], _, _ => asks_nil _
  | t :: ts, p, hp =>
    (asks_stmt t hp).append (asks_block ts ((t.beside_after c p).locals_eq_none_iff.2 hp))

theorem asks_else : (tail : Else) → {p : Scope} → p.locals = none →
    Asks (tail.demands c p) tail.bound tail.imported
  | .nothing, _, _ => asks_nil _
  | .elseIf _ body tail, p, hp =>
    ((asks_block body hp).append (asks_else tail
      ((Stmt.beside_afterAll c body p).locals_eq_none_iff.2 hp))).mono
        (List.subset_append_right _ _)
  | .block body, _, hp => asks_block body hp

end

/-- The first pass rejects no program that the second would accept. -/
theorem Asks.consistent {l : List (Scope × Demand)} (h : Asks l c.bound c.imported)
    (hl : c.MeetsAll l) : c.Consistent where
  bound name hname := by
    obtain ⟨q, hq, hmem⟩ := h.bound name hname
    obtain ⟨hmodule, hbuiltin⟩ := hl _ hmem
    have hlocal : ¬ q.IsLocal name := by simp [Scope.IsLocal, hq]
    exact ⟨fun hknown => hmodule ⟨hlocal, .inl hknown⟩,
      fun hb => hbuiltin ⟨⟨hlocal, hmodule, .inr hname⟩, hb⟩,
      fun himported => hmodule ⟨hlocal, .inr (.inl himported)⟩⟩
  imported name hname := by
    obtain ⟨q, hq, hmem⟩ := h.imported name hname
    have hmeets : c.IsImported q name ∨ c.Importable name := hl _ hmem
    rwa [IsImported, hq] at hmeets

end Setting

open Setting

/-- At the beginning nothing is known of the program. -/
theorem Draft.describes_start (call : Callback σ) (source name : String) (m : Machine σ) :
    ({ call, machine := m } : Setting σ).Describes {} (start source name m) where
  frames := ⟨rfl, nofun, rfl⟩
  tracks :=
    { base := rfl
      isGlobal := fun other => by simp [start, Build.isGlobal, Declared]
      newImports := fun other => by simp [start, pending]
      ready := nofun
      succeeds := .refl m
      resembles := ⟨rfl, rfl⟩ }

/-- Looking up the names of a program decides whether it is valid. -/
theorem decides_valid {m : Machine σ} (hm : m.LoadersFurnish) (fuel : Nat) (source name : String)
    (program : Program) : Decides (program.Valid (Host.run (fuel + 1)) m) (fun _ _ => True)
      ((do
        Compile.hoist (Host.run (fuel + 1)) program
        Compile.bindTop (Host.run (fuel + 1)) program : CompileM σ (List Core.Stmt))
        (Draft.start source name m).build m) := by
  have hstart := Draft.describes_start (Host.run (fuel + 1)) source name m
  have hruns : ({ call := Host.run (fuel + 1), machine := m } : Setting σ).Runs fuel := ⟨rfl, hm⟩
  -- A valid program is consistent, so the second pass decides what the first has decided before.
  refine Decides.bind_of_imp (d := Draft.start source name m)
    (decides_hoist program hruns ⟨nofun, nofun⟩ hstart)
      (fun _ k hnames hk => ?_) fun hvalid => (asks_block program rfl).consistent hvalid
  exact decides_bindTop (c := program.setting (Host.run (fuel + 1)) m) ⟨rfl, hm⟩ hnames program hk
    ⟨fun _ _ hname => hname, fun _ _ hname => hname⟩

/-- The compiler looks up the names of a program, and then there is nothing left that can fail. -/
theorem compileProgram_apply (call : Callback σ) (source name : String) (program : Program)
    (m : Machine σ) : compileProgram call source name program m =
      ((do Compile.hoist call program; Compile.bindTop call program : CompileM σ (List Core.Stmt))
        (Draft.start source name m).build m).andThen fun p n =>
          .ok (Core.Func.chunk ⟨"main", source, name, 0, p.2.func.chunk.locals, p.1⟩)
            (Compile.commit p.2 n) := by
  rw [compileProgram_eq, Run.bind_apply, bindProgram_apply, Outcome.andThen_assoc]
  rfl

/-- **A program compiles exactly if it is valid**, and otherwise it is rejected. -/
theorem compileProgram_ok_iff_valid {m : Machine σ} (hm : m.LoadersFurnish) (fuel : Nat)
    (source name : String) (program : Program) :
    ((∃ chunk n, compileProgram (Host.run (fuel + 1)) source name program m = .ok chunk n) ↔
        program.Valid (Host.run (fuel + 1)) m) ∧
      ((∃ e n, compileProgram (Host.run (fuel + 1)) source name program m = .failed e n) ↔
        ¬ program.Valid (Host.run (fuel + 1)) m) := by
  have hdecides := decides_valid hm fuel source name program
  rw [compileProgram_apply]
  generalize (do
    Compile.hoist (Host.run (fuel + 1)) program
    Compile.bindTop (Host.run (fuel + 1)) program : CompileM σ (List Core.Stmt))
    (Draft.start source name m).build m = o at hdecides
  cases hdecides with
  | ok holds h =>
    exact ⟨iff_of_true ⟨_, _, rfl⟩ holds,
      iff_of_false (fun ⟨_, _, h⟩ => nomatch h) (not_not_intro holds)⟩
  | failed fails =>
    exact ⟨iff_of_false (fun ⟨_, _, h⟩ => nomatch h) fails, iff_of_true ⟨_, _, rfl⟩ fails⟩

/-- A function imports a module: the program may use it after the function, and not before. -/
theorem compileProgram_ok_iff_valid_order :
    ∃ (m : Machine Unit) (define use : Stmt), m.LoadersFurnish ∧
      (∃ chunk n, compileProgram (Host.run 1) "" "" [define, use] m = .ok chunk n) ∧
      ∃ e n, compileProgram (Host.run 1) "" "" [use, define] m = .failed e n := by
  let loader : Loader Unit :=
    fun handle => .setFunction handle "f" 0 (fun _ => .finish .none) fun _ => .finish .none
  let m : Machine Unit := (Machine.new {} ()).addLoader "a" loader
  let define : Stmt := .func {} "g" [⟨"x", {}⟩]
    [.importModule {} "a", .assign {} "y" (.name {} "x") false, .ret {} (some (.name {} "y"))]
  let use : Stmt := .expr (.call {} (.member {} (.name {} "a") "f") [])
  have hm : m.LoadersFurnish := by
    intro name index handle body hlookup
    obtain ⟨e, he, hstate, -, -⟩ := Registry.of_lookup hlookup
    obtain ⟨-, rfl⟩ := Machine.eq_of_registered_new he hstate
    exact .setFunction _ "f" 0 _ fun _ => .finish .none
  have hvalid : Program.Valid [define, use] (Host.run 1) m := by decide +kernel
  have hinvalid : ¬ Program.Valid [use, define] (Host.run 1) m := by decide +kernel
  exact ⟨m, define, use, hm, (compileProgram_ok_iff_valid hm 0 "" "" _).1.2 hvalid,
    (compileProgram_ok_iff_valid hm 0 "" "" _).2.2 hinvalid⟩

end ScriptMachine
