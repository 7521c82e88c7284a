import ScriptMachine.Proofs.Lowering
import ScriptMachine.Proofs.Match
/-!
# Two compilations side by side

Compiling a program looks at a machine only through names, imports and module functions, and changes
it only by new strings, functions and variables and by loading modules. So machines that correspond
in these respects are led to machines that correspond again. What this means is left open; a machine
beside itself gives invariants of compilations.

* `Link`: a correspondence that new objects, loaded modules and new variables extend;
* `Link.ends_bindProgram`: **compilations of one program on corresponding machines end in the same
  way**.
-/

namespace ScriptMachine

variable {name : String}

namespace Globals

/-- The names of variables, with the built-in ones marked. -/
def names (g : Globals) : List (String × Bool) := g.slots.toList.map fun s => (s.name, s.builtin)

theorem length_names (g : Globals) : g.names.length = g.size := by
  simp [names, size]

theorem slot?_eq (g : Globals) (name : String) : g.slot? name = g.names.findIdx? (·.1 == name) := by
  rw [slot?, g.indexed, names, List.findIdx?_map]
  exact List.findIdx?_toArray _ g.slots.toList

theorem isBuiltin_eq (g : Globals) (slot : Nat) :
    g.isBuiltin slot = ((g.names[slot]?).map (·.2)).getD false := by
  rw [isBuiltin, names, List.getElem?_map, Array.getElem?_toList]
  cases g.slots[slot]? <;> rfl

theorem name_eq (g : Globals) (slot : Nat) :
    g.name slot = ((g.names[slot]?).map (·.1)).getD "?" := by
  rw [name, names, List.getElem?_map, Array.getElem?_toList]
  cases g.slots[slot]? <;> rfl

theorem slot?_isSome_iff {g : Globals} : (g.slot? name).isSome ↔ name ∈ g.names.map Prod.fst := by
  rw [slot?_eq, List.findIdx?_isSome, List.any_eq_true]
  simp

theorem names_set? {g g' : Globals} {slot : Nat} {v : Value} (h : g.set? slot v = some g') :
    g'.names = g.names := by
  unfold set? at h
  split at h
  · cases h
    simp only [names, modify, Array.toList_modify]
    refine List.ext_getElem? fun i => ?_
    rw [List.getElem?_map, List.getElem?_map, List.getElem?_modify]
    cases g.slots.toList[i]? with
    | none => rfl
    | some s => by_cases hi : slot = i <;> simp [hi]
  · cases h

theorem names_add {g : Globals} (h : g.slot? name = none) :
    (g.add name h).names = g.names ++ [(name, false)] := by
  simp [names, add]

theorem names_declare (g : Globals) (name : String) : g.names <+: (g.declare name).names := by
  unfold declare
  split
  · exact List.prefix_rfl
  · exact ⟨[(name, false)], (names_add _).symm⟩

theorem mem_names_declare (g : Globals) (name : String) :
    name ∈ (g.declare name).names.map Prod.fst := by
  unfold declare
  split
  · rename_i i hi
    exact slot?_isSome_iff.1 (by rw [hi]; rfl)
  · simp [names_add]

theorem names_foldl_declare (news : List String) (g : Globals) :
    g.names <+: (news.foldl declare g).names := by
  induction news generalizing g with
  | nil => exact List.prefix_rfl
  | cons name news ih => exact (names_declare g name).trans (ih _)

theorem mem_names_foldl_declare {news : List String} (h : name ∈ news) (g : Globals) :
    name ∈ (news.foldl declare g).names.map Prod.fst := by
  induction news generalizing g with
  | nil => cases h
  | cons new news ih =>
    rcases List.mem_cons.1 h with rfl | h
    · exact ((names_foldl_declare news _).map _).subset (mem_names_declare g name)
    · exact ih h _

theorem lt_size_of_slot? {g : Globals} {slot : Nat} (h : g.slot? name = some slot) :
    slot < g.size := by
  rw [slot?_eq] at h
  rw [← length_names]
  exact (List.findIdx?_eq_some_iff_getElem.1 h).1

end Globals

namespace Build

variable {σ : Type}

/-- The number of variables that a program in the making may use. -/
def bound (b : Build) (m : Machine σ) : Nat :=
  max m.globals.size (b.globalBase + b.newGlobals.length)

/-- The variables that a program adds are not among those before it, and each is added once. -/
structure Fresh (b : Build) (m : Machine σ) : Prop where
  base : b.globalBase ≤ m.globals.size
  nodup : b.newGlobals.Nodup
  new : ∀ name ∈ b.newGlobals, name ∉ (m.globals.names.take b.globalBase).map Prod.fst

variable {b b' b'' : Build} {m n : Machine σ}

theorem bound_mono (h : m.globals.names <+: n.globals.names) : b.bound m ≤ b.bound n := by
  have := h.length_le
  rw [Globals.length_names, Globals.length_names] at this
  unfold bound
  omega

theorem Fresh.mono (hf : b.Fresh m) (h : m.globals.names <+: n.globals.names) : b.Fresh n := by
  have hsize := h.length_le
  have hbase := hf.base
  have htake : n.globals.names.take b.globalBase = m.globals.names.take b.globalBase := by
    obtain ⟨t, ht⟩ := h
    rw [← ht, List.take_append_of_le_length]
    rwa [Globals.length_names]
  rw [Globals.length_names, Globals.length_names] at hsize
  exact ⟨Nat.le_trans hbase hsize, hf.nodup,
    fun name hname => by rw [htake]; exact hf.new name hname⟩

theorem Fresh.declareGlobal (hf : b.Fresh m) (name : String) :
    (b.declareGlobal m name).Fresh m := by
  unfold Build.declareGlobal
  split
  · exact hf
  · rename_i hnew
    simp only [Build.isGlobal, Bool.or_eq_true, not_or, List.contains_eq_mem, decide_eq_true_eq,
      Globals.slot?_isSome_iff] at hnew
    refine ⟨hf.base, ?_, ?_⟩
    · refine List.nodup_append.2 ⟨hf.nodup, by simp, ?_⟩
      rintro a ha b' hb rfl
      rw [List.mem_singleton] at hb
      exact hnew.2 (hb ▸ ha)
    · intro a ha
      rcases List.mem_append.1 ha with ha | ha
      · exact hf.new a ha
      · rw [List.mem_singleton.1 ha]
        exact fun hmem => hnew.1 (((List.take_prefix _ _).map _).subset hmem)

/-- Once a program is committed, every slot that it uses is a variable. -/
theorem Fresh.bound_le_size_commit (hf : b.Fresh m) :
    b.bound m ≤ (Compile.commit b m).globals.size := by
  have hgrow : m.globals.names <+: (Compile.commit b m).globals.names :=
    Globals.names_foldl_declare b.newGlobals m.globals
  have hbase := hf.base
  have hsize := hgrow.length_le
  -- the new variables are pairwise different, and all of them stand behind the old ones
  have hnew : b.newGlobals.length ≤
      (((Compile.commit b m).globals.names.drop b.globalBase).map Prod.fst).length := by
    refine hf.nodup.length_le_of_subset fun name hname => ?_
    have hmem := Globals.mem_names_foldl_declare hname m.globals
    rw [← List.take_append_drop b.globalBase (b.newGlobals.foldl Globals.declare m.globals).names,
      List.map_append] at hmem
    rcases List.mem_append.1 hmem with hmem | hmem
    · exact absurd hmem ((hf.mono hgrow).new name hname)
    · exact hmem
  rw [List.length_map, List.length_drop, Globals.length_names] at hnew
  rw [Globals.length_names, Globals.length_names] at hsize
  unfold bound
  omega

/-- Every local variable has a slot, and only functions have any. -/
structure Sound (b : Build) : Prop where
  locals : b.func.locals.length ≤ b.func.chunk.locals
  top : b.func.isFunction = false → b.func.chunk.locals = 0

/-- Looking up names may lead from a partial program to another. -/
structure Grows (b b' : Build) : Prop where
  fixed : b'.fixed = b.fixed
  locals : b.func.chunk.locals ≤ b'.func.chunk.locals
  sound : b.Sound → b'.Sound

theorem Grows.refl (b : Build) : b.Grows b := ⟨rfl, Nat.le_refl _, id⟩

theorem Grows.trans (h : b.Grows b') (h' : b'.Grows b'') : b.Grows b'' :=
  ⟨h'.fixed.trans h.fixed, Nat.le_trans h.locals h'.locals, fun hs => h'.sound (h.sound hs)⟩

theorem Grows.loops (h : b.Grows b') : b'.func.loops = b.func.loops :=
  congrArg (fun f => f.1.loops) h.fixed

theorem Grows.isFunction (h : b.Grows b') : b'.func.isFunction = b.func.isFunction :=
  congrArg (fun f => f.2.2) h.fixed

end Build

/-! ## Imports -/

mutual

/-- The names of the modules that a statement imports. -/
def Stmt.imports : Stmt → List String
  | .importModule _ name => [name]
  | .func _ _ _ body | .loop _ body => Stmt.importsAll body
  | .branch _ body tail => Stmt.importsAll body ++ tail.imports
  | .expr _ | .assign _ _ _ _ | .setIndex _ _ _ _ | .ret _ _ | .leave _ | .pass => []

/-- The names of the modules that statements import. -/
def Stmt.importsAll : List Stmt → List String
  | [] => []
  | s :: ss => s.imports ++ Stmt.importsAll ss

/-- The names of the modules that the rest of a conditional imports. -/
def Else.imports : Else → List String
  | .nothing => []
  | .elseIf _ body tail => Stmt.importsAll body ++ tail.imports
  | .block body => Stmt.importsAll body

end

/-- The names of the modules that a source text imports; none if it is not a program. -/
def sourceImports (source : String) : List String :=
  match tokenize source with
  | .error _ => []
  | .ok tokens =>
    match parse tokens with
    | .error _ => []
    | .ok program => Stmt.importsAll program

/-! ## Correspondences -/

/-- A correspondence between machines. It grows in the course of a compilation: worlds tell which
values correspond, and a later world has more of them. -/
structure Link (σ : Type) where
  World : Type
  le : World → World → Prop
  /-- Corresponding values. -/
  val : World → Value → Value → Prop
  /-- Corresponding machines. -/
  rel : World → Machine σ → Machine σ → Prop
  /-- Machines that correspond after a loader gave up. -/
  lost : World → Machine σ → Machine σ → Prop := rel
  /-- Machines that correspond once the new variables are in place. -/
  final : World → Machine σ → Machine σ → Prop := rel
  /-- The number of global variables that the functions made so far may use. -/
  reach : World → Nat
  le_refl : ∀ w, le w w
  le_trans : ∀ {w w' w''}, le w w' → le w' w'' → le w w''
  val_mono : ∀ {w w' v v'}, le w w' → val w v v' → val w' v v'
  val_number : ∀ w x, val w (.ofDouble x) (.ofDouble x)
  names : ∀ {w m m'}, rel w m m' → m.globals.names = m'.globals.names
  imports : ∀ {w m m'}, rel w m m' → m.imports = m'.imports
  lookup : ∀ {w m m'}, rel w m m' → ∀ name, m.modules.lookup name = m'.modules.lookup name
  function? : ∀ {w m m'}, rel w m m' → ∀ index name,
    Option.Rel (val w) (m.modules.function? index name) (m'.modules.function? index name)
  string : ∀ {w m m'}, rel w m m' → ∀ s, ∃ w', le w w' ∧ reach w' ≤ reach w ∧
    rel w' (m.alloc (.string s)).2 (m'.alloc (.string s)).2 ∧
    val w' (m.alloc (.string s)).1 (m'.alloc (.string s)).1
  function : ∀ {w m m' d d' globals}, rel w m m' → Core.Func.Matches (val w) globals d d' →
    ∃ w', le w w' ∧ reach w' ≤ max (reach w) globals ∧
      rel w' (m.alloc (.function d.script)).2 (m'.alloc (.function d'.script)).2 ∧
      val w' (m.alloc (.function d.script)).1 (m'.alloc (.function d'.script)).1
  commit : ∀ {w m m'} {b : Build}, rel w m m' → final w (Compile.commit b m) (Compile.commit b m')

namespace Link

variable {σ ε α β γ δ : Type} (R : Link σ)

/-- Two runs end in the same way: with results that `post` describes, or with the same error, or
unwound, and on corresponding machines. -/
inductive Ends (w : R.World) (post : R.World → α → β → Machine σ → Machine σ → Prop) :
    Outcome σ ε α → Outcome σ ε β → Prop
  | ok {w' : R.World} {a : α} {b : β} {m m' : Machine σ} (le : R.le w w') (h : post w' a b m m') :
    Ends w post (.ok a m) (.ok b m')
  | failed {w' : R.World} {e : ε} {m m' : Machine σ} (le : R.le w w') (h : R.rel w' m m') :
    Ends w post (.failed e m) (.failed e m')
  | unwound {w' : R.World} {m m' : Machine σ} (le : R.le w w') (h : R.lost w' m m') :
    Ends w post (.unwound m) (.unwound m')
  | exhausted : Ends w post .exhausted .exhausted

variable {R} {w w' : R.World}

section

variable {o : Outcome σ ε α} {o' : Outcome σ ε β}

theorem Ends.mono {post post' : R.World → α → β → Machine σ → Machine σ → Prop}
    (h : R.Ends w post o o')
    (hpost : ∀ w' a b m m', R.le w w' → post w' a b m m' → post' w' a b m m') :
    R.Ends w post' o o' := by
  cases h with
  | ok le h => exact .ok le (hpost _ _ _ _ _ le h)
  | failed le h => exact .failed le h
  | unwound le h => exact .unwound le h
  | exhausted => exact .exhausted

variable {post : R.World → α → β → Machine σ → Machine σ → Prop}

theorem Ends.of_le (hle : R.le w w') (h : R.Ends w' post o o') : R.Ends w post o o' := by
  cases h with
  | ok le h => exact .ok (R.le_trans hle le) h
  | failed le h => exact .failed (R.le_trans hle le) h
  | unwound le h => exact .unwound (R.le_trans hle le) h
  | exhausted => exact .exhausted

theorem Ends.andThen {post' : R.World → γ → δ → Machine σ → Machine σ → Prop}
    {f : α → Machine σ → Outcome σ ε γ} {f' : β → Machine σ → Outcome σ ε δ}
    (h : R.Ends w post o o')
    (hf : ∀ w' a b m m', R.le w w' → post w' a b m m' → R.Ends w' post' (f a m) (f' b m')) :
    R.Ends w post' (o.andThen f) (o'.andThen f') := by
  cases h with
  | ok le h => exact (hf _ _ _ _ _ le h).of_le le
  | failed le h => exact .failed le h
  | unwound le h => exact .unwound le h
  | exhausted => exact .exhausted

end

/-- A run beside itself. -/
theorem Ends.self {post : R.World → α → α → Machine σ → Machine σ → Prop} {o : Outcome σ ε α}
    (hok : ∀ a m, o = .ok a m → post w a a m m) (hfailed : ∀ e m, o = .failed e m → R.rel w m m)
    (hunwound : ∀ m, o = .unwound m → R.lost w m m) : R.Ends w post o o := by
  cases o with
  | ok a m => exact .ok (R.le_refl w) (hok a m rfl)
  | failed e m => exact .failed (R.le_refl w) (hfailed e m rfl)
  | unwound m => exact .unwound (R.le_refl w) (hunwound m rfl)
  | exhausted => exact .exhausted

/-- Loading a module of a name leads to corresponding machines. -/
def Loads (R : Link σ) (call call' : Callback σ) (name : String) : Prop :=
  ∀ {w m m' index handle loader}, R.rel w m m' →
    m.modules.lookup name = .load index handle loader →
    R.Ends w (fun w' _ _ n n' =>
        R.rel w' (n.finishLoad index) (n'.finishLoad index) ∧ R.reach w' ≤ R.reach w ∧
        m.globals.names <+: n.globals.names)
      (call (loader handle) (m.beginLoad index))
      (call' (loader handle) (m'.beginLoad index))

/-- Loading a module leads to corresponding machines, whatever module it is. -/
def Calls (R : Link σ) (call call' : Callback σ) : Prop := ∀ name, R.Loads call call' name

/-! ## Parts of a compilation -/

/-- Two compilations are at the same point, on corresponding machines. -/
structure At (R : Link σ) (w : R.World) (b : Build) (m m' : Machine σ) : Prop where
  rel : R.rel w m m'
  sound : b.Sound
  reach : R.reach w ≤ b.bound m
  fresh : b.Fresh m

/-- Where compilations may be: with how many local and global variables at least, whether in a
function, and whether in a loop. -/
structure Scope (R : Link σ) where
  world : R.World
  locals : Nat
  globals : Nat
  /-- The names of the global variables that the machine has already. -/
  names : List (String × Bool)
  isFunction : Bool
  inLoop : Bool

/-- A later point of the same function. -/
structure Scope.Le (s s' : R.Scope) : Prop where
  world : R.le s.world s'.world
  locals : s.locals ≤ s'.locals
  globals : s.globals ≤ s'.globals
  names : s.names <+: s'.names
  isFunction : s'.isFunction = s.isFunction
  inLoop : s'.inLoop = s.inLoop

theorem Scope.Le.refl (s : R.Scope) : s.Le s :=
  ⟨R.le_refl _, Nat.le_refl _, Nat.le_refl _, List.prefix_rfl, rfl, rfl⟩

theorem Scope.Le.trans {s s' s'' : R.Scope} (h : s.Le s') (h' : s'.Le s'') : s.Le s'' :=
  ⟨R.le_trans h.world h'.world, Nat.le_trans h.locals h'.locals, Nat.le_trans h.globals h'.globals,
    h.names.trans h'.names, h'.isFunction.trans h.isFunction, h'.inLoop.trans h.inLoop⟩

/-- The scope of a point of a compilation. -/
def scope (R : Link σ) (w : R.World) (b : Build) (m : Machine σ) : R.Scope :=
  ⟨w, b.func.chunk.locals, b.bound m, m.globals.names, b.func.isFunction, !b.func.loops.isEmpty⟩

theorem scope_le {w' : R.World} {b b' : Build} {m n : Machine σ} (hw : R.le w w') (hb : b.Grows b')
    (hbound : b.bound m ≤ b'.bound n) (hnames : m.globals.names <+: n.globals.names) :
    (R.scope w b m).Le (R.scope w' b' n) :=
  ⟨hw, hb.locals, hbound, hnames, hb.isFunction, by simp only [scope, hb.loops]⟩

/-- Two computations that look up names, started at the same point of a scope, end in the same way
and with results that `post` describes. -/
def Sim (R : Link σ) (s : R.Scope) (post : R.Scope → α → β → Prop) (x : CompileM σ α)
    (y : CompileM σ β) : Prop :=
  ∀ w b m m', R.At w b m m' → s.Le (R.scope w b m) →
    R.Ends w (fun w' p q n n' => p.2 = q.2 ∧ b.Grows p.2 ∧ R.At w' p.2 n n' ∧
        (R.scope w b m).Le (R.scope w' p.2 n) ∧ post (R.scope w' p.2 n) p.1 q.1)
      (x b m) (y b m')

variable {s : R.Scope} {post : R.Scope → α → β → Prop} {post' : R.Scope → γ → δ → Prop}

theorem Sim.bind {x : CompileM σ α} {y : CompileM σ β} {f : α → CompileM σ γ} {g : β → CompileM σ δ}
    (hx : R.Sim s post x y) (hf : ∀ s' a b, s.Le s' → post s' a b → R.Sim s' post' (f a) (g b)) :
    R.Sim s post' (x >>= f) (y >>= g) := by
  intro w b m m' hat hle
  rw [CompileM.bind_apply, CompileM.bind_apply]
  refine (hx w b m m' hat hle).andThen ?_
  rintro w' ⟨a, b₁⟩ ⟨a', _⟩ n n' hle' ⟨rfl, hgrows, hat', hscope, hpost⟩
  refine (hf _ a a' (hle.trans hscope) hpost _ _ _ _ hat' (Scope.Le.refl _)).mono ?_
  rintro w'' ⟨c, b₂⟩ ⟨c', _⟩ k k' hle'' ⟨rfl, hgrows', hat'', hscope', hpost'⟩
  exact ⟨rfl, hgrows.trans hgrows', hat'', hscope.trans hscope', hpost'⟩

theorem Sim.pure {a : α} {b : β} (h : ∀ s', s.Le s' → post s' a b) :
    R.Sim s post (Pure.pure a) (Pure.pure b) := by
  intro w b m m' hat hle
  exact .ok (R.le_refl w) ⟨rfl, .refl b, hat, Scope.Le.refl _, h _ hle⟩

theorem Sim.reject (fault : SyntaxFault) (pos : Position) :
    R.Sim s post (Compile.reject fault pos) (Compile.reject fault pos) := by
  intro w b m m' hat hle
  exact .failed (R.le_refl w) hat.rel

/-- Looking something up in machines that correspond. -/
theorem Sim.gets {f : Build → Machine σ → α} {g : Build → Machine σ → β}
    (h : ∀ w b m m', R.At w b m m' → s.Le (R.scope w b m) → post (R.scope w b m) (f b m) (g b m')) :
    R.Sim s post (do let b ← get; StateT.lift (Run.gets (f b)))
      (do let b ← get; StateT.lift (Run.gets (g b))) := by
  intro w b m m' hat hle
  exact .ok (R.le_refl w) ⟨rfl, .refl b, hat, Scope.Le.refl _, h w b m m' hat hle⟩

/-! ## Names -/

section

variable {b : Build} {m m' : Machine σ} (h : R.At w b m m')

include h

theorem At.slot? (name : String) : m'.globals.slot? name = m.globals.slot? name := by
  rw [Globals.slot?_eq, Globals.slot?_eq, R.names h.rel]

theorem At.isBuiltin (slot : Nat) : m'.globals.isBuiltin slot = m.globals.isBuiltin slot := by
  rw [Globals.isBuiltin_eq, Globals.isBuiltin_eq, R.names h.rel]

theorem At.resolve (name : String) : b.resolve m' name = b.resolve m name := by
  unfold Build.resolve
  rw [h.slot?, R.imports h.rel]

end

/-- What a name stands for has a slot in the scope. -/
def Scope.Holds (s : R.Scope) : Binding → Prop
  | .local slot => slot < s.locals
  | .global slot => slot < s.globals
  | .module _ | .undefined => True

theorem sim_resolve (name : String) :
    R.Sim s (fun s' x y => x = y ∧ s'.Holds x) (Compile.resolve name) (Compile.resolve name) := by
  refine Sim.gets fun w b m m' hat _ => ⟨(hat.resolve name).symm, ?_⟩
  have hlocal : ∀ slot, (if b.func.isFunction then b.func.localSlot? name else none) = some slot →
      slot < b.func.chunk.locals := by
    intro slot hslot
    split at hslot
    · obtain ⟨i, hi, rfl⟩ := Option.map_eq_some_iff.1 hslot
      obtain ⟨hlt, -⟩ := List.idxOf?_eq_some_iff.1 hi
      have := hat.sound.locals
      omega
    · cases hslot
  have hglobal : ∀ slot, ((m.globals.slot? name).or
      ((b.newGlobals.idxOf? name).map (b.globalBase + ·))) = some slot → slot < b.bound m := by
    intro slot hslot
    unfold Build.bound
    rcases Option.or_eq_some_iff.1 hslot with hslot | ⟨_, hslot⟩
    · have := Globals.lt_size_of_slot? hslot
      omega
    · obtain ⟨i, hi, rfl⟩ := Option.map_eq_some_iff.1 hslot
      obtain ⟨hlt, -⟩ := List.idxOf?_eq_some_iff.1 hi
      omega
  unfold Build.resolve
  revert hlocal hglobal
  generalize (if b.func.isFunction then b.func.localSlot? name else none) = local?
  generalize (m.globals.slot? name).or _ = global?
  intro hlocal hglobal
  dsimp only
  split
  · exact hlocal _ rfl
  · trivial
  · exact hglobal _ rfl
  · trivial

theorem sim_isGlobal (name : String) :
    R.Sim s (fun _ x y => x = y) (Compile.isGlobal name) (Compile.isGlobal name) := by
  refine Sim.gets fun w b m m' hat _ => ?_
  unfold Build.isGlobal
  rw [hat.slot?]

theorem sim_declareGlobal (name : String) :
    R.Sim s (fun _ _ _ => True) (Compile.declareGlobal name) (Compile.declareGlobal name) := by
  intro w b m m' hat hle
  have hsame : b.declareGlobal m' name = b.declareGlobal m name := by
    unfold Build.declareGlobal Build.isGlobal
    rw [hat.slot?]
  have hgrows : b.Grows (b.declareGlobal m name) := by
    unfold Build.declareGlobal
    split
    · exact .refl b
    · exact ⟨rfl, Nat.le_refl _, fun hs => ⟨hs.locals, hs.top⟩⟩
  have hbound : b.bound m ≤ (b.declareGlobal m name).bound m := by
    unfold Build.declareGlobal Build.bound
    split
    · exact Nat.le_refl _
    · simp only [List.length_append, List.length_singleton]
      omega
  show R.Ends w _ (.ok ((), b.declareGlobal m name) m) (.ok ((), b.declareGlobal m' name) m')
  rw [hsame]
  exact .ok (R.le_refl w) ⟨rfl, hgrows,
    ⟨hat.rel, hgrows.sound hat.sound, Nat.le_trans hat.reach hbound, hat.fresh.declareGlobal name⟩,
    scope_le (R.le_refl w) hgrows hbound List.prefix_rfl, trivial⟩

theorem sim_checkAssignable (name : String) (pos : Position) :
    R.Sim s (fun _ _ _ => True) (Compile.checkAssignable name pos)
      (Compile.checkAssignable name pos) := by
  refine (sim_resolve name).bind ?_
  rintro s' binding _ - ⟨rfl, -⟩
  cases binding with
  | module index => exact .reject _ _
  | «local» slot | undefined => exact .pure fun _ _ => trivial
  | global slot =>
    refine Sim.bind (show R.Sim s' (fun _ x y => x = y) _ _ from ?_) ?_
    · exact Sim.gets (f := fun _ m => m.globals.isBuiltin slot) (g := fun _ m =>
        m.globals.isBuiltin slot) fun _ _ _ _ hat _ => (hat.isBuiltin slot).symm
    · rintro s'' builtin _ - rfl
      cases builtin with
      | true => exact .reject _ _
      | false => exact .pure fun _ _ => trivial

/-! ## Modules -/

section Modules

variable {call call' : Callback σ}

/-- A change of the imports of a partial program. -/
theorem sim_addImport (name : String) (index : Nat) :
    R.Sim s (fun _ _ _ => True)
      (Compile.addImport name index) (Compile.addImport name index) := by
  intro w b m m' hat hle
  exact .ok (R.le_refl w) ⟨rfl, ⟨rfl, Nat.le_refl _, fun hs => ⟨hs.locals, hs.top⟩⟩,
    ⟨hat.rel, ⟨hat.sound.locals, hat.sound.top⟩, hat.reach,
      ⟨hat.fresh.base, hat.fresh.nodup, hat.fresh.new⟩⟩, Scope.Le.refl _, trivial⟩

theorem loadModule_apply (call : Callback σ) (name : String) (pos : Position) (b : Build)
    (m : Machine σ) : Compile.loadModule call name pos b m =
      match m.modules.lookup name with
      | .unknown => .failed ⟨.unknownModule name, pos⟩ m
      | .cyclic => .failed ⟨.cyclicImport name, pos⟩ m
      | .ready index => .ok (index, b) m
      | .load index handle loader =>
        match call (loader handle) (m.beginLoad index) with
        | .ok _ n => .ok (index, b) (n.finishLoad index)
        | .unwound n => .unwound n
        | .exhausted => .exhausted := by
  simp only [Compile.loadModule, CompileM.bind_apply, CompileM.lift_apply, Run.gets, Outcome.map_ok,
    Outcome.andThen_ok]
  cases m.modules.lookup name with
  | unknown | cyclic | ready index => rfl
  | load index handle loader =>
    simp only [CompileM.bind_apply, CompileM.lift_apply, Run.modify, Run.infallible, Outcome.map_ok,
      Outcome.andThen_ok]
    cases call (loader handle) (m.beginLoad index) with
    | ok v n => rfl
    | failed e n => exact e.elim
    | unwound n | exhausted => rfl

/-- Loading a module brings the same module about. -/
theorem sim_loadModule (hload : R.Loads call call' name) (pos : Position) :
    R.Sim s (fun _ x y => x = y) (Compile.loadModule call name pos)
      (Compile.loadModule call' name pos) := by
  intro w b m m' hat hle
  rw [loadModule_apply, loadModule_apply, ← R.lookup hat.rel name]
  cases hlookup : m.modules.lookup name with
  | unknown | cyclic => exact .failed (R.le_refl w) hat.rel
  | ready index => exact .ok (R.le_refl w) ⟨rfl, .refl b, hat, Scope.Le.refl _, rfl⟩
  | load index handle loader =>
    have hload := hload hat.rel hlookup
    dsimp only
    revert hload
    generalize call (loader handle) (m.beginLoad index) = o
    generalize call' (loader handle) (m'.beginLoad index) = o'
    intro hload
    cases hload with
    | failed le h => rename_i e _ _; exact e.elim
    | unwound le h => exact .unwound le h
    | exhausted => exact .exhausted
    | ok le h =>
      obtain ⟨hrel, hreach, hnames⟩ := h
      have hbound := Build.bound_mono (b := b) hnames
      exact .ok le ⟨rfl, .refl b,
        ⟨hrel, hat.sound, Nat.le_trans hreach (Nat.le_trans hat.reach hbound),
        hat.fresh.mono hnames⟩, scope_le le (.refl b) hbound hnames, rfl⟩

theorem sim_importModule (hload : R.Loads call call' name) (pos : Position) :
    R.Sim s (fun _ _ _ => True) (Compile.importModule call name pos)
      (Compile.importModule call' name pos) := by
  have hnew : ∀ s : R.Scope, R.Sim s (fun _ _ _ => True) (Compile.newImport call name pos)
      (Compile.newImport call' name pos) := by
    intro s
    refine (sim_isGlobal name).bind ?_
    rintro s' known _ - rfl
    cases known with
    | true => exact .reject _ _
    | false =>
      refine (sim_loadModule hload pos).bind ?_
      rintro s'' index _ - rfl
      exact sim_addImport name index
  refine (sim_resolve name).bind ?_
  rintro s' binding _ - ⟨rfl, -⟩
  cases binding with
  | module index => exact .pure fun _ _ => trivial
  | «local» slot | global slot | undefined => exact hnew s'

theorem sim_member (pos : Position) (object : Expr) (id : String) :
    R.Sim s (fun s' x y => R.val s'.world x y) (Compile.member pos object id)
      (Compile.member pos object id) := by
  unfold Compile.member
  split
  · refine (sim_resolve _).bind ?_
    rintro s' binding _ - ⟨rfl, -⟩
    cases binding with
    | module index =>
      refine Sim.bind (show R.Sim s' (fun t x y => Option.Rel (R.val t.world) x y) _ _ from ?_) ?_
      · exact Sim.gets (f := fun _ m => m.modules.function? index id)
          (g := fun _ m => m.modules.function? index id) fun _ _ _ _ hat _ =>
            R.function? hat.rel index id
      · intro s'' x y _ hxy
        cases hxy with
        | some h => exact .pure fun _ hle => R.val_mono hle.world h
        | none => exact .reject _ _
    | undefined | «local» slot | global slot => exact .reject _ _
  · exact .reject _ _

/-! ## Expressions -/

/-- Corresponding expressions of a scope. -/
def Scope.Exprs (s : R.Scope) : Core.Expr → Core.Expr → Prop :=
  Core.Expr.Matches (R.val s.world) s.locals s.globals

/-- Corresponding statements of a scope. -/
def Scope.Stmts (s : R.Scope) : List Core.Stmt → List Core.Stmt → Prop :=
  Core.Stmt.MatchesAll (R.val s.world) s.locals s.globals s.inLoop

theorem Scope.Exprs.mono {s s' : R.Scope} (h : s.Le s') {e f : Core.Expr} (he : s.Exprs e f) :
    s'.Exprs e f :=
  Core.Expr.Matches.mono (fun _ _ => R.val_mono h.world) h.locals h.globals he

theorem Scope.Stmts.mono {s s' : R.Scope} (h : s.Le s') {ss ts : List Core.Stmt}
    (hs : s.Stmts ss ts) : s'.Stmts ss ts := by
  unfold Scope.Stmts at hs ⊢
  rw [h.inLoop]
  exact Core.Stmt.MatchesAll.mono (fun _ _ => R.val_mono h.world) h.locals h.globals hs

theorem Scope.stmts_cons {s s' : R.Scope} {t u : Core.Stmt} {ts us : List Core.Stmt}
    (ht : Core.Stmt.Matches (R.val s.world) s.locals s.globals s.inLoop t u) (h : s.Le s')
    (hts : s'.Stmts ts us) : s'.Stmts (t :: ts) (u :: us) := by
  refine .cons ?_ hts
  rw [h.inLoop]
  exact ht.mono (fun _ _ => R.val_mono h.world) h.locals h.globals

theorem sim_allocate_string (t : String) :
    R.Sim s (fun s' v v' => R.val s'.world v v') (Compile.allocate (.string t))
      (Compile.allocate (.string t)) := by
  intro w b m m' hat hle
  obtain ⟨w', hw, hreach, hrel, hval⟩ := R.string hat.rel t
  exact .ok hw ⟨rfl, .refl b, ⟨hrel, hat.sound, Nat.le_trans hreach hat.reach, hat.fresh.mono
    List.prefix_rfl⟩, scope_le hw (.refl b) (Nat.le_refl _) List.prefix_rfl, hval⟩

mutual

theorem sim_bindExpr : (e : Expr) → (s : R.Scope) →
    R.Sim s Scope.Exprs (Compile.bindExpr e) (Compile.bindExpr e)
  | .number pos x, s => .pure fun s' _ => .constant (R.val_number s'.world x)
  | .string pos t, s =>
    (sim_allocate_string t).bind fun _ _ _ _ h => .pure fun _ hle =>
      .constant (R.val_mono hle.world h)
  | .boolean pos b, s => .pure fun _ _ => .boolean
  | .none pos, s => .pure fun _ _ => .none
  | .list pos items, s => (sim_bindExprs items s).bind fun _ _ _ _ h => .pure fun _ hle =>
    .list (h.mono (fun _ _ => R.val_mono hle.world) hle.locals hle.globals)
  | .name pos id, s => by
    refine (sim_resolve id).bind ?_
    rintro s' binding _ - ⟨rfl, hholds⟩
    cases binding with
    | «local» slot => exact .pure fun _ hle => .local (Nat.lt_of_lt_of_le hholds hle.locals)
    | global slot => exact .pure fun _ hle => .global (Nat.lt_of_lt_of_le hholds hle.globals)
    | module index | undefined => exact .reject _ _
  | .member pos object id, s => (sim_member pos object id).bind fun _ _ _ _ h => .pure fun _ hle =>
    .constant (R.val_mono hle.world h)
  | .index pos object place, s =>
    (sim_bindExpr object s).bind fun s₁ _ _ _ hobject =>
      (sim_bindExpr place s₁).bind fun _ _ _ hle₁ hplace => .pure fun _ hle =>
        .index (hobject.mono (hle₁.trans hle)) (hplace.mono hle)
  | .call pos callee args, s => by
    unfold Compile.bindExpr
    split
    · exact Sim.reject _ _
    · exact (sim_bindExpr callee s).bind fun s₁ _ _ _ hcallee =>
        (sim_bindExprs args s₁).bind fun _ _ _ hle₁ hargs => .pure fun _ hle =>
          .call (hcallee.mono (hle₁.trans hle))
            (hargs.mono (fun _ _ => R.val_mono hle.world) hle.locals hle.globals)
  | .unary pos op operand, s => (sim_bindExpr operand s).bind fun _ _ _ _ h => .pure fun _ hle =>
    .unary (h.mono hle)
  | .binary pos op lhs rhs, s =>
    (sim_bindExpr lhs s).bind fun s₁ _ _ _ hlhs =>
      (sim_bindExpr rhs s₁).bind fun _ _ _ hle₁ hrhs => .pure fun _ hle =>
        .binary (hlhs.mono (hle₁.trans hle)) (hrhs.mono hle)
  | .logical pos op lhs rhs, s =>
    (sim_bindExpr lhs s).bind fun s₁ _ _ _ hlhs =>
      (sim_bindExpr rhs s₁).bind fun _ _ _ hle₁ hrhs => .pure fun _ hle =>
        .logical (hlhs.mono (hle₁.trans hle)) (hrhs.mono hle)

theorem sim_bindExprs : (es : List Expr) → (s : R.Scope) →
    R.Sim s (fun s' => Core.Expr.MatchesAll (R.val s'.world) s'.locals s'.globals)
      (Compile.bindExprs es) (Compile.bindExprs es)
  | [], _ => .pure fun _ _ => .nil
  | e :: es, s =>
    (sim_bindExpr e s).bind fun s₁ _ _ _ he =>
      (sim_bindExprs es s₁).bind fun _ _ _ hle₁ hes => .pure fun _ hle =>
        .cons (he.mono (hle₁.trans hle))
          (hes.mono (fun _ _ => R.val_mono hle.world) hle.locals hle.globals)

end

/-! ## Variables -/

theorem sim_bindLocal (name : String) (hs : s.isFunction = true) :
    R.Sim s (fun s' x y => x = y ∧ x.InBounds s'.locals s'.globals) (Compile.bindLocal name)
      (Compile.bindLocal name) := by
  intro w b m m' hat hle
  have hfunction : b.func.isFunction = true := hle.isFunction.trans hs
  have hgrows : b.Grows (b.declareLocal name) := by
    refine ⟨rfl, Nat.le_max_left _ _, fun _ => ⟨Nat.le_max_right _ _, fun htop => ?_⟩⟩
    rw [show (b.declareLocal name).func.isFunction = b.func.isFunction from rfl, hfunction] at htop
    cases htop
  refine Ends.ok (R.le_refl w) ⟨rfl, hgrows, ⟨hat.rel, hgrows.sound hat.sound, hat.reach,
    ⟨hat.fresh.base, hat.fresh.nodup, hat.fresh.new⟩⟩, scope_le (R.le_refl w) hgrows (Nat.le_refl _)
    List.prefix_rfl,
    rfl, ?_⟩
  show b.func.locals.length < (b.declareLocal name).func.chunk.locals
  simp only [Build.declareLocal, List.length_cons]
  omega

/-- Looking at the partial program itself. -/
theorem Sim.getFunc :
    R.Sim s (fun s' b b' => b = b' ∧ b.func.isFunction = s'.isFunction ∧
      (!b.func.loops.isEmpty) = s'.inLoop) (get : CompileM σ Build) get := by
  intro w b m m' hat hle
  exact .ok (R.le_refl w) ⟨rfl, .refl b, hat, Scope.Le.refl _, rfl, rfl, rfl⟩

theorem sim_bindTarget (name : String) (declare : Bool) (pos : Position) :
    R.Sim s (fun s' x y => x = y ∧ x.InBounds s'.locals s'.globals)
      (Compile.bindTarget name declare pos) (Compile.bindTarget name declare pos) := by
  refine (sim_checkAssignable name pos).bind fun s₁ _ _ _ _ => Sim.getFunc.bind ?_
  rintro s₂ b _ - ⟨rfl, hfunction, -⟩
  split
  · rename_i hb
    rw [hb] at hfunction
    split
    · exact sim_bindLocal name hfunction.symm
    · refine (sim_resolve name).bind ?_
      rintro s₃ binding _ hle ⟨rfl, hholds⟩
      cases binding with
      | «local» slot => exact .pure fun _ hle => ⟨rfl, Nat.lt_of_lt_of_le hholds hle.locals⟩
      | global slot => exact .pure fun _ hle => ⟨rfl, Nat.lt_of_lt_of_le hholds hle.globals⟩
      | module index | undefined => exact sim_bindLocal name (hle.isFunction.trans hfunction.symm)
  · refine (sim_declareGlobal name).bind fun s₃ _ _ _ _ => (sim_resolve name).bind ?_
    rintro s₄ binding _ - ⟨rfl, hholds⟩
    cases binding with
    | global slot => exact .pure fun _ hle => ⟨rfl, Nat.lt_of_lt_of_le hholds hle.globals⟩
    | «local» slot | module index | undefined => exact .reject _ _

/-! ## Functions and loops -/

theorem sim_checkParams (params : List Param) :
    R.Sim s (fun _ _ _ => True) (Compile.checkParams params) (Compile.checkParams params) := by
  unfold Compile.checkParams
  split
  · exact .reject _ _
  · exact .pure fun _ _ => trivial

/-- A function whose body corresponds is a corresponding function. -/
theorem sim_bindFunction (pos : Position) (name : String) (params : List Param)
    {body body' : CompileM σ (List Core.Stmt)}
    (hbody : ∀ s : R.Scope, R.Sim s Scope.Stmts body body') :
    R.Sim s (fun s' v v' => R.val s'.world v v') (Compile.bindFunction pos name params body)
      (Compile.bindFunction pos name params body') := by
  refine (sim_checkParams params).bind fun s₁ _ _ _ _ => ?_
  intro w b m m' hat hle
  let inner := b.enterFunction name params
  have hinner : R.At w inner m m' :=
    ⟨hat.rel, ⟨by simp [inner, Build.enterFunction], fun h => by cases h⟩, hat.reach,
      ⟨hat.fresh.base, hat.fresh.nodup, hat.fresh.new⟩⟩
  simp only [CompileM.bind_apply, Compile.inFunction_apply, Outcome.map]
  rw [Outcome.andThen_assoc, Outcome.andThen_assoc]
  refine (hbody _ w inner m m' hinner (Scope.Le.refl _)).andThen ?_
  rintro w₁ ⟨ss, b₁⟩ ⟨ts, _⟩ n n' hw ⟨rfl, hgrows, hat₁, hscope, hstmts⟩
  have hchunk : { b₁.func.chunk with locals := 0 } = { inner.func.chunk with locals := 0 } :=
    congrArg (·.2.1) hgrows.fixed
  have hloops : b₁.func.loops = [] := hgrows.loops
  have hstmts' : Core.Stmt.MatchesAll (R.val w₁) b₁.func.chunk.locals (b₁.bound n) false ss ts := by
    have : (!b₁.func.loops.isEmpty) = false := by rw [hloops]; rfl
    rw [← this]
    exact hstmts
  let func (ss : List Core.Stmt) : Core.Func :=
    { name, source := b₁.func.chunk.source, sourceName := b₁.func.chunk.sourceName
      params := params.length, locals := b₁.func.chunk.locals
      body := ss ++ [.ret pos (.none pos)] }
  have hmatches : Core.Func.Matches (R.val w₁) (b₁.bound n) (func ss) (func ts) :=
    ⟨rfl, rfl, rfl, rfl, rfl, hgrows.locals, hstmts'.append (.cons (.ret .none) .nil), _, _, _, rfl⟩
  obtain ⟨w₂, hw', hreach, hrel, hval⟩ := R.function hat₁.rel hmatches
  have houter : b.Grows { b₁ with func := b.func } :=
    ⟨rfl, Nat.le_refl _, fun h => ⟨h.locals, h.top⟩⟩
  refine .ok hw' ⟨rfl, houter, ⟨hrel, houter.sound hat.sound, ?_, hat₁.fresh.base, hat₁.fresh.nodup,
    hat₁.fresh.new⟩, scope_le (R.le_trans hw hw') houter hscope.globals hscope.names, hval⟩
  exact Nat.le_trans hreach (Nat.max_le.2 ⟨hat₁.reach, Nat.le_refl _⟩)

theorem sim_inLoop {body body' : CompileM σ (List Core.Stmt)}
    (hbody : ∀ s : R.Scope, R.Sim s Scope.Stmts body body') :
    R.Sim s (fun s' x y =>
        Core.Stmt.MatchesAll (R.val s'.world) s'.locals s'.globals true x.1 y.1)
      (Compile.inLoop body) (Compile.inLoop body') := by
  intro w b m m' hat hle
  rw [Compile.inLoop_apply, Compile.inLoop_apply]
  have hinner : R.At w b.enterLoop m m' :=
    ⟨hat.rel, ⟨hat.sound.locals, hat.sound.top⟩, hat.reach,
      ⟨hat.fresh.base, hat.fresh.nodup, hat.fresh.new⟩⟩
  refine (hbody _ w b.enterLoop m m' hinner (Scope.Le.refl _)).andThen ?_
  rintro w₁ ⟨ss, b₁⟩ ⟨ts, _⟩ n n' hw ⟨rfl, hgrows, hat₁, hscope, hstmts⟩
  have hloops : b₁.func.loops = [] :: b.func.loops := hgrows.loops
  have hfixed : b₁.leaveLoop.fixed = b.fixed := by
    have h := hgrows.fixed
    simp only [Build.fixed, Build.assembly, Prod.mk.injEq, Core.Assembly.mk.injEq] at h
    simp only [Build.fixed, Build.assembly, Build.leaveLoop, hloops, List.tail_cons, Prod.mk.injEq,
      Core.Assembly.mk.injEq, and_true]
    exact ⟨⟨h.1.1, h.1.2.1⟩, h.2⟩
  have houter : b.Grows b₁.leaveLoop :=
    ⟨hfixed, hgrows.locals, fun hs =>
      have h := hgrows.sound ⟨hs.locals, hs.top⟩
      ⟨h.locals, h.top⟩⟩
  refine .ok (R.le_refl w₁) ⟨rfl, houter, ⟨hat₁.rel, houter.sound hat.sound, hat₁.reach,
    hat₁.fresh.base, hat₁.fresh.nodup, hat₁.fresh.new⟩,
      scope_le hw houter hscope.globals hscope.names, ?_⟩
  have hin : (!b₁.func.loops.isEmpty) = true := by rw [hloops]; rfl
  unfold Scope.Stmts at hstmts
  rwa [show (R.scope w₁ b₁ n).inLoop = true from hin] at hstmts

theorem sim_requireFunction (pos : Position) :
    R.Sim s (fun _ _ _ => True) (Compile.requireFunction pos) (Compile.requireFunction pos) := by
  refine Sim.getFunc.bind ?_
  rintro s₁ b _ - ⟨rfl, -⟩
  split
  · exact .pure fun _ _ => trivial
  · exact .reject _ _

theorem sim_requireLoop (pos : Position) :
    R.Sim s (fun s' _ _ => s'.inLoop = true) (Compile.requireLoop pos)
      (Compile.requireLoop pos) := by
  refine Sim.getFunc.bind ?_
  rintro s₁ b _ - ⟨rfl, -, hloop⟩
  split
  · exact .reject _ _
  · rename_i hloops
    rw [hloops] at hloop
    exact .pure fun _ hle => hle.inLoop.trans hloop.symm

/-! ## Statements -/

mutual

theorem sim_bindStmt : (t : Stmt) → (∀ name ∈ t.imports, R.Loads call call' name) → (s : R.Scope) →
    R.Sim s (fun s' => Core.Stmt.Matches (R.val s'.world) s'.locals s'.globals s'.inLoop)
      (Compile.bindStmt call t) (Compile.bindStmt call' t)
  | .expr e, _, s => (sim_bindExpr e s).bind fun _ _ _ _ h => .pure fun _ hle => .expr (h.mono hle)
  | .assign pos name value declare, _, s =>
    (sim_bindExpr value s).bind fun s₁ _ _ _ hvalue => by
      refine (sim_bindTarget name declare pos).bind ?_
      rintro s₂ target _ hle₁ ⟨rfl, htarget⟩
      exact .pure fun _ hle => .assign (htarget.mono hle.locals hle.globals)
        (hvalue.mono (hle₁.trans hle))
  | .setIndex pos object place value, _, s =>
    (sim_bindExpr object s).bind fun s₁ _ _ _ hobject =>
      (sim_bindExpr place s₁).bind fun s₂ _ _ hle₁ hplace =>
        (sim_bindExpr value s₂).bind fun _ _ _ hle₂ hvalue => .pure fun _ hle =>
          .setIndex (hobject.mono (hle₁.trans (hle₂.trans hle))) (hplace.mono (hle₂.trans hle))
            (hvalue.mono hle)
  | .importModule pos name, h, s =>
    (sim_importModule (h name (List.mem_singleton_self name)) pos).bind fun _ _ _ _ _ => .pure
      fun _ _ => .pass
  | .func pos name params body, h, s =>
    (sim_bindFunction pos name params (sim_bindBlock body h)).bind fun s₁ _ _ _ hv => by
      refine (sim_bindTarget name false pos).bind ?_
      rintro s₂ target _ hle₁ ⟨rfl, htarget⟩
      exact .pure fun _ hle => .assign (htarget.mono hle.locals hle.globals)
        (.constant (R.val_mono (hle₁.trans hle).world hv))
  | .ret pos value, _, s => (sim_requireFunction pos).bind fun s₁ _ _ _ _ =>
    match value with
    | some e => (sim_bindExpr e s₁).bind fun _ _ _ _ h => .pure fun _ hle => .ret (h.mono hle)
    | none => .pure fun _ _ => .ret .none
  | .branch cond body tail, h, s =>
    (sim_bindExpr cond s).bind fun s₁ _ _ _ hcond =>
      (sim_bindBlock body (List.forall_mem_append.1 h).1 s₁).bind fun s₂ _ _ hle₁ hbody =>
        (sim_bindElse tail (List.forall_mem_append.1 h).2 s₂).bind fun _ _ _ hle₂ htail => .pure
          fun _ hle =>
          .branch (hcond.mono (hle₁.trans (hle₂.trans hle))) (hbody.mono (hle₂.trans hle))
            (htail.mono hle)
  | .loop cond body, h, s =>
    (sim_bindExpr cond s).bind fun s₁ _ _ _ hcond =>
      (sim_inLoop (sim_bindBlock body h)).bind fun _ _ _ hle₁ hbody => .pure fun _ hle =>
        .loop (hcond.mono (hle₁.trans hle))
          (hbody.mono (fun _ _ => R.val_mono hle.world) hle.locals hle.globals)
  | .leave pos, _, s => (sim_requireLoop pos).bind fun s₁ _ _ _ hloop => .pure fun s₂ hle => by
    rw [hle.inLoop, hloop]
    exact .leave
  | .pass, _, s => .pure fun _ _ => .pass

theorem sim_bindBlock : (ts : List Stmt) → (∀ name ∈ Stmt.importsAll ts, R.Loads call call' name) →
    (s : R.Scope) →
    R.Sim s Scope.Stmts (Compile.bindBlock call ts) (Compile.bindBlock call' ts)
  | [], _, _ => .pure fun _ _ => .nil
  | t :: ts, h, s =>
    (sim_bindStmt t (List.forall_mem_append.1 h).1 s).bind fun s₁ _ _ _ ht =>
      (sim_bindBlock ts (List.forall_mem_append.1 h).2 s₁).bind fun _ _ _ hle₁ hts => .pure
        fun _ hle =>
        Scope.stmts_cons ht (hle₁.trans hle) (hts.mono hle)

theorem sim_bindElse : (tail : Else) → (∀ name ∈ tail.imports, R.Loads call call' name) →
    (s : R.Scope) → R.Sim s Scope.Stmts (Compile.bindElse call tail) (Compile.bindElse call' tail)
  | .nothing, _, _ => .pure fun _ _ => .nil
  | .elseIf cond body tail, h, s =>
    (sim_bindExpr cond s).bind fun s₁ _ _ _ hcond =>
      (sim_bindBlock body (List.forall_mem_append.1 h).1 s₁).bind fun s₂ _ _ hle₁ hbody =>
        (sim_bindElse tail (List.forall_mem_append.1 h).2 s₂).bind fun _ _ _ hle₂ htail => .pure
          fun _ hle =>
          .cons (.branch (hcond.mono (hle₁.trans (hle₂.trans hle))) (hbody.mono (hle₂.trans hle))
            (htail.mono hle)) .nil
  | .block body, h, s => sim_bindBlock body h s

end

/-! ## Programs -/

mutual

theorem sim_hoistStmt : (t : Stmt) → (∀ name ∈ t.imports, R.Loads call call' name) → (s : R.Scope) →
    R.Sim s (fun _ _ _ => True) (Compile.hoistStmt call t) (Compile.hoistStmt call' t)
  | .assign pos name _ _, _, _ | .func pos name _ _, _, _ =>
    (sim_checkAssignable name pos).bind fun _ _ _ _ _ => sim_declareGlobal name
  | .importModule pos name, h, _ => sim_importModule (h name (List.mem_singleton_self name)) pos
  | .branch _ body tail, h, s =>
    (sim_hoist body (List.forall_mem_append.1 h).1 s).bind fun s₁ _ _ _ _ =>
      sim_hoistElse tail (List.forall_mem_append.1 h).2 s₁
  | .loop _ body, h, s => sim_hoist body h s
  | .expr _, _, _ | .setIndex _ _ _ _, _, _ | .ret _ _, _, _ | .leave _, _, _ | .pass, _, _ =>
    .pure fun _ _ => trivial

theorem sim_hoist : (ts : List Stmt) → (∀ name ∈ Stmt.importsAll ts, R.Loads call call' name) →
    (s : R.Scope) → R.Sim s (fun _ _ _ => True) (Compile.hoist call ts) (Compile.hoist call' ts)
  | [], _, _ => .pure fun _ _ => trivial
  | t :: ts, h, s => (sim_hoistStmt t (List.forall_mem_append.1 h).1 s).bind fun s₁ _ _ _ _ =>
    sim_hoist ts (List.forall_mem_append.1 h).2 s₁

theorem sim_hoistElse : (tail : Else) → (∀ name ∈ tail.imports, R.Loads call call' name) →
    (s : R.Scope) →
    R.Sim s (fun _ _ _ => True) (Compile.hoistElse call tail) (Compile.hoistElse call' tail)
  | .nothing, _, _ => .pure fun _ _ => trivial
  | .elseIf _ body tail, h, s =>
    (sim_hoist body (List.forall_mem_append.1 h).1 s).bind fun s₁ _ _ _ _ =>
      sim_hoistElse tail (List.forall_mem_append.1 h).2 s₁
  | .block body, h, s => sim_hoist body h s

end

/-- The top level: its last statement gives a result. -/
theorem sim_bindTop (ts : List Stmt) (h : ∀ name ∈ Stmt.importsAll ts, R.Loads call call' name)
    (s : R.Scope) : R.Sim s (fun s' ss us => s'.Stmts ss us ∧ ∃ init pos e,
      ss = init ++ [.ret pos e]) (Compile.bindTop call ts) (Compile.bindTop call' ts) := by
  fun_induction Compile.bindTop call ts generalizing s with
  | case1 => exact .pure fun _ _ => ⟨.cons (.ret .none) .nil, [], _, _, rfl⟩
  | case2 e =>
    exact (sim_bindExpr e s).bind fun _ _ _ _ h => .pure fun _ hle =>
      ⟨.cons (.ret (h.mono hle)) .nil, [], _, _, rfl⟩
  | case3 t ts hne ih =>
    rw [Compile.bindTop.eq_3 _ _ _ hne]
    refine (sim_bindStmt t (List.forall_mem_append.1 h).1 s).bind fun s₁ _ _ _ ht =>
      (ih (List.forall_mem_append.1 h).2 s₁).bind ?_
    rintro s₂ ss us hle₁ ⟨hss, init, pos, e, rfl⟩
    exact .pure fun _ hle => ⟨Scope.stmts_cons ht (hle₁.trans hle) (hss.mono hle), _ :: init, pos,
      e, rfl⟩

variable {w : R.World} {m m' : Machine σ}

/-- **Compilations of one program on corresponding machines end in the same way**, with programs
that match and whose variables all have slots. -/
theorem ends_bindProgram (source name : String) (program : Program)
    (hloads : ∀ name ∈ Stmt.importsAll program, R.Loads call call' name)
    (hrel : R.rel w m m') (hreach : R.reach w ≤ m.globals.size) :
    R.Ends w (fun w' d d' n n' => R.final w' n n' ∧ R.reach w' ≤ n.globals.size ∧
        m.globals.names <+: n.globals.names ∧ d.locals = 0 ∧
        d.Matches (R.val w') n.globals.size d')
      (bindProgram call source name program m) (bindProgram call' source name program m') := by
  have hsize : m'.globals.size = m.globals.size := by
    rw [← Globals.length_names, ← Globals.length_names, R.names hrel]
  have hstart : R.At w (.start source name m.globals.size) m m' :=
    ⟨hrel, ⟨Nat.le_refl _, fun _ => rfl⟩, Nat.le_trans hreach (Nat.le_max_left _ _),
      ⟨Nat.le_refl _, List.nodup_nil, fun _ h => nomatch h⟩⟩
  have hsim : R.Sim (R.scope w (.start source name m.globals.size) m)
      (fun s' ss us => s'.Stmts ss us ∧ ∃ init pos e, ss = init ++ [.ret pos e])
      (Compile.bindBody call program) (Compile.bindBody call' program) :=
    (sim_hoist program hloads _).bind fun s₁ _ _ _ _ => sim_bindTop program hloads s₁
  have hends := hsim w _ m m' hstart (Scope.Le.refl _)
  rw [bindProgram_apply, bindProgram_apply, hsize]
  refine hends.andThen ?_
  rintro w₁ ⟨ss, b⟩ ⟨us, _⟩ n n' hw ⟨rfl, hgrows, hat, hscope, hstmts, hends⟩
  have htop : b.func.isFunction = false := hgrows.isFunction
  have hlocals : b.func.chunk.locals = 0 := hat.sound.top htop
  have hloops : (!b.func.loops.isEmpty) = false := by rw [hgrows.loops]; rfl
  have hcommit := hat.fresh.bound_le_size_commit
  refine .ok (R.le_refl w₁) ⟨R.commit hat.rel, Nat.le_trans hat.reach hcommit, ?_, hlocals, ?_⟩
  · exact hscope.names.trans (Globals.names_foldl_declare _ _)
  · refine ⟨rfl, rfl, rfl, rfl, rfl, Nat.zero_le _, ?_, hends⟩
    unfold Scope.Stmts at hstmts
    rw [show (R.scope w₁ b n).inLoop = false from hloops] at hstmts
    exact hstmts.mono (fun _ _ h => h) (Nat.le_refl _) hcommit

/-- The same for source texts, which may be rejected before. -/
theorem ends_compileSource (source name : String)
    (hloads : ∀ name ∈ sourceImports source, R.Loads call call' name) (hrel : R.rel w m m')
    (hreach : R.reach w ≤ m.globals.size) :
    R.Ends w (fun w' c c' n n' => R.final w' n n' ∧ R.reach w' ≤ n.globals.size ∧
        m.globals.names <+: n.globals.names ∧ ∃ d d' : Core.Func, d.chunk = c ∧ d'.chunk = c' ∧
          d.locals = 0 ∧ d.Matches (R.val w') n.globals.size d')
      (compileSource call source name m) (compileSource call' source name m') := by
  obtain ⟨e, hrun⟩ | ⟨tokens, program, htokens, hprogram, hrun⟩ :=
    compileSource_cases (σ := σ) source name
  · rw [hrun, hrun]
    exact .failed (R.le_refl w) hrel
  · have himports : sourceImports source = Stmt.importsAll program := by
      simp only [sourceImports, htokens, hprogram]
    rw [himports] at hloads
    rw [hrun, hrun, Run.bind_apply, Run.bind_apply]
    refine (ends_bindProgram source name program hloads hrel hreach).andThen ?_
    rintro w₁ d d' n n' - ⟨hrel', hreach', hnames, hlocals, hmatches⟩
    exact .ok (R.le_refl w₁) ⟨hrel', hreach', hnames, d, d', rfl, rfl, hlocals, hmatches⟩

end Modules

/-! ## Machines beside themselves -/

/-- A machine beside itself, with something that holds all through a compilation. -/
def self (holds lost final : Machine σ → Prop)
    (string : ∀ m s, holds m → holds (m.alloc (.string s)).2)
    (function : ∀ m {d globals}, Core.Func.Matches Eq globals d d → holds m →
      holds (m.alloc (.function d.script)).2)
    (commit : ∀ m b, holds m → final (Compile.commit b m)) : Link σ where
  World := PUnit
  le _ _ := True
  val _ v v' := v = v'
  rel _ m m' := m = m' ∧ holds m
  lost _ m m' := m = m' ∧ lost m
  final _ m m' := m = m' ∧ final m
  reach _ := 0
  le_refl _ := trivial
  le_trans _ _ := trivial
  val_mono _ h := h
  val_number _ _ := rfl
  names h := by rw [h.1]
  imports h := by rw [h.1]
  lookup h _ := by rw [h.1]
  function? {_ m _} h index name := by
    rw [← h.1]
    cases m.modules.function? index name with
    | none => exact .none
    | some v => exact .some rfl
  string {_ m _} h s := by
    obtain ⟨rfl, hm⟩ := h
    exact ⟨(), trivial, Nat.le_refl _, ⟨rfl, string m s hm⟩, rfl⟩
  function {_ m _ d _ _} h hd := by
    obtain ⟨rfl, hm⟩ := h
    obtain rfl := hd.eq
    exact ⟨(), trivial, Nat.zero_le _, ⟨rfl, function m hd hm⟩, rfl⟩
  commit {_ m _ b} h := by
    obtain ⟨rfl, hm⟩ := h
    exact ⟨rfl, commit m b hm⟩

section Self

variable {holds lost final : Machine σ → Prop}
    {string : ∀ m s, holds m → holds (m.alloc (.string s)).2}
  {function : ∀ m {d globals}, Core.Func.Matches Eq globals d d → holds m →
    holds (m.alloc (.function d.script)).2}
  {commit : ∀ m b, holds m → final (Compile.commit b m)} {call : Callback σ} {m : Machine σ}

theorem loads_self
    (h : ∀ {m index handle loader}, holds m → m.modules.lookup name = .load index handle loader →
      (call (loader handle) (m.beginLoad index)).Leaves
        (fun _ n => holds (n.finishLoad index) ∧ m.globals.names <+: n.globals.names)
        (fun _ _ => True) lost) :
    (self holds lost final string function commit).Loads call call name := by
  intro _ m _ index handle loader hrel hlookup
  obtain ⟨rfl, hm⟩ := hrel
  have hload := h hm hlookup
  refine .self (fun a n hn => ?_) (fun e _ _ => e.elim) fun n hn => ?_ <;> rw [hn] at hload
  · exact ⟨⟨rfl, hload.1⟩, Nat.le_refl _, hload.2⟩
  · exact ⟨rfl, hload⟩

/-- What holds all through a compilation holds at its end. -/
theorem leaves_compileSource {source : String}
    (hloads : ∀ name ∈ sourceImports source,
      (self holds lost final string function commit).Loads call call name)
    (hm : holds m) (name : String) :
    (compileSource call source name m).Leaves
      (fun c n => final n ∧ ∃ d : Core.Func, d.chunk = c ∧ d.locals = 0 ∧ d.Scoped n.globals.size)
      (fun _ => holds) lost := by
  have hrel : (self holds lost final string function commit).rel () m m := ⟨rfl, hm⟩
  have hends := ends_compileSource source name hloads hrel (Nat.zero_le _)
  generalize compileSource call source name m = o at hends
  cases hends with
  | ok _ h =>
    obtain ⟨hfinal, -, -, d, d', hd, hd', hlocals, hmatches⟩ := h
    obtain rfl := hmatches.eq
    exact ⟨hfinal.2, d, hd, hlocals, hmatches⟩
  | failed _ h | unwound _ h => exact h.2
  | exhausted => trivial

end Self

end Link

end ScriptMachine
