import ScriptMachine.Proofs.Course
/-!
# What programs assign to

Assignments are checked when a program is compiled. Whatever a name stands for where it is assigned
to, no instruction is made that assigns to a built-in variable, and no name is both a variable and a
module.

* `Surety`: what a compilation needs to know about the machine, and about the loaders that it runs;
* `Surety.compileSource`: **the code of every program leaves the built-in variables alone**.
-/

namespace ScriptMachine

variable {σ : Type}

/-! ## Names -/

namespace Build

variable {b : Build} {m k : Machine σ} {n : Nat} {name : String}

/-- A partial program comes behind the first variables, and no name is both a variable and a
module. -/
structure Careful (b : Build) (m : Machine σ) (n : Nat) : Prop where
  base : n ≤ b.globalBase
  apart : ∀ name, b.isGlobal m name = true →
    (b.newImports.lookup name).or (m.imports.lookup name) = none

theorem isGlobal_congr (h : m.SameNames k) (name : String) :
    b.isGlobal k name = b.isGlobal m name := by
  unfold isGlobal
  rw [Globals.slot?_eq, Globals.slot?_eq, h.names]

/-- Nothing changes if the machine does not get new names. -/
theorem Careful.sameNames (h : b.Careful m n) (hm : m.SameNames k) : b.Careful k n := by
  refine ⟨h.base, fun name hname => ?_⟩
  rw [isGlobal_congr hm] at hname
  rw [hm.imports]
  exact h.apart name hname

theorem Careful.declareGlobal (h : b.Careful m n) (htop : b.func.isFunction = false)
    (hname : ∀ index, b.resolve m name ≠ .module index) : (b.declareGlobal m name).Careful m n := by
  have hmodules := Draft.modules_eq_none (d := ⟨b, m⟩) htop hname
  unfold Build.declareGlobal
  split
  · exact h
  · refine ⟨h.base, fun name' hname' => ?_⟩
    by_cases heq : name' = name
    · exact heq ▸ hmodules
    · refine h.apart name' ?_
      simpa [isGlobal, heq] using hname'

/-- A module gets a name that is not a variable. -/
theorem Careful.link (h : b.Careful m n) (hname : b.isGlobal m name = false) (index : Nat) :
    ({ b with newImports := b.newImports ++ [(name, index)] } : Build).Careful m n := by
  refine ⟨h.base, fun name' hname' => ?_⟩
  have hne : name' ≠ name := by
    rintro rfl
    exact Bool.false_ne_true (hname.symm.trans hname')
  have hlookup : (b.newImports ++ [(name, index)]).lookup name' = b.newImports.lookup name' := by
    rw [List.lookup_append, List.lookup_cons, beq_eq_false_iff_ne.2 hne]
    exact Option.or_none
  show ((b.newImports ++ [(name, index)]).lookup name').or _ = none
  rw [hlookup]
  exact h.apart name' hname'

end Build

/-! ## Compilations -/

/-- What holds of the machine all through a compilation, and of the machine that a loader leaves
that gives up. The first variables are built in, and loaders leave all names as they are. -/
structure Surety (n : Nat) (call : Callback σ) (I L : Machine σ → Prop) : Prop where
  builtin : ∀ {m}, I m → ∀ slot < n, m.globals.isBuiltin slot = true
  string : ∀ {m} s, I m → I (m.alloc (.string s)).2
  function : ∀ {m} {f : ScriptFunction}, f.chunk.Spares n → I m → I (m.alloc (.function f)).2
  loaded : ∀ {m k name index handle loader v}, I m →
    m.modules.lookup name = .load index handle loader →
    call (loader handle) (m.beginLoad index) = .ok v k →
    I (k.finishLoad index) ∧ m.SameNames k
  unwound : ∀ {m k name index handle loader}, I m →
    m.modules.lookup name = .load index handle loader →
    call (loader handle) (m.beginLoad index) = .unwound k → L k

namespace Surety

variable {n : Nat} {call : Callback σ} {I L : Machine σ → Prop}

/-- What is to be watched: the name of an import is not a variable when its loader is called, and
nothing gets a name while it runs. -/
def watch (hS : Surety n call I L) : Draft.Watch call where
  place _ := True
  holds d := I d.machine ∧ d.build.Careful d.machine n
  low := n
  string s h := ⟨hS.string s h.1, h.2.sameNames ⟨rfl, rfl⟩⟩
  function hf h := ⟨hS.function hf h.1, h.2.sameNames ⟨rfl, rfl⟩⟩
  declare top free h := ⟨h.1, h.2.declareGlobal top free⟩
  within _ h := ⟨h.1, h.2.base, h.2.apart⟩
  ready index free h := ⟨h.1, h.2.link free index⟩
  load {d name index _ _ _ k} free found loads h := by
    obtain ⟨hk, hsame⟩ := hS.loaded h.1 found loads
    have hsame : d.machine.SameNames (k.finishLoad index) := ⟨hsame.names, hsame.imports⟩
    exact ⟨hk, (h.2.sameNames hsame).link ((Build.isGlobal_congr hsame name).trans free) index⟩
  base h := h.2.base
  builtin h := hS.builtin h.1

variable (hS : Surety n call I L) {m : Machine σ}

include hS

theorem le_size (hm : I m) : n ≤ m.globals.size := by
  refine Nat.le_of_not_lt fun hlt => ?_
  have hbuiltin := hS.builtin hm _ hlt
  unfold Globals.isBuiltin Globals.size at hbuiltin
  rw [Array.getElem?_eq_none (Nat.le_refl _)] at hbuiltin
  cases hbuiltin

/-- **The code of every program leaves the built-in variables alone**, and what gets a name at the
end of its compilation had none. -/
theorem compileSource (source name : String) (hm : I m)
    (hapart : ∀ name, (m.globals.slot? name).isSome = true → m.imports.lookup name = none) :
    (compileSource call source name m).Leaves
      (fun chunk k => chunk.Spares n ∧ ∃ b j, k = Compile.commit b j ∧ I j ∧ b.Careful j n)
      (fun _ k => I k) L := by
  obtain ⟨e, hrun⟩ | ⟨tokens, program, -, -, hrun⟩ := compileSource_cases (σ := σ) source name
  · rw [hrun]
    exact hm
  · have hstart : hS.watch.holds (Draft.start source name m) := by
      refine ⟨hm, hS.le_size hm, fun name hname => hapart name ?_⟩
      simpa [Build.isGlobal, Draft.start] using hname
    have hends := Draft.concludes_watch (Stmt.allAt_of_forall (fun _ => trivial) program) hstart
    rw [hrun, Run.bind_apply]
    generalize bindProgram call source name program m = o at hends
    cases hends with
    | ok k _ h holds => exact ⟨h.2, k.build, k.machine, rfl, holds⟩
    | failed k _ holds => exact holds.1
    | unwound _ found gives holds => exact hS.unwound holds.1 found gives
    | exhausted => trivial

end Surety

end ScriptMachine
