import ScriptMachine.Proofs.Instructions
/-!
# Calls on top of each other

The values of each call in progress begin where those of the call that has made it end, above the
function that it runs. How many values a call has, its code tells.

* `Piled`: calls on top of each other, with their values on the stack;
* `Machine.piles_step`: **instructions keep calls on top of each other**.
-/

namespace ScriptMachine

variable {σ : Type} {ok : Chunk → Prop} {outer frames : Array Frame} {low top entry : Nat}

/-- Above the calls `outer`, whose values end at `low`, there are calls on top of each other, whose
values end at `top`. The innermost call has as many values as its next instruction expects, and
those of another one end at the base of the call inside of it. The function that a call inside of
another one runs lies below its base. -/
inductive Piled (ok : Chunk → Prop) (outer : Array Frame) (low : Nat) :
    Array Frame → (top : Nat) → Prop
  | start : Piled ok outer low outer low
  | call {frames : Array Frame} {f : Frame} {top : Nat} (below : Piled ok outer low frames f.base)
    (code : ok f.chunk) (pc : f.pc < f.chunk.code.size)
    (height : top = f.base + f.chunk.height f.pc)
    (callee : frames.size = outer.size ∨ 0 < f.base) :
    Piled ok outer low (frames.push f) top

namespace Piled

variable (h : Piled ok outer low frames top)

include h

theorem outer_le : outer.size ≤ frames.size := by
  induction h with
  | start => exact Nat.le_refl _
  | call _ _ _ _ _ ih => rw [Array.size_push]; exact Nat.le_succ_of_le ih

theorem low_le : low ≤ top := by
  induction h with
  | start => exact Nat.le_refl _
  | call _ _ _ height _ ih => omega

/-- The calls outside are those that were there at first. -/
theorem extract_eq : frames.extract 0 outer.size = outer := by
  induction h with
  | start => exact Array.extract_size
  | @call frames f _ below _ _ _ _ ih =>
    rw [Array.extract_push_of_le below.outer_le]
    exact ih

/-- The innermost call. -/
theorem back (hsize : outer.size < frames.size) :
    ∃ rest f, frames = rest.push f ∧ Piled ok outer low rest f.base ∧ ok f.chunk ∧
      f.pc < f.chunk.code.size ∧ top = f.base + f.chunk.height f.pc ∧
      (rest.size = outer.size ∨ 0 < f.base) := by
  cases h with
  | start => exact absurd hsize (Nat.lt_irrefl _)
  | call below code pc height callee => exact ⟨_, _, rfl, below, code, pc, height, callee⟩

/-- Without calls inside, the values end where they did at first. -/
theorem eq_of_size_le (hsize : frames.size ≤ outer.size) : frames = outer ∧ top = low := by
  cases h with
  | start => exact ⟨rfl, rfl⟩
  | call below _ _ _ _ =>
    have hle := below.outer_le
    rw [Array.size_push] at hsize
    omega

end Piled

/-- Where an instruction of the innermost call leads: to calls on top of each other, to the end of
the program, or to a failure, which is a panic unless something is broken. -/
def Step.Piles (ok : Chunk → Prop) (outer : Array Frame) (low entry : Nat) (broken : Prop) :
    Step σ → Prop
  | .next n => entry < n.frames.size ∧ Piled ok outer low n.frames n.stack.size
  | .native _ _ callee n =>
    outer.size < n.frames.size ∧ callee ≤ n.stack.size ∧ Piled ok outer low n.frames (callee + 1)
  | .failed f _ => Machine.Faulty broken f
  | .done _ _ => True

namespace Machine

variable {m : Machine σ}

/-- An instruction finds what it needs if the code is in order. -/
theorem serves_of_checks {chunk : Chunk} {base pc : Nat} {op : Op}
    (h : chunk.Checks m.globals.size pc op) (hsize : m.stack.size = base + chunk.height pc)
    (hframes : 0 < m.frames.size) : m.Serves chunk base op := by
  have htakes := h.takes
  refine ⟨by omega, ?_⟩
  have hoperand := h.operand
  cases op with
  | constant index | setGlobal slot => exact hoperand
  | getLocal slot =>
    have hslot : slot < chunk.locals := hoperand
    show base + slot < m.stack.size
    omega
  | setLocal slot =>
    have hslot : slot < chunk.locals := hoperand
    simp only [Op.takes] at htakes
    show base + slot + 1 < m.stack.size
    omega
  | ret => exact hframes
  | _ => trivial

/-- **Instructions keep calls on top of each other**, if functions have code of that kind. A failure
is a panic if the code is in order with the variables there are. -/
theorem piles_step (h : Piled ok outer low m.frames m.stack.size)
    (hsize : outer.size < m.frames.size) (hentry : entry ≤ outer.size)
    (hlow : entry = outer.size ∨ 0 < low) (hok : ∀ c, ok c → ∃ globals, c.Verified globals)
    (hfunctions : ∀ v f, v ∈ m.stack → m.object? v = some (.function f) → f.arity = f.chunk.params ∧
      ok f.chunk) :
    (m.step entry).Piles ok outer low entry (¬ ∀ c, ok c → c.Verified m.globals.size) := by
  obtain ⟨rest, f, hframes, below, code, pc, height, callee⟩ := h.back hsize
  obtain ⟨globals, verified⟩ := hok f.chunk code
  have hle : outer.size ≤ rest.size := below.outer_le
  have hback : m.frames.back? = some f := by rw [hframes, Array.back?_push]
  have hcode : f.chunk.code[f.pc]? = some f.chunk.code[f.pc] := Array.getElem?_eq_getElem pc
  have hchecks := verified.checks f.pc _ hcode
  have hjump := frames_jump hframes (f.pc + 1)
  have hserves (hall : ∀ c, ok c → c.Verified m.globals.size) :
      (m.jump (f.pc + 1)).Serves f.chunk f.base f.chunk.code[f.pc].op :=
    serves_of_checks ((hall f.chunk code).checks f.pc _ hcode) height
      (by rw [hjump, Array.size_push]; exact Nat.succ_pos _)
  have hheight := Chunk.height_succ hcode
  have htakes := hchecks.takes
  have hfollows := follows_exec (m.jump (f.pc + 1)) entry f.chunk f.base f.chunk.code[f.pc].op
  unfold step
  simp only [hback, hcode]
  generalize (m.jump (f.pc + 1)).exec entry f.chunk f.base f.chunk.code[f.pc].op = s at hfollows
  generalize f.chunk.code[f.pc].op = op at *
  cases hfollows with
  | @falls n hfalls hn hnframes =>
    have hn : n.stack.size = m.stack.size - op.takes + op.gives := hn
    constructor
    · rw [hnframes, hjump, Array.size_push]
      omega
    · rw [hnframes, hjump]
      exact .call below code (hchecks.falls hfalls) (by dsimp only; omega) callee
  | @jumps n target hjumps hn hnframes =>
    have hn : n.stack.size = m.stack.size - op.takes + op.gives := hn
    obtain ⟨hlt, htarget⟩ := hchecks.jumps target hjumps
    have hjump' := frames_jump hjump target
    constructor
    · rw [hnframes, hjump', Array.size_push]
      omega
    · rw [hnframes, hjump']
      exact .call below code hlt (by dsimp only; omega) callee
  | @enters n g v place calls hplace found function hn hnframes =>
    subst calls
    have hplace : place + g.arity + 1 = m.stack.size := hplace
    have hn : n.stack.size = m.stack.size + (g.chunk.locals - g.chunk.params) := hn
    obtain ⟨harity, hg⟩ := hfunctions v g found function
    obtain ⟨globals', hverified⟩ := hok g.chunk hg
    have hparams := hverified.params
    simp only [Op.takes, Op.gives] at hheight htakes
    have hcaller : Piled ok outer low (rest.push { f with pc := f.pc + 1 }) (place + 1) :=
      .call below code (hchecks.falls rfl) (by dsimp only; omega) callee
    constructor
    · rw [hnframes, hjump, Array.size_push, Array.size_push]
      omega
    · rw [hnframes, hjump]
      exact .call hcaller hg hverified.start (by rw [Chunk.height_zero]; dsimp only; omega)
        (.inr (Nat.succ_pos _))
  | @asks g args place calls hplace =>
    subst calls
    have hplace : place + g.arity + 1 = m.stack.size := hplace
    simp only [Op.takes, Op.gives] at hheight htakes
    refine ⟨?_, ?_, ?_⟩
    · rw [hjump, Array.size_push]
      omega
    · show place ≤ m.stack.size
      omega
    · rw [hjump]
      exact .call below code (hchecks.falls rfl) (by dsimp only; omega) callee
  | @returns n g returns left inner hn hnframes =>
    subst returns
    have hn : n.stack.size = min (g.base - 1) (m.stack.size - 1) + 1 := hn
    rw [hjump, Array.back?_push] at left
    rw [hjump, Array.size_push] at inner
    rw [hjump, Array.pop_push] at hnframes
    have hbase : g.base = f.base := by rw [← Option.some.inj left]
    -- Only the program itself runs no function, and it does not return to a call.
    have hpos : 0 < f.base := by
      have hlow_le := below.low_le
      omega
    simp only [Op.takes] at htakes
    have hn : n.stack.size = f.base := by omega
    refine ⟨?_, ?_⟩
    · rw [hnframes]
      omega
    · rw [hnframes, hn]
      exact below
  | done => trivial
  | fails fault => exact fault.imp_right fun ⟨hf, hnot⟩ => ⟨hf, fun hall => hnot (hserves hall)⟩

end Machine

end ScriptMachine
