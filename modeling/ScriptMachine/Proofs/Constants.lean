import ScriptMachine.Proofs.Retention
/-!
# The constants of compiled code

The constants of a chunk are numbers, the strings of literals, functions that were declared, and
members of modules. While a program is compiled, nothing but the unfinished code refers to the
strings and functions that were made for it, and this is no root of a collection. So they last until
the next collection; members last in any case.

* `Course.constants_last`: **what the constants of compiled code are**, and when all of them are
  alive.
-/

namespace ScriptMachine

/-! ## Where constants come from -/

/-- The values that the code of a program may have in a given sense, in the top level and in its
functions. -/
inductive Sense.Gives (S : Sense) : Value → Prop
  | number (x : Double) : Gives S (.ofDouble x)
  | string {s : String} {v : Value} (h : S.string s v) : Gives S v
  | member {object id : String} {v : Value} (h : S.member object id v) : Gives S v
  | function {f : Core.Func} {v : Value} (h : S.function f v)
    (inner : ∀ u ∈ f.chunk.constants, Gives S u) : Gives S v

namespace Core.Assembly

variable {S : Sense} {a : Assembly} {v : Value}

/-- Code under construction with no other constants. -/
def Within (S : Sense) (a : Assembly) : Prop := ∀ v ∈ a.constants, S.Gives v

theorem within_empty (S : Sense) : Within S {} := by
  intro v hv
  cases Array.not_mem_empty v hv

theorem Within.constant (h : a.Within S) (hv : S.Gives v) (pos : Position) :
    (a.constant v pos).Within S := by
  unfold Assembly.constant
  split
  · exact h
  · intro u hu
    rcases Array.mem_push.1 hu with hu | rfl
    · exact h u hu
    · exact hv

theorem Within.patchAll (h : a.Within S) (jumps : List Nat) : (a.patchAll jumps).Within S := by
  unfold Assembly.patchAll
  induction jumps generalizing a with
  | nil => exact h
  | cons jump jumps ih => exact ih (a := a.patch jump) h

theorem Within.leave (h : a.Within S) (pos : Position) : (a.leave pos).Within S := by
  unfold Assembly.leave
  split
  · exact h
  · exact h

end Core.Assembly

section Emission

variable {S : Sense}

mutual

theorem Expr.Resolves.within : {e : Expr} → {e' : Core.Expr} → e.Resolves S e' →
    {a : Core.Assembly} → a.Within S → (e'.emit a).Within S
  | _, _, .number, _, ha => ha.constant (.number _) _
  | _, _, .string h, _, ha => ha.constant (.string h) _
  | _, _, .boolean, _, ha => ha
  | _, _, .none, _, ha => ha
  | _, _, .list h, _, ha => h.within ha
  | _, _, .local _, _, ha => ha
  | _, _, .global _, _, ha => ha
  | _, _, .member h, _, ha => ha.constant (.member h) _
  | _, _, .index hobject hplace, _, ha => hplace.within (hobject.within ha)
  | _, _, .call hcallee hargs, _, ha => hargs.within (hcallee.within ha)
  | _, _, .unary h, _, ha => h.within ha
  | _, _, .binary hlhs hrhs, _, ha => hrhs.within (hlhs.within ha)
  | _, _, .logical hlhs hrhs, _, ha =>
    hrhs.within (a := (Core.Assembly.emit _ _ _).emit _ _) (hlhs.within ha)

theorem Expr.ResolvesAll.within :
    {es : List Expr} → {es' : List Core.Expr} → Expr.ResolvesAll S es es' →
    {a : Core.Assembly} → a.Within S → (Core.Expr.emitAll es' a).Within S
  | _, _, .nil, _, ha => ha
  | _, _, .cons he hes, _, ha => hes.within (he.within ha)

end

mutual

theorem Stmt.Resolves.within : {s : Stmt} → {s' : Core.Stmt} → s.Resolves S s' →
    {a : Core.Assembly} → a.Within S → (s'.emit a).Within S
  | _, _, .expr h, _, ha => h.within ha
  | _, _, .assign hvalue _, _, ha => hvalue.within ha
  | _, _, .setIndex hobject hplace hvalue, _, ha =>
    hvalue.within (hplace.within (hobject.within ha))
  | _, _, .importModule, _, ha => ha
  | _, _, .func _ _ hbody hends hv _, _, ha => by
    -- The code of the function is made from nothing.
    refine ha.constant (.function hv ?_) _
    have hinner := hbody.within (Core.Assembly.within_empty S)
    unfold Core.Func.chunk Core.Func.assembly
    rw [hends, Core.Stmt.emitAll_append]
    exact hinner
  | _, _, .ret h, _, ha => h.within ha
  | _, _, .retNone, _, ha => ha
  | _, _, .branch hcond hbody htail, _, ha =>
    have hthen := hbody.within (a := Core.Assembly.emit _ _ _) (hcond.within ha)
    htail.within (a := (Core.Assembly.emit _ _ _).patch _) hthen
  | _, _, .loop hcond hbody, _, ha => by
    refine Core.Assembly.Within.patchAll ?_ _
    exact hbody.within (a := (Core.Assembly.emit _ _ _).enterLoop) (hcond.within ha)
  | _, _, .leave, _, ha => ha.leave _
  | _, _, .pass, _, ha => ha

theorem Stmt.ResolvesAll.within :
    {ss : List Stmt} → {ss' : List Core.Stmt} → Stmt.ResolvesAll S ss ss' →
    {a : Core.Assembly} → a.Within S → (Core.Stmt.emitAll ss' a).Within S
  | _, _, .nil, _, ha => ha
  | _, _, .cons hs hss, _, ha => hss.within (hs.within ha)

theorem Else.Resolves.within : {tail : Else} → {ss : List Core.Stmt} → tail.Resolves S ss →
    {a : Core.Assembly} → a.Within S → (Core.Stmt.emitAll ss a).Within S
  | _, _, .nothing, _, ha => ha
  | _, _, .elseIf hcond hbody htail, _, ha =>
    have hthen := hbody.within (a := Core.Assembly.emit _ _ _) (hcond.within ha)
    htail.within (a := (Core.Assembly.emit _ _ _).patch _) hthen
  | _, _, .block h, _, ha => h.within ha

end

theorem Program.Resolves.within {program : Program} {ss : List Core.Stmt}
    (h : Program.Resolves S program ss) {a : Core.Assembly} (ha : a.Within S) :
    (Core.Stmt.emitAll ss a).Within S := by
  induction h generalizing a with
  | nil => exact ha
  | result h => exact h.within ha
  | cons hs _ ih => exact ih (hs.within ha)

/-- **The constants of the code of a program** are numbers, and what its literals, functions and
members stand for. -/
theorem Program.Resolves.gives {program : Program} {f : Core.Func}
    (h : Program.Resolves S program f.body) : ∀ v ∈ f.chunk.constants, S.Gives v :=
  h.within (Core.Assembly.within_empty S)

end Emission

variable {σ : Type}

/-! ## Constants that are alive -/

/-- The constants of a chunk, and those of the functions among them. -/
inductive Machine.Embeds (m : Machine σ) : Chunk → Value → Prop
  | constant {chunk : Chunk} {v : Value} (h : v ∈ chunk.constants) : Embeds m chunk v
  | inner {chunk : Chunk} {f : ScriptFunction} {u v : Value} (h : u ∈ chunk.constants)
    (hf : m.object? u = some (.function f)) (hv : Embeds m f.chunk v) : Embeds m chunk v

/-- What literals, functions and members stand for are objects of their kind, and alive. -/
structure Machine.Bears (m : Machine σ) (S : Sense) : Prop where
  string : ∀ {s v}, S.string s v → m.object? v = some (.string s)
  function : ∀ {f v}, S.function f v → m.object? v = some (.function f.script)
  member : ∀ {object id v}, S.member object id v → ∃ f, f.name = id ∧ m.object? v = some (.native f)

namespace Machine.Bears

variable {m : Machine σ} {S : Sense} {chunk : Chunk} {v : Value}

/-- A function among such values has such values in its code. -/
theorem gives_of_function (h : m.Bears S) (hv : S.Gives v) {f : ScriptFunction}
    (hf : m.object? v = some (.function f)) : ∀ u ∈ f.chunk.constants, S.Gives u := by
  cases hv with
  | number x =>
    obtain ⟨id, hid, -⟩ := object?_eq_some_iff.1 hf
    cases (Value.asObject?_ofDouble x).symm.trans hid
  | string hs => cases (h.string hs).symm.trans hf
  | member hm =>
    obtain ⟨g, -, hg⟩ := h.member hm
    cases hg.symm.trans hf
  | function hg inner =>
    obtain rfl := Object.function.inj (Option.some.inj ((h.function hg).symm.trans hf))
    exact inner

theorem gives_of_embeds (h : m.Bears S) (hv : m.Embeds chunk v)
    (hchunk : ∀ u ∈ chunk.constants, S.Gives u) : S.Gives v := by
  induction hv with
  | constant hv => exact hchunk _ hv
  | inner hu hf _ ih => exact ih (h.gives_of_function (hchunk _ hu) hf)

theorem contains (h : m.Bears S) (hv : S.Gives v) {id : ObjectId} (hid : v.asObject? = some id) :
    m.heap.contains id = true := by
  have halive {o : Object (Native σ)} (ho : m.object? v = some o) : m.heap.contains id = true := by
    obtain ⟨id', hid', ho⟩ := object?_eq_some_iff.1 ho
    obtain rfl := Option.some.inj (hid.symm.trans hid')
    exact Heap.contains_iff.2 ⟨o, ho⟩
  cases hv with
  | number x => cases (Value.asObject?_ofDouble x).symm.trans hid
  | string hs => exact halive (h.string hs)
  | member hm =>
    obtain ⟨f, -, hf⟩ := h.member hm
    exact halive hf
  | function hf inner => exact halive (h.function hf)

end Machine.Bears

/-! ## The end of a compilation -/

/-- What the nodes of a program stand for, and what is alive of it at the end. A literal or a
function stands for the object that was made for it, which is there unless a collection took place
since then; a member stands for a function of a loaded module, which is there in any case. -/
def Draft.lasting (call : Callback σ) (root stop : Draft σ) : Sense where
  name id b := (root.seen call stop).name id b
  member object id v :=
    ∃ k index f, Between call root stop k ∧ k.machine.modules.lookup object = .ready index ∧
    k.machine.modules.function? index id = some v ∧ f.name = id ∧
      k.machine.object? v = some (.native f) ∧
    stop.commit.object? v = some (.native f)
  string s v := ∃ k, MadeAt call root stop k (.string s) v ∧
    (stop.commit.heap.collections = k.machine.heap.collections →
      stop.commit.object? v = some (.string s))
  function f v := ∃ k, MadeAt call root stop k (.function f.script) v ∧
    (stop.commit.heap.collections = k.machine.heap.collections →
      stop.commit.object? v = some (.function f.script))

/-- What the constants of the code of a source text are at the end of its compilation. -/
structure Chunk.Lasts (chunk : Chunk) (call : Callback σ) (source name : String) (m n : Machine σ) :
    Prop where
  /-- The code is that of the program, node by node, with the objects that were made for it. -/
  made : ∃ (tokens : List Token) (program : Program) (stop : Draft σ) (f : Core.Func),
    tokenize source = .ok tokens ∧ parse tokens = .ok program ∧ f.chunk = chunk ∧ n = stop.commit ∧
      Program.Resolves ((Draft.start source name m).lasting call stop) program f.body
  /-- All of its constants are alive if no collection took place, and so are those of the functions
  among them. -/
  alive : n.heap.collections = m.heap.collections → ∀ (v : Value) (id : ObjectId),
    n.Embeds chunk v → v.asObject? = some id → n.heap.contains id = true
  /-- None takes place inside of an evaluation, and if there is no loader to run. -/
  quiet : m.inEval = true ∨
    (∀ other index handle loader, m.modules.lookup other ≠ .load index handle loader) →
    n.heap.collections = m.heap.collections

/-- Without loaders there is nobody to collect anything. -/
theorem Draft.Later.collections_of_no_loader {call : Callback σ} {d k : Draft σ}
    (h : d.Later call k) (hnone : ∀ name index handle loader,
      d.machine.modules.lookup name ≠ .load index handle loader) :
    k.machine.modules = d.machine.modules ∧
    k.machine.heap.collections = d.machine.heap.collections := by
  induction h with
  | refl => exact ⟨rfl, rfl⟩
  | @tail j k _ step ih =>
    obtain ⟨hmodules, hcollections⟩ := ih
    cases step with
    | string s | function f => exact ⟨hmodules, (Heap.collections_alloc _ _).trans hcollections⟩
    | load new free found loads => exact absurd (hmodules ▸ found) (hnone _ _ _ _)
    | declare | within | ready => exact ⟨hmodules, hcollections⟩

namespace Course

variable {options : Options} {host : σ} {hist : History σ} {ts : List (Task σ)} {m : Machine σ}
    {fuel : Nat}
  {source name : String} {k stop : Draft σ}
    (h : Course (.new options host) hist ⟨.compilation :: ts, false, m⟩)

include h

/-- What lasts from one moment of a compilation to another. -/
theorem retains_of_later (hk : (Draft.start source name m).Later (Host.run fuel) k)
    (hstop : k.Later (Host.run fuel) stop) :
    k.machine.heap.Retains k.machine.modules.Seals stop.machine.heap := by
  have hconducts := Host.conducts_run (σ := σ) fuel
  obtain ⟨hist₁, hcourse, -⟩ := Draft.Later.continues hconducts hk ts h
  obtain ⟨hist₂, hcourse', hsuffix⟩ := Draft.Later.continues hconducts hstop ts hcourse
  exact retains_of_suffix hcourse' hsuffix

theorem path_of_later (hk : (Draft.start source name m).Later (Host.run fuel) k) :
    ∃ hist', Path (.new options host) hist' ⟨.compilation :: ts, false, k.machine⟩ := by
  obtain ⟨hist', hcourse, -⟩ := Draft.Later.continues (Host.conducts_run fuel) hk ts h
  exact ⟨hist', hcourse.path⟩

/-- An object that was made for a program is there as long as nothing was collected. -/
theorem object?_of_madeAt {o : Object (Native σ)} {v : Value}
    (made : Draft.MadeAt (Host.run fuel) (Draft.start source name m) stop k o v) (hfixed : o.Fixed)
    (hfits : stop.machine.heap.Fits)
    (heq : stop.machine.heap.collections = k.machine.heap.collections) :
    stop.machine.object? v = some o := by
  have hr := h.retains_of_later (made.before.trans made.step.later) made.after
  have hfits' : (k.machine.heap.alloc o).2.Fits := hfits.of_le hr.size
  obtain ⟨hist', hpath⟩ := h.path_of_later made.before
  have ht : k.machine.heap.Tidy := hpath.tidy (hfits'.of_le (k.machine.heap.size_le_alloc o))
  have hstays := hr.get? hfits (ht.alloc o) (ht.get?_alloc_self hfits') hfixed
    (.inr (heq.trans (k.machine.heap.collections_alloc o).symm))
  rw [← made.value]
  exact Machine.object?_eq_some_iff.2 ⟨_, Value.asObject?_ofObject _, hstays⟩

/-- A member of a loaded module is there in any case. -/
theorem object?_of_member (hk : (Draft.start source name m).Later (Host.run fuel) k)
    (hstop : k.Later (Host.run fuel) stop) (hfits : stop.machine.heap.Fits) {object id : String}
    {index : Nat} {v : Value} (hready : k.machine.modules.lookup object = .ready index)
    (hv : k.machine.modules.function? index id = some v) :
    ∃ f, f.name = id ∧ k.machine.object? v = some (.native f) ∧
    stop.machine.object? v = some (.native f) := by
  have hr := h.retains_of_later hk hstop
  have hfits' := hfits.of_le hr.size
  obtain ⟨hist', hpath⟩ := h.path_of_later hk
  obtain ⟨f, hname, hf⟩ := hpath.stocked hfits' id v (Registry.lists_of_function? hv)
  obtain ⟨oid, hoid, ho⟩ := Machine.object?_eq_some_iff.1 hf
  have hstays := hr.get? hfits (hpath.tidy hfits') ho (by simp [Object.Fixed])
    (.inl (Registry.seals_of_ready hready hv hoid))
  exact ⟨f, hname, hf, Machine.object?_eq_some_iff.2 ⟨oid, hoid, hstays⟩⟩

/-- What was made and found in the course of a compilation lasts. -/
theorem made_le_lasting (hfits : stop.machine.heap.Fits) :
    ((Draft.start source name m).made (Host.run fuel) stop).Le
      ((Draft.start source name m).lasting (Host.run fuel) stop) where
  name hname := hname
  member := by
    rintro object id v ⟨k, index, hbetween, hresolve, hv⟩
    have hready := h.known_of_later hbetween.1 hresolve
    obtain ⟨f, hname, hf, hf'⟩ := h.object?_of_member hbetween.1 hbetween.2 hfits hready hv
    exact ⟨k, index, f, hbetween, hready, hv, hname, hf, hf'⟩
  string := by
    rintro s v ⟨k, made⟩
    exact ⟨k, made, h.object?_of_madeAt made (by simp [Object.Fixed]) hfits⟩
  function := by
    rintro f v ⟨k, made⟩
    exact ⟨k, made, h.object?_of_madeAt made (by simp [Object.Fixed]) hfits⟩

/-- Without a collection, all of it is alive. -/
theorem bears_lasting (heq : stop.machine.heap.collections = m.heap.collections) :
    stop.commit.Bears ((Draft.start source name m).lasting (Host.run fuel) stop) := by
  have hsince {k : Draft σ}
      (hk : Draft.Between (Host.run fuel) (Draft.start source name m) stop k) :
          stop.machine.heap.collections = k.machine.heap.collections := by
    have hbefore : m.heap.collections ≤ k.machine.heap.collections :=
      (h.retains_of_later (.refl (Draft.start source name m)) hk.1).collections
    have hafter := (h.retains_of_later hk.1 hk.2).collections
    omega
  refine ⟨?_, ?_, ?_⟩
  · rintro s v ⟨k, made, halive⟩
    exact halive (hsince made.between)
  · rintro f v ⟨k, made, halive⟩
    exact halive (hsince made.between)
  · rintro object id v ⟨k, index, f, -, -, -, hname, -, hf⟩
    exact ⟨f, hname, hf⟩

end Course

/-- **What the constants of compiled code are**: members of modules are alive, and so are the
strings and functions that were made since the last collection. There is no collection inside of an
evaluation. -/
theorem Course.constants_last {options : Options} {host : σ} {hist : History σ} {ts : List (Task σ)}
    {m n : Machine σ} {fuel : Nat} {source name : String} {chunk : Chunk}
    (h : Course (.new options host) hist ⟨.compilation :: ts, false, m⟩)
    (hcompile : compileSource (Host.run fuel) source name m = .ok chunk n) (hfits : n.heap.Fits) :
    chunk.Lasts (Host.run fuel) source name m n := by
  obtain ⟨e, hrun⟩ | ⟨tokens, program, htokens, hprogram, hrun⟩ :=
    compileSource_cases (σ := σ) source name
  · rw [hrun] at hcompile
    cases hcompile
  · rw [hrun] at hcompile
    obtain ⟨stop, f, later, rfl, rfl, hmade⟩ := Draft.made_of_bindProgram hcompile
    have hresolves := hmade.mono (h.made_le_lasting hfits)
    refine ⟨⟨tokens, program, stop, f, htokens, hprogram, rfl, rfl, hresolves⟩, ?_, ?_⟩
    · intro heq v id hv hid
      have hbears : stop.commit.Bears ((Draft.start source name m).lasting (Host.run fuel) stop) :=
        h.bears_lasting heq
      exact hbears.contains (hbears.gives_of_embeds hv hresolves.gives) hid
    · rintro (hin | hnone)
      · have hstart : (Draft.start source name m).machine.Quiet m.heap.collections := ⟨hin, rfl⟩
        exact (later.quiet hstart).collections
      · exact (later.collections_of_no_loader hnone).2

/-- A loader asks for a collection in the middle of an evaluation, between a literal and the
function around the import: nothing is freed. -/
theorem Course.constants_last_evaluating :
    ∃ (hist : History Unit) (source : String) (m n : Machine Unit) (chunk : Chunk),
    Course (.new {} ()) hist ⟨[.compilation, .evaluation false], false, m⟩ ∧ m.inEval = true ∧
      compileSource (Host.run 2) source "" m = .ok chunk n ∧ n.heap.Fits ∧
      n.modules.status? "m" = some .loaded ∧
      .ofObject ⟨5, 0⟩ ∈ chunk.constants ∧ chunk.Lasts (Host.run 2) source "" m n ∧
      ∀ v id, n.Embeds chunk v → v.asObject? = some id → n.heap.contains id = true := by
  let collects : Loader Unit := fun _ => .ask .collect fun _ => .finish .none
  let m : Machine Unit := (Machine.new {} ()).addLoader "m" collects
  obtain ⟨chunk, n, hcompiled, hfits, hstatus, hv⟩ := Outcome.exists_of_value?
    (o := compileSource (Host.run 2) "x = 'a'\nfunc f():\n    import m\n    return 'b'\n"
      "" m.beginEval)
    (fun c n => n.heap.Fits ∧ n.modules.status? "m" = some .loaded ∧ .ofObject ⟨5, 0⟩ ∈ c.constants)
    (by decide +kernel)
  have hregister : Course (.new {} ()) _ ⟨[], false, m⟩ :=
    Course.start.move (.register hostTurn_nil "m" collects) ⟨rfl, rfl⟩
  have hevaluate := hregister.move (.evaluate hostTurn_nil false rfl) ⟨rfl, rfl⟩
  -- For any source text, so that nothing is computed here.
  have hlasts (source : String)
      (h : compileSource (Host.run 2) source "" m.beginEval = .ok chunk n) :
      chunk.Lasts (Host.run 2) source "" m.beginEval n :=
    hevaluate.constants_last h hfits
  have hlasts := hlasts _ hcompiled
  exact ⟨_, _, _, n, chunk, hevaluate, rfl, hcompiled, hfits, hstatus, hv, hlasts,
    hlasts.alive (hlasts.quiet (.inl rfl))⟩

end ScriptMachine
