import Mathlib.Data.List.Nodup
import ScriptMachine.Proofs.Growth
import ScriptMachine.Proofs.Resolution
/-!
# The slots of new variables

While a program is compiled, its new variables have no slots yet. Code that uses them is given the
slots that they would get if the program were committed at once. A loader that runs in between may
compile programs of its own, whose variables are committed first, and then a promised slot may be
the wrong one.

* `Draft.keepsPromises_iff`: **all promises are kept** exactly if the variables that loaders have
  added and those of the program begin alike, up to the end of the shorter list;
* `Draft.Placed`, `Draft.placed_of_compileProgram`: **every global variable that code uses is at its
  slot, or at the one that was promised**.
-/

namespace ScriptMachine

/-! ## Names and slots -/

theorem idxOf?_append (l rest : List String) (id : String) :
    (l ++ rest).idxOf? id = (l.idxOf? id).or ((rest.idxOf? id).map (· + l.length)) :=
  List.findIdx?_append

namespace Globals

theorem slot?_eq_idxOf? (g : Globals) (name : String) :
    g.slot? name = (g.names.map Prod.fst).idxOf? name := by
  rw [slot?_eq, List.idxOf?, List.findIdx?_map]
  rfl

/-- Variables keep their slots. -/
theorem slot?_of_prefix {g g' : Globals} (h : g.names <+: g'.names) {name : String} {slot : Nat}
    (hslot : g.slot? name = some slot) : g'.slot? name = some slot := by
  obtain ⟨rest, hrest⟩ := h
  rw [slot?_eq_idxOf?] at hslot ⊢
  rw [← hrest, List.map_append, idxOf?_append, hslot, Option.some_or]

/-- New variables go behind the others, in order. -/
theorem names_foldl_declare_eq {news : List String} (hnodup : news.Nodup) (g : Globals) :
    (news.foldl declare g).names =
      g.names ++ (news.filter (· ∉ g.names.map Prod.fst)).map fun name => (name, false) := by
  induction news generalizing g with
  | nil => simp
  | cons name news ih =>
    obtain ⟨hname, hnodup⟩ := List.nodup_cons.1 hnodup
    rw [List.foldl_cons, ih hnodup]
    by_cases hmem : name ∈ g.names.map Prod.fst
    · obtain ⟨slot, hslot⟩ := Option.isSome_iff_exists.1 (slot?_isSome_iff.2 hmem)
      rw [declare_of_some hslot,
        List.filter_cons_of_neg (by rw [decide_eq_true_eq, not_not]; exact hmem)]
    · have hslot : g.slot? name = none := by
        rw [← Option.not_isSome_iff_eq_none, slot?_isSome_iff]
        exact hmem
      have hdeclare : (g.declare name).names = g.names ++ [(name, false)] := by
        rw [declare_of_none hslot, names_add]
      -- the other new variables have other names
      have hfilter : news.filter (· ∉ (g.declare name).names.map Prod.fst) =
          news.filter (· ∉ g.names.map Prod.fst) := by
        refine List.filter_congr fun other hother => ?_
        have hne : other ≠ name := fun heq => hname (heq ▸ hother)
        simp [hdeclare, hne]
      rw [hfilter, hdeclare, List.filter_cons_of_pos (by rw [decide_eq_true_eq]; exact hmem)]
      simp

end Globals

/-- The slot that is promised to a new variable. -/
def Build.promised? (b : Build) (name : String) : Option Nat :=
  (b.newGlobals.idxOf? name).map (b.globalBase + ·)

/-! ## What does not change in the course of a compilation -/

namespace Draft

variable {σ : Type} {call : Callback σ} {d k : Draft σ}

/-- Slots stay, and so do the promised ones. -/
structure Grows (d k : Draft σ) : Prop where
  base : k.build.globalBase = d.build.globalBase
  news : d.build.newGlobals <+: k.build.newGlobals
  names : d.machine.globals.names <+: k.machine.globals.names
  fresh : d.build.Fresh d.machine → k.build.Fresh k.machine

theorem Grows.refl (d : Draft σ) : d.Grows d := ⟨rfl, List.prefix_rfl, List.prefix_rfl, id⟩

theorem Grows.trans {j : Draft σ} (h : d.Grows j) (h' : j.Grows k) : d.Grows k :=
  ⟨h'.base.trans h.base, h.news.trans h'.news, h.names.trans h'.names,
    fun hf => h'.fresh (h.fresh hf)⟩

theorem Next.grows (hcall : call.Grows) (h : d.Next call k) : d.Grows k := by
  cases h with
  | string s | function f | within func | ready new free found =>
    exact ⟨rfl, List.prefix_rfl, List.prefix_rfl, fun hf => ⟨hf.base, hf.nodup, hf.new⟩⟩
  | declare name top free =>
    refine ⟨?_, ?_, List.prefix_rfl, fun hf => hf.declareGlobal name⟩
    · unfold Build.declareGlobal
      split <;> rfl
    · unfold Build.declareGlobal
      split
      · exact List.prefix_rfl
      · exact List.prefix_append _ _
  | @load name index handle loader v n new free found loads =>
    have hgrows := hcall (loader handle) (d.machine.beginLoad index)
    rw [loads] at hgrows
    have hnames : d.machine.globals.names <+: n.globals.names := hgrows.names
    refine ⟨rfl, List.prefix_rfl, hnames, fun hf => ?_⟩
    have hfresh := hf.mono hnames
    exact ⟨hfresh.base, hfresh.nodup, hfresh.new⟩

theorem Later.grows (hcall : call.Grows) (h : d.Later call k) : d.Grows k := by
  induction h with
  | refl => exact .refl d
  | tail _ step ih => exact ih.trans (step.grows hcall)

/-- A variable that is looked up has its slot for good, or it has the slot that is promised to
it. -/
theorem Grows.slot_of_resolve (h : d.Grows k) {id : String} {slot : Nat}
    (hslot : d.resolve id = .global slot) :
    k.machine.globals.slot? id = some slot ∨ k.build.promised? id = some slot := by
  have hor : ((d.machine.globals.slot? id).or (d.build.promised? id)) = some slot := by
    unfold resolve Build.resolve at hslot
    dsimp only at hslot
    split at hslot
    · cases hslot
    · cases hslot
    · rename_i hglobal
      cases hslot
      exact hglobal
    · cases hslot
  rcases Option.or_eq_some_iff.1 hor with hslot | ⟨-, hslot⟩
  · exact .inl (Globals.slot?_of_prefix h.names hslot)
  · obtain ⟨i, hi, rfl⟩ := Option.map_eq_some_iff.1 hslot
    obtain ⟨rest, hrest⟩ := h.news
    refine .inr ?_
    rw [Build.promised?, h.base, ← hrest, idxOf?_append, hi]
    rfl

end Draft

/-! ## Promises -/

/-- Where names stand, if some of them have come from elsewhere and before. -/
theorem idxOf?_append_filter_iff {news added : List String} (hnodup : news.Nodup) :
    (∀ id i, news.idxOf? id = some i → (added ++ news.filter (· ∉ added)).idxOf? id = some i) ↔
      added <+: news ∨ news <+: added := by
  constructor
  · intro h
    have hsame (i : Nat) (hadded : i < added.length) (hnews : i < news.length) :
        added[i] = news[i] := by
      have hi : news.idxOf? news[i] = some i := by
        rw [List.idxOf?_eq_some_iff]
        exact ⟨hnews, rfl, fun j hj heq => Nat.ne_of_lt hj (hnodup.getElem_inj_iff.1 heq)⟩
      obtain ⟨hlt, hfound, -⟩ := List.idxOf?_eq_some_iff.1 (h _ i hi)
      rwa [List.getElem_append_left hadded] at hfound
    rcases Nat.le_total added.length news.length with hle | hle
    · exact .inl (List.prefix_iff_getElem.2 ⟨hle,
        fun i hi => hsame i hi (Nat.lt_of_lt_of_le hi hle)⟩)
    · exact .inr (List.prefix_iff_getElem.2 ⟨hle,
        fun i hi => (hsame i (Nat.lt_of_lt_of_le hi hle) hi).symm⟩)
  · rintro (⟨rest, rfl⟩ | ⟨rest, rfl⟩) id i hi
    · obtain ⟨-, -, hdisjoint⟩ := List.nodup_append.1 hnodup
      have hfilter : (added ++ rest).filter (· ∉ added) = rest := by
        rw [List.filter_append, List.filter_eq_nil_iff.2 (by simp), List.nil_append,
          List.filter_eq_self]
        exact fun name hname => decide_eq_true fun hmem => hdisjoint name hmem name hname rfl
      rw [hfilter]
      exact hi
    · rw [List.append_assoc, idxOf?_append, hi, Option.some_or]

namespace Draft

variable {σ : Type} {stop : Draft σ}

section Commit

variable {old added : List (String × Bool)} (hfresh : stop.build.Fresh stop.machine)
  (hbase : stop.build.globalBase = old.length) (hnames : stop.machine.globals.names = old ++ added)

include hfresh hbase hnames

theorem not_mem_old {name : String} (hname : name ∈ stop.build.newGlobals) :
    name ∉ old.map Prod.fst := by
  have hnew := hfresh.new name hname
  rwa [hbase, hnames, List.take_left] at hnew

/-- The variables of a program that has compiled: those that loaders have added while it was
compiled come first. -/
theorem names_commit :
    stop.commit.globals.names = old ++ added ++
      (stop.build.newGlobals.filter (· ∉ added.map Prod.fst)).map fun name => (name, false) := by
  have hfilter : stop.build.newGlobals.filter (· ∉ stop.machine.globals.names.map Prod.fst) =
      stop.build.newGlobals.filter (· ∉ added.map Prod.fst) := by
    refine List.filter_congr fun name hname => ?_
    rw [hnames, List.map_append]
    exact decide_eq_decide.2 ⟨fun h hmem => h (List.mem_append_right _ hmem),
      fun h hmem => (List.mem_append.1 hmem).elim (not_mem_old hfresh hbase hnames hname) h⟩
  have hcommit := Globals.names_foldl_declare_eq hfresh.nodup stop.machine.globals
  rw [hfilter] at hcommit
  rw [hnames] at hcommit
  exact hcommit

/-- **All promises are kept** exactly if the variables that loaders have added and those of the
program begin alike, up to the end of the shorter list. -/
theorem keepsPromises_iff :
    (∀ id slot, stop.build.promised? id = some slot → stop.commit.globals.slot? id = some slot) ↔
      added.map Prod.fst <+: stop.build.newGlobals ∨
      stop.build.newGlobals <+: added.map Prod.fst := by
  rw [← idxOf?_append_filter_iff hfresh.nodup]
  have hnames' : stop.commit.globals.names.map Prod.fst =
      old.map Prod.fst ++
          (added.map Prod.fst ++ stop.build.newGlobals.filter (· ∉ added.map Prod.fst)) := by
    rw [names_commit hfresh hbase hnames]
    simp [Function.comp_def]
  -- a new variable is behind the old ones
  have hslot (id : String) (i : Nat) (hid : id ∈ stop.build.newGlobals) :
      stop.commit.globals.slot? id = some (stop.build.globalBase + i) ↔
        (added.map Prod.fst ++ stop.build.newGlobals.filter (· ∉ added.map Prod.fst)).idxOf? id =
            some i := by
    rw [Globals.slot?_eq_idxOf?, hnames', idxOf?_append,
      List.idxOf?_eq_none_iff.2 (not_mem_old hfresh hbase hnames hid), Option.none_or,
        List.length_map, ← hbase, Option.map_eq_some_iff]
    constructor
    · rintro ⟨j, hj, heq⟩
      obtain rfl : j = i := by omega
      exact hj
    · exact fun hi => ⟨i, hi, Nat.add_comm _ _⟩
  constructor
  · intro h id i hi
    refine (hslot id i (List.isSome_idxOf?.1 (by rw [hi]; rfl))).1 (h id _ ?_)
    rw [Build.promised?, hi, Option.map_some]
  · intro h id slot hpromised
    obtain ⟨i, hi, rfl⟩ := Option.map_eq_some_iff.1 hpromised
    exact (hslot id i (List.isSome_idxOf?.1 (by rw [hi]; rfl))).2 (h id i hi)

end Commit

end Draft

/-! ## The slots that code uses -/

namespace Sense

variable {S : Sense} {P Q : String → Nat → Prop}

/-- A sense in which global variables are at slots that `P` allows. -/
def placing (S : Sense) (P : String → Nat → Prop) : Sense :=
  { S with name := fun id b => S.name id b ∧ ∀ slot, b = .global slot → P id slot }

theorem le_placing (h : ∀ id slot, S.name id (.global slot) → P id slot) : S.Le (S.placing P) where
  name {id _} hb := ⟨hb, fun slot hslot => h id slot (hslot ▸ hb)⟩
  member h := h
  string h := h
  function h := h

theorem placing_mono (h : ∀ id slot, P id slot → Q id slot) : (S.placing P).Le (S.placing Q) where
  name {id _} hb := ⟨hb.1, fun slot hslot => h id slot (hb.2 slot hslot)⟩
  member h := h
  string h := h
  function h := h

end Sense

namespace Draft

variable {σ : Type}

/-- The slots of a program that has compiled, from its beginning to its end. Loaders have added some
variables in between. -/
structure Placed (call : Callback σ) (root stop : Draft σ) (program : Program) (f : Core.Func)
    (added : List (String × Bool)) : Prop where
  before : stop.machine.globals.names = root.machine.globals.names ++ added
  after : stop.commit.globals.names = root.machine.globals.names ++ added ++
    (stop.build.newGlobals.filter (· ∉ added.map Prod.fst)).map fun name => (name, false)
  /-- Every global variable that code uses is at its slot, or at the one that was promised. -/
  uses : Program.Resolves ((root.seen call stop).placing fun id slot =>
    stop.commit.globals.slot? id = some slot ∨ stop.build.promised? id = some slot) program f.body
  /-- When promises are kept. -/
  kept_iff : (∀ id slot, stop.build.promised? id = some slot →
    stop.commit.globals.slot? id = some slot) ↔
    added.map Prod.fst <+: stop.build.newGlobals ∨ stop.build.newGlobals <+: added.map Prod.fst
  /-- Then all code uses the right slots. -/
  right : added.map Prod.fst <+: stop.build.newGlobals ∨
    stop.build.newGlobals <+: added.map Prod.fst →
    Program.Resolves
      ((root.seen call stop).placing fun id slot => stop.commit.globals.slot? id = some slot)
      program f.body

/-- **Every global variable that code uses is at its slot, or at the one that was promised**, in the
top level and in all functions. -/
theorem placed_of_compileProgram {fuel : Nat} {source name : String} {program : Program}
    {m n : Machine σ} {chunk : Chunk}
    (h : compileProgram (Host.run fuel) source name program m = .ok chunk n) :
    ∃ stop f added, (start source name m).Later (Host.run fuel) stop ∧ n = stop.commit ∧
      f.chunk = chunk ∧ Placed (Host.run fuel) (start source name m) stop program f added := by
  rw [compileProgram_eq] at h
  obtain ⟨stop, f, later, rfl, rfl, hmade⟩ := made_of_bindProgram h
  have hresolves := hmade.mono made_le_seen
  have hgrows := later.grows (Host.grows_run fuel)
  have hfresh := hgrows.fresh ⟨Nat.le_refl _, List.nodup_nil, fun _ h => nomatch h⟩
  obtain ⟨added, hadded⟩ := hgrows.names
  have hbase : stop.build.globalBase = m.globals.names.length := by
    rw [hgrows.base, Globals.length_names]
    rfl
  have hcommit : stop.machine.globals.names <+: stop.commit.globals.names :=
    Globals.names_foldl_declare _ _
  have huses : Program.Resolves (((start source name m).seen (Host.run fuel) stop).placing
      fun id slot =>
      stop.commit.globals.slot? id = some slot ∨
          stop.build.promised? id = some slot) program f.body := by
    refine hresolves.mono (Sense.le_placing ?_)
    rintro id slot ⟨k, hk, hslot⟩
    exact ((hk.2.grows (Host.grows_run fuel)).slot_of_resolve hslot).imp_left
      (Globals.slot?_of_prefix hcommit)
  have hkept := keepsPromises_iff hfresh hbase hadded.symm
  refine ⟨stop, f, added, later, rfl, rfl, hadded.symm, names_commit hfresh hbase hadded.symm,
    huses, hkept, ?_⟩
  exact fun halike => huses.mono (Sense.placing_mono fun id slot hslot =>
    hslot.elim (·) (hkept.2 halike id slot))

/-- The loader of `m` adds a variable behind the built-in ones, at the slot that was promised to
`x`. -/
theorem placed_of_compileProgram_reentrant :
    ∃ (m n : Machine Unit) (chunk : Chunk) (stop : Draft Unit) (f : Core.Func)
      (added : List (String × Bool)),
      compileProgram (Host.run 2) "" "" [.assign {} "x" (.none {}) false, .importModule {} "m"] m =
        .ok chunk n ∧
      m.globals.size = 5 ∧ chunk.code.map (·.op) = #[.none, .setGlobal 5, .none, .ret] ∧
      n.globals.slot? "y" = some 5 ∧ n.globals.slot? "x" = some 6 ∧
      (start "" "" m).Later (Host.run 2) stop ∧ n = stop.commit ∧ f.chunk = chunk ∧
      Placed (Host.run 2) (start "" "" m) stop [.assign {} "x" (.none {}) false,
        .importModule {} "m"] f added := by
  let loader : Loader Unit := fun _ => .ask (.compile "y = none" "") fun _ => .finish .none
  let m : Machine Unit := (Machine.new {} ()).addLoader "m" loader
  obtain ⟨chunk, n, hcompile, hcode, hy, hx⟩ := Outcome.exists_of_value?
    (o := compileProgram (Host.run 2) "" "" [.assign {} "x" (.none {}) false,
      .importModule {} "m"] m)
    (fun c n => c.code.map (·.op) = #[.none, .setGlobal 5, .none, .ret] ∧
      n.globals.slot? "y" = some 5 ∧ n.globals.slot? "x" = some 6) (by decide +kernel)
  obtain ⟨stop, f, added, hplaced⟩ := placed_of_compileProgram hcompile
  exact ⟨m, n, chunk, stop, f, added, hcompile, by decide +kernel, hcode, hy, hx, hplaced⟩

end Draft

end ScriptMachine
