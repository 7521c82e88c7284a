import ScriptMachine.Proofs.Scanning
/-!
# Layout

Line ends and margins become tokens, and these stand in a text like brackets do: every block that is
opened is closed, and a block is opened and closed only where a line starts. The widths of the open
blocks grow from the outermost to the innermost.

* `Scan.Ordered`: **what holds of the open blocks at all times**, `Scan.Moment.ordered`;
* `tokenize_laidOut`: **layout tokens are well formed**.
-/

namespace ScriptMachine

/-! ## Tokens and what they leave open -/

/-- How many tokens are of a kind. -/
def occurrences (kind : TokenKind) (ts : List Token) : Nat := (ts.map Token.kind).count kind

@[simp] theorem occurrences_nil (kind : TokenKind) : occurrences kind [] = 0 := rfl

@[simp] theorem occurrences_cons (kind : TokenKind) (t : Token) (ts : List Token) :
    occurrences kind (t :: ts) = occurrences kind ts + if t.kind = kind then 1 else 0 := by
  simp [occurrences, List.count_cons]

@[simp] theorem occurrences_append (kind : TokenKind) (ts us : List Token) :
    occurrences kind (ts ++ us) = occurrences kind ts + occurrences kind us := by
  simp [occurrences]

@[simp] theorem occurrences_reverse (kind : TokenKind) (ts : List Token) :
    occurrences kind ts.reverse = occurrences kind ts := by
  simp [occurrences]

/-- How many brackets are open behind a token, if `n` are open before it. A closing bracket too many
is ignored. -/
def Token.brackets (n : Nat) (t : Token) : Nat :=
  if t.kind = .leftParen ∨ t.kind = .leftBracket then n + 1
  else if t.kind = .rightParen ∨ t.kind = .rightBracket then n - 1
  else n

/-- How many brackets tokens leave open. -/
def openBrackets (ts : List Token) : Nat := ts.foldl Token.brackets 0

@[simp] theorem openBrackets_concat (ts : List Token) (t : Token) :
    openBrackets (ts ++ [t]) = t.brackets (openBrackets ts) := by
  simp [openBrackets]

variable {t : Token}

theorem Token.brackets_of_not_lexical (h : t.kind.isLexical = false) (n : Nat) :
    t.brackets n = n := by
  obtain ⟨kind, pos⟩ := t
  cases kind <;> first | rfl | exact nomatch h

/-! ## Conditions on a token and those before it -/

/-- Every token stands in a relation to the tokens before it. -/
def Throughout (P : List Token → Token → Prop) (ts : List Token) : Prop :=
  ∀ before t, before ++ [t] <+: ts → P before t

section

variable {P : List Token → Token → Prop} {ts : List Token}

theorem throughout_nil : Throughout P [] := by
  intro before t h
  exact absurd (List.prefix_nil.1 h) (by simp)

theorem throughout_concat : Throughout P (ts ++ [t]) ↔ Throughout P ts ∧ P ts t := by
  constructor
  · intro h
    exact ⟨fun before u hu => h before u (hu.trans (List.prefix_append _ _)),
      h ts t (List.prefix_refl _)⟩
  · rintro ⟨hts, ht⟩ before u hu
    rcases List.prefix_concat_iff.1 hu with heq | hshort
    · obtain ⟨hbefore, hlast⟩ := List.append_inj' heq rfl
      obtain rfl := List.singleton_inj.1 hlast
      rw [hbefore]
      exact ht
    · exact hts before u hshort

/-- The same, with the newest token in front. -/
theorem throughout_reverse_cons :
    Throughout P (t :: ts).reverse ↔ Throughout P ts.reverse ∧ P ts.reverse t := by
  rw [List.reverse_cons, throughout_concat]

theorem Throughout.mono {us : List Token} (h : Throughout P us) (hts : ts <+: us) :
    Throughout P ts :=
  fun before t ht => h before t (ht.trans hts)

end

/-- A layout token fits what stands before it. A line end follows no other layout token, blocks are
opened and closed only behind one or at the very start, and only an open block is closed. -/
structure Follows (before : List Token) (t : Token) : Prop where
  newline (h : t.kind = .newline) : ∃ last, before.getLast? = some last ∧ last.kind.isLayout = false
  block (h : t.kind = .indent ∨ t.kind = .dedent) (last : Token)
    (hlast : before.getLast? = some last) : last.kind.isLayout = true
  closes (h : t.kind = .dedent) : occurrences .dedent before < occurrences .indent before

/-- No layout token between brackets. -/
def Calm (before : List Token) (t : Token) : Prop :=
  t.kind.isLayout = true → openBrackets before = 0

theorem follows_of_not_layout {before : List Token} (h : t.kind.isLayout = false) :
    Follows before t := by
  constructor
  · intro hkind
    rw [hkind] at h
    exact nomatch h
  · rintro (hkind | hkind) <;> rw [hkind] at h <;> exact nomatch h
  · intro hkind
    rw [hkind] at h
    exact nomatch h

variable {ts : List Token}

theorem Throughout.dedents_le (h : Throughout Follows ts) :
    occurrences .dedent ts ≤ occurrences .indent ts := by
  induction ts using List.reverseRecOn with
  | nil => exact Nat.le_refl _
  | append_singleton ts t ih =>
    obtain ⟨hts, ht⟩ := throughout_concat.1 h
    have hle := ih hts
    by_cases hkind : t.kind = .dedent
    · have hlt := ht.closes hkind
      simp [hkind]
      omega
    · simp [hkind]
      omega

/-- A line end behind a lexeme, with the newest token in front. -/
theorem follows_newline {ts more : List Token} {last : Token} {pos : Position}
    (h : Throughout Follows ts.reverse) (hlast : ts = last :: more)
    (hlexical : last.kind.isLayout = false) :
    Throughout Follows (⟨.newline, pos⟩ :: ts).reverse := by
  refine throughout_reverse_cons.2 ⟨h, fun _ => ⟨last, ?_, hlexical⟩, ?_,
    fun hkind => (nomatch hkind)⟩
  · rw [List.getLast?_reverse, hlast]
    rfl
  · rintro (hkind | hkind) <;> exact nomatch hkind

theorem occurrences_dedents (kind : TokenKind) (pos : Position) (levels : List Nat) :
    occurrences kind (dedents pos levels) = if kind = .dedent then levels.length else 0 := by
  have hkinds : (dedents pos levels).map Token.kind = List.replicate levels.length .dedent := by
    simp [dedents]
  rw [occurrences, hkinds, List.count_replicate]
  simp only [beq_iff_eq, @eq_comm _ TokenKind.dedent]

/-- Closing open blocks, with the newest token in front. -/
theorem follows_dedents {pos : Position} (h : Throughout Follows ts.reverse)
    (hlast : ∀ last ∈ ts.head?, last.kind.isLayout = true) {levels : List Nat}
    (hopen : occurrences .dedent ts + levels.length ≤ occurrences .indent ts) :
    Throughout Follows (dedents pos levels ++ ts).reverse := by
  induction levels with
  | nil => exact h
  | cons level levels ih =>
    rw [List.length_cons] at hopen
    have hcons : dedents pos (level :: levels) ++ ts =
      ⟨.dedent, pos⟩ :: (dedents pos levels ++ ts) := rfl
    rw [hcons, throughout_reverse_cons]
    refine ⟨ih (by omega), fun hkind => (nomatch hkind), ?_, fun _ => ?_⟩
    · rintro - last hmem
      rw [List.getLast?_reverse] at hmem
      cases levels with
      | nil => exact hlast last hmem
      | cons =>
        cases hmem
        rfl
    · simp only [occurrences_reverse, occurrences_append, occurrences_dedents]
      simp only [if_true, reduceCtorEq, if_false]
      omega

theorem calm_dedents (h : Throughout Calm ts.reverse) (hopen : openBrackets ts.reverse = 0)
    (pos : Position) (levels : List Nat) :
    Throughout Calm (dedents pos levels ++ ts).reverse ∧
    openBrackets (dedents pos levels ++ ts).reverse = 0 := by
  induction levels with
  | nil => exact ⟨h, hopen⟩
  | cons level levels ih =>
    have hcons : dedents pos (level :: levels) ++ ts =
      ⟨.dedent, pos⟩ :: (dedents pos levels ++ ts) := rfl
    rw [hcons, throughout_reverse_cons, List.reverse_cons, openBrackets_concat,
      Token.brackets_of_not_lexical rfl]
    exact ⟨⟨ih.1, fun _ => ih.2⟩, ih.2⟩

/-- Layout tokens behind lexemes, with the newest token in front. -/
theorem Throughout.append_layout {P : List Token → Token → Prop}
    (h : Throughout (fun before t => t.kind.isLexical = true → P before t) ts.reverse)
    (new : List Token) (hnew : ∀ t ∈ new, t.kind.isLexical = false) :
    Throughout (fun before t => t.kind.isLexical = true → P before t) (new ++ ts).reverse := by
  induction new with
  | nil => exact h
  | cons t new ih =>
    refine throughout_reverse_cons.2 ⟨ih fun u hu => hnew u (List.mem_cons_of_mem t hu),
      fun hlexical => ?_⟩
    exact nomatch hlexical.symm.trans (hnew t List.mem_cons_self)

/-! ## What every move keeps -/

/-- Widths rise from the outermost block to the innermost if each is larger than those outside of
it. -/
theorem rising_iff {levels : List Nat} :
    (0 :: levels.reverse).Pairwise (· < ·) ↔ levels.Pairwise (· > ·) ∧ ∀ level ∈ levels,
      0 < level := by
  rw [List.pairwise_cons, List.pairwise_reverse, and_comm]
  simp only [List.mem_reverse, gt_iff_lt]

namespace Scan

variable {s s' : Scan}

/-- The layout of what is read so far. -/
structure Ordered (s : Scan) : Prop where
  rising : (0 :: s.indents.reverse).Pairwise (· < ·)
  opened : occurrences .indent s.tokens = occurrences .dedent s.tokens + s.indents.length
  brackets : s.brackets = openBrackets s.tokens.reverse
  follows : Throughout Follows s.tokens.reverse
  calm : Throughout Calm s.tokens.reverse
  goesOn (t : Token) (h : t ∈ s.tokens) : t.kind ≠ .endOfInput
  between (h : s.lineStart = true) : s.brackets = 0
  laid (h : s.lineStart = true) (last : Token) (hlast : last ∈ s.tokens.head?) :
    last.kind.isLayout = true

theorem ordered_start (source : String) : (Scan.start source).Ordered where
  rising := List.pairwise_singleton _ _
  opened := rfl
  brackets := rfl
  follows := throughout_nil
  calm := throughout_nil
  goesOn := nofun
  between _ := rfl
  laid := nofun

namespace Ordered

variable (h : s.Ordered)

include h

theorem moveTo (c : Cursor) : { s with cursor := c }.Ordered :=
  ⟨h.rising, h.opened, h.brackets, h.follows, h.calm, h.goesOn, h.between, h.laid⟩

theorem push (inside : s.lineStart = false) {kind : TokenKind} (hkind : kind.isLexical = true)
    (c : Cursor) : (s.push kind c).Ordered := by
  have hlayout : kind.isLayout = false := by cases kind <;> first | rfl | exact nomatch hkind
  have hne (other : TokenKind) (hother : other.isLexical = false) : kind ≠ other := by
    rintro rfl
    exact absurd (hkind.symm.trans hother) (by decide)
  have hstays : (s.push kind c).lineStart = false := inside
  constructor
  · exact h.rising
  · show occurrences .indent (⟨kind, _⟩ :: s.tokens) = occurrences .dedent (⟨kind, _⟩ :: s.tokens) +
      s.indents.length
    simp only [occurrences_cons, if_neg (hne .indent rfl), if_neg (hne .dedent rfl)]
    exact h.opened
  · show _ = openBrackets (⟨kind, _⟩ :: s.tokens).reverse
    rw [List.reverse_cons, openBrackets_concat, ← h.brackets]
    cases kind <;> rfl
  · exact throughout_reverse_cons.2 ⟨h.follows, follows_of_not_layout hlayout⟩
  · exact throughout_reverse_cons.2 ⟨h.calm, fun hl => absurd (hl.symm.trans hlayout) (by decide)⟩
  · intro t ht
    rcases List.mem_cons.1 ht with rfl | ht
    · exact hne .endOfInput rfl
    · exact h.goesOn t ht
  · exact fun houtside => absurd (houtside.symm.trans hstays) (by decide)
  · exact fun houtside => absurd (houtside.symm.trans hstays) (by decide)

/-- A line end outside of brackets. -/
theorem newline (hbrackets : s.brackets = 0) {last : Token} {more : List Token}
    (hlast : s.tokens = last :: more) (hlexical : last.kind.isLayout = false) (lineStart : Bool)
    (pos : Position) : { s with lineStart, tokens := ⟨.newline, pos⟩ :: s.tokens }.Ordered where
  rising := h.rising
  opened := by simpa using h.opened
  brackets := by
    rw [List.reverse_cons, openBrackets_concat, Token.brackets_of_not_lexical rfl]
    exact h.brackets
  follows := follows_newline h.follows hlast hlexical
  calm := throughout_reverse_cons.2 ⟨h.calm, fun _ => h.brackets.symm.trans hbrackets⟩
  goesOn t ht := by
    rcases List.mem_cons.1 ht with rfl | ht
    · exact fun hkind => (nomatch hkind)
    · exact h.goesOn t ht
  between _ := hbrackets
  laid _ last hmem := by
    cases hmem
    rfl

theorem endLine (lineStart : Bool) : (s.endLine lineStart).Ordered := by
  rcases s.endLine_cases lineStart with ⟨-, heq⟩ | ⟨hbrackets, heq, hlast⟩ |
    ⟨hbrackets, heq, last, more, hlast, hlexical⟩
  · rw [heq]
    exact h.moveTo _
  · rw [heq]
    exact ⟨h.rising, h.opened, h.brackets, h.follows, h.calm, h.goesOn, fun _ => hbrackets,
      fun _ => hlast⟩
  · rw [heq]
    exact (h.newline hbrackets hlast hlexical lineStart _).moveTo _

/-- Where a line starts, blocks are opened and closed so that the innermost has the width of the
line. -/
theorem layout (outside : s.lineStart = true) {width : Nat} {c : Cursor}
    (hlaid : Scan.layout { s with cursor := c, lineStart := false } width = .ok s') :
    s'.Ordered ∧ s'.indents.headD 0 = width := by
  have hbrackets : openBrackets s.tokens.reverse = 0 := h.brackets.symm.trans (h.between outside)
  obtain ⟨hrising, hpos⟩ := rising_iff.1 h.rising
  rcases layout_cases hlaid with ⟨htop, rfl⟩ | ⟨closed, kept, hsplit, hclosed, htop, rfl⟩
  · refine ⟨⟨?_, ?_, ?_, ?_, ?_, ?_, nofun, nofun⟩, rfl⟩
    · refine rising_iff.2 ⟨List.pairwise_cons.2 ⟨fun level hlevel => ?_, hrising⟩,
        fun level hlevel => ?_⟩
      · -- The innermost block is the widest.
        change s.indents.headD 0 < width at htop
        cases hindents : s.indents with
        | nil =>
          rw [hindents] at hlevel
          exact nomatch hlevel
        | cons top more =>
          rw [hindents] at hlevel htop hrising
          rcases List.mem_cons.1 hlevel with rfl | hlevel
          · exact htop
          · exact Nat.lt_trans ((List.pairwise_cons.1 hrising).1 level hlevel) htop
      · rcases List.mem_cons.1 hlevel with rfl | hlevel
        · exact Nat.lt_of_le_of_lt (Nat.zero_le _) htop
        · exact hpos level hlevel
    · have hopened := h.opened
      simp
      omega
    · rw [List.reverse_cons, openBrackets_concat, Token.brackets_of_not_lexical rfl]
      exact h.brackets
    · refine throughout_reverse_cons.2 ⟨h.follows, fun hkind => (nomatch hkind),
        fun _ last hmem => ?_, fun hkind => (nomatch hkind)⟩
      rw [List.getLast?_reverse] at hmem
      exact h.laid outside last hmem
    · exact throughout_reverse_cons.2 ⟨h.calm, fun _ => hbrackets⟩
    · intro t ht
      rcases List.mem_cons.1 ht with rfl | ht
      · exact fun hkind => (nomatch hkind)
      · exact h.goesOn t ht
  · change s.indents = closed ++ kept at hsplit
    have hopened := h.opened
    rw [hsplit, List.length_append] at hopened
    have hdedents := calm_dedents h.calm hbrackets c.pos closed
    refine ⟨⟨?_, ?_, ?_, ?_, hdedents.1, ?_, nofun, nofun⟩, htop⟩
    · rw [hsplit] at hrising hpos
      exact rising_iff.2 ⟨(List.pairwise_append.1 hrising).2.1,
        fun level hlevel => hpos level (List.mem_append_right _ hlevel)⟩
    · show occurrences .indent (dedents c.pos closed ++ s.tokens) =
        occurrences .dedent (dedents c.pos closed ++ s.tokens) + kept.length
      simp only [occurrences_append, occurrences_dedents]
      simp only [if_true, reduceCtorEq, if_false]
      omega
    · exact (h.between outside).trans hdedents.2.symm
    · exact follows_dedents h.follows (h.laid outside) (by omega)
    · intro t ht
      rcases List.mem_append.1 ht with ht | ht
      · rw [eq_of_mem_dedents ht]
        exact fun hkind => (nomatch hkind)
      · exact h.goesOn t ht

end Ordered

variable {text : List Char}

theorem Move.ordered (h : s.Move text s') (hs : s.Ordered) : s'.Ordered := by
  cases h with
  | blanks | comment | ending => exact hs.moveTo _
  | newline => exact hs.endLine true
  | semicolon => exact hs.endLine false
  | lexeme inside lexes => exact hs.push inside lexes.lexeme.isLexical _
  | margin outside _ _ laid => exact (hs.layout outside laid).1

/-- A line starts in the first column, unless the text is at its end. -/
theorem Move.column {text : List Char} (h : s.Move text s') (outside : s'.lineStart = true) :
    s'.cursor.rest = [] ∨ s'.cursor.pos.column = 1 := by
  cases h with
  | blanks inside | comment inside | lexeme inside => exact nomatch outside.symm.trans inside
  | newline inside next =>
    right
    rw [(Move.newline inside next).reads.pos]
    rfl
  | semicolon inside =>
    have hstays : (s.endLine false).lineStart = false := by
      rcases s.endLine_cases false with ⟨-, h⟩ | ⟨-, h, -⟩ | ⟨-, h, -⟩ <;> rw [h]
      exact inside
    exact nomatch outside.symm.trans hstays
  | margin _ _ _ laid => exact nomatch outside.symm.trans (layout_keeps laid).2.1
  | ending _ _ read => exact .inl (read.ended rfl)

/-- Inside a line, no block is opened or closed. -/
theorem Move.indents_eq (h : s.Move text s') (inside : s.lineStart = false) :
    s'.indents = s.indents := by
  have hend (lineStart : Bool) : (s.endLine lineStart).indents = s.indents := by
    rcases s.endLine_cases lineStart with ⟨-, h⟩ | ⟨-, h, -⟩ | ⟨-, h, -⟩ <;> rw [h]
  cases h with
  | blanks | comment | lexeme | ending => rfl
  | newline => exact hend true
  | semicolon => exact hend false
  | margin outside => exact nomatch outside.symm.trans inside

/-! ## Moments -/

/-- The states of a scan, each with the margin of the line that is read: what stands in that line
before the first lexeme. A line goes on while brackets are open, and a semicolon does not end it. -/
inductive Moment (source : String) : (margin : List Char) → Scan → Prop
  | start : Moment source [] (Scan.start source)
  | opened {margin text : List Char} {s s' : Scan} (before : Moment source margin s)
    (outside : s.lineStart = true) (indent : s.lineIndent = .ok (true, s'))
    (reads : source.toList = text ++ s'.cursor.rest) :
    Moment source (lastLine text) s'
  | ended {margin : List Char} {s s' : Scan} (before : Moment source margin s)
    (outside : s.lineStart = true) (indent : s.lineIndent = .ok (false, s')) :
    Moment source margin s'
  | step {margin : List Char} {s s' : Scan} {b : Bool} (before : Moment source margin s)
    (inside : s.lineStart = false) (next : s.step = .ok (b, s')) : Moment source margin s'

namespace Moment

variable {source : String} {margin : List Char}

variable (h : Moment source margin s)

include h

theorem moves : ∃ text, (Scan.start source).Moves text s := by
  induction h with
  | start => exact ⟨[], .refl _⟩
  | opened _ outside indent _ ih | ended _ outside indent ih =>
    obtain ⟨text, hmoves⟩ := ih
    obtain ⟨⟨text', hmove⟩, -⟩ := move_lineIndent outside indent
    exact ⟨_, hmoves.trans hmove.moves⟩
  | step _ _ next ih =>
    obtain ⟨text, hmoves⟩ := ih
    obtain ⟨text', hmoves', -⟩ := moves_step next
    exact ⟨_, hmoves.trans hmoves'⟩

theorem ordered : s.Ordered := by
  obtain ⟨text, hmoves⟩ := h.moves
  exact hmoves.keeps (fun _ _ _ hs hmove => hmove.ordered hs) (ordered_start source)

/-- A moment between two lines is right behind a line end. -/
theorem lastLine_eq (outside : s.lineStart = true)
    (hreads : (Scan.start source).cursor.Reads text s.cursor) :
    s.cursor.rest = [] ∨ lastLine text = [] := by
  obtain ⟨_, hmoves⟩ := h.moves
  have hcolumn : s.lineStart = true → s.cursor.rest = [] ∨ s.cursor.pos.column = 1 :=
    hmoves.keeps (P := fun s => s.lineStart = true → s.cursor.rest = [] ∨ s.cursor.pos.column = 1)
      (fun _ _ _ _ hmove => hmove.column) fun _ => .inr rfl
  refine (hcolumn outside).imp_right fun hone => ?_
  have hpos : s.cursor.pos = Position.start.afterAll text := hreads.pos
  rw [hpos, Position.afterAll_start] at hone
  exact List.length_eq_zero_iff.1 (by simpa using hone)

/-- The innermost block has the width of the line that is read. -/
theorem width : s.indents.headD 0 = margin.count ' ' ∧ ∀ c ∈ margin, c = ' ' ∨ c = '\r' := by
  induction h with
  | start => exact ⟨rfl, by simp⟩
  | @opened _ text s s' before outside indent reads =>
    rcases lineIndent_cases indent with ⟨inside, -⟩ | ⟨-, -, width, text', c, hreads, hmargin,
      hlaid⟩ | ⟨-, hb, -⟩
    · exact nomatch outside.symm.trans inside
    · obtain ⟨text₀, hmoves⟩ := before.moves
      have htext : text = text₀ ++ text' := by
        have hwhole := (hmoves.reads.trans hreads).rest
        rw [(layout_keeps hlaid).1] at reads
        exact List.append_cancel_right (reads.symm.trans hwhole)
      have hline : lastLine text = lastLine text' := by
        rw [htext, lastLine_append]
        split
        case isTrue => rfl
        case isFalse hmem =>
          rcases before.lastLine_eq outside hmoves.reads with hnone | hnil
          · -- The line that was found is a part of what was left.
            exact absurd (List.append_eq_nil_iff.1 (hreads.rest.symm.trans hnone)).2
              (hmargin.goes _ rfl)
          · rw [hnil, lastLine_of_notMem hmem, List.nil_append]
      have hwidth := hmargin.margin _ rfl
      rw [ite_self, Nat.zero_add] at hwidth
      rw [hline, (before.ordered.layout outside hlaid).2]
      exact ⟨hwidth, hmargin.blank _ rfl⟩
    · exact nomatch hb
  | ended _ outside indent ih =>
    rcases lineIndent_cases indent with ⟨-, hb, -⟩ | ⟨-, hb, -⟩ | ⟨-, -, _, _, -, -, rfl⟩
    · exact nomatch hb
    · exact nomatch hb
    · exact ih
  | step before inside next ih =>
    obtain ⟨-, ⟨-, rfl, -⟩ | ⟨-, text, hmove, -⟩⟩ := moves_inside inside next
    · exact ih
    · rw [hmove.indents_eq inside]
      exact ih

theorem next {b : Bool} (hstep : s.step = .ok (b, s')) : ∃ margin', Moment source margin' s' := by
  cases hstart : s.lineStart with
  | false => exact ⟨margin, h.step hstart hstep⟩
  | true =>
    cases hindent : s.lineIndent with
    | error e =>
      simp only [Scan.step, hindent] at hstep
      contradiction
    | ok result =>
      obtain ⟨goes, t⟩ := result
      obtain ⟨⟨text', hmove⟩, inside, -⟩ := move_lineIndent hstart hindent
      cases goes with
      | false =>
        rw [step_of_ended hindent] at hstep
        cases hstep
        exact ⟨margin, h.ended hstart hindent⟩
      | true =>
        obtain ⟨text, hmoves⟩ := h.moves
        rw [step_of_lineIndent hstart hindent] at hstep
        exact ⟨_, (h.opened hstart hindent (hmoves.trans hmove.moves).reads.rest).step
          (inside rfl) hstep⟩

end Moment

/-- The moment in which a token is read, with the tokens before it. -/
def Sees (source : String) (before : List Token) (t : Token) : Prop :=
  ∃ margin s s', Moment source margin s ∧ s.lineStart = false ∧ s.tokens.reverse = before ∧
    s.step = .ok (true, s') ∧ s'.tokens = t :: s.tokens

/-- Every lexeme is read in some moment. -/
theorem Moment.sees {source : String} {margin : List Char} (h : Moment source margin s) :
    Throughout (fun before t => t.kind.isLexical = true →
      Sees source before t) s.tokens.reverse := by
  induction h with
  | start => exact throughout_nil
  | opened _ outside indent _ ih | ended _ outside indent ih =>
    obtain ⟨⟨text, hmove⟩, -⟩ := move_lineIndent outside indent
    rcases hmove.adds with ⟨⟨new, hnew, hlayout⟩, -⟩ | ⟨inside, -⟩
    · rw [hnew]
      exact ih.append_layout new hlayout
    · exact nomatch outside.symm.trans inside
  | @step margin s s' _ before inside next ih =>
    obtain ⟨-, ⟨-, rfl, -⟩ | ⟨rfl, text, hmove, -⟩⟩ := moves_inside inside next
    · exact ih
    · rcases hmove.adds with ⟨⟨new, hnew, hlayout⟩, -⟩ | ⟨-, kind, hnew, hlexes⟩
      · rw [hnew]
        exact ih.append_layout new hlayout
      · rw [hnew]
        exact throughout_reverse_cons.2 ⟨ih,
          fun _ => ⟨margin, s, s', before, inside, rfl, next, hnew⟩⟩

end Scan

/-! ## Whole texts -/

/-- The layout of all tokens of a text. -/
structure LaidOut (source : String) (tokens : List Token) : Prop where
  /-- The input ends once, behind all other tokens. -/
  ended : ∃ body, tokens = body ++ [⟨.endOfInput, Position.start.afterAll source.toList⟩] ∧
    ∀ t ∈ body, t.kind ≠ .endOfInput
  /-- No block is closed before it is opened. -/
  opened (before : List Token) (h : before <+: tokens) :
    occurrences .dedent before ≤ occurrences .indent before
  /-- Every block is closed. -/
  closed : occurrences .dedent tokens = occurrences .indent tokens
  /-- A line end stands behind a lexeme. -/
  newline (before : List Token) (t : Token) (h : before ++ [t] <+: tokens)
    (hkind : t.kind = .newline) : ∃ last, before.getLast? = some last ∧ last.kind.isLayout = false
  /-- Blocks are opened and closed where a line starts. -/
  block (before : List Token) (t : Token) (h : before ++ [t] <+: tokens) (hkind : t.kind = .indent ∨
    t.kind = .dedent) (last : Token) (hlast : before.getLast? = some last) :
      last.kind.isLayout = true
  /-- Between brackets there is no layout, except for what closes the input. -/
  brackets : ∃ body closing, tokens = body ++ closing ∧
    (∀ t ∈ closing, t.kind ∈ [.newline, .dedent, .endOfInput] ∧
      t.pos = Position.start.afterAll source.toList) ∧
    ∀ before t, before ++ [t] <+: body → t.kind.isLayout = true → openBrackets before = 0

/-- The open blocks in a moment of a scan. -/
structure Scan.Levels (margin : List Char) (s : Scan) : Prop where
  /-- The widths of the open blocks rise from zero. -/
  rising : (0 :: s.indents.reverse).Pairwise (· < ·)
  /-- There is one for every block that the tokens have opened and not closed. -/
  opened : occurrences .indent s.tokens = occurrences .dedent s.tokens + s.indents.length
  /-- The innermost has the width of the line. -/
  width : s.indents.headD 0 = margin.count ' '
  /-- Carriage returns do not count. -/
  blank (c : Char) (h : c ∈ margin) : c = ' ' ∨ c = '\r'

/-- What closes the input fits what stands before it, and closes every block. -/
theorem Scan.Ordered.finish {s : Scan} (h : s.Ordered) :
    Throughout Follows s.finish ∧ occurrences .dedent s.finish = occurrences .indent s.finish := by
  obtain ⟨line, hline, hfinish⟩ := s.finish_cases
  obtain ⟨hfollows, hlast, hindents, hdedents⟩ : Throughout Follows (line ++ s.tokens).reverse ∧
      (∀ last ∈ (line ++ s.tokens).head?, last.kind.isLayout = true) ∧
        occurrences .indent line = 0 ∧
      occurrences .dedent line = 0 := by
    rcases hline with ⟨rfl, hlast⟩ | ⟨rfl, last, more, hlast, hlexical⟩
    · exact ⟨h.follows, hlast, rfl, rfl⟩
    · refine ⟨follows_newline h.follows hlast hlexical, fun last hmem => ?_, rfl, rfl⟩
      cases hmem
      rfl
  have hopened := h.opened
  have hopen : occurrences .dedent (line ++ s.tokens) + s.indents.length =
      occurrences .indent (line ++ s.tokens) := by
    rw [occurrences_append, occurrences_append, hindents, hdedents]
    omega
  constructor
  · rw [hfinish, throughout_reverse_cons]
    exact ⟨follows_dedents hfollows hlast (Nat.le_of_eq hopen), follows_of_not_layout rfl⟩
  · simp only [hfinish, occurrences_reverse, occurrences_cons, occurrences_append _ (dedents _ _),
      occurrences_dedents]
    simp only [reduceCtorEq, if_true, if_false]
    omega

theorem Scan.Moment.levels {source : String} {margin : List Char} {s : Scan}
    (h : Scan.Moment source margin s) : s.Levels margin :=
  ⟨h.ordered.rising, h.ordered.opened, h.width.1, h.width.2⟩

/-- **Layout tokens are well formed.** The tokens of a text are laid out, and at all times of its
scan the widths of the open blocks rise from zero, so that each lexeme is read with one open block
for each of them, the innermost of the width of its line. -/
theorem tokenize_laidOut {source : String} {tokens : List Token}
    (h : tokenize source = .ok tokens) : LaidOut source tokens ∧
      (∀ before t, before ++ [t] <+: tokens → t.kind.isLexical = true → Scan.Sees source before t) ∧
      ∀ margin s, Scan.Moment source margin s → s.Levels margin := by
  obtain ⟨f, hcomplete, rfl⟩ := Scan.exists_complete h
  obtain ⟨⟨margin, hmoment⟩, -⟩ :=
    Scan.complete_keeps (P := fun s => ∃ margin, Scan.Moment source margin s)
        (fun s b s' hs hstep => by
      obtain ⟨margin, hs⟩ := hs
      exact hs.next hstep) hcomplete ⟨[], .start⟩
  have hordered := hmoment.ordered
  obtain ⟨hmoves, hend⟩ := Scan.moves_complete hcomplete
  have hpos : f.cursor.pos = Position.start.afterAll source.toList := hmoves.reads.pos
  obtain ⟨hfollows, hclosed⟩ := hordered.finish
  obtain ⟨closing, hfinish, ⟨before, hclosing, hbefore⟩, hlayout⟩ := f.exists_closing
  have hkinds : ∀ t ∈ before, t.kind ∈ [.newline, .dedent, .endOfInput] ∧ t.kind ≠ .endOfInput := by
    intro t ht
    rcases hbefore t ht with hkind | hkind <;> rw [hkind] <;> decide
  rw [hpos] at hclosing hlayout
  refine ⟨⟨?_, ?_, hclosed, ?_, ?_, ?_⟩, ?_, fun _ _ hmoment => hmoment.levels⟩
  · refine ⟨f.tokens.reverse ++ before, by rw [hfinish, hclosing, List.append_assoc],
      fun t ht => ?_⟩
    rcases List.mem_append.1 ht with ht | ht
    · exact hordered.goesOn t (List.mem_reverse.1 ht)
    · exact (hkinds t ht).2
  · exact fun before hshort => (hfollows.mono hshort).dedents_le
  · exact fun before t ht => (hfollows before t ht).newline
  · exact fun before t ht => (hfollows before t ht).block
  · refine ⟨f.tokens.reverse, closing, hfinish, fun t ht => ⟨?_, (hlayout t ht).2⟩, hordered.calm⟩
    rw [hclosing] at ht
    rcases List.mem_append.1 ht with ht | ht
    · exact (hkinds t ht).1
    · rw [List.mem_singleton.1 ht]
      simp
  · have hsees := hmoment.sees.append_layout closing.reverse fun t ht =>
      (hlayout t (List.mem_reverse.1 ht)).1
    rw [List.reverse_append, List.reverse_reverse, ← hfinish] at hsees
    exact hsees

/-- A block of two statements in one line, of which the second is cut off inside of a bracket. -/
theorem tokenize_laidOut_bracket :
    ∃ tokens, tokenize "if a:\n  b; (\n c" = .ok tokens ∧
      tokens.map Token.kind = [.ifKw, .name "a", .colon, .newline, .indent, .name "b", .newline,
        .leftParen, .name "c", .newline, .dedent, .endOfInput] ∧
      LaidOut "if a:\n  b; (\n c" tokens ∧
      (∀ before t, before ++ [t] <+: tokens → t.kind.isLexical = true →
        Scan.Sees "if a:\n  b; (\n c" before t) ∧
      ∀ margin s, Scan.Moment "if a:\n  b; (\n c" margin s → s.Levels margin := by
  have h : tokenize "if a:\n  b; (\n c" = Except.ok
      [⟨.ifKw, ⟨1, 1, 0⟩⟩, ⟨.name "a", ⟨1, 4, 3⟩⟩, ⟨.colon, ⟨1, 5, 4⟩⟩, ⟨.newline, ⟨1, 6, 5⟩⟩,
        ⟨.indent, ⟨2, 3, 8⟩⟩,
        ⟨.name "b", ⟨2, 3, 8⟩⟩, ⟨.newline, ⟨2, 4, 9⟩⟩, ⟨.leftParen, ⟨2, 6, 11⟩⟩,
          ⟨.name "c", ⟨3, 2, 14⟩⟩,
        ⟨.newline, ⟨3, 3, 15⟩⟩, ⟨.dedent, ⟨3, 3, 15⟩⟩, ⟨.endOfInput, ⟨3, 3, 15⟩⟩] := by
    decide +kernel
  exact ⟨_, h, rfl, tokenize_laidOut h⟩

end ScriptMachine
