import Mathlib.Data.List.DropRight
import ScriptMachine.Proofs.Lexemes
/-!
# The moves of the scanner

The scanner goes through a text in moves of a few kinds: over blanks, over a comment, over the end
of a line or a semicolon, over a lexeme, and over the margin where a line starts. Each move takes
its text off the front of what is left, and what holds at all times of a scan is a matter of what
the moves keep.

* `Scan.Move`, `Scan.Moves`: one move, and several, with the text that they go over;
* `Scan.moves_step`: a step consists of moves;
* `Scan.complete`: the scan to the end of the text, `Scan.moves_complete`.
-/

namespace ScriptMachine

/-! ## Lines and spaces -/

/-- What stands behind the last line end. -/
def lastLine (cs : List Char) : List Char := cs.rtakeWhile (· != '\n')

variable {c : Char}

/-- A run of characters ends before one that does not belong to it, whatever follows. -/
theorem takeWhile_append_of_mem {p : Char → Bool} {cs ds : List Char} (hmem : c ∈ cs)
    (hc : p c = false) : (cs ++ ds).takeWhile p = cs.takeWhile p := by
  rw [List.takeWhile_append, if_neg]
  intro hlength
  have hall := List.takeWhile_eq_self_iff.1 (( List.takeWhile_prefix p).eq_of_length hlength)
  exact absurd ((hall c hmem).symm.trans hc) (by decide)

theorem lastLine_append (cs ds : List Char) :
    lastLine (cs ++ ds) = if '\n' ∈ ds then lastLine ds else lastLine cs ++ ds := by
  unfold lastLine List.rtakeWhile
  rw [List.reverse_append]
  split
  case isTrue hmem => rw [takeWhile_append_of_mem (List.mem_reverse.2 hmem) (by decide)]
  case isFalse hmem =>
    rw [List.takeWhile_append_of_pos]
    · simp
    · intro c hc
      rw [List.mem_reverse] at hc
      simp only [bne_iff_ne]
      rintro rfl
      exact hmem hc

variable {cs : List Char}

theorem lastLine_of_notMem (h : '\n' ∉ cs) : lastLine cs = cs := by
  have := lastLine_append [] cs
  rw [if_neg h] at this
  exact this

theorem lastLine_cons (c : Char) (cs : List Char) :
    lastLine (c :: cs) = if '\n' ∈ cs then lastLine cs else if c = '\n' then cs else c :: cs := by
  rw [← List.singleton_append, lastLine_append]
  split
  · rfl
  · split
    case isTrue hc =>
      subst hc
      rfl
    case isFalse hc =>
      rw [lastLine_of_notMem (by simpa using Ne.symm hc), List.singleton_append]

/-- Where the text that follows another one stands. -/
theorem Position.afterAll_start (cs : List Char) :
    Position.start.afterAll cs =
      ⟨1 + cs.count '\n', 1 + (lastLine cs).length, (String.ofList cs).utf8ByteSize⟩ := by
  induction cs using List.reverseRecOn with
  | nil => rfl
  | append_singleton cs c ih =>
    have hoffset := Position.offset_afterAll .start (cs ++ [c])
    rw [Position.afterAll_append, ih] at hoffset ⊢
    rw [Position.afterAll_cons, Position.afterAll_nil, Position.after] at hoffset ⊢
    rw [lastLine_append, List.count_append]
    by_cases hc : c = '\n'
    · subst hc
      rw [if_pos rfl] at hoffset ⊢
      rw [Position.mk.injEq]
      exact ⟨rfl, rfl, hoffset.trans (Nat.zero_add _)⟩
    · rw [if_neg hc] at hoffset ⊢
      rw [if_neg (by simpa using Ne.symm hc), List.length_append, Position.mk.injEq]
      refine ⟨?_, rfl, hoffset.trans (Nat.zero_add _)⟩
      rw [List.count_singleton, if_neg (by simpa using hc)]
      rfl

/-- The characters that may stand between lexemes. -/
def separators : List Char := [' ', '\t', '\r', '\n', ';']

/-- Text without a lexeme, if another text follows: separators, and comments to the end of their
line. -/
inductive Spaced : List Char → List Char → Prop
  | nil {rest : List Char} : Spaced [] rest
  | separator {c : Char} {gap rest : List Char} (known : c ∈ separators) (more : Spaced gap rest) :
    Spaced (c :: gap) rest
  | comment {text gap rest : List Char} (oneLine : '\n' ∉ text)
    (ends : (gap ++ rest).head?.all (· = '\n') = true) (more : Spaced gap rest) :
    Spaced ('-' :: '-' :: (text ++ gap)) rest

namespace Spaced

theorem append {gap gap' rest : List Char} (h : Spaced gap (gap' ++ rest)) (h' : Spaced gap' rest) :
    Spaced (gap ++ gap') rest := by
  generalize hrest : gap' ++ rest = rest' at h
  induction h with
  | nil => exact h'
  | separator known more ih => exact .separator known (ih hrest)
  | comment oneLine ends more ih =>
    subst hrest
    rw [List.cons_append, List.cons_append, List.append_assoc]
    exact .comment oneLine (by rwa [List.append_assoc]) (ih rfl)

variable {text rest : List Char}

/-- A comment goes up to the end of its line. -/
theorem exists_comment (h : Spaced ('-' :: '-' :: text) rest) : ∃ body gap, text = body ++ gap ∧
    '\n' ∉ body ∧ (gap ++ rest).head?.all (· = '\n') = true ∧ Spaced gap rest := by
  generalize hgap : '-' :: '-' :: text = gap at h
  cases h with
  | nil => exact nomatch hgap
  | separator known _ =>
    obtain ⟨rfl, -⟩ := List.cons.inj hgap
    exact absurd known (by decide)
  | @comment body gap _ oneLine ends more =>
    simp only [List.cons.injEq, true_and] at hgap
    exact ⟨body, gap, hgap, oneLine, ends, more⟩

/-- A comment that is one character longer. -/
theorem comment_cons (hc : c ≠ '\n') :
    Spaced ('-' :: '-' :: c :: text) rest ↔ Spaced ('-' :: '-' :: text) rest := by
  constructor
  · intro h
    obtain ⟨body, gap, hgap, oneLine, ends, more⟩ := h.exists_comment
    cases body with
    | nil =>
      -- A comment ends before a line end only, so it does not end here.
      rw [List.nil_append] at hgap
      subst hgap
      exact absurd ends (by simpa using hc)
    | cons d body =>
      obtain ⟨rfl, rfl⟩ := List.cons.inj hgap
      exact .comment (fun hmem => oneLine (List.mem_cons_of_mem _ hmem)) ends more
  · intro h
    obtain ⟨body, gap, rfl, oneLine, ends, more⟩ := h.exists_comment
    rw [← List.cons_append]
    exact .comment (by simp [oneLine, Ne.symm hc]) ends more

/-- A line end behind a comment. -/
theorem comment_newline (h : Spaced text rest) : Spaced ('-' :: '-' :: '\n' :: text) rest :=
  @Spaced.comment [] ('\n' :: text) rest (by simp) (by simp) (.separator (by decide) h)

theorem of_blanks (h : ∀ c ∈ text, isBlank c = true) : Spaced text rest := by
  induction text with
  | nil => exact .nil
  | cons c text ih =>
    refine .separator ?_ (ih fun d hd => h d (List.mem_cons_of_mem c hd))
    have hc := h c List.mem_cons_self
    simp only [isBlank, Bool.or_eq_true, decide_eq_true_eq] at hc
    rcases hc with (rfl | rfl) | rfl <;> decide

end Spaced

/-! ## Margins -/

/-- What stands before a line that holds anything, from the start of a line, from `width` blanks
into one, or from inside a comment: blank lines, and the blanks that make up the margin. -/
structure Margin (comment : Bool) (width : Nat) (text : List Char) (o : Option Nat)
    (rest : List Char) : Prop where
  spaced : Spaced ((if comment then ['-', '-'] else []) ++ text) rest
  ended (h : o = none) : rest = []
  goes (w : Nat) (h : o = some w) : rest ≠ []
  ends (w : Nat) (h : o = some w) (hcomment : comment = true) : '\n' ∈ text
  margin (w : Nat) (h : o = some w) :
    w = (if '\n' ∈ text then 0 else width) + (lastLine text).count ' '
  blank (w : Nat) (h : o = some w) (d : Char) (hd : d ∈ lastLine text) : d = ' ' ∨ d = '\r'

variable {text : List Char} {width : Nat}

section

variable {o : Option Nat} {rest : List Char}

theorem Margin.cons_newline {comment : Bool}
    (h : Margin false 0 text o rest) : Margin comment width ('\n' :: text) o rest where
  spaced := by
    cases comment with
    | false => exact .separator (by decide) h.spaced
    | true => exact h.spaced.comment_newline
  ended := h.ended
  goes := h.goes
  ends _ _ _ := List.mem_cons_self
  margin w ho := by
    rw [h.margin w ho, if_pos List.mem_cons_self, lastLine_cons, if_pos rfl]
    split
    · rfl
    · rw [lastLine_of_notMem ‹_›]
  blank w ho d hd := by
    refine h.blank w ho d ?_
    rw [lastLine_cons, if_pos rfl] at hd
    split at hd
    · exact hd
    · rwa [lastLine_of_notMem ‹_›]

/-- A character of a comment. -/
theorem Margin.cons_comment {width width' : Nat}
    (h : Margin true width text o rest) (hc : c ≠ '\n') :
    Margin true width' (c :: text) o rest where
  spaced := (Spaced.comment_cons hc).2 h.spaced
  ended := h.ended
  goes := h.goes
  ends w ho _ := List.mem_cons_of_mem _ (h.ends w ho rfl)
  margin w ho := by
    have hmem := h.ends w ho rfl
    rw [h.margin w ho, if_pos hmem, if_pos (List.mem_cons_of_mem _ hmem), lastLine_cons,
      if_pos hmem]
  blank w ho d hd := by
    rw [lastLine_cons, if_pos (h.ends w ho rfl)] at hd
    exact h.blank w ho d hd

/-- A comment is read at least to its end. -/
theorem Margin.exists_cons {cs text : List Char}
    (h : Margin true width text o rest) (hcs : c :: cs = text ++ rest) :
    ∃ text', text = c :: text' := by
  cases text with
  | cons d text =>
    obtain ⟨rfl, -⟩ := List.cons.inj hcs
    exact ⟨text, rfl⟩
  | nil =>
    cases o with
    | none => exact nomatch hcs.trans (h.ended rfl)
    | some w => exact absurd (h.ends w rfl rfl) (by simp)

/-- The second dash was read as the first character of a comment. -/
theorem Margin.cons_dash {width width' : Nat} (h : Margin true width ('-' :: text) o rest) :
    Margin false width' ('-' :: '-' :: text) o rest :=
  have hlong : Margin true width' ('-' :: '-' :: text) o rest := h.cons_comment (by decide)
  { hlong with
    spaced := (Spaced.comment_cons (by decide)).1 h.spaced
    ends := nofun }

/-- A blank of the margin. -/
theorem Margin.cons_blank
    (hc : c = ' ' ∨ c = '\r') (h : Margin false (width + [c].count ' ') text o rest) :
    Margin false width (c :: text) o rest where
  spaced := .separator (by rcases hc with rfl | rfl <;> decide) h.spaced
  ended := h.ended
  goes := h.goes
  ends _ _ hcomment := nomatch hcomment
  margin w ho := by
    have hline : c ≠ '\n' := by rcases hc with rfl | rfl <;> decide
    rw [h.margin w ho, lastLine_cons]
    by_cases hmem : '\n' ∈ text
    · simp [hmem]
    · rw [if_neg hmem, if_neg hmem, if_neg hline, lastLine_of_notMem hmem,
        if_neg (by simp [hmem, Ne.symm hline]),
        ← List.singleton_append (l := text), List.count_append]
      omega
  blank w ho d hd := by
    have hline : c ≠ '\n' := by rcases hc with rfl | rfl <;> decide
    rw [lastLine_cons, if_neg hline] at hd
    split at hd
    case isTrue => exact h.blank w ho d hd
    case isFalse hmem =>
      rcases List.mem_cons.1 hd with rfl | hd
      · exact hc
      · exact h.blank w ho d (by rwa [lastLine_of_notMem hmem])

end

theorem indentation_eq_ok {comment : Bool} {pos : Position} {o : Option Nat}
    {c' : Cursor} (h : indentation comment width pos cs = .ok (o, c')) :
    ∃ text, Cursor.Reads ⟨cs, pos⟩ text c' ∧ Margin comment width text o c'.rest := by
  -- One step of the loop reads one character; what is read later is a margin of the same or of
  -- another kind.
  have step {comment' : Bool} {width' : Nat} {c : Char} {pos : Position} {cs : List Char}
      (ih : ∃ text, Cursor.Reads ⟨cs, pos.after c⟩ text c' ∧ Margin comment' width' text o c'.rest)
      {comment : Bool} {width : Nat} (hm : ∀ text, Margin comment' width' text o c'.rest →
        Margin comment width (c :: text) o c'.rest) :
      ∃ text, Cursor.Reads ⟨c :: cs, pos⟩ text c' ∧ Margin comment width text o c'.rest := by
    obtain ⟨text, hreads, hmargin⟩ := ih
    exact ⟨c :: text, ⟨congrArg (c :: ·) hreads.rest, hreads.pos⟩, hm text hmargin⟩
  fun_induction indentation comment width pos cs with
  | case1 comment width pos =>
    cases h
    refine ⟨[], ⟨rfl, rfl⟩, ?_, fun _ => rfl, nofun, nofun, nofun, nofun⟩
    cases comment with
    | false => exact .nil
    | true => exact @Spaced.comment [] [] [] (by simp) rfl .nil
  | case2 comment width pos cs ih => exact step (ih h) fun _ hm => hm.cons_newline
  | case3 width pos c cs hc ih => exact step (ih h) fun _ hm => hm.cons_comment hc
  | case4 comment width pos cs hcomment _ ih =>
    cases comment with
    | true => exact absurd rfl hcomment
    | false => exact step (ih h) fun _ hm => .cons_blank (.inl rfl) hm
  | case5 comment width pos cs hcomment _ _ ih =>
    cases comment with
    | true => exact absurd rfl hcomment
    | false => exact step (ih h) fun _ hm => .cons_blank (.inr rfl) hm
  | case6 => exact nomatch h
  | case7 comment width pos c cs _ hcomment _ _ _ hopens ih =>
    cases comment with
    | true => exact absurd rfl hcomment
    | false =>
      -- The second dash is read as the first character of the comment.
      unfold opensComment at hopens
      split at hopens
      case h_2 => exact nomatch hopens
      case h_1 r heq =>
        obtain ⟨rfl, rfl⟩ := List.cons.inj heq
        obtain ⟨text, hreads, hmargin⟩ := ih h
        obtain ⟨text, rfl⟩ := hmargin.exists_cons hreads.rest
        exact ⟨'-' :: '-' :: text, ⟨congrArg ('-' :: ·) hreads.rest, hreads.pos⟩, hmargin.cons_dash⟩
  | case8 comment width pos c cs hline hcomment hblank hreturn _ hopens =>
    cases comment with
    | true => exact absurd rfl hcomment
    | false =>
      cases h
      refine ⟨[], ⟨rfl, rfl⟩, .nil, nofun, fun _ _ => by simp, nofun, ?_, ?_⟩
      · intro w hw
        cases hw
        simp [lastLine]
      · intro w hw d hd
        simp [lastLine] at hd

/-! ## Moves -/

/-- Tokens that close blocks, one for each level. -/
def dedents (pos : Position) (levels : List Nat) : List Token := levels.map fun _ => ⟨.dedent, pos⟩

theorem eq_of_mem_dedents {pos : Position} {levels : List Nat} {t : Token}
    (h : t ∈ dedents pos levels) : t = ⟨.dedent, pos⟩ := by
  obtain ⟨_, -, rfl⟩ := List.mem_map.1 h
  rfl

namespace Scan

variable {s s' : Scan}

/-- What becomes of the open blocks where a line starts: a block is opened, or some of them are
closed, the innermost first. -/
theorem layout_cases (h : s.layout width = .ok s') :
    (s.indents.headD 0 < width ∧
      s' = { s with
        indents := width :: s.indents, tokens := ⟨.indent, s.cursor.pos⟩ :: s.tokens }) ∨
    ∃ closed kept, s.indents = closed ++ kept ∧ (∀ level ∈ closed, width < level) ∧
      kept.headD 0 = width ∧
      s' = { s with indents := kept, tokens := dedents s.cursor.pos closed ++ s.tokens } := by
  unfold layout at h
  dsimp only at h
  split at h
  case isTrue htop =>
    cases h
    exact .inl ⟨htop, rfl⟩
  case isFalse =>
    split at h
    case isFalse => exact nomatch h
    case isTrue hkept =>
      cases h
      refine .inr ⟨_, _, ?_, fun level hlevel => by simpa using List.mem_takeWhile_imp hlevel,
        hkept, rfl⟩
      have hsplit :=
        List.takeWhile_append_dropWhile (p := fun level => decide (width < level)) (l := s.indents)
      generalize s.indents.takeWhile (fun level => decide (width < level)) = closed at hsplit
      rw [← hsplit, List.drop_left]

/-- One move of a scan, with the text that it goes over. -/
inductive Move (s : Scan) : List Char → Scan → Prop
  | blanks {text : List Char} {c : Cursor} (inside : s.lineStart = false)
    (reads : s.cursor.Reads text c) (all : ∀ d ∈ text, isBlank d = true) :
    Move s text { s with cursor := c }
  | comment {text : List Char} {c : Cursor} (inside : s.lineStart = false)
    (reads : s.cursor.Reads ('-' :: '-' :: text) c) (oneLine : '\n' ∉ text)
    (ends : c.rest.head?.all (· = '\n') = true) : Move s ('-' :: '-' :: text) { s with cursor := c }
  | newline {cs : List Char} (inside : s.lineStart = false) (next : s.cursor.rest = '\n' :: cs) :
    Move s ['\n'] (s.endLine true)
  | semicolon {cs : List Char} (inside : s.lineStart = false) (next : s.cursor.rest = ';' :: cs) :
    Move s [';'] (s.endLine false)
  | lexeme {kind : TokenKind} {text : List Char} {c : Cursor} (inside : s.lineStart = false)
    (lexes : s.cursor.Lexes kind text c) : Move s text (s.push kind c)
  /-- Where a line starts, blank lines are skipped, and the margin of the next line tells the open
  blocks. -/
  | margin {width : Nat} {text : List Char} {c : Cursor} {s' : Scan} (outside : s.lineStart = true)
    (reads : s.cursor.Reads text c) (read : Margin false 0 text (some width) c.rest)
    (laid : layout { s with cursor := c, lineStart := false } width = .ok s') : Move s text s'
  /-- Only blank lines are left. -/
  | ending {text : List Char} {c : Cursor} (outside : s.lineStart = true)
    (reads : s.cursor.Reads text c) (read : Margin false 0 text none c.rest) :
    Move s text { s with cursor := c }

/-- Several moves, with the text that they go over. -/
inductive Moves : Scan → List Char → Scan → Prop
  | refl (s : Scan) : Moves s [] s
  | head {s s' s'' : Scan} {text text' : List Char} (move : s.Move text s')
    (more : Moves s' text' s'') : Moves s (text ++ text') s''

theorem Move.moves (h : s.Move text s') : s.Moves text s' := by
  have := Moves.head h (.refl s')
  rwa [List.append_nil] at this

theorem Moves.trans {s'' : Scan} {text text' : List Char} (h : s.Moves text s')
    (h' : s'.Moves text' s'') : s.Moves (text ++ text') s'' := by
  induction h with
  | refl => exact h'
  | head move _ ih =>
    rw [List.append_assoc]
    exact .head move (ih h')

/-- A line end gives a token, unless the last token is one for layout, or there is none. -/
theorem pushNewline_cases (s : Scan) (pos : Position) :
    (s.pushNewline pos = s ∧ ∀ last ∈ s.tokens.head?, last.kind.isLayout = true) ∨
      (s.pushNewline pos = { s with tokens := ⟨.newline, pos⟩ :: s.tokens } ∧
        ∃ last more, s.tokens = last :: more ∧ last.kind.isLayout = false) := by
  unfold pushNewline
  split
  case h_1 htokens =>
    rw [htokens]
    exact .inl ⟨rfl, nofun⟩
  case h_2 last more htokens =>
    split
    case isTrue hlayout =>
      rw [htokens]
      refine .inl ⟨rfl, fun t ht => ?_⟩
      cases ht
      exact hlayout
    case isFalse hlayout => exact .inr ⟨rfl, last, more, htokens, eq_false_of_ne_true hlayout⟩

/-- Between brackets a line end is skipped. Otherwise it gives a token, unless there is one for it
already. -/
theorem endLine_cases (s : Scan) (lineStart : Bool) :
    (s.brackets ≠ 0 ∧ s.endLine lineStart = { s with cursor := s.cursor.drop 1 }) ∨
      (s.brackets = 0 ∧ s.endLine lineStart = { s with cursor := s.cursor.drop 1, lineStart } ∧
        ∀ last ∈ s.tokens.head?, last.kind.isLayout = true) ∨
      (s.brackets = 0 ∧ s.endLine lineStart =
          { s with
            cursor := s.cursor.drop 1, lineStart, tokens := ⟨.newline, s.cursor.pos⟩ :: s.tokens } ∧
        ∃ last more, s.tokens = last :: more ∧ last.kind.isLayout = false) := by
  unfold endLine
  dsimp only
  split
  case isFalse hbrackets => exact .inl ⟨hbrackets, rfl⟩
  case isTrue hbrackets =>
    rcases pushNewline_cases { s with cursor := s.cursor.drop 1 } s.cursor.pos with ⟨hsame,
      hlast⟩ | ⟨hpushed, hlast⟩
    · rw [hsame]
      exact .inr (.inl ⟨hbrackets, rfl, hlast⟩)
    · rw [hpushed]
      exact .inr (.inr ⟨hbrackets, rfl, hlast⟩)

theorem cursor_endLine (s : Scan) (lineStart : Bool) :
    (s.endLine lineStart).cursor = s.cursor.drop 1 := by
  rcases s.endLine_cases lineStart with ⟨-, h⟩ | ⟨-, h, -⟩ | ⟨-, h, -⟩ <;> rw [h]

theorem endLine_adds (s : Scan) (lineStart : Bool) :
    ∃ new, (s.endLine lineStart).tokens = new ++ s.tokens ∧
    ∀ t ∈ new, t = ⟨.newline, s.cursor.pos⟩ := by
  rcases s.endLine_cases lineStart with ⟨-, h⟩ | ⟨-, h, -⟩ | ⟨-, h, -⟩ <;> rw [h]
  · exact ⟨[], rfl, by simp⟩
  · exact ⟨[], rfl, by simp⟩
  · exact ⟨[⟨.newline, s.cursor.pos⟩], rfl, by simp⟩

theorem layout_adds (h : s.layout width = .ok s') :
    ∃ new, s'.tokens = new ++ s.tokens ∧ ∀ t ∈ new, t.kind.isLexical = false ∧
    t.pos = s.cursor.pos := by
  rcases layout_cases h with ⟨-, rfl⟩ | ⟨closed, kept, -, -, -, rfl⟩
  · exact ⟨[⟨.indent, _⟩], rfl, by simp [TokenKind.isLexical]⟩
  · refine ⟨_, rfl, fun t ht => ?_⟩
    rw [eq_of_mem_dedents ht]
    exact ⟨rfl, rfl⟩

/-- Opening and closing blocks leaves the rest of a scan as it is. -/
theorem layout_keeps (h : s.layout width = .ok s') :
    s'.cursor = s.cursor ∧ s'.lineStart = s.lineStart ∧ s'.brackets = s.brackets := by
  rcases layout_cases h with ⟨-, rfl⟩ | ⟨_, _, -, -, -, rfl⟩ <;> exact ⟨rfl, rfl, rfl⟩

theorem Move.reads {text : List Char} (h : s.Move text s') : s.cursor.Reads text s'.cursor := by
  cases h with
  | blanks _ reads _ | comment _ reads _ _ | ending _ reads _ => exact reads
  | newline _ next | semicolon _ next => rw [cursor_endLine]; exact Cursor.reads_of_append next
  | lexeme _ lexes => exact lexes.reads
  | margin _ reads _ laid => rw [(layout_keeps laid).1]; exact reads

theorem Moves.reads {text : List Char} (h : s.Moves text s') : s.cursor.Reads text s'.cursor := by
  induction h with
  | refl s => exact .refl s.cursor
  | head move _ ih => exact move.reads.trans ih

/-- What every move keeps holds after any number of them. -/
theorem Moves.keeps {P : Scan → Prop} (hmove : ∀ s text s', P s → s.Move text s' → P s')
    (h : s.Moves text s') (hs : P s) : P s' := by
  induction h with
  | refl => exact hs
  | head move _ ih => exact ih (hmove _ _ _ hs move)

/-- A move over spaced text adds tokens for layout only, and any other, inside of a line, adds the
token of the lexeme there. -/
theorem Move.adds (h : s.Move text s') :
    ((∃ new, s'.tokens = new ++ s.tokens ∧ ∀ t ∈ new, t.kind.isLexical = false) ∧
      Spaced text s'.cursor.rest) ∨
      s.lineStart = false ∧ ∃ kind, s'.tokens = ⟨kind, s.cursor.pos⟩ :: s.tokens ∧
        s.cursor.Lexes kind text s'.cursor := by
  cases h with
  | blanks _ _ all => exact .inl ⟨⟨[], rfl, by simp⟩, .of_blanks all⟩
  | @comment text _ _ _ oneLine ends =>
    have hcomment := @Spaced.comment text [] _ oneLine ends .nil
    rw [List.append_nil] at hcomment
    exact .inl ⟨⟨[], rfl, by simp⟩, hcomment⟩
  | newline | semicolon =>
    obtain ⟨new, htokens, hnew⟩ := s.endLine_adds _
    exact .inl ⟨⟨new, htokens, fun t ht => hnew t ht ▸ rfl⟩, .separator (by decide) .nil⟩
  | lexeme inside lexes => exact .inr ⟨inside, _, rfl, lexes⟩
  | margin _ _ read laid =>
    rw [(layout_keeps laid).1]
    obtain ⟨new, htokens, hnew⟩ := layout_adds laid
    exact .inl ⟨⟨new, htokens, fun t ht => (hnew t ht).1⟩, read.spaced⟩
  | ending _ _ read => exact .inl ⟨⟨[], rfl, by simp⟩, read.spaced⟩

/-! ## Steps -/

variable {b : Bool}

/-- Inside a line nothing happens. Where a line starts, either one that holds anything is found, or
the end. -/
theorem lineIndent_cases (h : s.lineIndent = .ok (b, s')) :
    (s.lineStart = false ∧ b = true ∧ s' = s) ∨
      (s.lineStart = true ∧ b = true ∧ ∃ width text c, s.cursor.Reads text c ∧
        Margin false 0 text (some width) c.rest ∧
        layout { s with cursor := c, lineStart := false } width = .ok s') ∨
      (s.lineStart = true ∧ b = false ∧ ∃ text c, s.cursor.Reads text c ∧
        Margin false 0 text none c.rest ∧ s' = { s with cursor := c }) := by
  unfold lineIndent at h
  split at h
  case isFalse inside =>
    cases h
    exact .inl ⟨eq_false_of_ne_true inside, rfl, rfl⟩
  case isTrue outside =>
    split at h
    case h_1 => exact nomatch h
    case h_2 cursor hindent =>
      cases h
      obtain ⟨text, hreads, hmargin⟩ := indentation_eq_ok hindent
      exact .inr (.inr ⟨outside, rfl, text, cursor, hreads, hmargin, rfl⟩)
    case h_3 width cursor hindent =>
      obtain ⟨text, hreads, hmargin⟩ := indentation_eq_ok hindent
      cases hlaid : layout { s with cursor, lineStart := false } width with
      | error e =>
        rw [hlaid] at h
        exact nomatch h
      | ok t =>
        rw [hlaid] at h
        cases h
        exact .inr (.inl ⟨outside, rfl, width, text, cursor, hreads, hmargin, hlaid⟩)

theorem move_lineIndent (outside : s.lineStart = true) (h : s.lineIndent = .ok (b, s')) :
    (∃ text, s.Move text s') ∧ (b = true → s'.lineStart = false) ∧
    (b = false → s'.cursor.rest = []) := by
  rcases lineIndent_cases h with ⟨inside, -⟩ | ⟨-, rfl, width, text, c, hreads, hmargin, hlaid⟩ |
    ⟨-, rfl, text, c, hreads, hmargin, rfl⟩
  · exact nomatch outside.symm.trans inside
  · exact ⟨⟨text, .margin outside hreads hmargin hlaid⟩, fun _ => (layout_keeps hlaid).2.1, nofun⟩
  · exact ⟨⟨text, .ending outside hreads hmargin⟩, nofun, fun _ => hmargin.ended rfl⟩

theorem move_lexeme (inside : s.lineStart = false) (hrest : s.cursor.rest = c :: cs)
    (h : s.lexeme c = .ok s') : ∃ text, s.Move text s' ∧ text ≠ [] := by
  unfold lexeme at h
  split at h
  case isTrue hc =>
    cases h
    subst hc
    exact ⟨_, .newline inside hrest, by simp⟩
  case isFalse =>
    split at h
    case isTrue hcomment =>
      cases h
      -- Two dashes, and all that is left of the line.
      obtain ⟨text, htext⟩ : ∃ text, s.cursor.rest = '-' :: '-' :: text := by
        unfold opensComment at hcomment
        split at hcomment
        case h_1 r heq => exact ⟨r, heq⟩
        case h_2 => contradiction
      have hrun : s.cursor.run (fun d => d != '\n') = '-' :: '-' :: text.takeWhile
          fun d => d != '\n' := by
        rw [Cursor.run, htext]
        rfl
      have hreads := s.cursor.reads_skip fun d => d != '\n'
      rw [hrun] at hreads
      refine ⟨_, .comment inside hreads ?_ ?_, by simp⟩
      · intro hmem
        exact absurd (List.mem_takeWhile_imp hmem) (by decide)
      · have hstop := List.head?_dropWhile_not (fun d => d != '\n') s.cursor.rest
        rw [show s.cursor.rest.dropWhile (fun d => d != '\n') =
          (s.cursor.skip fun d => d != '\n').rest from rfl] at hstop
        cases hhead : (s.cursor.skip fun d => d != '\n').rest.head? with
        | none => rfl
        | some d =>
          rw [hhead] at hstop
          simpa using hstop
    case isFalse hcomment =>
      split at h
      case isTrue hc =>
        cases h
        subst hc
        exact ⟨_, .semicolon inside hrest, by simp⟩
      case isFalse =>
        dsimp only at h
        -- All that is left are the four kinds of lexemes.
        generalize hread : (if c.isDigit = true then scanNumber s.cursor else
          if (decide (c = '\'') || decide (c = '"')) = true then scanString c s.cursor else
          if isNameStart c = true then .ok (scanWord s.cursor) else scanSymbol s.cursor c) =
            read at h
        cases read with
        | error e => contradiction
        | ok result =>
          obtain ⟨kind, cursor⟩ := result
          cases h
          have hlexes : ∃ text, s.cursor.Lexes kind text cursor := by
            split at hread
            case isTrue hdigit => exact lexes_scanNumber hrest hdigit hread
            case isFalse =>
              split at hread
              case isTrue hquote => exact lexes_scanString hrest (by simpa using hquote) hread
              case isFalse =>
                split at hread
                case isTrue hname =>
                  cases hread
                  exact ⟨_, lexes_scanWord hrest hname⟩
                case isFalse => exact lexes_scanSymbol (eq_false_of_ne_true hcomment) hread
          obtain ⟨text, hlexes⟩ := hlexes
          exact ⟨text, .lexeme inside hlexes, hlexes.lexeme.ne_nil⟩

theorem lineIndent_inside (inside : s.lineStart = false) : s.lineIndent = .ok (true, s) := by
  rw [lineIndent, inside]
  rfl

/-- Where a line starts, a step first reads its margin, and then does what it does inside the
line. -/
theorem step_of_lineIndent {t : Scan} (outside : s.lineStart = true)
    (h : s.lineIndent = .ok (true, t)) : s.step = t.step := by
  have inside := (move_lineIndent outside h).2.1 rfl
  simp only [step, h, lineIndent_inside inside]

theorem step_of_ended {t : Scan} (h : s.lineIndent = .ok (false, t)) : s.step = .ok (false, t) := by
  simp only [step, h]

/-- The scan behind the blanks at the cursor. -/
def skipBlanks (s : Scan) : Scan := { s with cursor := s.cursor.skip isBlank }

theorem step_blank (inside : s.lineStart = false) (h : s.skipBlanks.cursor.rest = []) :
    s.step = .ok (false, s.skipBlanks) := by
  simp only [step, lineIndent_inside inside]
  rw [show (s.cursor.skip isBlank).rest = [] from h]
  rfl

theorem step_lexeme (inside : s.lineStart = false)
    (h : s.skipBlanks.cursor.rest = c :: cs) : s.step = (s.skipBlanks.lexeme c).map (true, ·) := by
  simp only [step, lineIndent_inside inside]
  rw [show (s.cursor.skip isBlank).rest = c :: cs from h]
  rfl

/-- Inside a line, a step skips blanks, and reads what follows them. -/
theorem moves_inside (inside : s.lineStart = false) (h : s.step = .ok (b, s')) :
    s.Move (s.cursor.run isBlank) s.skipBlanks ∧
      ((b = false ∧ s' = s.skipBlanks ∧ s.skipBlanks.cursor.rest = []) ∨
      (b = true ∧ ∃ text, s.skipBlanks.Move text s' ∧ text ≠ [])) := by
  refine ⟨.blanks inside (s.cursor.reads_skip isBlank) fun _ hd => List.mem_takeWhile_imp hd, ?_⟩
  cases hrest : s.skipBlanks.cursor.rest with
  | nil =>
    rw [step_blank inside hrest] at h
    cases h
    exact .inl ⟨rfl, rfl, rfl⟩
  | cons c cs =>
    rw [step_lexeme inside hrest] at h
    cases hread : s.skipBlanks.lexeme c with
    | error e =>
      rw [hread] at h
      exact nomatch h
    | ok u =>
      rw [hread] at h
      cases h
      exact .inr ⟨rfl, move_lexeme inside hrest hread⟩

/-- A step consists of moves. It goes on unless the text is at its end. -/
theorem moves_step (h : s.step = .ok (b, s')) :
    ∃ text, s.Moves text s' ∧ (b = true → text ≠ []) ∧ (b = false → s'.cursor.rest = []) := by
  have hinside {t : Scan} {text : List Char} (hmoves : s.Moves text t)
      (inside : t.lineStart = false) (h : t.step = .ok (b, s')) :
      ∃ text, s.Moves text s' ∧ (b = true → text ≠ []) ∧ (b = false → s'.cursor.rest = []) := by
    obtain ⟨hblanks, ⟨rfl, rfl, hrest⟩ | ⟨rfl, text', hmove, hne⟩⟩ := moves_inside inside h
    · exact ⟨_, hmoves.trans hblanks.moves, nofun, fun _ => hrest⟩
    · refine ⟨_, (hmoves.trans hblanks.moves).trans hmove.moves, fun _ => ?_, nofun⟩
      simp [hne]
  cases hstart : s.lineStart with
  | false => exact hinside (.refl s) hstart h
  | true =>
    cases hindent : s.lineIndent with
    | error e =>
      simp only [step, hindent] at h
      exact nomatch h
    | ok result =>
      obtain ⟨goes, t⟩ := result
      obtain ⟨⟨text, hmove⟩, inside, hend⟩ := move_lineIndent hstart hindent
      cases goes with
      | false =>
        rw [step_of_ended hindent] at h
        cases h
        exact ⟨text, hmove.moves, nofun, hend⟩
      | true =>
        rw [step_of_lineIndent hstart hindent] at h
        exact hinside hmove.moves (inside rfl) h

/-- A step that goes on leaves less of the text. -/
theorem length_step_lt (h : s.step = .ok (true, s')) :
    s'.cursor.rest.length < s.cursor.rest.length := by
  obtain ⟨text, hmoves, hne, -⟩ := moves_step h
  have hpos := List.length_pos_iff.2 (hne rfl)
  rw [hmoves.reads.rest, List.length_append]
  omega

/-! ## Whole scans -/

/-- The scan to the end of the text. -/
def complete (s : Scan) : Except SyntaxError Scan := s.run (s.cursor.rest.length + 1)

theorem run_of_lt {n : Nat} (h : s.cursor.rest.length < n) : s.run n = s.complete := by
  -- Every round reads something, so the count does not run out, whichever of the two it is.
  suffices hrun : ∀ n k, ∀ s : Scan, s.cursor.rest.length < n → s.cursor.rest.length < k →
    s.run n = s.run k from hrun n _ s h (Nat.lt_succ_self _)
  intro n
  induction n with
  | zero => exact fun k s h => absurd h (Nat.not_lt_zero _)
  | succ n ih =>
    intro k s hn hk
    obtain ⟨k, rfl⟩ := Nat.exists_eq_succ_of_ne_zero (Nat.ne_zero_of_lt hk)
    unfold run
    split
    case h_1 => rfl
    case h_2 => rfl
    case h_3 s' hstep =>
      have := length_step_lt hstep
      exact ih k s' (by omega) (by omega)

theorem complete_error {e : SyntaxError} (h : s.step = .error e) : s.complete = .error e := by
  simp only [complete, run, h]

theorem complete_done (h : s.step = .ok (false, s')) : s.complete = .ok s' := by
  simp only [complete, run, h]

theorem complete_next (h : s.step = .ok (true, s')) : s.complete = s'.complete := by
  simp only [complete, run, h]
  exact run_of_lt (length_step_lt h)

/-- A scan goes on as its next step tells. -/
theorem complete_congr {t : Scan} (h : s.step = t.step) : s.complete = t.complete := by
  cases hstep : t.step with
  | error e => rw [complete_error hstep, complete_error (h.trans hstep)]
  | ok result =>
    obtain ⟨b, u⟩ := result
    cases b with
    | false => rw [complete_done hstep, complete_done (h.trans hstep)]
    | true => rw [complete_next hstep, complete_next (h.trans hstep)]

theorem tokenize_eq (source : String) : tokenize source = (Scan.start source).complete.map finish :=
  rfl

theorem exists_complete {source : String} {tokens : List Token} (h : tokenize source = .ok tokens) :
    ∃ f, (Scan.start source).complete = .ok f ∧ f.finish = tokens := by
  rw [tokenize_eq] at h
  cases hcomplete : (Scan.start source).complete with
  | error e =>
    rw [hcomplete] at h
    contradiction
  | ok f =>
    rw [hcomplete] at h
    exact ⟨f, rfl, Except.ok.inj h⟩

theorem complete_of_tokenize_error {source : String} {e : SyntaxError}
    (h : tokenize source = .error e) : (Scan.start source).complete = .error e := by
  rw [tokenize_eq] at h
  cases hcomplete : (Scan.start source).complete with
  | ok f =>
    rw [hcomplete] at h
    contradiction
  | error e' =>
    rw [hcomplete] at h
    cases h
    rfl

/-- The last statement is closed, unless nothing follows the last line end, and then all blocks. -/
theorem finish_cases (s : Scan) : ∃ line : List Token,
    ((line = [] ∧ ∀ last ∈ s.tokens.head?, last.kind.isLayout = true) ∨
      (line = [⟨.newline, s.cursor.pos⟩] ∧ ∃ last more, s.tokens = last :: more ∧
        last.kind.isLayout = false)) ∧
    s.finish =
      (⟨.endOfInput, s.cursor.pos⟩ ::
        (dedents s.cursor.pos s.indents ++ (line ++ s.tokens))).reverse := by
  rcases s.pushNewline_cases s.cursor.pos with ⟨heq, hlast⟩ | ⟨heq, hlast⟩
  · exact ⟨[], .inl ⟨rfl, hlast⟩, by rw [finish, heq]; rfl⟩
  · exact ⟨_, .inr ⟨rfl, hlast⟩, by rw [finish, heq]; rfl⟩

/-- What closes the input stands at its end, and holds no lexeme. -/
theorem exists_closing (s : Scan) : ∃ closing, s.finish = s.tokens.reverse ++ closing ∧
    (∃ before, closing = before ++ [⟨.endOfInput, s.cursor.pos⟩] ∧
      ∀ t ∈ before, t.kind = .newline ∨ t.kind = .dedent) ∧
    ∀ t ∈ closing, t.kind.isLexical = false ∧ t.pos = s.cursor.pos := by
  obtain ⟨line, hline, hfinish⟩ := s.finish_cases
  have hbefore : ∀ t ∈ line.reverse ++ (dedents s.cursor.pos s.indents).reverse,
      (t.kind = .newline ∨ t.kind = .dedent) ∧ t.pos = s.cursor.pos := by
    intro t ht
    rcases List.mem_append.1 ht with ht | ht
    · rw [List.mem_reverse] at ht
      rcases hline with ⟨rfl, -⟩ | ⟨rfl, -⟩
      · exact nomatch ht
      · rw [List.mem_singleton.1 ht]
        exact ⟨.inl rfl, rfl⟩
    · rw [eq_of_mem_dedents (List.mem_reverse.1 ht)]
      exact ⟨.inr rfl, rfl⟩
  refine ⟨_, ?_, ⟨_, rfl, fun t ht => (hbefore t ht).1⟩, fun t ht => ?_⟩
  · rw [hfinish]
    simp
  · rcases List.mem_append.1 ht with ht | ht
    · obtain ⟨hkind, hpos⟩ := hbefore t ht
      refine ⟨?_, hpos⟩
      rcases hkind with hkind | hkind <;> rw [hkind] <;> rfl
    · rw [List.mem_singleton.1 ht]
      exact ⟨rfl, rfl⟩

/-- What every step keeps holds at the end of a scan that succeeds. -/
theorem complete_keeps {P : Scan → Prop} (hkeeps : ∀ s b s', P s → s.step = .ok (b, s') → P s')
    (h : s.complete = .ok s') (hs : P s) : P s' ∧ s'.cursor.rest = [] := by
  induction hn : s.cursor.rest.length using Nat.strong_induction_on generalizing s with
  | _ n ih =>
    cases hstep : s.step with
    | error e => exact nomatch (complete_error hstep).symm.trans h
    | ok result =>
      obtain ⟨b, t⟩ := result
      have ht := hkeeps s b t hs hstep
      cases b with
      | false =>
        rw [complete_done hstep] at h
        cases h
        obtain ⟨_, -, -, hend⟩ := moves_step hstep
        exact ⟨ht, hend rfl⟩
      | true =>
        rw [complete_next hstep] at h
        exact ih _ (hn ▸ length_step_lt hstep) h ht rfl

/-- A scan that succeeds has moved over the whole text. -/
theorem moves_complete (h : s.complete = .ok s') :
    s.Moves s.cursor.rest s' ∧ s'.cursor.rest = [] := by
  obtain ⟨⟨text, hmoves⟩, hend⟩ :=
      complete_keeps (P := fun t => ∃ text, s.Moves text t) (fun t b u ht hstep => by
    obtain ⟨text, hmoves⟩ := ht
    obtain ⟨text', hmoves', -⟩ := moves_step hstep
    exact ⟨_, hmoves.trans hmoves'⟩) h ⟨[], .refl s⟩
  have hrest := hmoves.reads.rest
  rw [hend, List.append_nil] at hrest
  rw [hrest]
  exact ⟨hmoves, hend⟩

end Scan

end ScriptMachine
