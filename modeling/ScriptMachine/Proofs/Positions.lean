import ScriptMachine.Library
import ScriptMachine.Proofs.Blame
import ScriptMachine.Proofs.Scanning
/-!
# Positions are exact

The scanner counts lines, columns and bytes while it goes, over characters of different sizes. What
it counts is what can be read off the text: the place of every token and of every error is that of a
character, or of the end, of the text.

* `Position.Exact`: a place in a text, as it can be read off;
* `positions_exact`: **every place is exact**.
-/

namespace ScriptMachine

/-- A place in a text: some text stands before it, whose bytes, lines and last line are counted. -/
def Position.Exact (source : String) (p : Position) : Prop :=
  ∃ before after : String, source = before ++ after ∧ p.offset = before.utf8ByteSize ∧
    p.line = 1 + before.toList.count '\n' ∧ p.column = 1 + (lastLine before.toList).length

variable {source : String} {text : List Char}

theorem Cursor.Reads.exact {c : Cursor} (h : (Scan.start source).cursor.Reads text c) :
    c.pos.Exact source := by
  have hrest : source.toList = text ++ c.rest := h.rest
  have hpos : c.pos = Position.start.afterAll text := h.pos
  rw [Position.afterAll_start] at hpos
  refine ⟨String.ofList text, String.ofList c.rest, ?_, ?_, ?_, ?_⟩
  · rw [← String.ofList_append, ← hrest, String.ofList_toList]
  · rw [hpos]
  · rw [hpos, String.toList_ofList]
  · rw [hpos, String.toList_ofList]

/-! ## Places of errors -/

/-- A place in what is left of a text. -/
def Cursor.Ahead (c : Cursor) (p : Position) : Prop := ∃ text c', c.Reads text c' ∧ c'.pos = p

namespace Cursor

variable {c c' : Cursor} {p : Position}

theorem ahead_self (c : Cursor) : c.Ahead c.pos := ⟨[], c, .refl c, rfl⟩

theorem Ahead.of_reads (h : c'.Ahead p) (hreads : c.Reads text c') : c.Ahead p := by
  obtain ⟨text', c'', hreads', rfl⟩ := h
  exact ⟨text ++ text', c'', hreads.trans hreads', rfl⟩

theorem Ahead.cons {d : Char} {cs : List Char} {pos : Position}
    (h : Cursor.Ahead ⟨cs, pos.after d⟩ p) : Cursor.Ahead ⟨d :: cs, pos⟩ p :=
  h.of_reads (show Cursor.Reads ⟨d :: cs, pos⟩ [d] _ from ⟨rfl, rfl⟩)

end Cursor

variable {cs : List Char} {e : SyntaxError}

theorem ahead_indentation {comment : Bool} {width : Nat} {pos : Position}
    (h : indentation comment width pos cs = .error e) : Cursor.Ahead ⟨cs, pos⟩ e.pos := by
  fun_induction indentation comment width pos cs with
  | case1 | case8 => contradiction
  | case2 _ _ _ _ ih | case3 _ _ _ _ _ ih | case4 _ _ _ _ _ _ ih | case5 _ _ _ _ _ _ _ ih =>
    exact (ih h).cons
  | case6 =>
    cases h
    exact Cursor.ahead_self _
  | case7 _ _ _ _ _ _ _ _ _ _ _ ih => exact (ih h).cons

/-- A string literal is rejected where it starts, or at an escape in it. -/
theorem ahead_stringBody {quote : Char} {start pos : Position}
    (h : stringBody quote start pos cs = .error e) :
    e.pos = start ∨ Cursor.Ahead ⟨cs, pos⟩ e.pos := by
  fun_induction stringBody quote start pos cs with
  | case1 | case2 =>
    cases h
    exact .inl rfl
  | case3 | case4 =>
    cases h
    exact .inr (Cursor.ahead_self _)
  | case5 | case7 | case8 => contradiction
  | case6 _ _ _ _ _ _ _ hrest ih =>
    cases h
    exact (ih hrest).imp_right fun hahead => hahead.cons.cons
  | case9 _ _ _ _ _ _ _ hrest ih =>
    cases h
    exact (ih hrest).imp_right Cursor.Ahead.cons

namespace Scan

variable {s s' : Scan} {e : SyntaxError}

theorem ahead_lexeme {c : Char} (hrest : s.cursor.rest = c :: cs) (h : s.lexeme c = .error e) :
    s.cursor.Ahead e.pos := by
  unfold lexeme at h
  split at h
  case isTrue => exact nomatch h
  case isFalse =>
    split at h
    case isTrue => exact nomatch h
    case isFalse =>
      split at h
      case isTrue => exact nomatch h
      case isFalse =>
        dsimp only at h
        generalize hread : (if c.isDigit = true then scanNumber s.cursor else
          if (decide (c = '\'') || decide (c = '"')) = true then scanString c s.cursor else
          if isNameStart c = true then .ok (scanWord s.cursor) else scanSymbol s.cursor c) =
            read at h
        cases read with
        | ok result => exact nomatch h
        | error e' =>
          cases h
          split at hread
          case isTrue =>
            -- A malformed number is reported where it starts.
            unfold scanNumber at hread
            split at hread
            case h_1 =>
              cases hread
              exact s.cursor.ahead_self
            case h_2 =>
              dsimp only at hread
              split at hread
              · cases hread
                exact s.cursor.ahead_self
              · exact nomatch hread
          case isFalse =>
            split at hread
            case isTrue =>
              unfold scanString at hread
              split at hread
              case h_1 => exact nomatch hread
              case h_2 err hbody =>
                cases hread
                rcases ahead_stringBody hbody with hstart | hahead
                · rw [hstart]
                  exact s.cursor.ahead_self
                · have hquote : s.cursor.Reads [c] ⟨s.cursor.rest.drop 1,
                      s.cursor.pos.after c⟩ := by
                    refine ⟨?_, rfl⟩
                    rw [hrest]
                    rfl
                  exact hahead.of_reads hquote
            case isFalse =>
              split at hread
              case isTrue => exact nomatch hread
              case isFalse =>
                unfold scanSymbol at hread
                split at hread
                case h_1 => exact nomatch hread
                case h_2 =>
                  cases hread
                  exact s.cursor.ahead_self

theorem ahead_lineIndent (h : s.lineIndent = .error e) : s.cursor.Ahead e.pos := by
  unfold lineIndent at h
  split at h
  case isFalse => exact nomatch h
  case isTrue =>
    split at h
    case h_1 hindent =>
      cases h
      exact ahead_indentation hindent
    case h_2 => exact nomatch h
    case h_3 width cursor hindent =>
      obtain ⟨text, hreads, -⟩ := indentation_eq_ok hindent
      -- A line that fits no block is reported where it begins.
      have hlaid : e.pos = cursor.pos := by
        unfold layout at h
        dsimp only at h
        split at h
        · exact nomatch h
        · split at h
          · exact nomatch h
          · cases h
            rfl
      rw [hlaid]
      exact ⟨text, cursor, hreads, rfl⟩

/-- An error is reported in a place that has not been passed. -/
theorem ahead_step (h : s.step = .error e) : s.cursor.Ahead e.pos := by
  have hinside {t : Scan} (inside : t.lineStart = false) (h : t.step = .error e) :
      t.cursor.Ahead e.pos := by
    cases hrest : t.skipBlanks.cursor.rest with
    | nil =>
      rw [step_blank inside hrest] at h
      contradiction
    | cons c cs =>
      rw [step_lexeme inside hrest] at h
      cases hread : t.skipBlanks.lexeme c with
      | ok u =>
        rw [hread] at h
        contradiction
      | error e' =>
        rw [hread] at h
        cases h
        exact (ahead_lexeme hrest hread).of_reads (t.cursor.reads_skip isBlank)
  cases hstart : s.lineStart with
  | false => exact hinside hstart h
  | true =>
    cases hindent : s.lineIndent with
    | error e' =>
      simp only [step, hindent] at h
      cases h
      exact ahead_lineIndent hindent
    | ok result =>
      obtain ⟨goes, t⟩ := result
      obtain ⟨⟨text, hmove⟩, inside, -⟩ := move_lineIndent hstart hindent
      cases goes with
      | false => exact absurd ((step_of_ended hindent).symm.trans h) (by simp)
      | true =>
        rw [step_of_lineIndent hstart hindent] at h
        exact (hinside (inside rfl) h).of_reads hmove.reads

theorem ahead_complete (h : s.complete = .error e) : s.cursor.Ahead e.pos := by
  induction hn : s.cursor.rest.length using Nat.strong_induction_on generalizing s with
  | _ n ih =>
    cases hstep : s.step with
    | error e' =>
      rw [complete_error hstep] at h
      cases h
      exact ahead_step hstep
    | ok result =>
      obtain ⟨b, t⟩ := result
      cases b with
      | false => exact nomatch (complete_done hstep).symm.trans h
      | true =>
        rw [complete_next hstep] at h
        obtain ⟨text, hmoves, -⟩ := moves_step hstep
        exact (ih _ (hn ▸ length_step_lt hstep) h rfl).of_reads hmoves.reads

/-! ## Places of tokens -/

/-- The places of the tokens so far, and that of the scan. -/
structure Charted (source : String) (s : Scan) : Prop where
  reads : ∃ text, (Scan.start source).cursor.Reads text s.cursor
  exact (t : Token) (h : t ∈ s.tokens) : t.pos.Exact source
  behind (t : Token) (h : t ∈ s.tokens) : t.pos.offset ≤ s.cursor.pos.offset
  ordered : s.tokens.Pairwise fun t u => u.pos.offset ≤ t.pos.offset

/-- New tokens stand where the scan stands. -/
theorem Charted.add (h : s.Charted source) (new : List Token)
    (hnew : ∀ t ∈ new, t.pos = s.cursor.pos) :
    { s with tokens := new ++ s.tokens }.Charted source where
  reads := h.reads
  exact t ht := by
    rcases List.mem_append.1 ht with ht | ht
    · obtain ⟨text, hreads⟩ := h.reads
      rw [hnew t ht]
      exact hreads.exact
    · exact h.exact t ht
  behind t ht := by
    rcases List.mem_append.1 ht with ht | ht
    · rw [hnew t ht]
    · exact h.behind t ht
  ordered := by
    refine List.pairwise_append.2 ⟨List.pairwise_of_forall_mem_list fun t ht u hu => ?_, h.ordered,
      fun t ht u hu => ?_⟩
    · rw [hnew t ht, hnew u hu]
    · rw [hnew t ht]
      exact h.behind u hu

theorem Charted.moveTo (h : s.Charted source) {c : Cursor}
    (hreads : s.cursor.Reads text c) : { s with cursor := c }.Charted source where
  reads := by
    obtain ⟨text', hreads'⟩ := h.reads
    exact ⟨_, hreads'.trans hreads⟩
  exact := h.exact
  behind t ht := by
    have hle := h.behind t ht
    rw [hreads.pos, Position.offset_afterAll]
    omega
  ordered := h.ordered

/-- A move puts its tokens where it begins, or, for the layout of a line, where it ends. -/
theorem Move.places (h : s.Move text s') : ∃ new, s'.tokens = new ++ s.tokens ∧
    ((∀ t ∈ new, t.pos = s.cursor.pos) ∨ ∀ t ∈ new, t.pos = s'.cursor.pos) := by
  cases h with
  | blanks | comment | ending => exact ⟨[], rfl, .inl (by simp)⟩
  | newline | semicolon =>
    obtain ⟨new, htokens, hnew⟩ := s.endLine_adds _
    exact ⟨new, htokens, .inl fun t ht => hnew t ht ▸ rfl⟩
  | @lexeme kind => exact ⟨[⟨kind, s.cursor.pos⟩], rfl, .inl (by simp)⟩
  | margin _ _ _ laid =>
    rw [(layout_keeps laid).1]
    obtain ⟨new, htokens, hnew⟩ := layout_adds laid
    exact ⟨new, htokens, .inr fun t ht => (hnew t ht).2⟩

theorem Move.charted (h : s.Move text s') (hs : s.Charted source) : s'.Charted source := by
  obtain ⟨new, htokens, hnew⟩ := h.places
  have hadded : { s' with tokens := new ++ s.tokens }.Charted source := by
    rcases hnew with hnew | hnew
    · exact { (hs.add new hnew).moveTo h.reads with }
    · exact { (hs.moveTo h.reads).add new hnew with }
  rwa [← htokens] at hadded

theorem charted_start (source : String) : (Scan.start source).Charted source :=
  ⟨⟨[], .refl _⟩, nofun, nofun, .nil⟩

end Scan

/-! ## Whole texts -/

theorem tokenize_exact {tokens : List Token} (h : tokenize source = .ok tokens) :
    (∀ t ∈ tokens, t.pos.Exact source) ∧ tokens.Pairwise fun t u => t.pos.offset ≤
      u.pos.offset := by
  obtain ⟨f, hcomplete, rfl⟩ := Scan.exists_complete h
  have hcharted : f.Charted source :=
    (Scan.moves_complete hcomplete).1.keeps (fun _ _ _ hs hmove => hmove.charted hs)
      (Scan.charted_start source)
  obtain ⟨closing, hfinish, -, hclosing⟩ := f.exists_closing
  have hadded := hcharted.add closing.reverse fun t ht => (hclosing t (List.mem_reverse.1 ht)).2
  have htokens : (closing.reverse ++ f.tokens).reverse = f.finish := by
    rw [List.reverse_append, List.reverse_reverse, hfinish]
  rw [← htokens, List.pairwise_reverse]
  exact ⟨fun t ht => hadded.exact t (List.mem_reverse.1 ht), hadded.ordered⟩

theorem tokenize_error_exact (h : tokenize source = .error e) : e.pos.Exact source := by
  obtain ⟨text, c, hreads, hpos⟩ := Scan.ahead_complete (Scan.complete_of_tokenize_error h)
  rw [← hpos]
  exact hreads.exact

/-- The tokens of a text end with the input. -/
theorem fit_tokenize {tokens : List Token} (h : tokenize source = .ok tokens) :
    Grammar.Fit (Position.Exact source) tokens := by
  refine ⟨?_, (tokenize_exact h).1⟩
  obtain ⟨f, hcomplete, rfl⟩ := Scan.exists_complete h
  exact ⟨⟨.endOfInput, f.cursor.pos⟩, by simp [Scan.finish], rfl⟩

/-- **Positions are exact.** The places of tokens are places of the text, in order, and so is the
place of every error that a compilation ends with, whichever of its stages found it. -/
theorem positions_exact {σ : Type} (source : String) :
    (∀ tokens, tokenize source = .ok tokens → (∀ t ∈ tokens, t.pos.Exact source) ∧
      tokens.Pairwise fun t u => t.pos.offset ≤ u.pos.offset) ∧
    ∀ (call : Callback σ) (name : String) (m k : Machine σ) (e : SyntaxError),
      compileSource call source name m = .failed e k → e.pos.Exact source := by
  refine ⟨fun tokens h => tokenize_exact h, fun call name m k e h => ?_⟩
  cases htokens : tokenize source with
  | error e' =>
    simp only [compileSource, htokens] at h
    cases h
    exact tokenize_error_exact htokens
  | ok tokens =>
    obtain ⟨hprogram, herror⟩ := parse_points (fit_tokenize htokens)
    cases hparse : parse tokens with
    | error e' =>
      simp only [compileSource, htokens, hparse] at h
      cases h
      exact herror _ hparse
    | ok program =>
      simp only [compileSource, htokens, hparse] at h
      exact compileProgram_blames call source name (hprogram program hparse) h

/-- A name without meaning, in the second line behind a character of two bytes. -/
theorem positions_exact_undefined :
    ∃ k, compileSource (Host.run 1) "a = 'é'\nb = c" "" (Machine.new {} () : Machine Unit) =
        .failed ⟨.undefinedSymbol "c", ⟨2, 5, 13⟩⟩ k ∧
      Position.Exact "a = 'é'\nb = c" ⟨2, 5, 13⟩ := by
  have hrun :
      (match compileSource (Host.run 1) "a = 'é'\nb = c" "" (Machine.new {} () : Machine Unit) with
    | .failed e _ => decide (e = ⟨.undefinedSymbol "c", ⟨2, 5, 13⟩⟩)
    | _ => false) = true := by decide +kernel
  split at hrun
  case h_1 e k hcompile =>
    obtain rfl := of_decide_eq_true hrun
    exact ⟨k, hcompile, (positions_exact _).2 _ _ _ _ _ hcompile⟩
  case h_2 => exact nomatch hrun

end ScriptMachine
