import ScriptMachine.Proofs.Scanning
/-!
# Nothing of a text is lost

A text is made up of the lexemes of its tokens, in order and without overlap, and of separators and
comments. So the tokens and the text determine each other up to what stands between lexemes.

* `Tiles`: a text, cut into lexemes and gaps;
* `tokenize_tiles`: **the tokens of a text cut it that way**.
-/

namespace ScriptMachine

/-- A text, from an offset on, is cut into the lexemes of tokens: what stands before, between and
behind them is spaced, every lexeme starts where its token says, and none of them could go on with
the next character. -/
inductive Tiles : (offset : Nat) → List Char → List Token → Prop
  | nil {offset : Nat} {gap : List Char} (spaced : Spaced gap []) : Tiles offset gap []
  | token {offset : Nat} {gap text rest : List Char} {t : Token} {ts : List Token}
    (spaced : Spaced gap (text ++ rest))
    (place : t.pos.offset = offset + (String.ofList gap).utf8ByteSize)
    (lexeme : t.kind.Lexeme text)
    (apart : ∀ d, rest.head? = some d → t.kind.grows d = false)
    (more : Tiles (offset + (String.ofList (gap ++ text)).utf8ByteSize) rest ts) :
    Tiles offset (gap ++ (text ++ rest)) (t :: ts)

/-- Spaced text in front. -/
theorem Tiles.prepend {offset : Nat} {gap cs : List Char} {ts : List Token} (hgap : Spaced gap cs)
    (h : Tiles (offset + (String.ofList gap).utf8ByteSize) cs ts) :
    Tiles offset (gap ++ cs) ts := by
  generalize hoffset : offset + (String.ofList gap).utf8ByteSize = offset' at h
  cases h with
  | nil spaced =>
    rw [← List.append_nil cs] at hgap
    exact .nil (hgap.append spaced)
  | @token _ gap' text rest t ts spaced place lexeme apart more =>
    subst hoffset
    rw [← List.append_assoc]
    refine .token (hgap.append spaced) ?_ lexeme apart ?_
    · rw [place, String.ofList_append, String.utf8ByteSize_append]
      omega
    · rw [List.append_assoc, String.ofList_append, String.utf8ByteSize_append, ← Nat.add_assoc]
      exact more

namespace Scan

variable {s s' : Scan}

/-- The tokens that moves to the end of a text add cut what was left of it. -/
theorem Moves.tiles {text : List Char} (h : s.Moves text s') (hend : s'.cursor.rest = []) :
    ∃ added, s'.tokens = added ++ s.tokens ∧
      Tiles s.cursor.pos.offset s.cursor.rest (added.reverse.filter (·.kind.isLexical)) := by
  induction h with
  | refl s =>
    rw [hend]
    exact ⟨[], rfl, .nil .nil⟩
  | @head s s₁ _ text _ move _ ih =>
    obtain ⟨added, htokens, htiles⟩ := ih hend
    have hoffset : s₁.cursor.pos.offset = s.cursor.pos.offset +
        (String.ofList text).utf8ByteSize := by
      rw [move.reads.pos, Position.offset_afterAll]
    rw [hoffset] at htiles
    rw [move.reads.rest]
    rcases move.adds with ⟨⟨new, hnew, hlayout⟩, hspaced⟩ | ⟨-, kind, hnew, hlexes⟩
    · refine ⟨added ++ new, by rw [htokens, hnew, List.append_assoc], ?_⟩
      have hnone : new.reverse.filter (·.kind.isLexical) = [] := by
        rw [List.filter_eq_nil_iff]
        intro t ht
        rw [hlayout t (List.mem_reverse.1 ht)]
        decide
      rw [List.reverse_append, List.filter_append, hnone]
      exact htiles.prepend hspaced
    · refine ⟨added ++ [⟨kind, s.cursor.pos⟩], by rw [htokens, hnew, List.append_assoc]; rfl, ?_⟩
      have hone : [(⟨kind, s.cursor.pos⟩ : Token)].reverse.filter (·.kind.isLexical) =
          [⟨kind, s.cursor.pos⟩] :=
        List.filter_cons_of_pos (p := fun t : Token => t.kind.isLexical) hlexes.lexeme.isLexical
      rw [List.reverse_append, List.filter_append, hone]
      exact @Tiles.token _ [] text _ _ _ .nil rfl hlexes.lexeme hlexes.apart htiles

/-- What closes the input are no lexemes. -/
theorem filter_finish (s : Scan) :
    s.finish.filter (·.kind.isLexical) = s.tokens.reverse.filter (·.kind.isLexical) := by
  obtain ⟨closing, hfinish, -, hclosing⟩ := s.exists_closing
  have hnone : closing.filter (·.kind.isLexical) = [] := by
    rw [List.filter_eq_nil_iff]
    intro t ht
    rw [(hclosing t ht).1]
    decide
  rw [hfinish, List.filter_append, hnone, List.append_nil]

end Scan

/-- **Tokenization loses nothing.** A text that can be read consists of the lexemes of its tokens,
in their order, with separators and comments before, between and behind them. -/
theorem tokenize_tiles {source : String} {tokens : List Token} (h : tokenize source = .ok tokens) :
    Tiles 0 source.toList (tokens.filter (·.kind.isLexical)) := by
  obtain ⟨f, hcomplete, rfl⟩ := Scan.exists_complete h
  obtain ⟨hmoves, hend⟩ := Scan.moves_complete hcomplete
  obtain ⟨added, htokens, htiles⟩ := hmoves.tiles hend
  rw [Scan.filter_finish, htokens, show (Scan.start source).tokens = [] from rfl, List.append_nil]
  exact htiles

/-- A comparison without blanks, a comment, an escape, a character of two bytes and a semicolon. -/
theorem tokenize_tiles_condition :
    tokenize "if a<=0x1F: -- c\n  s='é\\n';" =
        .ok [⟨.ifKw, ⟨1, 1, 0⟩⟩, ⟨.name "a", ⟨1, 4, 3⟩⟩, ⟨.lessEqual, ⟨1, 5, 4⟩⟩,
          ⟨.number "0x1F", ⟨1, 7, 6⟩⟩,
          ⟨.colon, ⟨1, 11, 10⟩⟩, ⟨.newline, ⟨1, 17, 16⟩⟩, ⟨.indent, ⟨2, 3, 19⟩⟩,
            ⟨.name "s", ⟨2, 3, 19⟩⟩,
          ⟨.assign, ⟨2, 4, 20⟩⟩, ⟨.string "é\n", ⟨2, 5, 21⟩⟩, ⟨.newline, ⟨2, 10, 27⟩⟩,
            ⟨.dedent, ⟨2, 11, 28⟩⟩,
          ⟨.endOfInput, ⟨2, 11, 28⟩⟩] ∧
      Tiles 0 "if a<=0x1F: -- c\n  s='é\\n';".toList
        [⟨.ifKw, ⟨1, 1, 0⟩⟩, ⟨.name "a", ⟨1, 4, 3⟩⟩, ⟨.lessEqual, ⟨1, 5, 4⟩⟩,
          ⟨.number "0x1F", ⟨1, 7, 6⟩⟩,
          ⟨.colon, ⟨1, 11, 10⟩⟩, ⟨.name "s", ⟨2, 3, 19⟩⟩, ⟨.assign, ⟨2, 4, 20⟩⟩,
            ⟨.string "é\n", ⟨2, 5, 21⟩⟩] := by
  refine ⟨?tokens, tokenize_tiles ?tokens⟩
  decide +kernel

end ScriptMachine
