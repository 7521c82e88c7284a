import ScriptMachine.Proofs.Offside
/-!
# Blank lines and comments do not matter

A lexeme ends in its line, so what is read up to a line end does not depend on what follows, and
nothing but places depends on where the text stands. A scan of a text is therefore a scan of a first
part, and then one of the second.

* `Scan.Leads`: a scan that has more text ahead than another one, `Scan.Leads.complete`;
* `tokenize_insert`: **blank lines can be inserted before any line that starts outside of
  brackets**.
-/

namespace ScriptMachine

/-! ## Texts that go on -/

/-- The first part of a text holds a line end, or there is no second part. -/
def Parted (v x : List Char) : Prop := x = [] ∨ '\n' ∈ v

variable {p : Char → Bool}

namespace Parted

variable {v w x : List Char}

theorem of_lastLine (h : x = [] ∨ lastLine v = []) (hv : v ≠ []) : Parted v x := by
  refine h.imp_right fun hlast => ?_
  by_contra hmem
  rw [lastLine_of_notMem hmem] at hlast
  exact hv hlast

/-- Behind a text without a line end. -/
theorem of_append (h : Parted (w ++ v) x) (hw : '\n' ∉ w) : Parted v x := by
  refine h.imp_right fun hmem => ?_
  exact (List.mem_append.1 hmem).resolve_left hw

theorem of_cons {c : Char} (h : Parted (c :: v) x) (hc : c ≠ '\n') : Parted v x := by
  refine h.imp_right fun hmem => ?_
  exact (List.mem_cons.1 hmem).resolve_left hc.symm

theorem takeWhile (h : Parted v x) (hp : p '\n' = false) :
    (v ++ x).takeWhile p = v.takeWhile p := by
  rcases h with rfl | hmem
  · rw [List.append_nil]
  · exact takeWhile_append_of_mem hmem hp

theorem dropWhile (h : Parted v x) (hp : p '\n' = false) :
    (v ++ x).dropWhile p = v.dropWhile p ++ x := by
  have hsplit : (v ++ x).takeWhile p ++ (v ++ x).dropWhile p =
      v.takeWhile p ++ (v.dropWhile p ++ x) := by
    rw [List.takeWhile_append_dropWhile, ← List.append_assoc, List.takeWhile_append_dropWhile]
  rw [h.takeWhile hp] at hsplit
  exact List.append_cancel_left hsplit

theorem head? (h : Parted v x) : (v ++ x).head? = v.head? := by
  rcases h with rfl | hmem
  · rw [List.append_nil]
  · cases v with
    | nil => exact nomatch hmem
    | cons c v => rfl

/-- The text is at least as long as one without a line end at its front. -/
theorem drop (h : Parted (w ++ v) x) (hw : '\n' ∉ w) :
    (w ++ v ++ x).drop w.length = v ++ x ∧ Parted v x := by
  rw [List.append_assoc, List.drop_left]
  exact ⟨rfl, h.of_append hw⟩

/-! ## Lexemes do not look behind a line end -/

variable (h : Parted v x)

include h

/-- Two characters tell, and a line end is the last that is looked at. -/
theorem of_two {f : List Char → Bool} {g : Char → Char → Bool}
    (htwo : ∀ c d cs, f (c :: d :: cs) = g c d) (hline : ∀ cs, f ('\n' :: cs) = f ['\n']) :
    f (v ++ x) = f v := by
  rcases h with rfl | hmem
  · rw [List.append_nil]
  · rcases v with _ | ⟨c, _ | ⟨d, v⟩⟩
    · exact nomatch hmem
    · obtain rfl := List.mem_singleton.1 hmem
      exact hline x
    · rw [List.cons_append, List.cons_append, htwo, htwo]

theorem opensComment : ScriptMachine.opensComment (v ++ x) = ScriptMachine.opensComment v := by
  refine h.of_two (g := fun c d => decide (c = '-' ∧ d = '-')) (fun c d cs => ?_) fun cs => rfl
  by_cases hc : c = '-' <;> by_cases hd : d = '-' <;> simp [ScriptMachine.opensComment, hc, hd]

theorem opensHexadecimal : ScriptMachine.opensHexadecimal (v ++ x) =
    ScriptMachine.opensHexadecimal v := by
  refine h.of_two (g := fun c d => decide (c = '0' ∧ (d = 'x' ∨ d = 'X'))) (fun c d cs => ?_)
    fun cs => rfl
  by_cases hc : c = '0' <;> simp [ScriptMachine.opensHexadecimal, hc]

theorem symbol? (hcomment : ScriptMachine.opensComment v = false) :
    TokenKind.symbol? (v ++ x) = TokenKind.symbol? v := by
  have hkeep {word : String} {kind : TokenKind} {rest : List Char}
      (hspelled : kind.spelling? = some word) (hv : v = word.toList ++ rest) :
          (rest ++ x).head? = rest.head? := by
    rw [hv] at h
    exact (h.of_append (spelling?_oneLine hspelled).2).head?
  cases hsymbol : TokenKind.symbol? v with
  | some result =>
    obtain ⟨kind, n⟩ := result
    obtain ⟨word, rest, hspelled, hv, -, hapart, hsame⟩ := symbol?_eq_some hsymbol hcomment
    rw [hv, List.append_assoc]
    refine hsame (rest ++ x) fun d hd => hapart d ?_
    rwa [hkeep hspelled hv] at hd
  | none =>
    rcases h with rfl | hmem
    · rw [List.append_nil, hsymbol]
    · by_contra hsome
      obtain ⟨⟨kind, n⟩, hmark⟩ := Option.ne_none_iff_exists'.1 hsome
      have hcomment' : ScriptMachine.opensComment (v ++ x) = false :=
        (opensComment (.inr hmem)).trans hcomment
      obtain ⟨word, rest, hspelled, hsplit, -, hapart, hsame⟩ := symbol?_eq_some hmark hcomment'
      -- The mark has no line end, so it is a part of the first line.
      rcases List.append_eq_append_iff.1 hsplit with ⟨more, hword, -⟩ | ⟨behind, hv, rfl⟩
      · exact (spelling?_oneLine hspelled).2 (hword ▸ List.mem_append_left more hmem)
      · rw [hkeep hspelled hv] at hapart
        rw [hv, hsame behind hapart] at hsymbol
        exact nomatch hsymbol

theorem exponentLength : ScriptMachine.exponentLength (v ++ x) =
    ScriptMachine.exponentLength v := by
  cases v with
  | nil =>
    obtain rfl : x = [] := h.resolve_right (by simp)
    rfl
  | cons c r =>
    rw [List.cons_append]
    unfold ScriptMachine.exponentLength
    dsimp only
    by_cases hmark : (decide (c = 'e') || decide (c = 'E')) = true
    · have hr : Parted r x := h.of_cons (by rintro rfl; exact absurd hmark (by decide))
      rw [if_pos hmark, if_pos hmark, hr.head?]
      by_cases hsigned : (r.head?.any fun s => decide (s = '+') || decide (s = '-')) = true
      · rw [if_pos hsigned]
        -- The sign is no line end either.
        obtain ⟨s, hs, hplus⟩ := Option.any_eq_true _ _ |>.1 hsigned
        obtain ⟨r, rfl⟩ := List.head?_eq_some_iff.1 hs
        have hdigits : Parted r x := hr.of_cons (by rintro rfl; exact absurd hplus (by decide))
        simp only [List.cons_append, List.drop_succ_cons, List.drop_zero,
          hdigits.takeWhile (p := Char.isDigit) rfl]
      · rw [if_neg hsigned]
        simp only [List.drop_zero, hr.takeWhile (p := Char.isDigit) rfl]
    · rw [if_neg hmark, if_neg hmark]

theorem fractionLength : ScriptMachine.fractionLength (v ++ x) =
    ScriptMachine.fractionLength v := by
  cases v with
  | nil =>
    obtain rfl : x = [] := h.resolve_right (by simp)
    rfl
  | cons c r =>
    by_cases hc : c = '.'
    · subst hc
      have hr : Parted r x := h.of_cons (by decide)
      simp only [List.cons_append, ScriptMachine.fractionLength,
        hr.takeWhile (p := Char.isDigit) rfl]
    · simp [ScriptMachine.fractionLength, hc]

theorem numberLength : ScriptMachine.numberLength (v ++ x) = ScriptMachine.numberLength v := by
  unfold ScriptMachine.numberLength
  rw [h.opensHexadecimal]
  by_cases hhex : ScriptMachine.opensHexadecimal v = true
  · rw [if_pos hhex, if_pos hhex]
    unfold ScriptMachine.opensHexadecimal at hhex
    split at hhex
    case h_2 => exact nomatch hhex
    case h_1 d ds =>
      have hds : Parted ds x :=
        (h.of_cons (by decide)).of_cons (by rintro rfl; exact absurd hhex (by decide))
      simp only [List.cons_append, List.drop_succ_cons, List.drop_zero,
        hds.takeWhile (p := isHexDigit) rfl]
  · rw [if_neg hhex, if_neg hhex]
    dsimp only
    -- The three parts of a decimal number follow each other.
    have hsplit : v = v.takeWhile Char.isDigit ++ v.dropWhile Char.isDigit :=
      List.takeWhile_append_dropWhile.symm
    have hwhole : '\n' ∉ v.takeWhile Char.isDigit :=
      fun hmem => absurd (List.mem_takeWhile_imp hmem) (by decide)
    rw [h.takeWhile (p := Char.isDigit) rfl]
    generalize v.takeWhile Char.isDigit = whole at hsplit hwhole
    generalize v.dropWhile Char.isDigit = behind at hsplit
    subst hsplit
    obtain ⟨fraction, rest, rfl, hlength, hfraction⟩ := exists_fraction behind
    have hbehind := (h.drop hwhole).2
    have hrest := (hbehind.drop hfraction.oneLine).2
    rw [(h.drop hwhole).1, hbehind.fractionLength, List.drop_left, ← hlength, ← List.drop_drop,
      (h.drop hwhole).1,
      (hbehind.drop hfraction.oneLine).1, ← List.drop_drop, List.drop_left, List.drop_left,
        hrest.exponentLength]

end Parted

/-! ## Results that differ in places only -/

variable {α β γ δ : Type}

/-- Two results: related ones, or errors of the same kind. -/
inductive Agree (R : α → β → Prop) : Except SyntaxError α → Except SyntaxError β → Prop
  | ok {a : α} {b : β} (h : R a b) : Agree R (.ok a) (.ok b)
  | error {e e' : SyntaxError} (h : e'.fault = e.fault) : Agree R (.error e) (.error e')

section

variable {R : α → β → Prop} {r : Except SyntaxError α} {r' : Except SyntaxError β}
    (h : Agree R r r')

include h

theorem Agree.map {S : γ → δ → Prop} {f : α → γ} {g : β → δ} (hfg : ∀ a b, R a b → S (f a) (g b)) :
    Agree S (r.map f) (r'.map g) := by
  cases h with
  | ok h => exact .ok (hfg _ _ h)
  | error h => exact .error h

theorem Agree.elim :
    (∃ e e', r = .error e ∧ r' = .error e' ∧ e'.fault = e.fault) ∨ ∃ a b, r = .ok a ∧
    r' = .ok b ∧ R a b := by
  cases h with
  | ok h => exact .inr ⟨_, _, rfl, rfl, h⟩
  | error h => exact .inl ⟨_, _, rfl, rfl, h⟩

end

/-- A cursor that has more text ahead, somewhere else. -/
def Cursor.Extends (x : List Char) (c c' : Cursor) : Prop := c'.rest = c.rest ++ x

theorem Cursor.Extends.rest_eq {x : List Char} {c c' : Cursor} (h : c.Extends x c')
    (hend : c.rest = []) : c'.rest = x := by
  rw [h, hend, List.nil_append]

/-- The same token is read, and what is left is extended. -/
def SameLexeme (x : List Char) (r r' : TokenKind × Cursor) : Prop := r'.1 = r.1 ∧ r.2.Extends x r'.2

section

variable {x : List Char} {c c' : Cursor}

/-- Beyond a part of the text without a line end. -/
theorem Cursor.Extends.drop (h : c.Extends x c') {text rest : List Char}
    (hrest : c.rest = text ++ rest) :
    c'.rest.take text.length = text ∧ (c.drop text.length).Extends x (c'.drop text.length) := by
  have hrest' : c'.rest = text ++ (rest ++ x) := by rw [h, hrest, List.append_assoc]
  rw [Cursor.drop_of_append hrest, Cursor.drop_of_append hrest', hrest', List.take_left]
  exact ⟨rfl, rfl⟩

theorem Cursor.Extends.skip (h : c.Extends x c') (hparted : Parted c.rest x) (hp : p '\n' = false) :
    c'.run p = c.run p ∧ (c.skip p).Extends x (c'.skip p) := by
  unfold Cursor.run Cursor.skip Cursor.Extends
  rw [h, hparted.takeWhile hp, hparted.dropWhile hp]
  exact ⟨rfl, rfl⟩

theorem agree_scanNumber (h : c.Extends x c') (hparted : Parted c.rest x) {d : Char}
    {cs : List Char} (hrest : c.rest = d :: cs) (hd : d.isDigit = true) :
    Agree (SameLexeme x) (scanNumber c) (scanNumber c') := by
  have hnumber : numberLength c'.rest = numberLength c.rest := by rw [h, hparted.numberLength]
  unfold scanNumber
  rw [hnumber]
  cases hlength : numberLength c.rest with
  | none => exact .error rfl
  | some n =>
    rw [hrest] at hlength
    obtain ⟨text, rest, htext, rfl, hnumeral⟩ := numberLength_eq_some hd hlength
    rw [← hrest] at htext
    obtain ⟨htake, hdrop⟩ := h.drop htext
    -- The next character is in the same line.
    have hnext : (c'.drop text.length).startsWith isNamePart =
        (c.drop text.length).startsWith isNamePart := by
      rw [htext] at hparted
      have hrest : (c.drop text.length).rest = rest := by rw [Cursor.drop_of_append htext]
      rw [Cursor.startsWith, Cursor.startsWith, hdrop, hrest,
        (hparted.of_append hnumeral.oneLine).head?]
    dsimp only
    rw [hnext]
    split
    · exact .error rfl
    · refine .ok ⟨?_, hdrop⟩
      rw [htake, htext, List.take_left]

section

variable {quote : Char} {cs : List Char}

theorem stringBody_escape {start pos : Position} {e d : Char}
    (h : escape? e = some d) : stringBody quote start pos ('\\' :: e :: cs) =
      (stringBody quote start ((pos.after '\\').after e) cs).map fun r => (d :: r.1, r.2) := by
  rw [stringBody.eq_def]
  dsimp only
  rw [if_neg (by decide), if_pos rfl, h]
  cases stringBody quote start ((pos.after '\\').after e) cs <;> rfl

theorem stringBody_plain {start pos : Position} {c : Char} (hline : c ≠ '\n')
    (hraw : c ≠ '\\') (hother : c ≠ quote) : stringBody quote start pos (c :: cs) =
      (stringBody quote start (pos.after c) cs).map fun r => (c :: r.1, r.2) := by
  rw [stringBody.eq_def]
  dsimp only
  rw [if_neg hline, if_neg hraw, if_neg hother]
  cases stringBody quote start (pos.after c) cs <;> rfl

/-- The same string is read, and what is left is extended. -/
theorem agree_stringBody {start start' pos pos' : Position} (hparted : Parted cs x) :
    Agree (fun r r' => r'.1 = r.1 ∧ r.2.Extends x r'.2) (stringBody quote start pos cs)
      (stringBody quote start' pos' (cs ++ x)) := by
  -- Another character in front.
  have hcons (c : Char) {r r' : Except SyntaxError (List Char × Cursor)}
      (h : Agree (fun r r' => r'.1 = r.1 ∧ r.2.Extends x r'.2) r r') :
      Agree (fun r r' => r'.1 = r.1 ∧ r.2.Extends x r'.2) (r.map fun r => (c :: r.1, r.2))
        (r'.map fun r => (c :: r.1, r.2)) :=
    h.map fun _ _ hsame => ⟨congrArg (c :: ·) hsame.1, hsame.2⟩
  fun_induction stringBody quote start pos cs generalizing pos' with
  | case1 | case3 =>
    obtain rfl : x = [] := hparted.resolve_right (by simp)
    exact .error rfl
  | case2 =>
    rw [List.cons_append, stringBody.eq_def]
    exact .error rfl
  | case4 pos e cs hescape =>
    rw [List.cons_append, List.cons_append, stringBody.eq_def]
    dsimp only
    rw [if_neg (by decide), if_pos rfl, hescape]
    exact .error rfl
  | case5 pos e cs d hescape _ _ _ hrest ih | case6 pos e cs d hescape _ _ hrest ih =>
    have hcs : Parted cs x := (hparted.of_cons (by decide)).of_cons (by rintro rfl; contradiction)
    have hagree := hcons d (@ih ((pos'.after '\\').after e) hcs)
    rw [hrest] at hagree
    rw [List.cons_append, List.cons_append, stringBody_escape hescape]
    exact hagree
  | case7 pos cs hline hraw =>
    rw [List.cons_append, stringBody.eq_def]
    dsimp only
    rw [if_neg hline, if_neg hraw, if_pos rfl]
    exact .ok ⟨rfl, rfl⟩
  | case8 pos c cs hline hraw hother _ _ hrest ih | case9 pos c cs hline hraw hother _ hrest ih =>
    have hagree := hcons c (@ih (pos'.after c) (hparted.of_cons hline))
    rw [hrest] at hagree
    rw [List.cons_append, stringBody_plain hline hraw hother]
    exact hagree

theorem agree_scanString (h : c.Extends x c') (hrest : c.rest = quote :: cs)
    (hparted : Parted cs x) : Agree (SameLexeme x) (scanString quote c) (scanString quote c') := by
  have hrest' : c'.rest.drop 1 = cs ++ x := by
    rw [h, hrest]
    rfl
  have hagree : Agree (fun r r' => r'.1 = r.1 ∧ r.2.Extends x r'.2)
      (stringBody quote c.pos (c.pos.after quote) (c.rest.drop 1))
      (stringBody quote c'.pos (c'.pos.after quote) (c'.rest.drop 1)) := by
    rw [hrest', hrest]
    exact agree_stringBody hparted
  unfold scanString
  generalize stringBody quote c.pos (c.pos.after quote) (c.rest.drop 1) = r at hagree
  generalize stringBody quote c'.pos (c'.pos.after quote) (c'.rest.drop 1) = r' at hagree
  cases hagree with
  | error herror => exact .error herror
  | ok hsame => exact .ok ⟨congrArg (TokenKind.string <| String.ofList ·) hsame.1, hsame.2⟩

end

theorem agree_scanSymbol (h : c.Extends x c') (hparted : Parted c.rest x)
    (hcomment : opensComment c.rest = false) (first : Char) :
    Agree (SameLexeme x) (scanSymbol c first) (scanSymbol c' first) := by
  have hsame : TokenKind.symbol? c'.rest = TokenKind.symbol? c.rest := by
    rw [h, hparted.symbol? hcomment]
  unfold scanSymbol
  rw [hsame]
  cases hsymbol : TokenKind.symbol? c.rest with
  | none => exact .error rfl
  | some result =>
    obtain ⟨kind, n⟩ := result
    obtain ⟨word, rest, -, hword, rfl, -⟩ := symbol?_eq_some hsymbol hcomment
    exact .ok ⟨rfl, (h.drop hword).2⟩

end

/-! ## Scans that have more text ahead -/

namespace Scan

/-- A scan that has more text ahead than another one, and is otherwise the same up to places. -/
structure Leads (x : List Char) (s s' : Scan) : Prop where
  cursor : s.cursor.Extends x s'.cursor
  lineStart : s'.lineStart = s.lineStart
  brackets : s'.brackets = s.brackets
  indents : s'.indents = s.indents
  kinds : s'.tokens.map Token.kind = s.tokens.map Token.kind

namespace Leads

variable {x : List Char} {s s' : Scan}

variable (h : s.Leads x s')

include h

theorem moveTo {c c' : Cursor} (hc : c.Extends x c') :
    { s with cursor := c }.Leads x { s' with cursor := c' } :=
  ⟨hc, h.lineStart, h.brackets, h.indents, h.kinds⟩

theorem push (kind : TokenKind) {c c' : Cursor} (hc : c.Extends x c') :
    (s.push kind c).Leads x (s'.push kind c') where
  cursor := hc
  lineStart := h.lineStart
  brackets := by
    unfold Scan.push
    rw [h.brackets]
  indents := h.indents
  kinds := congrArg (kind :: ·) h.kinds

theorem pushNewline (pos pos' : Position) : (s.pushNewline pos).Leads x (s'.pushNewline pos') := by
  have hkinds := h.kinds
  unfold Scan.pushNewline
  cases htokens : s.tokens with
  | nil =>
    rw [htokens, List.map_nil, List.map_eq_nil_iff] at hkinds
    rw [hkinds]
    exact h
  | cons last more =>
    rw [htokens] at hkinds
    obtain ⟨last', more', htokens', hlast, -⟩ := List.map_eq_cons_iff.1 hkinds
    rw [htokens'] at hkinds ⊢
    dsimp only
    rw [hlast]
    split
    · exact h
    · exact ⟨h.cursor, h.lineStart, h.brackets, h.indents, congrArg (TokenKind.newline :: ·) hkinds⟩

theorem endLine {c : Char} {cs : List Char} (hrest : s.cursor.rest = c :: cs) (lineStart : Bool) :
    (s.endLine lineStart).Leads x (s'.endLine lineStart) := by
  have hnext := h.moveTo (h.cursor.drop (show s.cursor.rest = [c] ++ cs from hrest)).2
  unfold Scan.endLine
  by_cases hbrackets : s.brackets = 0
  · rw [if_pos hbrackets, if_pos (h.brackets.trans hbrackets)]
    have hpushed := hnext.pushNewline s.cursor.pos s'.cursor.pos
    exact ⟨hpushed.cursor, rfl, hpushed.brackets, hpushed.indents, hpushed.kinds⟩
  · rw [if_neg hbrackets, if_neg (by rwa [h.brackets])]
    exact hnext

theorem layout (width : Nat) : Agree (Leads x) (s.layout width) (s'.layout width) := by
  unfold Scan.layout
  dsimp only
  rw [h.indents]
  split
  · exact .ok ⟨h.cursor, h.lineStart, h.brackets, rfl, congrArg (TokenKind.indent :: ·) h.kinds⟩
  · split
    · refine .ok ⟨h.cursor, h.lineStart, h.brackets, rfl, ?_⟩
      simp only [List.map_append, List.map_map, h.kinds]
      rfl
    · exact .error rfl

theorem lexeme {c : Char} {cs : List Char} (hrest : s.cursor.rest = c :: cs)
    (hparted : Parted s.cursor.rest x) : Agree (Leads x) (s.lexeme c) (s'.lexeme c) := by
  have hcomment : opensComment s'.cursor.rest = opensComment s.cursor.rest := by
    rw [h.cursor, hparted.opensComment]
  unfold Scan.lexeme
  rw [hcomment]
  split
  case isTrue => exact .ok (h.endLine hrest true)
  case isFalse hline =>
    split
    case isTrue => exact .ok (h.moveTo (h.cursor.skip hparted (by decide)).2)
    case isFalse hopens =>
      split
      case isTrue => exact .ok (h.endLine hrest false)
      case isFalse =>
        have hread : Agree (SameLexeme x)
            (if c.isDigit = true then scanNumber s.cursor
              else if (decide (c = '\'') || decide (c = '"')) = true then scanString c s.cursor
              else if isNameStart c = true then .ok (scanWord s.cursor) else scanSymbol s.cursor c)
            (if c.isDigit = true then scanNumber s'.cursor
              else if (decide (c = '\'') || decide (c = '"')) = true then scanString c s'.cursor
              else if isNameStart c = true then .ok (scanWord s'.cursor)
                  else scanSymbol s'.cursor c) := by
          split
          case isTrue hdigit => exact agree_scanNumber h.cursor hparted hrest hdigit
          case isFalse =>
            split
            case isTrue =>
              rw [hrest] at hparted
              exact agree_scanString h.cursor hrest (hparted.of_cons hline)
            case isFalse =>
              split
              case isTrue =>
                obtain ⟨hrun, hskip⟩ := h.cursor.skip hparted (p := isNamePart) (by decide)
                refine .ok ⟨?_, hskip⟩
                unfold scanWord
                rw [hrun]
              case isFalse => exact agree_scanSymbol h.cursor hparted (eq_false_of_ne_true hopens) c
        refine hread.map fun r r' hsame => ?_
        obtain ⟨kind, cursor⟩ := r
        obtain ⟨kind', cursor'⟩ := r'
        obtain ⟨rfl, hcursor⟩ := hsame
        exact h.push kind' hcursor

end Leads

end Scan

/-! ## Margins -/

/-- The rest of a text that ends a line also ends it. -/
theorem lastLine_of_append {cs ds : List Char} (h : lastLine (cs ++ ds) = []) :
    lastLine ds = [] := by
  rw [lastLine_append] at h
  by_cases hmem : '\n' ∈ ds
  · rwa [if_pos hmem] at h
  · rw [if_neg hmem] at h
    rw [(List.append_eq_nil_iff.1 h).2]
    rfl

theorem Cursor.Reads.lastLine {x text : List Char} {c c' : Cursor} (h : c.Reads text c')
    (hx : x = [] ∨ lastLine c.rest = []) : x = [] ∨ ScriptMachine.lastLine c'.rest = [] := by
  refine hx.imp_right fun hlast => ?_
  rw [h.rest] at hlast
  exact lastLine_of_append hlast

/-- Blank lines up to the end of a text are skipped, and then what follows them is read as from the
start of a line. Any other line tells the same margin, whatever follows. -/
theorem indentation_append {comment : Bool} {width : Nat} {pos pos' : Position} {v x : List Char}
    (hx : x = [] ∨ lastLine v = []) (hstart : v = [] → x ≠ [] → comment = false ∧ width = 0) :
    (∃ c p, indentation comment width pos v = .ok (none, c) ∧ c.rest = [] ∧
      indentation comment width pos' (v ++ x) = indentation false 0 p x) ∨
    Agree (fun r r' => (∃ w, r.1 = some w ∧ r'.1 = some w) ∧ r.2.Extends x r'.2)
      (indentation comment width pos v) (indentation comment width pos' (v ++ x)) := by
  have htail {c : Char} {cs : List Char} (hx : x = [] ∨ lastLine (c :: cs) = []) :
      x = [] ∨ lastLine cs = [] :=
    hx.imp_right fun hlast => @lastLine_of_append [c] cs hlast
  -- A line that has begun does not end with the first part of the text.
  have hmore {c : Char} {cs : List Char} (hx : x = [] ∨ lastLine (c :: cs) = []) (hc : c ≠ '\n')
      {P : Prop} : cs = [] → x ≠ [] → P := by
    rintro rfl hne
    have hlast := hx.resolve_left hne
    rw [lastLine_cons, if_neg (by simp), if_neg hc] at hlast
    exact nomatch hlast
  fun_induction indentation comment width pos v generalizing pos' with
  | case1 comment width pos =>
    refine .inl ⟨_, pos', rfl, rfl, ?_⟩
    by_cases hne : x = []
    · subst hne
      rfl
    · obtain ⟨rfl, rfl⟩ := hstart rfl hne
      rfl
  | case2 comment width pos cs ih =>
    rw [List.cons_append, indentation, if_pos rfl]
    exact ih (htail hx) fun _ _ => ⟨rfl, rfl⟩
  | case3 width pos c cs hc ih =>
    rw [List.cons_append, indentation, if_neg hc, if_pos rfl]
    exact ih (htail hx) (hmore hx hc)
  | case4 comment width pos cs hcomment hc ih =>
    rw [List.cons_append, indentation, if_neg hc, if_neg hcomment, if_pos rfl]
    exact ih (htail hx) (hmore hx hc)
  | case5 comment width pos cs hcomment hc hblank ih =>
    rw [List.cons_append, indentation, if_neg hc, if_neg hcomment, if_neg hblank, if_pos rfl]
    exact ih (htail hx) (hmore hx hc)
  | case6 comment width pos cs hcomment hc hblank hreturn =>
    rw [List.cons_append, indentation, if_neg hc, if_neg hcomment, if_neg hblank, if_neg hreturn,
      if_pos rfl]
    exact .inr (.error rfl)
  | case7 comment width pos c cs hc hcomment hblank hreturn htab hopens ih =>
    have hparted := Parted.of_lastLine hx (by simp)
    rw [← hparted.opensComment] at hopens
    rw [List.cons_append] at hopens ⊢
    rw [indentation, if_neg hc, if_neg hcomment, if_neg hblank, if_neg hreturn, if_neg htab,
      if_pos hopens]
    exact ih (htail hx) (hmore hx hc)
  | case8 comment width pos c cs hc hcomment hblank hreturn htab hopens =>
    have hparted := Parted.of_lastLine hx (by simp)
    rw [← hparted.opensComment] at hopens
    rw [List.cons_append] at hopens ⊢
    rw [indentation, if_neg hc, if_neg hcomment, if_neg hblank, if_neg hreturn, if_neg htab,
      if_neg hopens]
    exact .inr (.ok ⟨⟨width, rfl, rfl⟩, rfl⟩)

/-! ## Steps and whole scans -/

namespace Scan

variable {x : List Char} {s s' : Scan}

/-- Between two lines, a scan depends on the margin that is found. -/
theorem lineIndent_of_indentation {p : Position} {cs : List Char} (outside : s.lineStart = true)
    (h : indentation false 0 s.cursor.pos s.cursor.rest = indentation false 0 p cs) :
    s.lineIndent = { s with cursor := ⟨cs, p⟩ }.lineIndent := by
  simp only [lineIndent, h, if_pos outside]

theorem step_of_lineIndent_eq {t : Scan} (h : s.lineIndent = t.lineIndent) : s.step = t.step := by
  simp only [step, h]

/-- At the end of the text nothing happens any more. -/
theorem step_of_rest_nil (h : s.cursor.rest = []) : s.step = .ok (false, s) := by
  obtain ⟨⟨rest, pos⟩, lineStart, brackets, indents, tokens⟩ := s
  subst h
  cases lineStart <;> rfl

/-- Both scans go on. -/
inductive BothGo (x : List Char) : Bool × Scan → Bool × Scan → Prop
  | intro {t t' : Scan} (h : t.Leads x t') : BothGo x (true, t) (true, t')

/-- A scan, and one that has more text ahead, do something: the first is at its end and the second
does what it does from there on, or both do the same. -/
def InStep (act : Scan → Except SyntaxError (Bool × Scan)) (x : List Char) (s s' : Scan) : Prop :=
  (∃ t t', act s = .ok (false, t) ∧ t.Leads x t' ∧ act s' = act t') ∨
    Agree (BothGo x) (act s) (act s')

namespace Leads

variable (h : s.Leads x s')

include h

theorem lineIndent (outside : s.lineStart = true) (hx : x = [] ∨ lastLine s.cursor.rest = []) :
    InStep Scan.lineIndent x s s' := by
  have outside' : s'.lineStart = true := h.lineStart.trans outside
  have hindentation :=
    @indentation_append false 0 s.cursor.pos s'.cursor.pos s.cursor.rest x hx fun _ _ => ⟨rfl, rfl⟩
  rw [← h.cursor] at hindentation
  rcases hindentation with ⟨c, p, hnone, hrest, hsame⟩ | hagree
  · left
    refine ⟨{ s with cursor := c }, { s' with cursor := ⟨x, p⟩ }, ?_, h.moveTo ?_, ?_⟩
    · simp only [Scan.lineIndent, outside, hnone]
      rfl
    · rw [Cursor.Extends, hrest, List.nil_append]
    · exact lineIndent_of_indentation outside' hsame
  · right
    unfold Scan.lineIndent
    rw [if_pos outside, if_pos outside']
    rcases hagree.elim with ⟨e, e', hfails, hfails', herror⟩ | ⟨⟨o, c⟩, ⟨o', c'⟩, hread, hread',
      ⟨w, ho, ho'⟩, hc⟩
    · rw [hfails, hfails']
      exact .error herror
    · dsimp only at ho ho'
      subst ho ho'
      rw [hread, hread']
      have hinside : { s with cursor := c, lineStart := false }.Leads x { s' with
          cursor := c', lineStart := false } :=
        ⟨hc, rfl, h.brackets, h.indents, h.kinds⟩
      exact (hinside.layout w).map fun _ _ ht => .intro ht

theorem step_inside (inside : s.lineStart = false) (hx : x = [] ∨ lastLine s.cursor.rest = []) :
    InStep Scan.step x s s' := by
  have inside' : s'.lineStart = false := h.lineStart.trans inside
  by_cases hrest : s.cursor.rest = []
  · exact .inl ⟨s, s', step_of_rest_nil hrest, h, rfl⟩
  · have hparted := Parted.of_lastLine hx hrest
    have hskip : s.skipBlanks.Leads x s'.skipBlanks :=
      h.moveTo (h.cursor.skip hparted (by decide)).2
    have hparted' : Parted s.skipBlanks.cursor.rest x := by
      rw [(s.cursor.reads_skip isBlank).rest] at hparted
      exact hparted.of_append fun hmem => absurd (List.mem_takeWhile_imp hmem) (by decide)
    cases hblank : s.skipBlanks.cursor.rest with
    | nil =>
      -- Only at the very end is there no line end to come.
      obtain rfl : x = [] := hparted'.resolve_right (by simp [hblank])
      have hblank' : s'.skipBlanks.cursor.rest = [] := hskip.cursor.rest_eq hblank
      refine .inl ⟨_, _, step_blank inside hblank, hskip, ?_⟩
      rw [step_blank inside' hblank', step_of_rest_nil hblank']
    | cons c cs =>
      have hblank' : s'.skipBlanks.cursor.rest = c :: (cs ++ x) := by
        rw [hskip.cursor, hblank]
        rfl
      right
      rw [step_lexeme inside hblank, step_lexeme inside' hblank']
      exact (hskip.lexeme hblank hparted').map fun _ _ ht => .intro ht

theorem step (hx : x = [] ∨ lastLine s.cursor.rest = []) : InStep Scan.step x s s' := by
  by_cases outside : s.lineStart = true
  · rcases h.lineIndent outside hx with ⟨t, t', hended, ht, hsame⟩ | hagree
    · exact .inl ⟨t, t', step_of_ended hended, ht, step_of_lineIndent_eq hsame⟩
    · rcases hagree.elim with ⟨e, e', hfails, hfails', herror⟩ | ⟨_, _, hindent, hindent', ⟨ht⟩⟩
      · right
        simp only [Scan.step, hfails, hfails']
        exact .error herror
      · obtain ⟨⟨text, hmove⟩, inside, -⟩ := move_lineIndent outside hindent
        rw [InStep, step_of_lineIndent outside hindent,
          step_of_lineIndent (h.lineStart.trans outside) hindent']
        exact ht.step_inside (inside rfl) (hmove.reads.lastLine hx)
  · exact h.step_inside (eq_false_of_ne_true outside) hx

/-- A scan that has more text ahead goes through the first part as the other one does, and then
on. -/
theorem complete (hx : x = [] ∨ lastLine s.cursor.rest = []) :
    (∃ e e', s.complete = .error e ∧ s'.complete = .error e' ∧ e'.fault = e.fault) ∨
      ∃ f f', s.complete = .ok f ∧ f.Leads x f' ∧ s'.complete = f'.complete := by
  -- Every step that goes on leaves less of the first part.
  induction hn : s.cursor.rest.length using Nat.strong_induction_on generalizing s s' with
  | _ n ih =>
    rcases h.step hx with ⟨t, t', hdone, ht, hsame⟩ | hagree
    · exact .inr ⟨t, t', complete_done hdone, ht, complete_congr hsame⟩
    · rcases hagree.elim with ⟨e, e', hfails, hfails', herror⟩ | ⟨_, _, hstep, hstep', ⟨ht⟩⟩
      · exact .inl ⟨e, e', complete_error hfails, complete_error hfails', herror⟩
      · obtain ⟨text, hmoves, -⟩ := moves_step hstep
        rw [complete_next hstep, complete_next hstep']
        exact ih _ (hn ▸ length_step_lt hstep) ht (hmoves.reads.lastLine hx) rfl

theorem finish : s'.finish.map Token.kind = s.finish.map Token.kind := by
  have hkinds := (h.pushNewline s.cursor.pos s'.cursor.pos).kinds
  simp only [Scan.finish, List.map_reverse, List.map_cons, List.map_append, List.map_map,
    hkinds, h.indents]
  rfl

end Leads

end Scan

/-! ## Line starts -/

namespace Scan

variable {s s' : Scan}

/-- At the end of a text that ends a line, and outside of brackets, a line starts. -/
def Settled (read : List Char) (s : Scan) : Prop :=
  s.cursor.rest = [] → lastLine read = [] → s.brackets = 0 → s.lineStart = true

theorem Move.settled {read text : List Char} (h : s.Move text s') (hs : s.Settled read) :
    s'.Settled (read ++ text) := by
  -- A move over a part of a line does not end there.
  have hlong {text : List Char} (hne : text ≠ []) (hone : '\n' ∉ text) (t : Scan) :
      t.Settled (read ++ text) := by
    intro _ hlast
    rw [lastLine_append, if_neg hone] at hlast
    exact absurd (List.append_eq_nil_iff.1 hlast).2 hne
  cases h with
  | blanks inside reads all =>
    by_cases htext : text = []
    · subst htext
      intro hrest hlast
      rw [List.append_nil] at hlast
      exact hs (reads.rest.trans hrest) hlast
    · exact hlong htext (fun hmem => absurd (all _ hmem) (by decide)) _
  | comment _ _ oneLine => exact hlong (by simp) (by simpa using oneLine) _
  | newline =>
    intro _ _ hbrackets
    rcases s.endLine_cases true with ⟨hopen, heq⟩ | ⟨-, heq, -⟩ | ⟨-, heq, -⟩
    · rw [heq] at hbrackets
      exact absurd hbrackets hopen
    · rw [heq]
    · rw [heq]
  | semicolon => exact hlong (by simp) (by decide) _
  | lexeme _ lexes => exact hlong lexes.lexeme.ne_nil lexes.lexeme.oneLine _
  | margin _ _ read laid =>
    intro hrest
    rw [(layout_keeps laid).1] at hrest
    exact absurd hrest (read.goes _ rfl)
  | ending outside => exact fun _ _ _ => outside

theorem Moves.settled {read text : List Char} (h : s.Moves text s') (hs : s.Settled read) :
    s'.Settled (read ++ text) := by
  induction h generalizing read with
  | refl =>
    rw [List.append_nil]
    exact hs
  | head move _ ih =>
    rw [← List.append_assoc]
    exact ih (move.settled hs)

/-- What closes the input opens no bracket. -/
theorem openBrackets_finish (s : Scan) : openBrackets s.finish = openBrackets s.tokens.reverse := by
  obtain ⟨closing, hfinish, -, hlayout⟩ := s.exists_closing
  rw [hfinish]
  clear hfinish
  induction closing using List.reverseRecOn with
  | nil => rw [List.append_nil]
  | append_singleton closing t ih =>
    rw [← List.append_assoc, openBrackets_concat,
      Token.brackets_of_not_lexical (hlayout t (by simp)).1]
    exact ih fun u hu => hlayout u (List.mem_append_left _ hu)

/-- Behind a text that ends a line and closes its brackets, a line starts. -/
theorem lineStart_of_complete {source : String} {f : Scan}
    (h : (Scan.start source).complete = .ok f) (hline : lastLine source.toList = [])
    (hopen : openBrackets f.finish = 0) : f.lineStart = true := by
  obtain ⟨hmoves, hend⟩ := moves_complete h
  have hordered : f.Ordered :=
    hmoves.keeps (fun _ _ _ hs hmove => hmove.ordered hs) (ordered_start source)
  have hsettled : f.Settled ([] ++ source.toList) := hmoves.settled fun _ _ _ => rfl
  refine hsettled hend hline ?_
  rw [hordered.brackets, ← openBrackets_finish, hopen]

end Scan

/-! ## Blank lines -/

/-- Spaces, and maybe a comment. -/
def BlankLine (line : String) : Prop :=
  ∃ (n : Nat) (comment : List Char), line.toList = List.replicate n ' ' ++ comment ∧
    (comment = [] ∨ ∃ text, comment = '-' :: '-' :: text ∧ '\n' ∉ text)

theorem indentation_spaces (n width : Nat) (pos : Position) (cs : List Char) :
    ∃ p, indentation false width pos (List.replicate n ' ' ++ cs) =
      indentation false (width + n) p cs := by
  induction n generalizing width pos with
  | zero => exact ⟨pos, rfl⟩
  | succ n ih =>
    obtain ⟨p, hp⟩ := ih (width + 1) (pos.after ' ')
    refine ⟨p, ?_⟩
    rw [List.replicate_succ, List.cons_append, indentation, if_neg (by decide), if_neg (by decide),
      if_pos rfl, hp, Nat.add_right_comm]
    rfl

theorem indentation_comment {text : List Char} (h : '\n' ∉ text) (width : Nat) (pos : Position)
    (cs : List Char) : ∃ p, indentation true width pos (text ++ '\n' :: cs) =
      indentation false 0 p cs := by
  induction text generalizing width pos with
  | nil => exact ⟨pos.after '\n', by rw [List.nil_append, indentation, if_pos rfl]⟩
  | cons c text ih =>
    rw [List.mem_cons, not_or] at h
    obtain ⟨p, hp⟩ := ih h.2 0 (pos.after c)
    exact ⟨p, by rw [List.cons_append, indentation, if_neg (Ne.symm h.1), if_pos rfl, hp]⟩

/-- A blank line is skipped. -/
theorem BlankLine.indentation {line : String} (h : BlankLine line) (pos : Position)
    (cs : List Char) : ∃ p, indentation false 0 pos (line.toList ++ '\n' :: cs) =
      ScriptMachine.indentation false 0 p cs := by
  obtain ⟨n, comment, hline, hcomment⟩ := h
  rw [hline, List.append_assoc]
  obtain ⟨p, hspaces⟩ := indentation_spaces n 0 pos (comment ++ '\n' :: cs)
  rw [hspaces]
  rcases hcomment with rfl | ⟨text, rfl, htext⟩
  · exact ⟨p.after '\n', by rw [List.nil_append, ScriptMachine.indentation, if_pos rfl]⟩
  · -- The second dash is a part of the comment.
    obtain ⟨p', hskip⟩ :=
      @indentation_comment ('-' :: text) (by simpa using htext) 0 (p.after '-') cs
    exact ⟨p', hskip⟩

/-- The text of some lines. -/
def unlines (lines : List String) : String := String.join (lines.map (· ++ "\n"))

theorem indentation_unlines {lines : List String} (h : ∀ line ∈ lines, BlankLine line)
    (pos : Position) (cs : List Char) :
    ∃ p, indentation false 0 pos ((unlines lines).toList ++ cs) = indentation false 0 p cs := by
  rw [unlines, String.toList_join]
  induction lines generalizing pos with
  | nil => exact ⟨pos, rfl⟩
  | cons line lines ih =>
    rw [List.map_cons, List.flatMap_cons, String.toList_append, List.append_assoc,
      List.append_assoc]
    obtain ⟨p, hp⟩ := (h line List.mem_cons_self).indentation pos
      (List.flatMap String.toList (lines.map (· ++ "\n")) ++ cs)
    obtain ⟨p', hp'⟩ := ih (fun line hline => h line (List.mem_cons_of_mem _ hline)) p
    exact ⟨p', hp.trans hp'⟩

/-- Where a line starts, a scan skips blank lines. -/
theorem Scan.complete_unlines {s : Scan} {lines : List String} {cs : List Char}
    (outside : s.lineStart = true) (h : ∀ line ∈ lines, BlankLine line)
    (hrest : s.cursor.rest = (unlines lines).toList ++ cs) :
    ∃ p, s.complete = { s with cursor := ⟨cs, p⟩ }.complete := by
  obtain ⟨p, hp⟩ := indentation_unlines h s.cursor.pos cs
  rw [← hrest] at hp
  exact ⟨p, complete_congr (step_of_lineIndent_eq (lineIndent_of_indentation outside hp))⟩

/-! ## Whole texts -/

/-- What a text is read as, without places: the kinds of the tokens, each with its text, or what is
wrong. -/
def outline : Except SyntaxError (List Token) → Except SyntaxFault (List TokenKind)
  | .ok tokens => .ok (tokens.map Token.kind)
  | .error e => .error e.fault

namespace Scan.Leads

variable {x y : List Char} {s s₁ s₂ : Scan}

/-- Scans that differ in places only are read as the same. -/
theorem outline_eq (h : s₁.Leads [] s₂) :
    outline (s₂.complete.map Scan.finish) = outline (s₁.complete.map Scan.finish) := by
  rcases h.complete (.inl rfl) with ⟨e, e', hfails, hfails', herror⟩ | ⟨f, f', hdone, hf, hsame⟩
  · rw [hfails, hfails']
    exact congrArg Except.error herror
  · have hend : f'.cursor.rest = [] := hf.cursor.rest_eq (moves_complete hdone).2
    rw [hdone, hsame, complete_done (step_of_rest_nil hend)]
    exact congrArg Except.ok hf.finish

variable (h₁ : s.Leads x s₁) (h₂ : s.Leads y s₂)

include h₁ h₂

/-- Two texts that begin with the same lines are read as the same if that holds of what follows
these. -/
theorem outline_eq_of_rest (hlast : lastLine s.cursor.rest = [])
    (hrest : ∀ f f₁ f₂, s.complete = .ok f → f.Leads x f₁ → f.Leads y f₂ →
      outline (f₂.complete.map Scan.finish) = outline (f₁.complete.map Scan.finish)) :
    outline (s₂.complete.map Scan.finish) = outline (s₁.complete.map Scan.finish) := by
  rcases h₁.complete (.inr hlast) with ⟨e, e₁, hfails, hfails₁, herror₁⟩ | ⟨f, f₁,
    hdone, hf₁, hsame₁⟩
  · rcases h₂.complete (.inr hlast) with ⟨e', e₂, hfails', hfails₂, herror₂⟩ | ⟨f, f₂, hdone, -⟩
    · obtain rfl : e = e' := Except.error.inj (hfails.symm.trans hfails')
      rw [hfails₁, hfails₂]
      exact congrArg Except.error (herror₂.trans herror₁.symm)
    · exact absurd (hfails.symm.trans hdone) (by simp)
  · rcases h₂.complete (.inr hlast) with ⟨e, e₂, hfails, -⟩ | ⟨f', f₂, hdone', hf₂, hsame₂⟩
    · exact absurd (hfails.symm.trans hdone) (by simp)
    · obtain rfl : f = f' := Except.ok.inj (hdone.symm.trans hdone')
      rw [hsame₁, hsame₂]
      exact hrest f f₁ f₂ hdone hf₁ hf₂

/-- Two scans that have more text ahead than a third one differ in what they have ahead. -/
theorem side {c : Cursor} (hc : s₁.cursor.Extends [] c) : s₁.Leads [] { s₂ with cursor := c } :=
  ⟨hc, h₂.lineStart.trans h₁.lineStart.symm, h₂.brackets.trans h₁.brackets.symm,
    h₂.indents.trans h₁.indents.symm, h₂.kinds.trans h₁.kinds.symm⟩

end Scan.Leads

/-- **Blank lines and comments do not matter.** Before any line that starts outside of brackets,
lines of spaces and comments can be inserted: the text is read as the same tokens, or as wrong in
the same way. -/
theorem tokenize_insert {before after : String} {lines : List String}
    (hline : before = "" ∨ ∃ text, before = text ++ "\n")
    (hopen : ∀ tokens, tokenize before = .ok tokens → openBrackets tokens = 0)
    (hlines : ∀ line ∈ lines, BlankLine line) :
    outline (tokenize (before ++ unlines lines ++ after)) =
      outline (tokenize (before ++ after)) := by
  have hlast : lastLine before.toList = [] := by
    rcases hline with rfl | ⟨text, rfl⟩
    · rfl
    · rw [String.toList_append, lastLine_append]
      rfl
  have hplain : (Scan.start before).Leads after.toList (Scan.start (before ++ after)) :=
    ⟨String.toList_append, rfl, rfl, rfl, rfl⟩
  have hmore : (Scan.start before).Leads ((unlines lines).toList ++ after.toList)
      (Scan.start (before ++ unlines lines ++ after)) := by
    refine ⟨?_, rfl, rfl, rfl, rfl⟩
    show (before ++ unlines lines ++ after).toList =
      before.toList ++ ((unlines lines).toList ++ after.toList)
    rw [String.toList_append, String.toList_append, List.append_assoc]
  rw [Scan.tokenize_eq, Scan.tokenize_eq]
  refine hplain.outline_eq_of_rest hmore hlast fun f f₁ f₂ hdone hf₁ hf₂ => ?_
  have hend : f.cursor.rest = [] := (Scan.moves_complete hdone).2
  have outside : f.lineStart = true := by
    refine Scan.lineStart_of_complete hdone hlast (hopen _ ?_)
    rw [Scan.tokenize_eq, hdone]
    rfl
  -- Behind the inserted lines both scans are before the same text.
  obtain ⟨p, hskip⟩ :=
    Scan.complete_unlines (hf₂.lineStart.trans outside) hlines (hf₂.cursor.rest_eq hend)
  rw [hskip]
  apply (hf₁.side hf₂ _).outline_eq
  rw [Cursor.Extends, hf₁.cursor.rest_eq hend, List.append_nil]

/-- Three lines between a block that ends in a semicolon and its `else`, each with another margin,
and a bracket in a comment. -/
theorem tokenize_insert_else :
    outline (tokenize ("if a:\n  b;\n" ++ unlines ["      -- c", "", " -- d ("] ++ "else: e")) =
        outline (tokenize ("if a:\n  b;\n" ++ "else: e")) ∧
      outline (tokenize ("if a:\n  b;\n" ++ "else: e")) = .ok [.ifKw, .name "a", .colon, .newline,
        .indent, .name "b",
        .newline, .dedent, .elseKw, .colon, .name "e", .newline, .endOfInput] := by
  have hopen : (tokenize "if a:\n  b;\n").map openBrackets = Except.ok 0 := by decide +kernel
  refine ⟨tokenize_insert (.inr ⟨"if a:\n  b;", rfl⟩) (fun tokens htokens => ?_) fun line hmem =>
    ?_, by decide +kernel⟩
  · rw [htokens] at hopen
    exact Except.ok.inj hopen
  · simp only [List.mem_cons, List.not_mem_nil, or_false] at hmem
    rcases hmem with rfl | rfl | rfl
    · exact ⟨6, "-- c".toList, by decide, .inr ⟨" c".toList, by decide, by decide⟩⟩
    · exact ⟨0, [], rfl, .inl rfl⟩
    · exact ⟨1, "-- d (".toList, by decide, .inr ⟨" d (".toList, by decide, by decide⟩⟩

end ScriptMachine
