import ScriptMachine.Library
import ScriptMachine.Proofs.Blame
import ScriptMachine.Proofs.Scanning
/-!
# Every number literal is read

Number literals are described twice: the scanner looks for their end, and the grammar asks what
number a text denotes. The scanner is the stricter of the two, so the grammar never stops at a
number.

* `Double.exists_ofLiteral?`: every number literal denotes a number;
* `lexeme_of_mem_tokenize`: tokens of a text have lexemes;
* `literals_denote`: **only the scanner finds malformed numbers**.
-/

namespace ScriptMachine

/-! ## Runs of digits -/

variable {cs : List Char}

theorem Digits.exists_cons {isDigit : Char → Bool} (h : Digits isDigit cs) :
    ∃ c ds, cs = c :: ds ∧ isDigit c = true := by
  obtain ⟨c, ds, rfl⟩ := List.exists_cons_of_ne_nil h.nonempty
  exact ⟨c, ds, rfl, h.all c List.mem_cons_self⟩

/-- A run of digits ends before a character that is none. -/
theorem Digits.span {isDigit : Char → Bool} (h : Digits isDigit cs) (rest : List Char)
    (hrest : ∀ c, rest.head? = some c → isDigit c = false) :
    (cs ++ rest).takeWhile isDigit = cs ∧ (cs ++ rest).dropWhile isDigit = rest := by
  rw [List.takeWhile_append_of_pos h.all, List.dropWhile_append_of_pos h.all]
  cases rest with
  | nil => simp
  | cons c rest => simp [hrest c rfl]

theorem ne_of_isDigit {c d : Char} (h : c.isDigit = true) (hd : d.isDigit = false) : c ≠ d := by
  rintro rfl
  exact absurd (h.symm.trans hd) (by decide)

variable {c : Char}

namespace Numeral

theorem Exponent.head_cases (h : Exponent cs) (hc : cs.head? = some c) : c = 'e' ∨ c = 'E' := by
  cases h with
  | missing => exact nomatch hc
  | mark letter =>
    cases hc
    exact letter

/-- The first character behind the digits of a decimal number. -/
theorem behind_head_cases {fraction exponent : List Char} (behind : Fraction fraction)
    (scale : Exponent exponent) (hc : (fraction ++ exponent).head? = some c) :
    c = '.' ∨ c = 'e' ∨ c = 'E' := by
  cases behind with
  | missing => exact .inr (scale.head_cases hc)
  | point =>
    cases hc
    exact .inl rfl

end Numeral

namespace Double

/-! ## Decimal numbers -/

theorem natural?_of_digits (h : Digits Char.isDigit cs) :
    exponentOf?.natural? cs = some (digitsToNat cs) := by
  have hall : cs.all Char.isDigit = true := List.all_eq_true.2 h.all
  simp [exponentOf?.natural?, h.nonempty, hall]

theorem exists_exponentOf? {sign ds : List Char} (signed : sign = [] ∨ sign = ['+'] ∨ sign = ['-'])
    (digits : Digits Char.isDigit ds) : ∃ e, exponentOf? (sign ++ ds) = some e := by
  have hnatural := natural?_of_digits digits
  rcases signed with rfl | rfl | rfl
  · obtain ⟨c, cs, rfl, hc⟩ := digits.exists_cons
    have hminus : c ≠ '-' := ne_of_isDigit hc (by decide)
    have hplus : c ≠ '+' := ne_of_isDigit hc (by decide)
    exact ⟨digitsToNat (c :: cs), by simp [exponentOf?, hminus, hplus, hnatural]⟩
  · exact ⟨digitsToNat ds, by simp [exponentOf?, hnatural]⟩
  · exact ⟨-(digitsToNat ds : Int), by simp [exponentOf?, hnatural]⟩

/-- The parts of a decimal number are found again. -/
theorem exists_unsignedDecimal? (negative : Bool) {whole fraction exponent : List Char}
    (digits : Digits Char.isDigit whole) (behind : Numeral.Fraction fraction)
    (scale : Numeral.Exponent exponent) :
    ∃ e : Int, (exponent = [] → e = 0) ∧
      unsignedDecimal? negative (whole ++ (fraction ++ exponent)) =
      some (ofDecimal negative (digitsToNat (whole ++ fraction.drop 1))
        (e - (fraction.drop 1).length)) := by
  have hwhole := digits.span (fraction ++ exponent) fun c hc => by
    rcases Numeral.behind_head_cases behind scale hc with rfl | rfl | rfl <;> decide
  obtain ⟨c, cs, hcons, -⟩ := digits.exists_cons
  have hnonempty : whole.isEmpty = false := by rw [hcons]; rfl
  unfold unsignedDecimal?
  simp only [hwhole, hnonempty, Bool.false_and, Bool.false_eq_true, if_false]
  cases behind with
  | missing =>
    cases scale with
    | missing => exact ⟨0, fun _ => rfl, by simp⟩
    | mark letter signed ds =>
      obtain ⟨e, he⟩ := exists_exponentOf? signed ds
      exact ⟨e, nofun, by rcases letter with rfl | rfl <;> simp [he]⟩
  | point ds =>
    -- The digits of the fraction end where the exponent begins.
    have hspan := ds.span exponent fun c hc => by
      rcases scale.head_cases hc with rfl | rfl <;> decide
    simp only [List.cons_append, hspan]
    cases scale with
    | missing => exact ⟨0, fun _ => rfl, by simp⟩
    | mark letter signed ds' =>
      obtain ⟨e, he⟩ := exists_exponentOf? signed ds'
      exact ⟨e, nofun, by rcases letter with rfl | rfl <;> simp [he]⟩

theorem toLower_of_isDigit (h : c.isDigit = true) : c.toLower = c := by
  simp only [Char.isDigit, Bool.and_eq_true, decide_eq_true_eq, ge_iff_le,
    UInt32.le_iff_toNat_le] at h
  unfold Char.toLower
  split
  case isTrue hupper =>
    simp only [ge_iff_le, UInt32.le_iff_toNat_le] at hupper
    simp at h hupper
    omega
  case isFalse => rfl

/-- The name of a special number does not begin with a digit. -/
theorem special?_of_isDigit (negative : Bool) (cs : List Char) (hc : c.isDigit = true) :
    special? negative (c :: cs) = none := by
  have hword (word : String) {first : Char} {more : List Char}
      (hfirst : word.toList = first :: more) (hletter : first.isDigit = false) :
          String.ofList ((c :: cs).map Char.toLower) ≠ word := by
    rintro rfl
    rw [String.toList_ofList, List.map_cons, toLower_of_isDigit hc, List.cons.injEq] at hfirst
    exact ne_of_isDigit hc hletter hfirst.1
  have hinf := hword "inf" rfl rfl
  have hinfinity := hword "infinity" rfl rfl
  have hnan := hword "nan" rfl rfl
  simp only [special?, hinf, hinfinity, hnan, false_or, if_false]

/-- A text that begins with a digit, and is not hexadecimal, is read as an unsigned decimal
number. -/
theorem ofLiteral?_decimal {whole fraction exponent : List Char}
    (digits : Digits Char.isDigit whole) (behind : Numeral.Fraction fraction)
    (scale : Numeral.Exponent exponent) :
    ofLiteral? (String.ofList (whole ++ (fraction ++ exponent))) =
      unsignedDecimal? false (whole ++ (fraction ++ exponent)) := by
  obtain ⟨c, cs, rfl, hc⟩ := digits.exists_cons
  have hsecond (d : Char) (hd : (cs ++ (fraction ++ exponent)).head? = some d) :
      d ≠ 'x' ∧ d ≠ 'X' := by
    cases cs with
    | nil => rcases Numeral.behind_head_cases behind scale hd with rfl | rfl | rfl <;> decide
    | cons e cs =>
      cases hd
      have he := digits.all d (by simp)
      exact ⟨ne_of_isDigit he (by decide), ne_of_isDigit he (by decide)⟩
  rw [List.cons_append]
  generalize cs ++ (fraction ++ exponent) = rest at hsecond ⊢
  have hdecimal : decimal? (c :: rest) = unsignedDecimal? false (c :: rest) := by
    have hminus : c ≠ '-' := ne_of_isDigit hc (by decide)
    have hplus : c ≠ '+' := ne_of_isDigit hc (by decide)
    simp [decimal?, hminus, hplus, special?_of_isDigit false rest hc]
  unfold ofLiteral?
  rw [String.toList_ofList, ← hdecimal]
  split
  case h_1 heq =>
    cases heq
    exact absurd rfl (hsecond _ rfl).1
  case h_2 heq =>
    cases heq
    exact absurd rfl (hsecond _ rfl).2
  case h_3 => rfl

/-! ## Hexadecimal numbers -/

theorem isDigit_iff : c.isDigit = true ↔ '0' ≤ c ∧ c ≤ '9' := by
  simp [Char.isDigit, Char.le_def]

theorem exists_hexDigit? (h : isHexDigit c = true) : ∃ d, hexDigit? c = some d := by
  simp only [isHexDigit, Bool.or_eq_true, Bool.and_eq_true, decide_eq_true_eq, isDigit_iff] at h
  unfold hexDigit?
  split
  case isTrue => exact ⟨_, rfl⟩
  case isFalse hdecimal =>
    split
    case isTrue => exact ⟨_, rfl⟩
    case isFalse hlower => exact ⟨_, if_pos (h.resolve_left (not_or.2 ⟨hdecimal, hlower⟩))⟩

theorem exists_hexFold? (h : ∀ c ∈ cs, isHexDigit c = true) (acc : Nat) :
    ∃ n, hexFold? acc cs = some n := by
  induction cs generalizing acc with
  | nil => exact ⟨acc, rfl⟩
  | cons c cs ih =>
    obtain ⟨d, hd⟩ := exists_hexDigit? (h c List.mem_cons_self)
    simp only [hexFold?, hd]
    exact ih (fun e he => h e (List.mem_cons_of_mem c he)) _

theorem ofLiteral?_hexadecimal {x : Char} (hx : x = 'x' ∨ x = 'X') (ds : List Char) :
    ofLiteral? (String.ofList ('0' :: x :: ds)) = (hexFold? 0 ds).map ofNat := by
  rcases hx with rfl | rfl <;> simp [ofLiteral?]

/-- **Every number literal denotes a number.** -/
theorem exists_ofLiteral? (h : Numeral cs) : ∃ x, ofLiteral? (String.ofList cs) = some x := by
  cases h with
  | hexadecimal letter digits =>
    obtain ⟨n, hn⟩ := exists_hexFold? digits.all 0
    exact ⟨ofNat n, by rw [ofLiteral?_hexadecimal letter, hn]; rfl⟩
  | decimal digits behind scale =>
    obtain ⟨e, -, he⟩ := exists_unsignedDecimal? false digits behind scale
    exact ⟨_, (ofLiteral?_decimal digits behind scale).trans he⟩

end Double

/-! ## Tokens of a text -/

/-- Tokens that stand for text have a lexeme. -/
def Scan.Worded (s : Scan) : Prop :=
  ∀ t ∈ s.tokens, t.kind.isLexical = true → ∃ text, t.kind.Lexeme text

theorem Scan.Move.worded {s s' : Scan} {text : List Char} (h : s.Move text s') (hs : s.Worded) :
    s'.Worded := by
  intro t ht hlexical
  rcases h.adds with ⟨⟨new, htokens, hnew⟩, -⟩ | ⟨-, kind, htokens, hlexes⟩
  · rw [htokens, List.mem_append] at ht
    rcases ht with ht | ht
    · exact absurd ((hnew t ht).symm.trans hlexical) (by decide)
    · exact hs t ht hlexical
  · rw [htokens, List.mem_cons] at ht
    rcases ht with rfl | ht
    · exact ⟨text, hlexes.lexeme⟩
    · exact hs t ht hlexical

section

variable {source : String} {tokens : List Token} (h : tokenize source = .ok tokens) {t : Token}
    (ht : t ∈ tokens)

include h ht

theorem lexeme_of_mem_tokenize (hlexical : t.kind.isLexical = true) :
    ∃ text, t.kind.Lexeme text := by
  obtain ⟨f, hcomplete, rfl⟩ := Scan.exists_complete h
  have hworded : f.Worded :=
    (Scan.moves_complete hcomplete).1.keeps (fun _ _ _ hs hmove => hmove.worded hs)
      (by simp [Scan.Worded, Scan.start])
  obtain ⟨closing, hfinish, -, hclosing⟩ := f.exists_closing
  rw [hfinish, List.mem_append, List.mem_reverse] at ht
  rcases ht with ht | ht
  · exact hworded t ht hlexical
  · exact absurd ((hclosing t ht).1.symm.trans hlexical) (by decide)

/-- The text of a number token is a number literal. -/
theorem exists_ofLiteral?_of_mem_tokenize {text : String} (hkind : t.kind = .number text) :
    ∃ x, Double.ofLiteral? text = some x := by
  obtain ⟨cs, hlexeme⟩ := lexeme_of_mem_tokenize h ht (by rw [hkind]; rfl)
  rw [hkind] at hlexeme
  cases hlexeme with
  | number literal => exact Double.exists_ofLiteral? literal
  | fixed spelled => exact nomatch spelled

end

/-! ## Errors -/

/-- If every number can be read, then the grammar has only reasons of its own to stop. -/
theorem parse_stage {tokens : List Token} {e : SyntaxError}
    (hnumbers : ∀ t ∈ tokens, ∀ text, t.kind = .number text → ∃ x, Double.ofLiteral? text = some x)
    (h : parse tokens = .error e) : e.stage = .parse := by
  obtain ⟨taken, rest, rfl, hstops⟩ := parse_stops h
  cases hstops with
  | grammar stage => exact stage
  | @number text found unread =>
    cases rest with
    | nil => exact nomatch found
    | cons t rest =>
      obtain ⟨x, hx⟩ := hnumbers t (by simp) text found
      exact nomatch unread.symm.trans hx

/-- A text that goes another way than `front` within its length. -/
def Departs (front : List Char) (text : String) : Prop :=
  ∃ cs more, text.toList = cs ++ more ∧ cs.length = front.length ∧ cs ≠ front

namespace Departs

variable {front : List Char} {text : String}

theorem of_take (text : String)
    (h : (text.toList.take front.length).length = front.length ∧
      text.toList.take front.length ≠ front) :
    Departs front text :=
  ⟨_, _, (List.take_append_drop front.length _).symm, h⟩

theorem append (h : Departs front text) (more : String) : Departs front (text ++ more) := by
  obtain ⟨cs, ds, htext, hcs⟩ := h
  exact ⟨cs, ds ++ more.toList, by rw [String.toList_append, htext, List.append_assoc], hcs⟩

theorem ne (h : Departs front text) {other : String}
    (hother : other.toList.take front.length = front) : text ≠ other := by
  rintro rfl
  obtain ⟨cs, ds, htext, hlength, hne⟩ := h
  rw [htext, ← hlength, List.take_left] at hother
  exact hne hother

end Departs

theorem TokenKind.departs_describe (kind : TokenKind) : Departs ['M', 'a'] kind.describe := by
  cases kind with
  | number => exact .of_take "number" (by decide +kernel)
  | string => exact .of_take "string" (by decide +kernel)
  | name => exact .of_take "identifier" (by decide +kernel)
  | _ => exact .of_take _ (by decide +kernel)

/-- No other fault has the wording of this one. -/
theorem SyntaxFault.departs_message {fault : SyntaxFault} (h : fault ≠ .malformedNumber) :
    Departs ['M', 'a'] fault.message := by
  cases fault with
  | malformedNumber => contradiction
  | notInSingleLine keyword => exact keyword.departs_describe.append _
  -- The other messages begin with a fixed text, and more texts are appended to most of them.
  | tabInIndentation | dedentMismatch | unterminatedString | unknownEscape | unexpectedIndentation
  | expectedBlock
  | invalidTarget | tooManyLevels | returnOutsideFunction | breakOutsideLoop | memberOfValue =>
    exact .of_take _ (by decide +kernel)
  | unknownCharacter | expectedEndOfStatement | expectedExpression | assignToModule
  | assignToBuiltin | alreadyBound
  | unknownModule | cyclicImport | duplicateParameter | unassignable | undefinedSymbol
  | tooManyArguments =>
    exact .append (.append (.of_take _ (by decide +kernel)) _) _
  | moduleAsValue | unknownMember =>
    exact .append (.append (.append (.append (.of_take _ (by decide +kernel)) _) _) _) _
  | expected =>
    exact .append
      (.append (.append (.append (.append (.append (.of_take _ (by decide +kernel)) _) _) _) _) _) _

/-- What the scanner turns down is not compiled. -/
theorem compileSource_error {σ : Type} {source : String} {e : SyntaxError}
    (h : tokenize source = .error e) (call : Callback σ) (name : String) (m : Machine σ) :
    compileSource call source name m = .failed e m := by
  simp only [compileSource, h]
  rfl

/-- **Only the scanner finds malformed numbers.** Every number token of a text denotes a number, so
the grammar stops for reasons of its own; and if a text is rejected because of a malformed number,
the scanner rejected it. -/
theorem literals_denote {σ : Type} (source : String) :
    (∀ tokens, tokenize source = .ok tokens →
      (∀ t ∈ tokens, ∀ text, t.kind = .number text → ∃ x, Double.ofLiteral? text = some x) ∧
      ∀ e, parse tokens = .error e → e.stage = .parse) ∧
    ∀ (call : Callback σ) (name : String) (m k : Machine σ) (e : SyntaxError),
      compileSource call source name m = .failed e k → e.message = "Malformed number literal." →
        tokenize source = .error e := by
  have hnumbers {tokens : List Token} (htokens : tokenize source = .ok tokens) (t : Token)
      (ht : t ∈ tokens) (text : String) (hkind : t.kind = .number text) :
          ∃ x, Double.ofLiteral? text = some x :=
    exists_ofLiteral?_of_mem_tokenize htokens ht hkind
  refine ⟨fun tokens htokens => ⟨hnumbers htokens, fun e => parse_stage (hnumbers htokens)⟩, ?_⟩
  intro call name m k e h hmessage
  have hstage : e.stage = .token := by
    have hfault : e.fault = .malformedNumber := by
      by_contra hne
      exact (SyntaxFault.departs_message hne).ne (by decide +kernel) hmessage
    rw [SyntaxError.stage, hfault]
    rfl
  cases htokens : tokenize source with
  | error e' =>
    rw [compileSource_error htokens] at h
    cases h
    rfl
  | ok tokens =>
    cases hparse : parse tokens with
    | error e' =>
      simp only [compileSource, htokens, hparse] at h
      cases h
      cases hstage.symm.trans (parse_stage (hnumbers htokens) hparse)
    | ok program =>
      simp only [compileSource, htokens, hparse] at h
      cases hstage.symm.trans (compileProgram_stage call source name h)

/-- A number beyond the range, one below it and a hexadecimal one, in a text that ends too early;
and an exponent without digits. -/
theorem literals_denote_extremes :
    (∃ tokens e, tokenize "1e999 + 0X1f * 2.50E-400 -" = .ok tokens ∧
        ⟨.number "2.50E-400", ⟨1, 16, 15⟩⟩ ∈ tokens ∧
        (∃ x, Double.ofLiteral? "2.50E-400" = some x) ∧ parse tokens = .error e ∧
        e.stage = .parse) ∧
      ∃ e k, compileSource (Host.run 1) "x = 1e+" "" (Machine.new {} () : Machine Unit) =
        .failed e k ∧ e.message = "Malformed number literal." ∧ tokenize "x = 1e+" = .error e := by
  constructor
  · obtain ⟨tokens, htokens, hmem, hfails⟩ :
        ∃ tokens, tokenize "1e999 + 0X1f * 2.50E-400 -" = .ok tokens ∧
        ⟨.number "2.50E-400", ⟨1, 16, 15⟩⟩ ∈ tokens ∧ (parse tokens).isOk = false :=
      ⟨[⟨.number "1e999", ⟨1, 1, 0⟩⟩, ⟨.plus, ⟨1, 7, 6⟩⟩, ⟨.number "0X1f", ⟨1, 9, 8⟩⟩,
        ⟨.star, ⟨1, 14, 13⟩⟩,
        ⟨.number "2.50E-400", ⟨1, 16, 15⟩⟩, ⟨.minus, ⟨1, 26, 25⟩⟩, ⟨.newline, ⟨1, 27, 26⟩⟩,
        ⟨.endOfInput, ⟨1, 27, 26⟩⟩], by decide +kernel, by simp, by decide +kernel⟩
    obtain ⟨hnumbers, hstage⟩ := (@literals_denote Unit _).1 tokens htokens
    cases hparse : parse tokens with
    | error e => exact ⟨tokens, e, htokens, hmem, hnumbers _ hmem _ rfl, hparse, hstage e hparse⟩
    | ok program =>
      rw [hparse] at hfails
      cases hfails
  · have htokens : tokenize "x = 1e+" = .error ⟨.malformedNumber, ⟨1, 5, 4⟩⟩ := by decide +kernel
    have hcompile := compileSource_error htokens (Host.run 1) "" (Machine.new {} () : Machine Unit)
    exact ⟨_, _, hcompile, rfl, (literals_denote _).2 _ _ _ _ _ hcompile rfl⟩

end ScriptMachine
