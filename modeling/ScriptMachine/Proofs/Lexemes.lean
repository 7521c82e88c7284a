import Mathlib.Data.List.TakeWhile
import ScriptMachine.Token.Scan
/-!
# Lexemes

How each token looks in a source text, said without the scanner, and what the scanner takes off the
front of a text: always a lexeme of the token that it returns.

* `Numeral`, `Quoted`: number literals, and the bodies of string literals with the texts that they
  denote;
* `TokenKind.Lexeme`: the texts of a token;
* `Cursor.Lexes`: a cursor moves over the lexeme of a token.
-/

namespace ScriptMachine

/-! ## Texts of tokens -/

/-- At least one digit, and nothing else. -/
structure Digits (isDigit : Char → Bool) (cs : List Char) : Prop where
  nonempty : cs ≠ []
  all (c : Char) (h : c ∈ cs) : isDigit c = true

/-- The part of a number behind its point. -/
inductive Numeral.Fraction : List Char → Prop
  | missing : Numeral.Fraction []
  | point {ds : List Char} (digits : Digits Char.isDigit ds) : Numeral.Fraction ('.' :: ds)

/-- The exponent of a number, with or without a sign. -/
inductive Numeral.Exponent : List Char → Prop
  | missing : Numeral.Exponent []
  | mark {e : Char} {sign ds : List Char} (letter : e = 'e' ∨ e = 'E')
    (signed : sign = [] ∨ sign = ['+'] ∨ sign = ['-']) (digits : Digits Char.isDigit ds) :
    Numeral.Exponent (e :: (sign ++ ds))

/-- Number literals. -/
inductive Numeral : List Char → Prop
  | hexadecimal {x : Char} {ds : List Char} (letter : x = 'x' ∨ x = 'X')
    (digits : Digits isHexDigit ds) : Numeral ('0' :: x :: ds)
  | decimal {whole fraction exponent : List Char} (digits : Digits Char.isDigit whole)
    (behind : Numeral.Fraction fraction) (scale : Numeral.Exponent exponent) :
    Numeral (whole ++ (fraction ++ exponent))

/-- The letters behind a backslash, and the characters that they stand for. -/
def escapes : List (Char × Char) :=
  [('n', '\n'), ('t', '\t'), ('r', '\r'), ('0', '\x00'), ('\\', '\\'), ('\'', '\''), ('"', '"')]

/-- What stands between two quotes, and the text that it denotes: escapes are replaced, and all else
stands for itself. -/
inductive Quoted (quote : Char) : List Char → List Char → Prop
  | nil : Quoted quote [] []
  | plain {c : Char} {body text : List Char} (other : c ≠ quote) (raw : c ≠ '\\')
    (more : Quoted quote body text) : Quoted quote (c :: body) (c :: text)
  | escape {e d : Char} {body text : List Char} (known : (e, d) ∈ escapes)
    (more : Quoted quote body text) : Quoted quote ('\\' :: e :: body) (d :: text)

namespace TokenKind

/-- The text of a keyword, an operator or a punctuation mark. Other tokens have none of their
own. -/
def spelling? : TokenKind → Option String
  | .importKw => some "import"
  | .varKw => some "var"
  | .funcKw => some "func"
  | .returnKw => some "return"
  | .ifKw => some "if"
  | .elseKw => some "else"
  | .whileKw => some "while"
  | .breakKw => some "break"
  | .passKw => some "pass"
  | .andKw => some "and"
  | .orKw => some "or"
  | .notKw => some "not"
  | .trueKw => some "true"
  | .falseKw => some "false"
  | .noneKw => some "none"
  | .plus => some "+"
  | .minus => some "-"
  | .star => some "*"
  | .slash => some "/"
  | .percent => some "%"
  | .caret => some "^"
  | .equal => some "=="
  | .notEqual => some "!="
  | .less => some "<"
  | .lessEqual => some "<="
  | .greater => some ">"
  | .greaterEqual => some ">="
  | .assign => some "="
  | .leftParen => some "("
  | .rightParen => some ")"
  | .leftBracket => some "["
  | .rightBracket => some "]"
  | .comma => some ","
  | .dot => some "."
  | .colon => some ":"
  | .number _ | .string _ | .name _ | .newline | .indent | .dedent | .endOfInput => none

/-- The texts of a token. Layout tokens and the end of the input have no text. -/
inductive Lexeme : TokenKind → List Char → Prop
  | number {cs : List Char} (literal : Numeral cs) : Lexeme (.number (String.ofList cs)) cs
  | string {quote : Char} {body text : List Char} (quotes : quote = '\'' ∨ quote = '"')
    (inside : Quoted quote body text) (oneLine : '\n' ∉ body) :
    Lexeme (.string (String.ofList text)) (quote :: (body ++ [quote]))
  | name {c : Char} {cs : List Char} (first : isNameStart c = true)
    (parts : ∀ d ∈ cs, isNamePart d = true) (free : keyword? (String.ofList (c :: cs)) = none) :
    Lexeme (.name (String.ofList (c :: cs))) (c :: cs)
  | fixed {kind : TokenKind} {word : String} (spelled : kind.spelling? = some word) :
    Lexeme kind word.toList

/-- Whether a character behind the lexeme of a token would have been read as a part of it: names,
keywords and numbers go on with letters, digits and underscores, some operators have longer ones
that begin with them, and two dashes open a comment. -/
def grows : TokenKind → Char → Bool
  | .number _, c | .name _, c | .importKw, c | .varKw, c | .funcKw, c | .returnKw, c | .ifKw, c
  | .elseKw, c
  | .whileKw, c | .breakKw, c | .passKw, c | .andKw, c | .orKw, c | .notKw, c | .trueKw, c
  | .falseKw, c
  | .noneKw, c => isNamePart c
  | .assign, c | .less, c | .greater, c => c = '='
  | .minus, c => c = '-'
  | _, _ => false

/-- Tokens that stand for text. -/
def isLexical : TokenKind → Bool
  | .newline | .indent | .dedent | .endOfInput => false
  | _ => true

end TokenKind

/-! ## Moving over a text -/

namespace Position

variable (p : Position)

@[simp] theorem afterAll_nil : p.afterAll [] = p := rfl

@[simp] theorem afterAll_cons (c : Char) (cs : List Char) :
    p.afterAll (c :: cs) = (p.after c).afterAll cs := rfl

@[simp] theorem afterAll_append (cs ds : List Char) :
    p.afterAll (cs ++ ds) = (p.afterAll cs).afterAll ds := List.foldl_append

theorem offset_after (c : Char) : (p.after c).offset = p.offset + c.utf8Size := by
  unfold after
  split <;> rfl

/-- Offsets count the bytes of the text. -/
theorem offset_afterAll (cs : List Char) :
    (p.afterAll cs).offset = p.offset + (String.ofList cs).utf8ByteSize := by
  induction cs generalizing p with
  | nil => rfl
  | cons c cs ih =>
    have hcons : String.ofList (c :: cs) = String.singleton c ++ String.ofList cs := by
      rw [String.singleton_eq_ofList, ← String.ofList_append, List.singleton_append]
    rw [afterAll_cons, ih, offset_after, hcons, String.utf8ByteSize_append,
      String.utf8ByteSize_singleton]
    omega

end Position

namespace Cursor

/-- A cursor moves over a text. -/
structure Reads (c : Cursor) (text : List Char) (c' : Cursor) : Prop where
  rest : c.rest = text ++ c'.rest
  pos : c'.pos = c.pos.afterAll text

/-- A cursor moves over the lexeme of a token, and what follows does not belong to it. -/
structure Lexes (c : Cursor) (kind : TokenKind) (text : List Char) (c' : Cursor) : Prop where
  reads : c.Reads text c'
  lexeme : kind.Lexeme text
  apart (d : Char) (next : c'.rest.head? = some d) : kind.grows d = false

theorem Reads.refl (c : Cursor) : c.Reads [] c := ⟨rfl, rfl⟩

theorem Reads.trans {c c' c'' : Cursor} {text text' : List Char} (h : c.Reads text c')
    (h' : c'.Reads text' c'') : c.Reads (text ++ text') c'' := by
  constructor
  · rw [h.rest, h'.rest, List.append_assoc]
  · rw [h'.pos, h.pos, Position.afterAll_append]

theorem reads_skip (c : Cursor) (p : Char → Bool) : c.Reads (c.run p) (c.skip p) :=
  ⟨List.takeWhile_append_dropWhile.symm, rfl⟩

variable {c : Cursor} {text rest : List Char} (h : c.rest = text ++ rest)

include h

/-- The cursor behind a text at the front. -/
theorem drop_of_append : c.drop text.length = ⟨rest, c.pos.afterAll text⟩ := by
  rw [Cursor.drop, h, List.drop_left, List.take_left]

theorem reads_of_append : c.Reads text (c.drop text.length) := by
  rw [drop_of_append h]
  exact ⟨h, rfl⟩

end Cursor

/-! ## Numbers -/

variable {cs : List Char}

theorem digits_takeWhile {isDigit : Char → Bool} (h : (cs.takeWhile isDigit).length ≠ 0) :
    Digits isDigit (cs.takeWhile isDigit) where
  nonempty := by
    intro hnil
    rw [hnil] at h
    exact h rfl
  all _ hc := List.mem_takeWhile_imp hc

theorem exponentLength_eq_some {n : Nat} (h : exponentLength cs = some n) :
    ∃ text rest, cs = text ++ rest ∧ text.length = n ∧ Numeral.Exponent text := by
  unfold exponentLength at h
  split at h
  case h_2 =>
    cases h
    exact ⟨[], [], rfl, rfl, .missing⟩
  case h_1 c r =>
    split at h
    case isFalse =>
      cases h
      exact ⟨[], c :: r, rfl, rfl, .missing⟩
    case isTrue hmark =>
      -- The sign is a part of its own, which may be empty.
      obtain ⟨sign, behind, hr, hlength, hsign⟩ : ∃ sign behind, r = sign ++ behind ∧
          (if r.head?.any fun s => s = '+' || s = '-' then 1 else 0) = sign.length ∧
          (sign = [] ∨ sign = ['+'] ∨ sign = ['-']) := by
        split
        case isTrue hsigned =>
          obtain ⟨s, hs, hplus⟩ := Option.any_eq_true _ _ |>.1 hsigned
          obtain ⟨behind, rfl⟩ := List.head?_eq_some_iff.1 hs
          simp only [Bool.or_eq_true, decide_eq_true_eq] at hplus
          rcases hplus with rfl | rfl
          · exact ⟨['+'], behind, rfl, rfl, by simp⟩
          · exact ⟨['-'], behind, rfl, rfl, by simp⟩
        case isFalse => exact ⟨[], r, rfl, rfl, .inl rfl⟩
      dsimp only at h
      rw [hlength, hr, List.drop_left] at h
      split at h
      case isTrue => exact nomatch h
      case isFalse hdigits =>
        cases h
        refine ⟨c :: (sign ++ behind.takeWhile Char.isDigit), behind.dropWhile Char.isDigit, ?_, ?_,
          .mark (by simpa using hmark) hsign (digits_takeWhile hdigits)⟩
        · rw [hr, List.cons_append, List.append_assoc, List.takeWhile_append_dropWhile]
        · simp only [List.length_cons, List.length_append]
          omega

theorem exists_fraction (cs : List Char) :
    ∃ fraction rest, cs = fraction ++ rest ∧ fraction.length = fractionLength cs ∧
    Numeral.Fraction fraction := by
  unfold fractionLength
  split
  case h_1 r =>
    dsimp only
    split
    case isTrue => exact ⟨[], _, rfl, rfl, .missing⟩
    case isFalse hpoint =>
      refine ⟨'.' :: r.takeWhile Char.isDigit, r.dropWhile Char.isDigit, ?_, ?_,
        .point (digits_takeWhile hpoint)⟩
      · rw [List.cons_append, List.takeWhile_append_dropWhile]
      · rw [List.length_cons, Nat.add_comm]
  case h_2 => exact ⟨[], cs, rfl, rfl, .missing⟩

theorem numberLength_eq_some {c : Char} (hc : c.isDigit = true) {n : Nat}
    (h : numberLength (c :: cs) = some n) :
    ∃ text rest, c :: cs = text ++ rest ∧ text.length = n ∧ Numeral text := by
  unfold numberLength at h
  split at h
  case isTrue hhex =>
    unfold opensHexadecimal at hhex
    split at hhex
    case h_2 => exact nomatch hhex
    case h_1 x ds heq =>
      obtain ⟨rfl, rfl⟩ := List.cons.inj heq
      simp only [List.drop_succ_cons, List.drop_zero] at h
      split at h
      case isTrue => exact nomatch h
      case isFalse hdigits =>
        cases h
        refine ⟨'0' :: x :: ds.takeWhile isHexDigit, ds.dropWhile isHexDigit, ?_, ?_,
          .hexadecimal (by simpa using hhex) (digits_takeWhile hdigits)⟩
        · rw [List.cons_append, List.cons_append, List.takeWhile_append_dropWhile]
        · simp only [List.length_cons]
          omega
  case isFalse =>
    -- The three parts of a decimal number follow each other, and the last two may be empty.
    dsimp only at h
    have hdigits : Digits Char.isDigit ((c :: cs).takeWhile Char.isDigit) :=
      digits_takeWhile (by simp [hc])
    have hsplit : c :: cs = (c :: cs).takeWhile Char.isDigit ++ (c :: cs).dropWhile Char.isDigit :=
      List.takeWhile_append_dropWhile.symm
    generalize (c :: cs).takeWhile Char.isDigit = whole at h hdigits hsplit
    generalize (c :: cs).dropWhile Char.isDigit = behind at hsplit
    rw [hsplit, List.drop_left] at h
    obtain ⟨fraction, rest, hbehind, hlength, hfraction⟩ := exists_fraction behind
    rw [← hlength, ← List.drop_drop, List.drop_left, hbehind, List.drop_left] at h
    obtain ⟨k, hk, rfl⟩ := Option.map_eq_some_iff.1 h
    obtain ⟨exponent, rest', rfl, rfl, hexponent⟩ := exponentLength_eq_some hk
    refine ⟨whole ++ (fraction ++ exponent), rest', ?_, ?_, .decimal hdigits hfraction hexponent⟩
    · rw [hsplit, hbehind]
      simp only [List.append_assoc]
    · simp only [List.length_append]
      omega

variable {c c' : Cursor} {kind : TokenKind}

theorem lexes_scanNumber {d : Char} (hrest : c.rest = d :: cs)
    (hd : d.isDigit = true) (h : scanNumber c = .ok (kind, c')) : ∃ text, c.Lexes kind text c' := by
  unfold scanNumber at h
  split at h
  case h_1 => exact nomatch h
  case h_2 n hlength =>
    rw [hrest] at hlength
    obtain ⟨text, rest, htext, rfl, hnumeral⟩ := numberLength_eq_some hd hlength
    rw [← hrest] at htext
    dsimp only at h
    split at h
    case isTrue => exact nomatch h
    case isFalse hapart =>
      cases h
      rw [htext, List.take_left]
      refine ⟨text, Cursor.reads_of_append htext, .number hnumeral, ?_⟩
      intro e he
      simp only [Cursor.startsWith, he, Option.any_some, Bool.not_eq_true] at hapart
      exact hapart

/-! ## Strings -/

theorem mem_escapes {e d : Char} (h : escape? e = some d) : (e, d) ∈ escapes := by
  unfold escape? at h
  split at h <;> cases h <;> decide

/-- A string literal is read up to the first quote that no backslash stands before. -/
theorem stringBody_eq_ok {quote : Char} {start pos : Position} {cs ds : List Char} {c' : Cursor}
    (h : stringBody quote start pos cs = .ok (ds, c')) :
    ∃ body, cs = body ++ quote :: c'.rest ∧ c'.pos = pos.afterAll (body ++ [quote]) ∧
      Quoted quote body ds ∧ '\n' ∉ body := by
  fun_induction stringBody quote start pos cs generalizing ds c' with
  | case1 | case2 | case3 | case4 | case6 | case9 => exact nomatch h
  | case5 pos e cs d hescape _ _ _ hrest ih =>
    obtain ⟨body, hcs, hpos, hquoted, hline⟩ := ih hrest
    cases h
    have he := mem_escapes hescape
    refine ⟨'\\' :: e :: body, by rw [hcs]; rfl, hpos, .escape he hquoted, ?_⟩
    have hne : e ≠ '\n' := by
      rintro rfl
      exact nomatch hescape
    simp [hline, hne.symm]
  | case7 pos cs _ _ =>
    cases h
    exact ⟨[], rfl, rfl, .nil, by simp⟩
  | case8 pos c cs hline hraw hother _ _ hrest ih =>
    obtain ⟨body, hcs, hpos, hquoted, hbody⟩ := ih hrest
    cases h
    refine ⟨c :: body, by rw [hcs]; rfl, hpos, .plain hother hraw hquoted, ?_⟩
    simp [hbody, Ne.symm hline]

theorem lexes_scanString {quote : Char}
    (hrest : c.rest = quote :: cs) (hquote : quote = '\'' ∨ quote = '"')
    (h : scanString quote c = .ok (kind, c')) : ∃ text, c.Lexes kind text c' := by
  unfold scanString at h
  split at h
  case h_2 => exact nomatch h
  case h_1 ds cursor hbody =>
    cases h
    rw [hrest] at hbody
    obtain ⟨body, hcs, hpos, hquoted, hline⟩ := stringBody_eq_ok hbody
    refine ⟨quote :: (body ++ [quote]), ⟨?_, hpos⟩, .string hquote hquoted hline, fun _ _ => rfl⟩
    rw [hrest, List.cons_append, List.append_assoc]
    exact congrArg (quote :: ·) hcs

/-! ## Words -/

theorem spelling?_of_keyword? {word : String} (h : TokenKind.keyword? word = some kind) :
    kind.spelling? = some word ∧ ∀ c, kind.grows c = isNamePart c := by
  unfold TokenKind.keyword? at h
  split at h <;> cases h <;> exact ⟨rfl, fun _ => rfl⟩

theorem isNamePart_of_isNameStart {c : Char} (h : isNameStart c = true) : isNamePart c = true := by
  simp only [isNameStart, isNamePart, Char.isAlphanum, Bool.or_eq_true] at *
  exact h.imp_right .inl

theorem lexes_scanWord {c : Cursor} {d : Char} (hrest : c.rest = d :: cs)
    (hd : isNameStart d = true) : c.Lexes (scanWord c).1 (c.run isNamePart) (scanWord c).2 := by
  have hrun : c.run isNamePart = d :: cs.takeWhile isNamePart := by
    rw [Cursor.run, hrest, List.takeWhile_cons_of_pos (isNamePart_of_isNameStart hd)]
  have hapart (e : Char) (he : (c.skip isNamePart).rest.head? = some e) : isNamePart e = false := by
    have h := List.head?_dropWhile_not isNamePart c.rest
    rw [show c.rest.dropWhile isNamePart = (c.skip isNamePart).rest from rfl, he] at h
    exact h
  unfold scanWord TokenKind.ofWord
  cases hword : TokenKind.keyword? (String.ofList (c.run isNamePart)) with
  | some kind =>
    obtain ⟨hspelled, hgrows⟩ := spelling?_of_keyword? hword
    refine ⟨c.reads_skip isNamePart, ?_, fun e he => ?_⟩
    · have := TokenKind.Lexeme.fixed hspelled
      rwa [String.toList_ofList] at this
    · exact (hgrows e).trans (hapart e he)
  | none =>
    refine ⟨c.reads_skip isNamePart, ?_, fun e he => hapart e he⟩
    rw [hrun] at hword ⊢
    exact .name hd (fun e he => List.mem_takeWhile_imp he) hword

/-! ## Operators and punctuation -/

/-- The mark at the front is spelled there, and the next character does not make it another one, or
a comment. Before any other text that does not, it is the same. -/
theorem symbol?_eq_some {n : Nat} (h : TokenKind.symbol? cs = some (kind, n))
    (hcomment : opensComment cs = false) :
    ∃ word rest, kind.spelling? = some word ∧ cs = word.toList ++ rest ∧ word.toList.length = n ∧
      (∀ d, rest.head? = some d → kind.grows d = false) ∧
      ∀ more, (∀ d, more.head? = some d → kind.grows d = false) →
        TokenKind.symbol? (word.toList ++ more) = some (kind, n) := by
  unfold TokenKind.symbol? at h
  split at h
  case h_5 r hne | h_6 r hne | h_7 r hne =>
    cases h
    refine ⟨_, r, rfl, rfl, rfl, fun d hd => ?_, fun more hmore => ?_⟩
    · obtain ⟨r', rfl⟩ := List.head?_eq_some_iff.1 hd
      simp only [TokenKind.grows, decide_eq_false_iff_not]
      rintro rfl
      exact hne _ rfl
    · cases more with
      | nil => rfl
      | cons d more =>
        have hd := hmore d rfl
        simp only [TokenKind.grows, decide_eq_false_iff_not] at hd
        simp [TokenKind.symbol?, hd]
  case h_9 r =>
    cases h
    refine ⟨_, r, rfl, rfl, rfl, fun d hd => ?_, fun _ _ => rfl⟩
    obtain ⟨r', rfl⟩ := List.head?_eq_some_iff.1 hd
    simp only [TokenKind.grows, decide_eq_false_iff_not]
    rintro rfl
    exact nomatch hcomment
  case h_21 => exact nomatch h
  all_goals
    cases h
    exact ⟨_, _, rfl, rfl, rfl, fun _ _ => rfl, fun _ _ => rfl⟩

theorem lexes_scanSymbol {first : Char} (hcomment : opensComment c.rest = false)
    (h : scanSymbol c first = .ok (kind, c')) : ∃ text, c.Lexes kind text c' := by
  unfold scanSymbol at h
  split at h
  case h_2 => exact nomatch h
  case h_1 kind' width hsymbol =>
    cases h
    obtain ⟨word, rest, hspelled, hrest, rfl, hapart, -⟩ := symbol?_eq_some hsymbol hcomment
    refine ⟨word.toList, Cursor.reads_of_append hrest, .fixed hspelled, ?_⟩
    rw [Cursor.drop_of_append hrest]
    exact hapart

/-! ## Facts about all lexemes -/

theorem spelling?_oneLine {word : String} (h : kind.spelling? = some word) :
    word.toList ≠ [] ∧ '\n' ∉ word.toList := by
  cases kind <;> cases h <;> decide

theorem Digits.oneLine {isDigit : Char → Bool} (h : Digits isDigit cs)
    (hline : isDigit '\n' = false) : '\n' ∉ cs := by
  intro hmem
  exact absurd ((h.all _ hmem).symm.trans hline) (by decide)

theorem Numeral.Fraction.oneLine {cs : List Char} (h : Numeral.Fraction cs) : '\n' ∉ cs := by
  cases h with
  | missing => simp
  | point ds => simp [ds.oneLine (by decide)]

theorem Numeral.oneLine {cs : List Char} (h : Numeral cs) : '\n' ∉ cs := by
  cases h with
  | hexadecimal letter digits =>
    have hdigits := digits.oneLine (by decide)
    rcases letter with rfl | rfl <;> simp [hdigits]
  | @decimal whole fraction exponent digits behind scale =>
    have hwhole := digits.oneLine (by decide)
    have hfraction := behind.oneLine
    have hexponent : '\n' ∉ exponent := by
      cases scale with
      | missing => simp
      | mark letter signed ds =>
        have hds := ds.oneLine (by decide)
        rcases letter with rfl | rfl <;> rcases signed with rfl | rfl | rfl <;> simp [hds]
    simp [hwhole, hfraction, hexponent]

namespace TokenKind.Lexeme

variable {kind : TokenKind} {text : List Char}

variable (h : kind.Lexeme text)

include h

theorem ne_nil : text ≠ [] := by
  cases h with
  | number literal =>
    cases literal with
    | hexadecimal => simp
    | decimal digits => simp [digits.nonempty]
  | string | name => simp
  | fixed spelled => exact (spelling?_oneLine spelled).1

/-- No lexeme goes on in the next line. -/
theorem oneLine : '\n' ∉ text := by
  cases h with
  | number literal => exact literal.oneLine
  | string quotes inside oneLine => rcases quotes with rfl | rfl <;> simp [oneLine]
  | name first parts free =>
    rw [List.mem_cons, not_or]
    constructor
    · rintro rfl
      exact nomatch first
    · intro hmem
      exact nomatch parts _ hmem
  | fixed spelled => exact (spelling?_oneLine spelled).2

theorem isLexical : kind.isLexical = true := by
  cases h with
  | fixed spelled => cases kind <;> first | rfl | exact nomatch spelled
  | _ => rfl

end TokenKind.Lexeme

end ScriptMachine
