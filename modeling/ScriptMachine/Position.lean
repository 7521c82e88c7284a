/-!
# Source positions

Where something stands in a source text: line and column count from one, the offset counts bytes of
the text's UTF-8 form from zero.
-/

namespace ScriptMachine

/-- A place in a source text. The all-zero default stands for "nowhere". -/
structure Position where
  line : Nat := 0
  column : Nat := 0
  offset : Nat := 0
  deriving DecidableEq, Inhabited, Repr

namespace Position

/-- The first place of a text. -/
def start : Position := ⟨1, 1, 0⟩

/-- The place right after a character: a line feed opens the next line. -/
def after (p : Position) (c : Char) : Position :=
  if c = '\n' then ⟨p.line + 1, 1, p.offset + c.utf8Size⟩
  else ⟨p.line, p.column + 1, p.offset + c.utf8Size⟩

/-- The place right after a run of characters. -/
def afterAll (p : Position) (cs : List Char) : Position := cs.foldl after p

end Position

end ScriptMachine
