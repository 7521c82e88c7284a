import ScriptMachine.Machine
/-!
# Reports

The text that tells a host why an evaluation failed: a line with the kind of failure and its
message, the place with its source line and a caret below the column, and for failures inside of
calls the calls in progress.
-/

namespace ScriptMachine

/-! ## Source lines -/

/-- The lines of a text without their ends. A carriage return before the line feed belongs to the
end; text behind the last line feed is a line if there is any. -/
def sourceLines (source : String) : List String :=
  let pieces := source.splitOn "\n"
  let ended := pieces.dropLast.map fun line =>
    match line.toList.reverse with
    | '\r' :: rest => String.ofList rest.reverse
    | _ => line
  match pieces.getLast? with
  | some last => if last.isEmpty then ended else ended ++ [last]
  | none => ended

/-- The place of a failure: `name:line:column:`, the source line and a caret. -/
def locationText (sourceName source : String) (pos : Position) : String :=
  let line := max pos.line 1
  let column := max pos.column 1
  let head := sourceName ++ ":" ++ toString line ++ ":" ++ toString column ++ ":\n"
  match (sourceLines source)[line - 1]? with
  | some text =>
    head ++ text ++ "\n" ++ String.ofList (List.replicate (column - 1) ' ') ++ "^\n"
  | none => head

/-- The report on a program that was rejected before it ran. -/
def staticReport (sourceName source : String) (e : SyntaxError) : String :=
  (Failure.ofStage e.stage).label ++ ": " ++ e.message ++ "\n\n" ++
    locationText sourceName source e.pos

namespace Frame

/-- The place of the instruction that is being executed. -/
def position (f : Frame) : Position := f.chunk.positionAt (f.pc - 1)

/-- The call in a list of calls. -/
def traceLine (f : Frame) : String :=
  "  " ++ f.chunk.name ++ " at " ++ f.chunk.sourceName ++ ":" ++ toString f.position.line ++ ":" ++
    toString f.position.column ++ "\n"

/-- The place of the call in its source. -/
def location (f : Frame) : String := locationText f.chunk.sourceName f.chunk.source f.position

end Frame

/-- The report on a program that failed while it ran, with the calls in progress, the innermost
first. -/
def runtimeReport (failure : Failure) (message : String) (calls : List Frame) : String :=
  let head := (if failure = .panic then "panic: " else "error: ") ++ message ++ "\n\n"
  let place := match calls with
    | f :: _ => f.location
    | [] => ""
  let trace :=
    if 1 < calls.length then "\nstack trace:\n" ++ String.join (calls.map Frame.traceLine) else ""
  head ++ place ++ trace

end ScriptMachine
