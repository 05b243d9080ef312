import TinyScript.Session
import TinyScript.Text.WhiteSpace

/-!
# The line dialogue

Each line is a program of its own in one session. A prompt precedes every line. A blank line does
nothing, `exit` and `q` end the dialogue, and so does the end of the input, after a line break. A
line that is not UTF-8 ends it as a failure. Lines end at line feeds only; white space around a line
does not count.
-/

namespace TinyScript

namespace Repl

def prompt : String := ">> "

def banner : String :=
  "YAIL Interpreter v0.1.0\n" ++ "Type 'exit' or 'q' to quit\n" ++ "\n"

def invalidText : String := "stream did not contain valid UTF-8"

def mistakesText (errors : List SyntaxError) : String :=
  "Failed to execute the given source code for following reasons.\n" ++
    String.join (errors.map fun e => "\t[ERROR] " ++ e.message ++ "\n")

def resultText (h : Heap) : Value → String
  | .null => ""
  | v => h.display v ++ "\n"

/-- What a line does: it ends the dialogue, or it gives an output and the session for the next. -/
inductive Reply where
  | leave
  | stay (output : String) (session : Session)

/-- The reply to a line, without regard to white space around it. -/
def reply (s : Session) (line : String) : Reply :=
  let line := trim line
  if line.isEmpty then .stay "" s
  else if line = "exit" ∨ line = "q" then .leave
  else
    match s.runText line with
    | (.ok v, s) => .stay (resultText s.heap v) s
    | (.error errors, s) => .stay (mistakesText errors) s

/-- The lines of an input, each with its line feed; the last may have none. -/
def lines : List UInt8 → List (List UInt8)
  | [] => []
  | b :: rest =>
    if b = 10 then [b] :: lines rest
    else
      match lines rest with
      | [] => [[b]]
      | line :: more => (b :: line) :: more

def decode? (bytes : List UInt8) : Option String := String.fromUTF8? (ByteArray.mk bytes.toArray)

/-- What was written, and whether the dialogue ended at a line that is not UTF-8. -/
structure Transcript where
  output : String
  failed : Bool

def converse (s : Session) : List (List UInt8) → Transcript
  | [] => ⟨prompt ++ "\n", false⟩
  | bytes :: rest =>
    match decode? bytes with
    | none => ⟨prompt, true⟩
    | some line =>
      match reply s line with
      | .leave => ⟨prompt, false⟩
      | .stay output s =>
        let later := converse s rest
        ⟨prompt ++ output ++ later.output, later.failed⟩

def transcript (input : List UInt8) : Transcript := converse .start (lines input)

end Repl

end TinyScript
