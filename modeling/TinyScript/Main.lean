import TinyScript.CommandLine

/-!
# The program

Reads arguments, files and lines, and writes what `CommandLine` and `Repl` say. The dialogue answers
each line before the next is read.
-/

namespace TinyScript.Console

/-- The bytes of the next line, with its line feed; none at the end of the input. -/
partial def readLine (input : IO.FS.Stream) (line : List UInt8) : IO (List UInt8) := do
  let bytes ← input.read 1
  match bytes.toList with
  | [] => return line.reverse
  | b :: _ => if b = 10 then return (b :: line).reverse else readLine input (b :: line)

partial def talk (input output : IO.FS.Stream) (s : Session) : IO (Option String) := do
  output.putStr Repl.prompt
  output.flush
  match ← readLine input [] with
  | [] =>
    output.putStr "\n"
    return none
  | bytes =>
    match Repl.decode? bytes with
    | none => return some ("Error in interactive session: " ++ Repl.invalidText)
    | some line =>
      match Repl.reply s line with
      | .leave => return none
      | .stay text s =>
        output.putStr text
        talk input output s

def openFile (path : String) : IO CommandLine.Opened := do
  try
    return .bytes (← IO.FS.readBinFile path).toList
  catch
    | .noFileOrDirectory .. => return .missing
    | .inappropriateType _ code details | .permissionDenied _ code details =>
      return .unreadable (details ++ " (os error " ++ toString code ++ ")")
    | e => return .unreadable (toString e)

def report (outcome : CommandLine.Outcome) : IO UInt32 := do
  (← IO.getStdout).putStr outcome.output
  for line in outcome.errors do (← IO.getStderr).putStrLn line
  return outcome.status.toUInt32

end TinyScript.Console

open TinyScript Console in
def main (args : List String) : IO UInt32 := do
  match CommandLine.request args with
  | .ok ⟨file, interactive⟩ =>
    let mut status := 0
    if let some path := file then
      status ← report (CommandLine.runFile path (← openFile path))
    if file.isSome && !interactive then return status
    let output ← IO.getStdout
    output.putStr Repl.banner
    if let some error ← talk (← IO.getStdin) output .start then (← IO.getStderr).putStrLn error
    return 0
  | .error _ => report (CommandLine.execute args (fun _ => .missing) [])
