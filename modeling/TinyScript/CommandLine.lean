import TinyScript.Repl

/-!
# The command

The arguments name at most one file, and `-i` asks for the line dialogue. The command runs the file,
opens the dialogue, or does both; without a file it opens the dialogue, which knows nothing of the
file. A file that fails makes the status 1, unless the dialogue follows.
-/

namespace TinyScript

namespace CommandLine

/-- What a command is told that is not run. `usage` is for arguments that are not understood. -/
inductive Notice where
  | version
  | help
  | usage
  deriving DecidableEq, Repr

structure Options where
  file : Option String
  interactive : Bool
  deriving DecidableEq, Repr

abbrev Reading := Except Notice Options

def setInteractive (o : Options) : Reading :=
  if o.interactive then .error .usage else .ok { o with interactive := true }

def setFile (name : String) (o : Options) : Reading :=
  match o.file with
  | none => .ok { o with file := some name }
  | some _ => .error .usage

def readFlag (o : Options) : Char → Reading
  | 'i' => setInteractive o
  | 'V' => .error .version
  | 'h' => .error .help
  | _ => .error .usage

def readArgument (o : Options) (arg : String) : Reading :=
  match arg.toList with
  | ['-'] => setFile arg o
  | '-' :: '-' :: name =>
    if name = "interactive".toList then setInteractive o
    else if name = "version".toList then .error .version
    else if name = "help".toList then .error .help
    else .error .usage
  | '-' :: flags => flags.foldlM readFlag o
  | _ => setFile arg o

/-- All arguments; after `--` they are files. What is wrong first counts. -/
def readArguments (o : Options) : List String → Reading
  | [] => .ok o
  | arg :: rest =>
    if arg = "--" then rest.foldlM (fun o name => setFile name o) o
    else do readArguments (← readArgument o arg) rest

def request (args : List String) : Reading := readArguments ⟨none, false⟩ args

/-- What is found at the place of a file. `unreadable` gives the system's reason. -/
inductive Opened where
  | missing
  | unreadable (reason : String)
  | bytes (content : List UInt8)

/-- What the command leaves behind: its status, what it writes, and the messages of its failures,
each on a line of its own or, if a path with line feeds is told, on several. -/
structure Outcome where
  status : Nat
  output : String
  errors : List String
  deriving DecidableEq, Repr

def runText (source : String) : Outcome :=
  match Session.start.runText source with
  | (.error errors, _) => ⟨1, "", errors.map fun e => "Error: Parse Error: " ++ e.message⟩
  | (.ok (.error _ fault), _) => ⟨1, "", ["Error: Runtime Error: " ++ fault.message]⟩
  | (.ok v, s) => ⟨0, Repl.resultText s.heap v, []⟩

def unreadableText (path reason : String) : String :=
  "Error reading file '" ++ path ++ "': " ++ reason

def runFile (path : String) : Opened → Outcome
  | .missing => ⟨1, "", ["Error: File '" ++ path ++ "' not found"]⟩
  | .unreadable reason => ⟨1, "", [unreadableText path reason]⟩
  | .bytes content =>
    match Repl.decode? content with
    | none => ⟨1, "", [unreadableText path Repl.invalidText]⟩
    | some source => runText source

/-- The line dialogue as a command: a failure is told and is no failure of the command. -/
def dialogue (input : List UInt8) : Outcome :=
  let t := Repl.transcript input
  ⟨0, Repl.banner ++ t.output,
    if t.failed then ["Error in interactive session: " ++ Repl.invalidText] else []⟩

def Outcome.andThen (first second : Outcome) : Outcome :=
  ⟨second.status, first.output ++ second.output, first.errors ++ second.errors⟩

def versionText : String := "yail 0.1.0\n"

/-- The command as a function of its arguments, of what it finds at the places of files, and of its
input. -/
def execute (args : List String) (find : String → Opened) (input : List UInt8) : Outcome :=
  match request args with
  | .error .version => ⟨0, versionText, []⟩
  | .error .help => ⟨0, "Usage: yail [OPTIONS] [FILE]\n", []⟩
  | .error .usage => ⟨2, "", []⟩
  | .ok ⟨none, _⟩ => dialogue input
  | .ok ⟨some path, false⟩ => runFile path (find path)
  | .ok ⟨some path, true⟩ => (runFile path (find path)).andThen (dialogue input)

end CommandLine

end TinyScript
