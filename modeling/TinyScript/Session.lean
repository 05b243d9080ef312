import TinyScript.Display
import TinyScript.Eval
import TinyScript.Syntax.Parse

/-!
# Sessions

A session is a heap and a scope of it where programs run one after another; what one declares the
next can use. A text with mistakes is not run and leaves the session as it is.
-/

namespace TinyScript

structure Session where
  heap : Heap
  scope : ScopeId

namespace Session

def start : Session :=
  match Heap.empty.openScope none with
  | (scope, heap) => ⟨heap, scope⟩

def enclosed (s : Session) : Session :=
  match s.heap.openScope (some s.scope) with
  | (inner, heap) => ⟨heap, inner⟩

def run (s : Session) (p : Program) : Value × Session :=
  match p.eval s.scope s.heap with
  | (v, heap) => (v, { s with heap })

def runText (s : Session) (source : String) : Except (List SyntaxError) Value × Session :=
  match Program.parse source with
  | (p, []) =>
    match s.run p with
    | (v, s) => (.ok v, s)
  | (_, errors) => (.error errors, s)

/-- What a name means in the session, built-in procedures apart. -/
def lookup (s : Session) (name : String) : Option Value := s.heap.lookup s.scope name

end Session

end TinyScript
