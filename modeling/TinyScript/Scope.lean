import TinyScript.Heap

/-!
# Scopes

A name is looked up in a scope, then in the scope around it, and so on outward. `Heap.chain` lists
the scopes that are visited. A scope lies in one that was created before it, so the walk ends. A
declaration affects its own scope; a new value goes to the innermost scope that declares the name, and
a name declared as fixed there takes none.
-/

namespace TinyScript

namespace Scope

def find? (s : Scope) (name : String) : Option Binding := s.bindings.lookup name

def declare (s : Scope) (name : String) (b : Binding) : Scope :=
  { s with bindings := (name, b) :: s.bindings }

def assign (s : Scope) (name : String) (v : Value) : Scope :=
  { s with bindings := s.bindings.map fun (n, b) => (n, if n == name then { b with value := v } else b) }

def names (s : Scope) : List String := s.bindings.map Prod.fst

end Scope

namespace Heap

def openScope (outer : Option ScopeId) (h : Heap) : ScopeId × Heap :=
  (h.scopes.size, { h with scopes := h.scopes.push ⟨[], outer⟩ })

def chainUpTo (h : Heap) : Nat → ScopeId → List ScopeId
  | 0, _ => []
  | n + 1, scope =>
    match h.scopes[scope]? with
    | none => []
    | some ⟨_, none⟩ => [scope]
    | some ⟨_, some outer⟩ => scope :: h.chainUpTo n outer

/-- The scope with its outer scopes, innermost first. No scope comes twice, so there are no more of
them than the heap has. -/
def chain (h : Heap) (scope : ScopeId) : List ScopeId := h.chainUpTo h.scopes.size scope

def binding? (h : Heap) (name : String) (scope : ScopeId) : Option Binding :=
  h.scopes[scope]?.bind (·.find? name)

def lookup (h : Heap) (scope : ScopeId) (name : String) : Option Value :=
  ((h.chain scope).findSome? (h.binding? name)).map Binding.value

/-- Introduces a name in this very scope; names of outer scopes may be hidden. A refusal changes
nothing. -/
def declare (scope : ScopeId) (name : String) (b : Binding) (h : Heap) :
    Except ScopeError Unit × Heap :=
  if (h.binding? name scope).isSome then (.error (.alreadyDeclared name), h)
  else (.ok (), { h with scopes := h.scopes.modify scope (·.declare name b) })

def assign (scope : ScopeId) (name : String) (v : Value) (h : Heap) :
    Except ScopeError Unit × Heap :=
  match (h.chain scope).find? fun i => (h.binding? name i).isSome with
  | none => (.error (.undefined name), h)
  | some owner =>
    match (h.binding? name owner).map Binding.mutability with
    | some .mutable => (.ok (), { h with scopes := h.scopes.modify owner (·.assign name v) })
    | _ => (.error (.fixed name), h)

/-- The names of a scope in order of their bytes, and whether another scope lies around it. -/
def describeScope (h : Heap) (scope : ScopeId) : String :=
  let names := (h.scopes[scope]?.map Scope.names).getD []
  let quoted := (names.mergeSort (fun a b => decide (a ≤ b))).map fun n => "\"" ++ n ++ "\""
  "Environment \x7b bindings: [" ++ ", ".intercalate quoted ++ "], has_outer: " ++
    boolText (h.scopes[scope]?.bind Scope.outer).isSome ++ " \x7d"

end Heap

end TinyScript
