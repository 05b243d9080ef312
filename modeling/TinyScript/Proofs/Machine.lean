import TinyScript.Eval

/-!
# Evaluation step by step

A machine that runs programs in small steps. What it is in the middle of is on a stack, a name is
looked up scope by scope, and a call goes on with the body of the function wherever that comes from.
There is no fuel and no recursion over the tree: the step function can be applied again and again,
and it is to be shown that this ends. The number of active calls is part of the state, as it is in
the language, and is compared with the limit once the arguments are bound.
-/

namespace TinyScript

-- ---------------------------------------------------------------------------
-- What is evaluated
-- ---------------------------------------------------------------------------

mutual
def Expr.size : Expr → Nat
  | .ident _ | .int _ | .str _ | .bool _ | .null => 1
  | .unary _ e => e.size + 1
  | .binary _ l r => l.size + r.size + 1
  | .cond test yes none => test.size + Block.size yes + 1
  | .cond test yes (some no) => test.size + Block.size yes + Block.size no + 1
  | .func _ body => Block.size body + 1
  | .call callee args => callee.size + Expr.sizes args + 1
  | .array items => Expr.sizes items + 1
  | .hash pairs => Expr.pairSizes pairs + 1
  | .index collection position => collection.size + position.size + 1
def Stmt.size : Stmt → Nat
  | .declare _ _ e | .assign _ e | .ret e | .expr e => e.size + 1
  | .block body => Block.size body + 1
def Block.size : List Stmt → Nat
  | [] => 0
  | s :: rest => s.size + Block.size rest + 1
def Expr.sizes : List Expr → Nat
  | [] => 0
  | e :: rest => e.size + Expr.sizes rest
def Expr.pairSizes : List (Expr × Expr) → Nat
  | [] => 0
  | (k, v) :: rest => k.size + v.size + Expr.pairSizes rest
end

namespace Machine

inductive Node where
  | expr (e : Expr)
  | stmt (s : Stmt)
  | block (body : Block)
  | program (p : Program)

def Node.size : Node → Nat
  | .expr e => e.size
  | .stmt s => s.size
  | .block body => Block.size body
  | .program p => Block.size p + 1

-- ---------------------------------------------------------------------------
-- What happens in a node
-- ---------------------------------------------------------------------------

inductive Goal where
  | call (callee : Value)
  | array

/-- How a node goes on once the node it waits for has a value. In `body` the node is a call whose
function is running, and `caller` is the scope it came from. -/
inductive Frame where
  | unary (op : UnaryOp)
  | left (op : BinaryOp) (right : Expr)
  | right (op : BinaryOp) (left : Value)
  | cond (yes : Block) (no : Option Block)
  | callee (args : List Expr)
  | list (goal : Goal) (done : List Value) (rest : List Expr)
  | key (value : Expr) (rest : List (Expr × Expr)) (table : Table)
  | value (hashKey : HashKey) (key : Value) (rest : List (Expr × Expr)) (table : Table)
  | collection (position : Expr)
  | position (collection : Value)
  | declare (m : Mutability) (name : String)
  | assign (name : String)
  | ret
  | seq (rest : List Stmt)
  | body (caller : ScopeId)
  | program

/-- What a node does next: it has its value, it waits for the value of `child`, or it takes that
value for its own; it looks from the scope `i` outward for a name, to read it or to change it; or it
runs the body of a function in a scope of its own. -/
inductive Move where
  | done (v : Value)
  | sub (child : Node) (frame : Frame)
  | tail (child : Node)
  | lookup (name : String) (i : ScopeId)
  | assign (name : String) (v : Value) (i : ScopeId)
  | enter (code : Block) (scope : ScopeId)

abbrev Turn := Move × Heap

def finish (r : Run) : Turn := (.done r.1, r.2)

section
variable (depth : Nat)

def enter (code : Block) (new : ScopeId) (h : Heap) : Turn :=
  if depth < maxCallDepth then (.enter code new, h) else finish (h.raise .callDepth)

def invoke (callee : Value) (args : List Value) (h : Heap) : Turn :=
  match h.object? callee with
  | some (.builtin b) => finish (b.call args h)
  | some (.function params code outer) =>
    if params.length = args.length then
      match h.openScope (some outer) with
      | (scope, h) =>
        match h.bindParams scope (params.zip args) with
        | (.ok (), h) => enter depth code scope h
        | (.error e, h) => finish (h.raise (.scope e))
    else finish (h.raise (.arity params.length args.length))
  | _ => finish (h.raise (.notCallable (h.tag callee)))

def Goal.reach (goal : Goal) (values : List Value) (h : Heap) : Turn :=
  match goal with
  | .call callee => invoke depth callee values h
  | .array => finish (h.alloc (.array values.toArray))

def collect (goal : Goal) (done : List Value) : List Expr → Heap → Turn
  | [], h => goal.reach depth done h
  | e :: rest, h => (.sub (.expr e) (.list goal done rest), h)

def collectPairs (table : Table) : List (Expr × Expr) → Heap → Turn
  | [], h => finish (h.alloc (.hash table))
  | (k, v) :: rest, h => (.sub (.expr k) (.key v rest table), h)

def begin (scope : ScopeId) : Node → Heap → Turn
  | .expr (.ident name), h => (.lookup name scope, h)
  | .expr (.int n), h => (.done (.int n), h)
  | .expr (.str raw), h => finish (h.alloc (.string raw))
  | .expr (.bool b), h => (.done (.bool b), h)
  | .expr .null, h => (.done .null, h)
  | .expr (.unary op e), h => (.sub (.expr e) (.unary op), h)
  | .expr (.binary op l r), h => (.sub (.expr l) (.left op r), h)
  | .expr (.cond test yes no), h => (.sub (.expr test) (.cond yes no), h)
  | .expr (.func params body), h => finish (h.alloc (.function params body scope))
  | .expr (.call callee args), h => (.sub (.expr callee) (.callee args), h)
  | .expr (.array items), h => collect depth .array [] items h
  | .expr (.hash pairs), h => collectPairs [] pairs h
  | .expr (.index c i), h => (.sub (.expr c) (.collection i), h)
  | .stmt (.declare m name e), h => (.sub (.expr e) (.declare m name), h)
  | .stmt (.assign name e), h => (.sub (.expr e) (.assign name), h)
  | .stmt (.ret e), h => (.sub (.expr e) .ret, h)
  | .stmt (.expr e), h => (.tail (.expr e), h)
  | .stmt (.block body), h => (.tail (.block body), h)
  | .block [], h => (.done .null, h)
  | .block (s :: rest), h => (.sub (.stmt s) (.seq rest), h)
  | .program p, h => (.sub (.block p) .program, h)

def resume (scope : ScopeId) (v : Value) : Frame → Heap → Turn
  | .unary op, h => finish (h.unary op v)
  | .left op r, h => (.sub (.expr r) (.right op v), h)
  | .right op l, h => finish (h.binary op l v)
  | .cond yes no, h =>
    match v, no with
    | .bool true, _ => (.tail (.block yes), h)
    | .bool false, some no => (.tail (.block no), h)
    | _, _ => (.done .null, h)
  | .callee args, h => collect depth (.call v) [] args h
  | .list goal done rest, h => collect depth goal (done ++ [v]) rest h
  | .key value rest table, h =>
    match h.hashKey? v with
    | none => finish (h.raise (.unhashable (h.tag v)))
    | some hashKey => (.sub (.expr value) (.value hashKey v rest table), h)
  | .value hashKey k rest table, h => collectPairs (table.insert ⟨hashKey, k, v⟩) rest h
  | .collection i, h => (.sub (.expr i) (.position v), h)
  | .position c, h => finish (h.index c v)
  | .declare m name, h => finish (settle (h.declare scope name ⟨m, v⟩))
  | .assign name, h => (.assign name v scope, h)
  | .ret, h => finish (h.returning v)
  | .seq [], h => (.done v, h)
  | .seq (s :: rest), h => (.sub (.stmt s) (.seq rest), h)
  | .body _, h | .program, h => (.done v.unwrap, h)

end

-- ---------------------------------------------------------------------------
-- States
-- ---------------------------------------------------------------------------

/-- A node that waits, and how many calls were active around it. -/
structure Waiting where
  node : Node
  depth : Nat
  frame : Frame

inductive Control where
  | eval (node : Node)
  | lookup (node : Node) (name : String) (i : ScopeId)
  | assign (node : Node) (name : String) (v : Value) (i : ScopeId)
  | value (v : Value)

/-- `depth` calls are active, and the innermost of the nodes that wait is the first. -/
structure State where
  control : Control
  scope : ScopeId
  depth : Nat
  stack : List Waiting
  heap : Heap

def perform (node : Node) (scope : ScopeId) (depth : Nat) (stack : List Waiting) : Turn → State
  | (.done v, h) => ⟨.value v, scope, depth, stack, h⟩
  | (.sub child frame, h) => ⟨.eval child, scope, depth, ⟨node, depth, frame⟩ :: stack, h⟩
  | (.tail child, h) => ⟨.eval child, scope, depth, stack, h⟩
  | (.lookup name i, h) => ⟨.lookup node name i, scope, depth, stack, h⟩
  | (.assign name v i, h) => ⟨.assign node name v i, scope, depth, stack, h⟩
  | (.enter code new, h) =>
    ⟨.eval (.block code), new, depth + 1, ⟨node, depth, .body scope⟩ :: stack, h⟩

def unbound (name : String) (h : Heap) : Run :=
  match Builtin.ofName? name with
  | some b => h.alloc (.builtin b)
  | none => h.raise (.unknownName name)

def look (name : String) (i : ScopeId) (h : Heap) : Turn :=
  match h.binding? name i with
  | some b => (.done b.value, h)
  | none =>
    match h.scopes[i]?.bind Scope.outer with
    | some o => (.lookup name o, h)
    | none => finish (unbound name h)

def change (name : String) (v : Value) (i : ScopeId) (h : Heap) : Turn :=
  match h.binding? name i with
  | some b =>
    match b.mutability with
    | .mutable => (.done .null, { h with scopes := h.scopes.modify i (·.assign name v) })
    | .fixed => finish (h.raise (.scope (.fixed name)))
  | none =>
    match h.scopes[i]?.bind Scope.outer with
    | some o => (.assign name v o, h)
    | none => finish (h.raise (.scope (.undefined name)))

/-- One step; none from a value that no node waits for. A signal goes past every node that waits but
a call and the program. -/
def step : State → Option State
  | ⟨.eval node, scope, depth, stack, h⟩ =>
    some (perform node scope depth stack (begin depth scope node h))
  | ⟨.lookup node name i, scope, depth, stack, h⟩ =>
    some (perform node scope depth stack (look name i h))
  | ⟨.assign node name v i, scope, depth, stack, h⟩ =>
    some (perform node scope depth stack (change name v i h))
  | ⟨.value _, _, _, [], _⟩ => none
  | ⟨.value v, _, depth, ⟨_, _, .body caller⟩ :: stack, h⟩ =>
    some ⟨.value v.unwrap, caller, depth - 1, stack, h⟩
  | ⟨.value v, scope, depth, ⟨_, _, .program⟩ :: stack, h⟩ =>
    some ⟨.value v.unwrap, scope, depth, stack, h⟩
  | ⟨.value v, scope, depth, ⟨node, _, frame⟩ :: stack, h⟩ =>
    if v.isInterrupt then some ⟨.value v, scope, depth, stack, h⟩
    else some (perform node scope depth stack (resume depth scope v frame h))

def run : Nat → State → State
  | 0, s => s
  | n + 1, s =>
    match step s with
    | none => s
    | some s' => run n s'

def start (depth : Nat) (scope : ScopeId) (p : Program) (h : Heap) : State :=
  ⟨.eval (.program p), scope, depth, [], h⟩

def final (depth : Nat) (scope : ScopeId) (r : Run) : State := ⟨.value r.1, scope, depth, [], r.2⟩

theorem step_final (depth : Nat) (scope : ScopeId) (r : Run) : step (final depth scope r) = none :=
  rfl

-- ---------------------------------------------------------------------------
-- What is active
-- ---------------------------------------------------------------------------

/-- How far an evaluation can still go: the calls that can still be nested in it, and its size. -/
def measure (depth : Nat) (node : Node) : Nat × Nat := (maxCallDepth - depth, node.size)

def Waiting.measure (w : Waiting) : Nat × Nat := Machine.measure w.depth w.node

def State.active (s : State) : List (Nat × Nat) :=
  match s.control with
  | .eval node | .lookup node _ _ | .assign node _ _ _ =>
    Machine.measure s.depth node :: s.stack.map Waiting.measure
  | .value _ => s.stack.map Waiting.measure

end Machine

end TinyScript
