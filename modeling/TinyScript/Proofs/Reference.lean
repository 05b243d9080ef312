import TinyScript.Eval

/-!
# Evaluation with outcomes

Another evaluator for the same trees. Here a failure and a return are no values: an evaluation has
one of three outcomes, and going on (`bind`) is for normal ones only. So no step can forget to look
whether something went wrong, and nothing that went wrong can get into a variable, an array or a
hash. A return ends at a call of a user function (`caught`) or with the program.

The heap is the same, but nothing here raises a signal: the number of signals never changes.
-/

namespace TinyScript

inductive Outcome (α : Type) where
  | normal (a : α)
  | returning (v : Value)
  | failed (fault : Fault)
  deriving Repr

def Effect (α : Type) : Type := Heap → Outcome α × Heap

namespace Effect

instance : Monad Effect where
  pure a := fun h => (.normal a, h)
  bind m next := fun h =>
    match m h with
    | (.normal a, h) => next a h
    | (.returning v, h) => (.returning v, h)
    | (.failed fault, h) => (.failed fault, h)

def heap : Effect Heap := fun h => (.normal h, h)

def fail (fault : Fault) : Effect α := fun h => (.failed fault, h)

def returning (v : Value) : Effect α := fun h => (.returning v, h)

def caught (m : Effect Value) : Effect Value := fun h =>
  match m h with
  | (.returning v, h) => (.normal v, h)
  | r => r

-- ---------------------------------------------------------------------------
-- Heaps
-- ---------------------------------------------------------------------------

def alloc (o : Object) : Effect Value := fun h =>
  (.normal (.object h.objects.size), { h with objects := h.objects.push o })

def modifyItems (id : ObjectId) (f : Array Value → Array Value) : Effect Unit := fun h =>
  (.normal (), h.modifyItems id f)

def openScope (outer : ScopeId) : Effect ScopeId := fun h =>
  (.normal (h.openScope (some outer)).1, (h.openScope (some outer)).2)

def attempt (change : Heap → Except ScopeError Unit × Heap) : Effect Unit := fun h =>
  match change h with
  | (.ok (), h) => (.normal (), h)
  | (.error e, h) => (.failed (.scope e), h)

end Effect

namespace Reference

open Effect

abbrev Caller := Value → List Value → Effect Value

-- ---------------------------------------------------------------------------
-- Operators
-- ---------------------------------------------------------------------------

def unary (op : UnaryOp) (v : Value) : Effect Value :=
  match op, v with
  | .not, .bool b => pure (.bool !b)
  | .negate, .int n => pure (.int (-n))
  | op, v => do fail (.unaryOperand op ((← heap).tag v))

def arithmetic (op : BinaryOp) (l r : Int64) : Effect Value :=
  match op with
  | .add => pure (.int (l + r))
  | .sub => pure (.int (l - r))
  | .mul => pure (.int (l * r))
  | .div => if r = 0 then fail (.divisionByZero op l) else pure (.int (l / r))
  | .mod => if r = 0 then fail (.divisionByZero op l) else pure (.int (l % r))
  | .less => pure (.bool (l < r))
  | .greater => pure (.bool (r < l))
  | .equal => pure (.bool (l == r))
  | .notEqual => pure (.bool (l != r))
  | .lessEqual => pure (.bool (l ≤ r))
  | .greaterEqual => pure (.bool (r ≤ l))

def rejectOperands (op : BinaryOp) (l r : Value) : Effect Value := do
  let h ← heap
  if h.tag l = h.tag r then fail (.binaryOperands op (h.tag l) (h.tag r))
  else fail (.mismatch op (h.tag l) (h.tag r))

def binary (op : BinaryOp) (l r : Value) : Effect Value :=
  match l, r with
  | .int a, .int b => arithmetic op a b
  | l, r =>
    match op with
    | .equal => pure (.bool (l == r))
    | .notEqual => pure (.bool (l != r))
    | .add => do
      let h ← heap
      match h.string? l, h.string? r with
      | some a, some b => alloc (.string (a ++ b))
      | _, _ => rejectOperands .add l r
    | op => rejectOperands op l r

def index (collection position : Value) : Effect Value := do
  let h ← heap
  match h.object? collection, position with
  | some (.array items), .int n =>
    pure (if n < 0 then .null else (items[n.toInt.toNat]?).getD .null)
  | some (.hash table), position =>
    match h.hashKey? position with
    | some k => pure ((table.find? k).getD .null)
    | none => fail (.unhashableIndex (h.tag position))
  | _, position => fail (.notIndexable (h.tag collection) (h.tag position))

-- ---------------------------------------------------------------------------
-- Built-in procedures
-- ---------------------------------------------------------------------------

def onArray (b : Builtin) (id : ObjectId) (items : Array Value) (extra : List Value) :
    Effect Value :=
  match b with
  | .len => pure (.int (Int64.ofNat items.size))
  | .head => pure (items[0]?.getD .null)
  | .tail => pure (items.back?.getD .null)
  | .push => do
    modifyItems id (· ++ extra)
    pure .null
  | .pushleft => do
    modifyItems id (extra.toArray ++ ·)
    pure .null
  | .pop =>
    if items.isEmpty then pure .null
    else do
      modifyItems id Array.pop
      pure (.object id)
  | .popleft =>
    if items.isEmpty then pure .null
    else do
      modifyItems id (·.extract 1 items.size)
      pure (.object id)

def builtin (b : Builtin) (args : List Value) : Effect Value :=
  match args with
  | [] => fail (.arity b.arity 0)
  | v :: extra =>
    if (v :: extra).length = b.arity then do
      let h ← heap
      match b, v, h.object? v with
      | b, .object id, some (.array items) => onArray b id items extra
      | .len, _, some (.string s) => pure (.int (Int64.ofNat s.utf8ByteSize))
      | b, v, _ => fail (.argument b (h.tag v))
    else fail (.arity b.arity (v :: extra).length)

-- ---------------------------------------------------------------------------
-- Trees
-- ---------------------------------------------------------------------------

mutual

def expr (call : Caller) (scope : ScopeId) : Expr → Effect Value
  | .ident name => do
    match (← heap).lookup scope name with
    | some v => pure v
    | none =>
      match Builtin.ofName? name with
      | some b => alloc (.builtin b)
      | none => fail (.unknownName name)
  | .int n => pure (.int n)
  | .str raw => alloc (.string raw)
  | .bool b => pure (.bool b)
  | .null => pure .null
  | .unary op e => do
    let v ← expr call scope e
    unary op v
  | .binary op l r => do
    let a ← expr call scope l
    let b ← expr call scope r
    binary op a b
  | .cond test yes none => do
    match ← expr call scope test with
    | .bool true => block call scope yes .null
    | _ => pure .null
  | .cond test yes (some no) => do
    match ← expr call scope test with
    | .bool true => block call scope yes .null
    | .bool false => block call scope no .null
    | _ => pure .null
  | .func params body => alloc (.function params body scope)
  | .call callee args => do
    let f ← expr call scope callee
    let values ← exprs call scope args
    call f values
  | .array items => do
    let values ← exprs call scope items
    alloc (.array values.toArray)
  | .hash ps => do
    let table ← pairs call scope ps []
    alloc (.hash table)
  | .index collection position => do
    let c ← expr call scope collection
    let i ← expr call scope position
    index c i

def exprs (call : Caller) (scope : ScopeId) : List Expr → Effect (List Value)
  | [] => pure []
  | e :: rest => do
    let v ← expr call scope e
    let values ← exprs call scope rest
    pure (v :: values)

/-- A key is checked before its value is evaluated. -/
def pairs (call : Caller) (scope : ScopeId) : List (Expr × Expr) → Table → Effect Table
  | [], table => pure table
  | (key, value) :: rest, table => do
    let k ← expr call scope key
    let h ← heap
    match h.hashKey? k with
    | none => fail (.unhashable (h.tag k))
    | some hashKey =>
      let v ← expr call scope value
      pairs call scope rest (table.insert ⟨hashKey, k, v⟩)

def stmt (call : Caller) (scope : ScopeId) : Stmt → Effect Value
  | .declare m name e => do
    let v ← expr call scope e
    attempt (Heap.declare scope name ⟨m, v⟩)
    pure .null
  | .assign name e => do
    let v ← expr call scope e
    attempt (Heap.assign scope name v)
    pure .null
  | .ret e => do
    let v ← expr call scope e
    returning v
  | .expr e => expr call scope e
  | .block body => block call scope body .null

def block (call : Caller) (scope : ScopeId) : List Stmt → Value → Effect Value
  | [], last => pure last
  | s :: rest, _ => do
    let v ← stmt call scope s
    block call scope rest v

end

-- ---------------------------------------------------------------------------
-- Calls and programs
-- ---------------------------------------------------------------------------

def bindParams (scope : ScopeId) : List (String × Value) → Effect Unit
  | [] => pure ()
  | (name, v) :: rest => do
    attempt (Heap.declare scope name ⟨.mutable, v⟩)
    bindParams scope rest

def applyWith (body : Block → ScopeId → Effect Value) (callee : Value) (args : List Value) :
    Effect Value := do
  let h ← heap
  match h.object? callee with
  | some (.builtin b) => builtin b args
  | some (.function params code outer) =>
    if params.length = args.length then do
      let scope ← openScope outer
      bindParams scope (params.zip args)
      body code scope
    else fail (.arity params.length args.length)
  | _ => fail (.notCallable (h.tag callee))

/-- Applies a callee where `calls` more calls may be active at once. -/
def apply : (calls : Nat) → Caller
  | 0, callee, args => applyWith (fun _ _ => fail .callDepth) callee args
  | calls + 1, callee, args =>
    applyWith (fun code scope => caught (block (apply calls) scope code .null)) callee args

def program (depth : Nat) (scope : ScopeId) (p : Program) : Effect Value :=
  caught (block (apply (maxCallDepth - depth)) scope p .null)

end Reference

end TinyScript
