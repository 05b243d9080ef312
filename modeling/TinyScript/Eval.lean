import TinyScript.Builtin.Call
import TinyScript.Operation
import TinyScript.Scope

/-!
# Running programs

A tree is evaluated from left to right in a scope of a heap. An interrupt that comes out of a part
(`Value.isInterrupt`) is the result of the whole, with nothing done after it; it ends at the function
call or the program that it is in.

Evaluation ends for every tree. Inside one body it follows the tree, and `call`, by which bodies
reach other bodies, is recursive in the number of further calls that may be active at once. A body
belongs to the scope of its function and not to that of its caller, and blocks have no scope of their
own.
-/

namespace TinyScript

abbrev Caller := Value → List Value → Heap → Run

/-- A change of a scope as a result: null, or the failure that says why it was refused. -/
def settle : Except ScopeError Unit × Heap → Run
  | (.ok (), h) => (.null, h)
  | (.error e, h) => h.raise (.scope e)

mutual

def Expr.eval (call : Caller) (scope : ScopeId) : Expr → Heap → Run
  | .ident name, h =>
    match h.lookup scope name with
    | some v => (v, h)
    | none =>
      match Builtin.ofName? name with
      | some b => h.alloc (.builtin b)
      | none => h.raise (.unknownName name)
  | .int n, h => (.int n, h)
  | .str raw, h => h.alloc (.string raw)
  | .bool b, h => (.bool b, h)
  | .null, h => (.null, h)
  | .unary op e, h => andThen (e.eval call scope h) fun v h => h.unary op v
  | .binary op l r, h =>
    andThen (l.eval call scope h) fun a h =>
      andThen (r.eval call scope h) fun b h => h.binary op a b
  | .cond test yes none, h =>
    andThen (test.eval call scope h) fun v h =>
      match v with
      | .bool true => Block.eval call scope yes .null h
      | _ => (.null, h)
  | .cond test yes (some no), h =>
    andThen (test.eval call scope h) fun v h =>
      match v with
      | .bool true => Block.eval call scope yes .null h
      | .bool false => Block.eval call scope no .null h
      | _ => (.null, h)
  | .func params body, h => h.alloc (.function params body scope)
  | .call callee args, h =>
    andThen (callee.eval call scope h) fun f h =>
      match Expr.evalList call scope args h with
      | (.ok values, h) => call f values h
      | (.error v, h) => (v, h)
  | .array items, h =>
    match Expr.evalList call scope items h with
    | (.ok values, h) => h.alloc (.array values.toArray)
    | (.error v, h) => (v, h)
  | .hash pairs, h =>
    match Expr.evalPairs call scope pairs [] h with
    | (.ok table, h) => h.alloc (.hash table)
    | (.error v, h) => (v, h)
  | .index collection position, h =>
    andThen (collection.eval call scope h) fun c h =>
      andThen (position.eval call scope h) fun i h => h.index c i

def Expr.evalList (call : Caller) (scope : ScopeId) :
    List Expr → Heap → Except Value (List Value) × Heap
  | [], h => (.ok [], h)
  | e :: rest, h =>
    match e.eval call scope h with
    | (v, h) =>
      if v.isInterrupt then (.error v, h)
      else
        match Expr.evalList call scope rest h with
        | (.ok values, h) => (.ok (v :: values), h)
        | (.error v, h) => (.error v, h)

/-- The table of all pairs added to `table`, or the first interrupt. A key is checked before its
value is evaluated. -/
def Expr.evalPairs (call : Caller) (scope : ScopeId) :
    List (Expr × Expr) → Table → Heap → Except Value Table × Heap
  | [], table, h => (.ok table, h)
  | (key, value) :: rest, table, h =>
    match key.eval call scope h with
    | (k, h) =>
      if k.isInterrupt then (.error k, h)
      else
        match h.hashKey? k with
        | none =>
          match h.raise (.unhashable (h.tag k)) with
          | (v, h) => (.error v, h)
        | some hashKey =>
          match value.eval call scope h with
          | (v, h) =>
            if v.isInterrupt then (.error v, h)
            else Expr.evalPairs call scope rest (table.insert ⟨hashKey, k, v⟩) h

def Stmt.eval (call : Caller) (scope : ScopeId) : Stmt → Heap → Run
  | .declare m name e, h =>
    andThen (e.eval call scope h) fun v h => settle (h.declare scope name ⟨m, v⟩)
  | .assign name e, h =>
    andThen (e.eval call scope h) fun v h => settle (h.assign scope name v)
  | .ret e, h => andThen (e.eval call scope h) fun v h => h.returning v
  | .expr e, h => e.eval call scope h
  | .block body, h => Block.eval call scope body .null h

def Block.eval (call : Caller) (scope : ScopeId) : List Stmt → Value → Heap → Run
  | [], last, h => (last, h)
  | s :: rest, _, h => andThen (s.eval call scope h) fun v h => Block.eval call scope rest v h

end

def Heap.bindParams (scope : ScopeId) : List (String × Value) → Heap → Except ScopeError Unit × Heap
  | [], h => (.ok (), h)
  | (name, v) :: rest, h =>
    match h.declare scope name ⟨.mutable, v⟩ with
    | (.ok (), h) => bindParams scope rest h
    | (.error e, h) => (.error e, h)

/-- One call: `body` is run in a new scope that holds the arguments and lies in the scope of the
function. Calls of built-in procedures have neither scope nor body. -/
@[inline]
def applyWith (body : Block → ScopeId → Heap → Run) (callee : Value) (args : List Value) (h : Heap) :
    Run :=
  match h.object? callee with
  | some (.builtin b) => b.call args h
  | some (.function params code outer) =>
    if params.length = args.length then
      match h.openScope (some outer) with
      | (scope, h) =>
        match h.bindParams scope (params.zip args) with
        | (.ok (), h) => body code scope h
        | (.error e, h) => h.raise (.scope e)
    else h.raise (.arity params.length args.length)
  | _ => h.raise (.notCallable (h.tag callee))

/-- Applies a callee where `calls` more calls may be active at once. -/
def apply : (calls : Nat) → Caller
  | 0, callee, args, h => applyWith (fun _ _ h => h.raise .callDepth) callee args h
  | calls + 1, callee, args, h =>
    applyWith
      (fun code scope h =>
        match Block.eval (apply calls) scope code .null h with
        | (v, h) => (v.unwrap, h))
      callee args h

/-- Runs a program in a scope from a given number of active calls. -/
def Program.evalAt (depth : Nat) (scope : ScopeId) (p : Program) (h : Heap) : Run :=
  match Block.eval (apply (maxCallDepth - depth)) scope p .null h with
  | (v, h) => (v.unwrap, h)

def Program.eval (scope : ScopeId) (p : Program) (h : Heap) : Run := p.evalAt 0 scope h

end TinyScript
