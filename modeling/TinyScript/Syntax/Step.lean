import TinyScript.SyntaxError

/-!
# Steps of reading

A `Step` is what reading a construct leaves: the tree, if there is one, the mistakes met on the way,
in order, and the tokens still to be read. A construct may succeed with mistakes inside it, since a
block goes on after a statement that failed. The rest is bounded by the index, which is what makes
reading end.

A mistake is reported at the first token that does not fit, and that token is skipped.
-/

namespace TinyScript

structure Step (α : Type) (bound : Nat) where
  result : Option α
  errors : List SyntaxError
  rest : List Token
  rest_le : rest.length ≤ bound

namespace Step

variable {α β : Type} {m n : Nat}

def weaken (s : Step α m) (h : m ≤ n) : Step α n := ⟨s.result, s.errors, s.rest, Nat.le_trans s.rest_le h⟩

def done (a : α) (ts : List Token) : Step α ts.length := ⟨some a, [], ts, Nat.le_refl _⟩

/-- Fails at a token that is already behind. -/
def fail (e : SyntaxError) (ts : List Token) : Step α ts.length := ⟨none, [e], ts, Nat.le_refl _⟩

/-- Fails at the next token and skips it; `stop` is the end token of the text. -/
def failNext (stop : Token) (cause : SyntaxError.Cause) : (ts : List Token) → Step α (ts.length - 1)
  | [] => ⟨none, [⟨cause, stop⟩], [], Nat.le_refl _⟩
  | t :: ts => ⟨none, [⟨cause, t⟩], ts, Nat.le_refl _⟩

/-- Goes on with the tree and the rest of the first step; a failed step ends the construct. -/
@[inline]
def bind (s : Step α n) (next : α → (ts : List Token) → ts.length ≤ n → Step β ts.length) :
    Step β n :=
  match s with
  | ⟨none, errors, rest, h⟩ => ⟨none, errors, rest, h⟩
  | ⟨some a, errors, rest, h⟩ =>
    let t := next a rest h
    ⟨t.result, errors ++ t.errors, t.rest, Nat.le_trans t.rest_le h⟩

@[inline]
def map (f : α → β) (s : Step α n) : Step β n :=
  ⟨s.result.map f, s.errors, s.rest, s.rest_le⟩

@[inline]
def expect (stop : Token) (kind : Token.Kind) (ts : List Token)
    (next : Token → (rest : List Token) → rest.length < ts.length → Step β rest.length) :
    Step β ts.length :=
  match ts with
  | [] => failNext stop (.missing kind) []
  | t :: rest =>
    if t.kind = kind then
      (next t rest (Nat.lt_succ_self _)).weaken (Nat.le_succ _)
    else
      (failNext stop (.missing kind) (t :: rest)).weaken (Nat.le_succ _)

def dropSemicolon : List Token → List Token
  | ⟨.symbol .semicolon, _, _⟩ :: ts => ts
  | ts => ts

theorem length_dropSemicolon (ts : List Token) : (dropSemicolon ts).length ≤ ts.length := by
  unfold dropSemicolon
  split
  · exact Nat.le_succ _
  · exact Nat.le_refl _

/-- Takes the optional semicolon that ends a statement, also after a failure. -/
def thenSemicolon (s : Step α n) : Step α n :=
  ⟨s.result, s.errors, dropSemicolon s.rest, Nat.le_trans (length_dropSemicolon _) s.rest_le⟩

/-- Two steps one after the other, of which the first may fail: what it read is kept if there is
something, and the second runs in any case. -/
@[inline]
def thenRest (s : Step α n) (next : (ts : List Token) → ts.length ≤ n → Step (List α) ts.length) :
    Step (List α) n :=
  let t := next s.rest s.rest_le
  ⟨t.result.map (s.result.toList ++ ·), s.errors ++ t.errors, t.rest, Nat.le_trans t.rest_le s.rest_le⟩

end Step

end TinyScript
