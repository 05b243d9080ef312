import TinyScript.Precedence
import TinyScript.Syntax.Render
import TinyScript.Syntax.Step
import TinyScript.Token.Cursor

/-!
# Reading programs

Expressions are read by binding power: an operand, then every operator or bracket that binds tighter
than the level asked for. Reading never stops at a mistake. A statement that fails is left out, its
mistake is kept, and the next statement starts at the token after the mistake. A program is fit to
run only if there is no mistake.

Each function takes the tokens that are left and gives back fewer, or no more, of them; `stop` is the
end token of the text, where mistakes at the end are reported.
-/

namespace TinyScript

namespace Parse

def int? (digits : String) : Option Int64 :=
  let n := Nat.ofDigitChars 10 digits.toList 0
  if n ≤ Int64.maxValue.toInt.toNat then some (Int64.ofNat n) else none

/-- The parameters of a function after the opening parenthesis, up to and with the closing one. -/
def moreParams (stop : Token) (ts : List Token) : Step (List String) ts.length :=
  match ts with
  | ⟨.symbol .comma, _, _⟩ :: ts =>
    (Step.expect stop .ident ts fun name ts _ =>
      (moreParams stop ts).map (name.literal :: ·)).weaken (Nat.le_succ _)
  | ts => Step.expect stop (.symbol .rparen) ts fun _ ts _ => .done [] ts
termination_by ts.length
decreasing_by simp; omega

def params (stop : Token) (ts : List Token) : Step (List String) ts.length :=
  match ts with
  | ⟨.symbol .rparen, _, _⟩ :: ts => (Step.done [] ts).weaken (Nat.le_succ _)
  | ts => Step.expect stop .ident ts fun name ts _ => (moreParams stop ts).map (name.literal :: ·)

mutual

/-- An expression whose operators bind tighter than `level`. -/
def expression (stop : Token) (level : Precedence) (ts : List Token) : Step Expr (ts.length - 1) :=
  match ts with
  | [] => .failNext stop .notAnExpression []
  | t :: ts => (operand stop t ts).bind fun left ts _ => continued stop level left ts
termination_by 4 * ts.length
decreasing_by all_goals grind

/-- What starts with the token `t`, up to where an operator could follow. -/
def operand (stop t : Token) (ts : List Token) : Step Expr ts.length :=
  match t.kind with
  | .ident => .done (.ident t.literal) ts
  | .integer =>
    match int? t.literal with
    | some n => .done (.int n) ts
    | none => .fail ⟨.tooLarge, t⟩ ts
  | .string => .done (.str t.literal) ts
  | .keyword .true_ => .done (.bool true) ts
  | .keyword .false_ => .done (.bool false) ts
  | .keyword .null => .done .null ts
  | .symbol .bang =>
    ((expression stop .unary ts).map (.unary .not)).weaken (Nat.sub_le _ _)
  | .symbol .minus =>
    ((expression stop .unary ts).map (.unary .negate)).weaken (Nat.sub_le _ _)
  | .symbol .lparen =>
    ((expression stop .lowest ts).bind fun e ts _ =>
      Step.expect stop (.symbol .rparen) ts fun _ ts _ => .done e ts).weaken (Nat.sub_le _ _)
  | .symbol .lbracket => (items stop (.symbol .rbracket) ts).map .array
  | .symbol .lbrace => (pairs stop ts).map .hash
  | .keyword .if_ =>
    Step.expect stop (.symbol .lparen) ts fun _ ts _ =>
      ((expression stop .lowest ts).bind fun test ts _ =>
        Step.expect stop (.symbol .rparen) ts fun _ ts _ =>
          Step.expect stop (.symbol .lbrace) ts fun _ ts _ =>
            (block stop ts).bind fun yes ts _ =>
              match ts with
              | ⟨.keyword .else_, _, _⟩ :: ts =>
                (Step.expect stop (.symbol .lbrace) ts fun _ ts _ =>
                  (block stop ts).map fun no => .cond test yes (some no)).weaken (Nat.le_succ _)
              | ts => .done (.cond test yes none) ts).weaken (Nat.sub_le _ _)
  | .keyword .func =>
    Step.expect stop (.symbol .lparen) ts fun _ ts _ =>
      (params stop ts).bind fun names ts _ =>
        Step.expect stop (.symbol .lbrace) ts fun _ ts _ =>
          (block stop ts).map (.func names)
  | _ => .fail ⟨.notAnExpression, t⟩ ts
termination_by 4 * ts.length + 2
decreasing_by all_goals grind

/-- The operators, calls and indexes that follow `left` and bind tighter than `level`. -/
def continued (stop : Token) (level : Precedence) (left : Expr) (ts : List Token) :
    Step Expr ts.length :=
  match ts with
  | [] => .done left []
  | t :: ts =>
    if level < Precedence.ofKind t.kind then
      match t.kind with
      | .symbol .lparen =>
        ((items stop (.symbol .rparen) ts).bind fun args ts _ =>
          continued stop level (.call left args) ts).weaken (Nat.le_succ _)
      | .symbol .lbracket =>
        ((expression stop .lowest ts).bind fun position ts _ =>
          Step.expect stop (.symbol .rbracket) ts fun _ ts _ =>
            continued stop level (.index left position) ts).weaken (by simp only [List.length_cons]; omega)
      | .symbol s =>
        match BinaryOp.ofSymbol? s with
        | some op =>
          ((expression stop (Precedence.ofKind t.kind) ts).bind fun right ts _ =>
            continued stop level (.binary op left right) ts).weaken (by simp only [List.length_cons]; omega)
        | none => .done left (t :: ts)
      | _ => .done left (t :: ts)
    else .done left (t :: ts)
termination_by 4 * ts.length + 1
decreasing_by all_goals grind

/-- Expressions separated by commas, after the opening bracket, up to and with `close`. No comma
may follow the last. -/
def items (stop : Token) (close : Token.Kind) (ts : List Token) : Step (List Expr) ts.length :=
  match ts with
  | [] => .failNext stop .notAnExpression []
  | t :: ts =>
    if t.kind = close then (Step.done [] ts).weaken (Nat.le_succ _)
    else
      ((expression stop .lowest (t :: ts)).bind fun e ts _ =>
        (moreItems stop close ts).map (e :: ·)).weaken (Nat.sub_le _ _)
termination_by 4 * ts.length + 1
decreasing_by all_goals grind

def moreItems (stop : Token) (close : Token.Kind) (ts : List Token) : Step (List Expr) ts.length :=
  match ts with
  | ⟨.symbol .comma, _, _⟩ :: ts =>
    ((expression stop .lowest ts).bind fun e ts _ =>
      (moreItems stop close ts).map (e :: ·)).weaken (by simp only [List.length_cons]; omega)
  | ts => Step.expect stop close ts fun _ ts _ => .done [] ts
termination_by 4 * ts.length + 1
decreasing_by all_goals grind

/-- The pairs of a hash after the opening brace, up to and with the closing one. A comma may follow
the last. -/
def pairs (stop : Token) (ts : List Token) : Step (List (Expr × Expr)) ts.length :=
  match ts with
  | [] => .failNext stop .notAnExpression []
  | ⟨.symbol .rbrace, _, _⟩ :: ts => (Step.done [] ts).weaken (Nat.le_succ _)
  | t :: ts =>
    ((expression stop .lowest (t :: ts)).bind fun key ts _ =>
      Step.expect stop (.symbol .colon) ts fun _ ts _ =>
        ((expression stop .lowest ts).bind fun value ts _ =>
          match ts with
          | ⟨.symbol .rbrace, _, _⟩ :: ts => (Step.done [(key, value)] ts).weaken (Nat.le_succ _)
          | ts =>
            Step.expect stop (.symbol .comma) ts fun _ ts _ =>
              (pairs stop ts).map ((key, value) :: ·)).weaken (Nat.sub_le _ _)).weaken
      (Nat.sub_le _ _)
termination_by 4 * ts.length + 1
decreasing_by all_goals grind

def block (stop : Token) (ts : List Token) : Step Block ts.length :=
  match ts with
  | [] => .failNext stop (.missing (.symbol .rbrace)) []
  | ⟨.symbol .rbrace, _, _⟩ :: ts => (Step.done [] ts).weaken (Nat.le_succ _)
  | t :: ts =>
    ((statement stop (t :: ts)).thenRest fun ts _ => block stop ts).weaken (Nat.sub_le _ _)
termination_by 4 * ts.length + 3
decreasing_by all_goals grind

/-- One statement with its optional semicolon. A bare `return` leaves a closing brace alone. -/
def statement (stop : Token) (ts : List Token) : Step Stmt (ts.length - 1) :=
  match ts with
  | ⟨.keyword .var, _, _⟩ :: ts => declaration stop .mutable ts
  | ⟨.keyword .val, _, _⟩ :: ts => declaration stop .fixed ts
  | ⟨.ident, name, _⟩ :: ⟨.symbol .assign, _, _⟩ :: ts =>
    ((expression stop .lowest ts).thenSemicolon.map (.assign name)).weaken
      (by simp only [List.length_cons]; omega)
  | ⟨.keyword .return_, _, _⟩ :: ts =>
    match ts with
    | [] => .done (.ret .null) []
    | ⟨.symbol .rbrace, l, s⟩ :: ts => .done (.ret .null) (⟨.symbol .rbrace, l, s⟩ :: ts)
    | ⟨.symbol .semicolon, _, _⟩ :: ts => (Step.done (.ret .null) ts).weaken (Nat.le_succ _)
    | t :: ts =>
      ((expression stop .lowest (t :: ts)).thenSemicolon.map .ret).weaken
        (by simp only [List.length_cons]; omega)
  | ts => (expression stop .lowest ts).thenSemicolon.map .expr
termination_by 4 * ts.length + 1
decreasing_by all_goals grind

def declaration (stop : Token) (m : Mutability) (ts : List Token) : Step Stmt ts.length :=
  Step.expect stop .ident ts fun name ts _ =>
    Step.expect stop (.symbol .assign) ts fun _ ts _ =>
      ((expression stop .lowest ts).thenSemicolon.map (.declare m name.literal)).weaken
        (Nat.sub_le _ _)
termination_by 4 * ts.length + 1
decreasing_by all_goals grind

end

def statements (stop : Token) (ts : List Token) : List Stmt × List SyntaxError :=
  match ts with
  | [] => ([], [])
  | t :: ts =>
    let s := statement stop (t :: ts)
    let tail := statements stop s.rest
    (s.result.toList ++ tail.1, s.errors ++ tail.2)
termination_by ts.length
decreasing_by exact Nat.lt_succ_of_le s.rest_le

end Parse

/-- The program that a source text spells, with the statements that could be read, and every
mistake in it. -/
def Program.parse (source : String) : Program × List SyntaxError :=
  Parse.statements (Cursor.endToken source) (Cursor.start source).tokens

def Program.rereads (p : Program) : Bool := Program.parse p.render == (p, [])

end TinyScript
