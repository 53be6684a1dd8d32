/-
  ScopeScript.Grammar.Expression

  The grammar of expressions, by recursive descent, lowest precedence first:

    expression     := comparison (assignment-sign expression)?
    comparison     := additive (comparison-sign additive)*
    additive       := multiplicative (('+' | '-') multiplicative)*
    multiplicative := exponential (('*' | '/' | '%') exponential)*
    exponential    := unary ('**' unary)*
    unary          := '-' unary | ('++' | '--') suffixed | suffixed
    suffixed       := address ('++' | '--')? | primary
    address        := NAME ('.' NAME | '[' expression ']' | '(' items ')')*
    primary        := INT | DOUBLE | STRING | '(' expression ')'
                    | '[' items ']' | '{' entries '}'
    items          := (expression (',' expression)* ','?)?
    entries        := (expression ':' expression (',' …)* ','?)?

  All four chains associate to the left. An expression, an operand after the
  first in a chain, a unary minus and a call each open one level of nesting;
  the levels of a chain and of an address add up until it ends. More than
  `limit` levels are an error.
-/
import ScopeScript.Grammar.Cursor

namespace ScopeScript
namespace Grammar

/-! ## Operators -/

/-- The binary operators in order of precedence, loosest first. -/
inductive Precedence where
  | comparison | additive | multiplicative | exponential
deriving DecidableEq

namespace Precedence

/-- The precedence of the operands of a chain; none means unary operands. -/
def tighter? : Precedence → Option Precedence
  | comparison => some additive
  | additive => some multiplicative
  | multiplicative => some exponential
  | exponential => none

/-- How many chains may nest without reading a token, this one included. -/
def height : Precedence → Nat
  | comparison => 4
  | additive => 3
  | multiplicative => 2
  | exponential => 1

theorem rank_lt_of_tighter {p q : Precedence} (h : p.tighter? = some q) :
    2 * q.height + 3 < 2 * p.height + 2 := by
  cases p <;> cases q <;> first | exact absurd h (by decide) | decide

theorem rank_pos (p : Precedence) : 3 < 2 * p.height + 2 := by
  cases p <;> decide

theorem rank_lt (p : Precedence) : 2 * p.height + 2 < 16 := by
  cases p <;> decide

/-- The operator of a chain that a symbol stands for. -/
def operator? : Precedence → Symbol → Option BinaryOp
  | comparison, .equal => some .eq
  | comparison, .notEqual => some .ne
  | comparison, .less => some .lt
  | comparison, .greater => some .gt
  | comparison, .lessEqual => some .le
  | comparison, .greaterEqual => some .ge
  | additive, .plus => some .add
  | additive, .minus => some .sub
  | multiplicative, .star => some .mul
  | multiplicative, .slash => some .div
  | multiplicative, .percent => some .mod
  | exponential, .power => some .pow
  | _, _ => none

end Precedence

/-- How an assignment sign makes the assigned value: plainly, or by an operator
    from the old value and the right-hand side. -/
inductive AssignSign where
  | plain
  | compound (op : BinaryOp)
deriving DecidableEq

def AssignSign.ofSymbol? : Symbol → Option AssignSign
  | .assign => some .plain
  | .plusAssign => some (.compound .add)
  | .minusAssign => some (.compound .sub)
  | .starAssign => some (.compound .mul)
  | .slashAssign => some (.compound .div)
  | .percentAssign => some (.compound .mod)
  | .powerAssign => some (.compound .pow)
  | _ => none

/-- The operator by which a step changes its target by one. -/
def stepOp? : Symbol → Option BinaryOp
  | .increment => some .add
  | .decrement => some .sub
  | _ => none

/-! ## Trees of composed forms -/

/-- Only a tree that reads a location can be written to; its address is not
    empty. -/
def target (use : TargetUse) (e : Expr) : Except ParseError (List Expr) :=
  match e with
  | .read _ (key :: keys) => .ok (key :: keys)
  | _ => .error ⟨.badTarget use e.kind, e.span⟩

/-- An operation on two trees, from the first byte of one to the last of the
    other. -/
def operation (op : BinaryOp) (left right : Expr) : Expr :=
  .binary (left.span.merge right.span) op left right

/-- The tree of `target sign right`. -/
def assignment (sign : AssignSign) (address : List Expr) (place : Span) (right : Expr) : Expr :=
  let span := place.merge right.span
  match sign with
  | .plain => .assign span address right false
  | .compound op => .assign span address (.binary span op (.read place address) right) false

/-- A step is the assignment of the target's value plus or minus one. -/
def step (op : BinaryOp) (address : List Expr) (span : Span) (yieldsOld : Bool) : Expr :=
  .assign span address (.binary span op (.read span address) (.int span 1)) yieldsOld

/-- A minus sign at `sign` before a tree. Literals take it into their value;
    anything else is subtracted from zero. -/
def negation (sign : Span) (operand : Expr) : Expr :=
  let span := sign.merge operand.span
  match operand with
  | .int _ n => .int span (-n)
  | .double _ d => .double span d.neg
  | e => .binary span .sub (.int sign 0) e

/-! ## The grammar -/

mutual

/-- An expression, with the assignment that it may be. -/
def expression (limit : Nat) (c : Cursor) : Except ParseError (Parsed c Expr) :=
  if limit ≤ c.level then .error (c.tooDeep limit)
  else do
    let left ← chain limit .comparison c.deeper
    match h : left.next.tokens with
    | ⟨.symbol s, span⟩ :: rest =>
      match AssignSign.ofSymbol? s with
      | some sign => do
        -- A bad target is reported before anything behind the sign is read.
        let address ← target .assignment left.value
        let right ← expression limit ((left.next.past span rest).atLevel c.deeper.level)
        return ⟨assignment sign address left.value.span right.value, right.next.atLevel c.level,
          Nat.lt_trans right.moved (Nat.lt_trans (Cursor.past_lt span h) left.moved)⟩
      | none => return ⟨left.value, left.next.atLevel c.level, left.moved⟩
    | _ => return ⟨left.value, left.next.atLevel c.level, left.moved⟩
termination_by c.weight 12
decreasing_by
  · exact c.weight_lt_of_rank (by decide)
  · exact Cursor.weight_lt (Nat.lt_trans (Cursor.past_lt span h) left.moved) (by decide) _

/-- A chain of operands of one precedence. -/
def chain (limit : Nat) (p : Precedence) (c : Cursor) : Except ParseError (Parsed c Expr) := do
  let first ← operand limit p c
  let all ← chainRest limit p first.value first.next
  return ⟨all.value, all.next.atLevel c.level, Nat.lt_of_le_of_lt all.kept first.moved⟩
termination_by c.weight (2 * p.height + 3)
decreasing_by
  · exact c.weight_lt_of_rank (Nat.lt_succ_self _)
  · exact Cursor.weight_lt first.moved (by decide) _

/-- An operand of a chain: a chain that binds tighter, or a unary one. -/
def operand (limit : Nat) (p : Precedence) (c : Cursor) : Except ParseError (Parsed c Expr) :=
  match _h : p.tighter? with
  | some q => chain limit q c
  | none => unary limit c
termination_by c.weight (2 * p.height + 2)
decreasing_by
  · exact c.weight_lt_of_rank (Precedence.rank_lt_of_tighter _h)
  · exact c.weight_lt_of_rank (Precedence.rank_pos p)

/-- The operators and operands that follow in a chain that reads `left` so
    far. -/
def chainRest (limit : Nat) (p : Precedence) (left : Expr) (c : Cursor) :
    Except ParseError (Reached c Expr) :=
  match h : c.tokens with
  | ⟨.symbol s, span⟩ :: rest =>
    match p.operator? s with
    | some op =>
      if limit ≤ c.level then .error ((c.past span rest).tooDeep limit)
      else do
        let right ← operand limit p (c.past span rest).deeper
        let all ← chainRest limit p (operation op left right.value) right.next
        return ⟨all.value, all.next,
          Nat.le_trans all.kept (Nat.le_of_lt (Nat.lt_trans right.moved (Cursor.past_lt span h)))⟩
    | none => return .here left c
  | _ => return .here left c
termination_by c.weight 13
decreasing_by
  · exact Cursor.weight_lt (Cursor.past_lt span h) (Precedence.rank_lt p) _
  · exact Cursor.weight_lt (Nat.lt_trans right.moved (Cursor.past_lt span h)) (by decide) _

/-- An operand with its minus signs and a step before it. -/
def unary (limit : Nat) (c : Cursor) : Except ParseError (Parsed c Expr) :=
  match h : c.tokens with
  | ⟨.symbol s, span⟩ :: rest =>
    if s = .minus then
      if limit ≤ c.level then .error ((c.past span rest).tooDeep limit)
      else do
        let inner ← unary limit (c.past span rest).deeper
        return ⟨negation span inner.value, inner.next.atLevel c.level,
          Nat.lt_trans inner.moved (Cursor.past_lt span h)⟩
    else
      match stepOp? s with
      | some op => do
        -- The operand is read whole before it is found to be no target.
        let inner ← suffixed limit (c.past span rest)
        let address ← target (.step s) inner.value
        return ⟨step op address (span.merge inner.value.span) false, inner.next,
          Nat.lt_trans inner.moved (Cursor.past_lt span h)⟩
      | none => suffixed limit c
  | _ => suffixed limit c
termination_by c.weight 3
decreasing_by
  · exact Cursor.weight_lt (Cursor.past_lt span h) (by decide) _
  · exact Cursor.weight_lt (Cursor.past_lt span h) (by decide) _
  · exact c.weight_lt_of_rank (by decide)
  · exact c.weight_lt_of_rank (by decide)

/-- An address with the step that may follow it, or a primary expression. -/
def suffixed (limit : Nat) (c : Cursor) : Except ParseError (Parsed c Expr) :=
  match h : c.tokens with
  | ⟨.name s, span⟩ :: rest => do
    let read ← address limit span [.string span s] (c.past span rest)
    -- The levels that calls have opened end with the address.
    let whole := span.merge read.next.last
    let next := read.next.atLevel c.level
    have moved : next.remaining < c.remaining :=
      Nat.lt_of_le_of_lt read.kept (Cursor.past_lt span h)
    match h' : next.tokens with
    | ⟨.symbol s, span⟩ :: rest =>
      match stepOp? s with
      | some op =>
        return ⟨step op read.value (whole.merge span) true, next.past span rest,
          Nat.lt_trans (Cursor.past_lt span h') moved⟩
      | none => return ⟨.read whole read.value, next, moved⟩
    | _ => return ⟨.read whole read.value, next, moved⟩
  | _ => primary limit c
termination_by c.weight 2
decreasing_by
  · exact Cursor.weight_lt (Cursor.past_lt span h) (by decide) _
  · exact c.weight_lt_of_rank (by decide)

/-- The segments that follow in an address that begins at `start` and reads
    `keys` so far. A call takes all of them as its callee. -/
def address (limit : Nat) (start : Span) (keys : List Expr) (c : Cursor) :
    Except ParseError (Reached c (List Expr)) :=
  match h : c.tokens with
  | ⟨.symbol .dot, _⟩ :: ⟨.name s, span⟩ :: rest => do
    let all ← address limit start (keys ++ [.string span s]) (c.past span rest)
    return ⟨all.value, all.next,
      Nat.le_trans all.kept (Nat.le_of_lt (Cursor.past_lt_of_two span h))⟩
  | ⟨.symbol .dot, span⟩ :: rest => .error ((c.past span rest).unexpected .propertyName)
  | ⟨.symbol .leftBracket, span⟩ :: rest => do
    let index ← expression limit (c.past span rest)
    let close ← index.next.eat .rightBracket
    let all ← address limit start (keys ++ [index.value]) close.next
    return ⟨all.value, all.next, Nat.le_trans all.kept (Nat.le_of_lt
      (Nat.lt_trans close.moved (Nat.lt_trans index.moved (Cursor.past_lt span h))))⟩
  | ⟨.symbol .leftParen, span⟩ :: rest =>
    if limit ≤ c.level then .error ((c.past span rest).tooDeep limit)
    else do
      let arguments ← items limit .rightParen (c.past span rest).deeper
      let close ← arguments.next.eat .rightParen
      let call := Expr.call (start.merge close.value) keys arguments.value
      let all ← address limit start [call] close.next
      return ⟨all.value, all.next, Nat.le_trans all.kept (Nat.le_of_lt
        (Nat.lt_trans close.moved (Nat.lt_of_le_of_lt arguments.kept (Cursor.past_lt span h))))⟩
  | _ => return .here keys c
termination_by c.weight 1
decreasing_by
  · exact Cursor.weight_lt (Cursor.past_lt_of_two span h) (by decide) _
  · exact Cursor.weight_lt (Cursor.past_lt span h) (by decide) _
  · exact Cursor.weight_lt
      (Nat.lt_trans close.moved (Nat.lt_trans index.moved (Cursor.past_lt span h))) (by decide) _
  · exact Cursor.weight_lt (Cursor.past_lt span h) (by decide) _
  · exact Cursor.weight_lt (Nat.lt_trans close.moved
      (Nat.lt_of_le_of_lt arguments.kept (Cursor.past_lt span h))) (by decide) _

/-- A literal, a parenthesised expression, a list or an object. -/
def primary (limit : Nat) (c : Cursor) : Except ParseError (Parsed c Expr) :=
  match h : c.tokens with
  | ⟨.int n, span⟩ :: rest => return ⟨.int span n, c.past span rest, Cursor.past_lt span h⟩
  | ⟨.double d, span⟩ :: rest => return ⟨.double span d, c.past span rest, Cursor.past_lt span h⟩
  | ⟨.string s, span⟩ :: rest => return ⟨.string span s, c.past span rest, Cursor.past_lt span h⟩
  | ⟨.symbol .leftParen, span⟩ :: rest => do
    let inner ← expression limit (c.past span rest)
    let close ← inner.next.eat .rightParen
    return ⟨inner.value.withSpan (span.merge close.value), close.next,
      Nat.lt_trans close.moved (Nat.lt_trans inner.moved (Cursor.past_lt span h))⟩
  | ⟨.symbol .leftBracket, span⟩ :: rest => do
    let elements ← items limit .rightBracket (c.past span rest)
    let close ← elements.next.eat .rightBracket
    return ⟨.list (span.merge close.value) elements.value, close.next,
      Nat.lt_trans close.moved (Nat.lt_of_le_of_lt elements.kept (Cursor.past_lt span h))⟩
  | ⟨.symbol .leftBrace, span⟩ :: rest => do
    let members ← entries limit (c.past span rest)
    let close ← members.next.eat .rightBrace
    return ⟨.object (span.merge close.value) members.value, close.next,
      Nat.lt_trans close.moved (Nat.lt_of_le_of_lt members.kept (Cursor.past_lt span h))⟩
  | _ => .error (c.unexpected .expression)
termination_by c.weight 1
decreasing_by
  all_goals exact Cursor.weight_lt (Cursor.past_lt span h) (by decide) _

/-- Expressions between commas, up to but without the closing symbol. A comma
    may stand before that too. -/
def items (limit : Nat) (close : Symbol) (c : Cursor) :
    Except ParseError (Reached c (List Expr)) :=
  if c.peek? = some (.symbol close) then return .here [] c
  else do
    let first ← expression limit c
    match h : first.next.tokens with
    | ⟨.symbol .comma, span⟩ :: rest => do
      let others ← items limit close (first.next.past span rest)
      return ⟨first.value :: others.value, others.next, Nat.le_trans others.kept
        (Nat.le_of_lt (Nat.lt_trans (Cursor.past_lt span h) first.moved))⟩
    | _ => return ⟨[first.value], first.next, Nat.le_of_lt first.moved⟩
termination_by c.weight 13
decreasing_by
  · exact c.weight_lt_of_rank (by decide)
  · exact Cursor.weight_lt (Nat.lt_trans (Cursor.past_lt span h) first.moved) (by decide) _

/-- Pairs of a key and a value between commas, up to but without the closing
    brace. -/
def entries (limit : Nat) (c : Cursor) : Except ParseError (Reached c (List (Expr × Expr))) :=
  if c.peek? = some (.symbol .rightBrace) then return .here [] c
  else do
    let key ← expression limit c
    let colon ← key.next.eat .colon
    let value ← expression limit colon.next
    match h : value.next.tokens with
    | ⟨.symbol .comma, span⟩ :: rest => do
      let others ← entries limit (value.next.past span rest)
      return ⟨(key.value, value.value) :: others.value, others.next, Nat.le_trans others.kept
        (Nat.le_of_lt (Nat.lt_trans (Cursor.past_lt span h)
          (Nat.lt_trans value.moved (Nat.lt_trans colon.moved key.moved))))⟩
    | _ => return ⟨[(key.value, value.value)], value.next, Nat.le_of_lt
        (Nat.lt_trans value.moved (Nat.lt_trans colon.moved key.moved))⟩
termination_by c.weight 13
decreasing_by
  · exact c.weight_lt_of_rank (by decide)
  · exact Cursor.weight_lt (Nat.lt_trans colon.moved key.moved) (by decide) _
  · exact Cursor.weight_lt (Nat.lt_trans (Cursor.past_lt span h)
      (Nat.lt_trans value.moved (Nat.lt_trans colon.moved key.moved))) (by decide) _

end

end Grammar
end ScopeScript
