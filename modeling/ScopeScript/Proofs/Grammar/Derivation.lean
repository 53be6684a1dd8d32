/-
  ScopeScript.Proofs.Grammar.Derivation

  The grammar as a type: a derivation of a nonterminal is a tree of productions.
  It has a yield, the tokens that it derives, a meaning, the syntax tree that it
  stands for, and a number of levels that it nests. Nothing here parses.

    statement      := '@' printed | expression
    printed        := (expression (',' expression)*)?
    expression     := comparison (assignment-sign expression)?
    comparison     := additive (comparison-sign additive)*
    additive       := multiplicative (('+' | '-') multiplicative)*
    multiplicative := exponential (('*' | '/' | '%') exponential)*
    exponential    := unary ('**' unary)*
    unary          := '-' unary | ('++' | '--') suffixed | suffixed
    suffixed       := NAME segment* ('++' | '--')? | primary
    segment        := '.' NAME | '[' expression ']' | '(' items ')'
    primary        := INT | DOUBLE | STRING | '(' expression ')'
                    | '[' items ']' | '{' entries '}'
    items          := (expression (',' expression)* ','?)?
    entries        := (expression ':' expression (',' …)* ','?)?
-/
import ScopeScript.Proofs.Expr.Bare

namespace ScopeScript
namespace Grammar

/-! ## Signs -/

/-- The precedence of an operator. -/
def Precedence.ofOp : BinaryOp → Precedence
  | .eq | .ne | .lt | .gt | .le | .ge => comparison
  | .add | .sub => additive
  | .mul | .div | .mod => multiplicative
  | .pow => exponential

/-- The sign of an operator. -/
def opSign : BinaryOp → Symbol
  | .add => .plus
  | .sub => .minus
  | .mul => .star
  | .div => .slash
  | .mod => .percent
  | .pow => .power
  | .eq => .equal
  | .ne => .notEqual
  | .lt => .less
  | .gt => .greater
  | .le => .lessEqual
  | .ge => .greaterEqual

/-- The sign of a kind of assignment. Comparisons do not assign. -/
def AssignSign.sign? : AssignSign → Option Symbol
  | plain => some .assign
  | compound .add => some .plusAssign
  | compound .sub => some .minusAssign
  | compound .mul => some .starAssign
  | compound .div => some .slashAssign
  | compound .mod => some .percentAssign
  | compound .pow => some .powerAssign
  | _ => none

/-- The sign of a step by an operator. -/
def stepSign? : BinaryOp → Option Symbol
  | .add => some .increment
  | .sub => some .decrement
  | _ => none

/-- The operands of the chains of one precedence are the chains of the next. -/
inductive Precedence.Over : Precedence → Precedence → Prop where
  | comparison : Over comparison additive
  | additive : Over additive multiplicative
  | multiplicative : Over multiplicative exponential

theorem operator?_eq_some_iff {p : Precedence} {s : Symbol} {op : BinaryOp} :
    p.operator? s = some op ↔ Precedence.ofOp op = p ∧ opSign op = s := by
  constructor
  · intro h
    cases p <;> cases s <;> cases h <;> exact ⟨rfl, rfl⟩
  · rintro ⟨rfl, rfl⟩
    cases op <;> rfl

theorem ofSymbol?_eq_some_iff {s : Symbol} {sign : AssignSign} :
    AssignSign.ofSymbol? s = some sign ↔ sign.sign? = some s := by
  constructor
  · intro h
    cases s <;> cases h <;> rfl
  · intro h
    cases sign with
    | plain => cases h; rfl
    | compound op => cases op <;> cases h <;> rfl

theorem stepOp?_eq_some_iff {s : Symbol} {op : BinaryOp} :
    stepOp? s = some op ↔ stepSign? op = some s := by
  constructor
  · intro h
    cases s <;> cases h <;> rfl
  · intro h
    cases op <;> cases h <;> rfl

theorem tighter?_eq_some_iff {p q : Precedence} : p.tighter? = some q ↔ p.Over q := by
  constructor
  · intro h
    cases p <;> cases h <;> constructor
  · intro h
    cases h <;> rfl

/-! ## Derivations -/

inductive Nonterminal where
  | statement
  | printed
  | printedRest
  | expression
  | chain (p : Precedence)
  | operand (p : Precedence)
  | chainRest (p : Precedence)
  | unary
  | suffixed
  | segments
  | primary
  | items
  | entries

/-- A tree of productions. -/
inductive Derivation : Nonterminal → Type where
  | print (arguments : Derivation .printed) : Derivation .statement
  | statement (e : Derivation .expression) : Derivation .statement
  | printedNone : Derivation .printed
  | printedSome (first : Derivation .expression) (rest : Derivation .printedRest) :
    Derivation .printed
  | printedEnd : Derivation .printedRest
  | printedMore (next : Derivation .expression) (rest : Derivation .printedRest) :
    Derivation .printedRest
  | value (e : Derivation (.chain .comparison)) : Derivation .expression
  | assign {sign : AssignSign} {s : Symbol} (h : sign.sign? = some s)
    (target : Derivation (.chain .comparison)) (right : Derivation .expression) :
    Derivation .expression
  | chain {p : Precedence} (first : Derivation (.operand p)) (rest : Derivation (.chainRest p)) :
    Derivation (.chain p)
  | chainEnd {p : Precedence} : Derivation (.chainRest p)
  | chainMore {p : Precedence} {op : BinaryOp} (h : Precedence.ofOp op = p)
    (right : Derivation (.operand p)) (rest : Derivation (.chainRest p)) :
    Derivation (.chainRest p)
  | tighter {p q : Precedence} (h : p.Over q) (inner : Derivation (.chain q)) :
    Derivation (.operand p)
  | operand (inner : Derivation .unary) : Derivation (.operand .exponential)
  | minus (inner : Derivation .unary) : Derivation .unary
  | step {op : BinaryOp} {s : Symbol} (h : stepSign? op = some s)
    (inner : Derivation .suffixed) : Derivation .unary
  | unsigned (inner : Derivation .suffixed) : Derivation .unary
  | address (name : String) (rest : Derivation .segments) : Derivation .suffixed
  | addressStep {op : BinaryOp} {s : Symbol} (h : stepSign? op = some s) (name : String)
    (rest : Derivation .segments) : Derivation .suffixed
  | primary (inner : Derivation .primary) : Derivation .suffixed
  | segmentsEnd : Derivation .segments
  | property (name : String) (rest : Derivation .segments) : Derivation .segments
  | index (key : Derivation .expression) (rest : Derivation .segments) : Derivation .segments
  | call (arguments : Derivation .items) (rest : Derivation .segments) : Derivation .segments
  | int (n : Int32) : Derivation .primary
  | double (d : Double) : Derivation .primary
  | string (s : String) : Derivation .primary
  | parens (e : Derivation .expression) : Derivation .primary
  | list (elements : Derivation .items) : Derivation .primary
  | object (members : Derivation .entries) : Derivation .primary
  | itemsNone : Derivation .items
  | itemsOne (e : Derivation .expression) : Derivation .items
  -- What follows the comma may be nothing.
  | itemsMore (e : Derivation .expression) (rest : Derivation .items) : Derivation .items
  | entriesNone : Derivation .entries
  | entriesOne (key value : Derivation .expression) : Derivation .entries
  | entriesMore (key value : Derivation .expression) (rest : Derivation .entries) :
    Derivation .entries

namespace Derivation

/-- The tokens that a derivation derives. -/
@[simp] def yield : {n : Nonterminal} → Derivation n → List Token
  | _, print arguments => .symbol .atSign :: arguments.yield
  | _, statement e => e.yield
  | _, printedNone => []
  | _, printedSome first rest => first.yield ++ rest.yield
  | _, printedEnd => []
  | _, printedMore next rest => .symbol .comma :: (next.yield ++ rest.yield)
  | _, value e => e.yield
  | _, @assign _ s _ target right => target.yield ++ .symbol s :: right.yield
  | _, chain first rest => first.yield ++ rest.yield
  | _, chainEnd => []
  | _, @chainMore _ op _ right rest => .symbol (opSign op) :: (right.yield ++ rest.yield)
  | _, tighter _ inner => inner.yield
  | _, operand inner => inner.yield
  | _, minus inner => .symbol .minus :: inner.yield
  | _, @step _ s _ inner => .symbol s :: inner.yield
  | _, unsigned inner => inner.yield
  | _, address name rest => .name name :: rest.yield
  | _, @addressStep _ s _ name rest => .name name :: (rest.yield ++ [.symbol s])
  | _, primary inner => inner.yield
  | _, segmentsEnd => []
  | _, property name rest => .symbol .dot :: .name name :: rest.yield
  | _, index key rest =>
    .symbol .leftBracket :: (key.yield ++ .symbol .rightBracket :: rest.yield)
  | _, call arguments rest =>
    .symbol .leftParen :: (arguments.yield ++ .symbol .rightParen :: rest.yield)
  | _, int n => [.int n]
  | _, double d => [.double d]
  | _, string s => [.string s]
  | _, parens e => .symbol .leftParen :: (e.yield ++ [.symbol .rightParen])
  | _, list elements => .symbol .leftBracket :: (elements.yield ++ [.symbol .rightBracket])
  | _, object members => .symbol .leftBrace :: (members.yield ++ [.symbol .rightBrace])
  | _, itemsNone => []
  | _, itemsOne e => e.yield
  | _, itemsMore e rest => e.yield ++ .symbol .comma :: rest.yield
  | _, entriesNone => []
  | _, entriesOne k v => k.yield ++ .symbol .colon :: v.yield
  | _, entriesMore k v rest =>
    k.yield ++ .symbol .colon :: (v.yield ++ .symbol .comma :: rest.yield)

/-- How many levels of nesting are open at most. An expression, an operand after
    the first in a chain, a minus sign and a call open one each; those of a chain
    and of an address stay open until it ends. -/
@[simp] def levels : {n : Nonterminal} → Derivation n → Nat
  | _, print arguments => arguments.levels
  | _, statement e => e.levels
  | _, printedNone => 0
  | _, printedSome first rest => max first.levels rest.levels
  | _, printedEnd => 0
  | _, printedMore next rest => max next.levels rest.levels
  | _, value e => e.levels + 1
  | _, assign _ target right => max target.levels right.levels + 1
  | _, chain first rest => max first.levels rest.levels
  | _, chainEnd => 0
  | _, chainMore _ right rest => max right.levels rest.levels + 1
  | _, tighter _ inner => inner.levels
  | _, operand inner => inner.levels
  | _, minus inner => inner.levels + 1
  | _, step _ inner => inner.levels
  | _, unsigned inner => inner.levels
  | _, address _ rest => rest.levels
  | _, addressStep _ _ rest => rest.levels
  | _, primary inner => inner.levels
  | _, segmentsEnd => 0
  | _, property _ rest => rest.levels
  | _, index key rest => max key.levels rest.levels
  | _, call arguments rest => max arguments.levels rest.levels + 1
  | _, int _ => 0
  | _, double _ => 0
  | _, string _ => 0
  | _, parens e => e.levels
  | _, list elements => elements.levels
  | _, object members => members.levels
  | _, itemsNone => 0
  | _, itemsOne e => e.levels
  | _, itemsMore e rest => max e.levels rest.levels
  | _, entriesNone => 0
  | _, entriesOne k v => max k.levels v.levels
  | _, entriesMore k v rest => max (max k.levels v.levels) rest.levels

end Derivation

/-! ## Meaning -/

/-- What a derivation stands for. What follows in a chain or an address takes the
    tree or the keys so far. -/
abbrev Nonterminal.Meaning : Nonterminal → Type
  | statement | expression | chain _ | operand _ | unary | suffixed | primary => Expr
  | chainRest _ => Expr → Expr
  | segments => List Expr → List Expr
  | printed | printedRest | items => List Expr
  | entries => List (Expr × Expr)

namespace Derivation

/-- The syntax tree of a derivation, without source ranges. -/
@[simp] def meaning : {n : Nonterminal} → Derivation n → n.Meaning
  | _, print arguments => printCall arguments.meaning
  | _, statement e => e.meaning
  | _, printedNone => []
  | _, printedSome first rest => first.meaning :: rest.meaning
  | _, printedEnd => []
  | _, printedMore next rest => next.meaning :: rest.meaning
  | _, value e => e.meaning
  | _, @assign sign _ _ target right =>
    assigned sign (Expr.location target.meaning) right.meaning
  | _, chain first rest => rest.meaning first.meaning
  | _, chainEnd => fun left => left
  | _, @chainMore _ op _ right rest => fun left =>
    rest.meaning (.binary nowhere op left right.meaning)
  | _, tighter _ inner => inner.meaning
  | _, operand inner => inner.meaning
  | _, minus inner => negated inner.meaning
  | _, @step op _ _ inner => stepped op (Expr.location inner.meaning) false
  | _, unsigned inner => inner.meaning
  | _, address name rest => .read nowhere (rest.meaning [.string nowhere name])
  | _, @addressStep op _ _ name rest => stepped op (rest.meaning [.string nowhere name]) true
  | _, primary inner => inner.meaning
  | _, segmentsEnd => fun keys => keys
  | _, property name rest => fun keys => rest.meaning (keys ++ [.string nowhere name])
  | _, index key rest => fun keys => rest.meaning (keys ++ [key.meaning])
  | _, call arguments rest => fun keys => rest.meaning [.call nowhere keys arguments.meaning]
  | _, int n => .int nowhere n
  | _, double d => .double nowhere d
  | _, string s => .string nowhere s
  | _, parens e => e.meaning
  | _, list elements => .list nowhere elements.meaning
  | _, object members => .object nowhere members.meaning
  | _, itemsNone => []
  | _, itemsOne e => [e.meaning]
  | _, itemsMore e rest => e.meaning :: rest.meaning
  | _, entriesNone => []
  | _, entriesOne k v => [(k.meaning, v.meaning)]
  | _, entriesMore k v rest => (k.meaning, v.meaning) :: rest.meaning

/-- Assignments and steps are of identifiers, all through a derivation. -/
@[simp] def TargetsIdentifiers : {n : Nonterminal} → Derivation n → Prop
  | _, print arguments => arguments.TargetsIdentifiers
  | _, statement e => e.TargetsIdentifiers
  | _, printedNone => True
  | _, printedSome first rest => first.TargetsIdentifiers ∧ rest.TargetsIdentifiers
  | _, printedEnd => True
  | _, printedMore next rest => next.TargetsIdentifiers ∧ rest.TargetsIdentifiers
  | _, value e => e.TargetsIdentifiers
  | _, assign _ target right =>
    Expr.IsIdentifier target.meaning ∧ target.TargetsIdentifiers ∧ right.TargetsIdentifiers
  | _, chain first rest => first.TargetsIdentifiers ∧ rest.TargetsIdentifiers
  | _, chainEnd => True
  | _, chainMore _ right rest => right.TargetsIdentifiers ∧ rest.TargetsIdentifiers
  | _, tighter _ inner => inner.TargetsIdentifiers
  | _, operand inner => inner.TargetsIdentifiers
  | _, minus inner => inner.TargetsIdentifiers
  | _, step _ inner => Expr.IsIdentifier inner.meaning ∧ inner.TargetsIdentifiers
  | _, unsigned inner => inner.TargetsIdentifiers
  | _, address _ rest => rest.TargetsIdentifiers
  | _, addressStep _ _ rest => rest.TargetsIdentifiers
  | _, primary inner => inner.TargetsIdentifiers
  | _, segmentsEnd => True
  | _, property _ rest => rest.TargetsIdentifiers
  | _, index key rest => key.TargetsIdentifiers ∧ rest.TargetsIdentifiers
  | _, call arguments rest => arguments.TargetsIdentifiers ∧ rest.TargetsIdentifiers
  | _, int _ => True
  | _, double _ => True
  | _, string _ => True
  | _, parens e => e.TargetsIdentifiers
  | _, list elements => elements.TargetsIdentifiers
  | _, object members => members.TargetsIdentifiers
  | _, itemsNone => True
  | _, itemsOne e => e.TargetsIdentifiers
  | _, itemsMore e rest => e.TargetsIdentifiers ∧ rest.TargetsIdentifiers
  | _, entriesNone => True
  | _, entriesOne k v => k.TargetsIdentifiers ∧ v.TargetsIdentifiers
  | _, entriesMore k v rest =>
    k.TargetsIdentifiers ∧ v.TargetsIdentifiers ∧ rest.TargetsIdentifiers

/-! ## Operands as expressions -/

/-- An operand as the only one of the chains around it. -/
def chainOf (d : Derivation .unary) : Derivation (.chain .comparison) :=
  let exponential := chain (operand d) chainEnd
  let multiplicative := chain (tighter .multiplicative exponential) chainEnd
  let additive := chain (tighter .additive multiplicative) chainEnd
  chain (tighter .comparison additive) chainEnd

/-- An operand as an expression. -/
def expressionOf (d : Derivation .unary) : Derivation .expression :=
  value (chainOf d)

variable (d : Derivation .unary)

@[simp] theorem yield_chainOf : (chainOf d).yield = d.yield := by
  simp only [chainOf, yield, List.append_nil]

@[simp] theorem levels_chainOf : (chainOf d).levels = d.levels := by
  simp only [chainOf, levels, Nat.max_zero]

theorem targetsIdentifiers_chainOf : (chainOf d).TargetsIdentifiers ↔ d.TargetsIdentifiers := by
  simp only [chainOf, TargetsIdentifiers, and_true]

@[simp] theorem yield_expressionOf : (expressionOf d).yield = d.yield :=
  yield_chainOf d

@[simp] theorem levels_expressionOf : (expressionOf d).levels = d.levels + 1 :=
  congrArg (· + 1) (levels_chainOf d)

theorem meaning_expressionOf : (expressionOf d).meaning = d.meaning := rfl

theorem targetsIdentifiers_expressionOf :
    (expressionOf d).TargetsIdentifiers ↔ d.TargetsIdentifiers :=
  targetsIdentifiers_chainOf d

end Derivation
end Grammar
end ScopeScript
