/-
  ScopeScript.Proofs.Grammar.Productions

  What the parse functions do where they succeed. `Production` has one rule for each
  production, and for each way in which a loop of the grammar ends. It leaves open what
  the calls in a production give. A call succeeds exactly if it has a production whose
  calls succeed (`Succeeds.production`, `Succeeds.of_production`), and what productions
  pass on from the calls in them holds of all that succeed (`Succeeds.induct`). This is
  the induction over all parse functions: a proof about what was parsed has one case for
  each production and opens no function, and a proof that something is parsed applies
  productions.
-/
import ScopeScript.Proofs.Grammar.Contract
import ScopeScript.Proofs.Grammar.Runs

namespace ScopeScript
namespace Grammar

/-! ## Productions -/

/-- What a call gives by one production of the grammar, if `R` tells what the calls in it
    give. A loop ends where no token follows that would go on with it. -/
inductive Production (limit : Nat) (R : (k : Call) → k.Gives → Prop) :
    (k : Call) → k.Gives → Prop where
  | value {c c₁ : Cursor} {left : Expr} (hlevel : c.level < limit)
    (hleft : R (.chain .comparison c.deeper) (left, c₁))
    (hend : ∀ s, c₁.peek? = some (.symbol s) → AssignSign.ofSymbol? s = none) :
    Production limit R (.expression c) (left, c₁.atLevel c.level)
  | assign {c c₁ c₂ : Cursor} {left right : Expr} {s : Symbol} {span : Span}
    {rest : List Lexeme} {sign : AssignSign} {keys : List Expr} (hlevel : c.level < limit)
    (hleft : R (.chain .comparison c.deeper) (left, c₁))
    (htokens : c₁.tokens = ⟨.symbol s, span⟩ :: rest) (hsign : AssignSign.ofSymbol? s = some sign)
    (htarget : target .assignment left = .ok keys)
    (hright : R (.expression ((c₁.past span rest).atLevel c.deeper.level)) (right, c₂)) :
    Production limit R (.expression c) (assignment sign keys left.span right, c₂.atLevel c.level)
  -- The levels of a chain end with it.
  | chain {p : Precedence} {c c₁ c₂ : Cursor} {first all : Expr}
    (hfirst : R (.operand p c) (first, c₁))
    (hrest : R (.chainRest p first c₁) (all, c₂)) :
    Production limit R (.chain p c) (all, c₂.atLevel c.level)
  | tighter {p q : Precedence} {c c' : Cursor} {e : Expr} (hp : p.tighter? = some q)
    (h : R (.chain q c) (e, c')) : Production limit R (.operand p c) (e, c')
  | operand {p : Precedence} {c c' : Cursor} {e : Expr} (hp : p.tighter? = none)
    (h : R (.unary c) (e, c')) : Production limit R (.operand p c) (e, c')
  | chainMore {p : Precedence} {c c₁ c' : Cursor} {left right e : Expr} {s : Symbol} {span : Span}
    {rest : List Lexeme} {op : BinaryOp} (htokens : c.tokens = ⟨.symbol s, span⟩ :: rest)
    (hop : p.operator? s = some op) (hlevel : c.level < limit)
    (hright : R (.operand p (c.past span rest).deeper) (right, c₁))
    (hrest : R (.chainRest p (operation op left right) c₁) (e, c')) :
    Production limit R (.chainRest p left c) (e, c')
  | chainEnd {p : Precedence} {c : Cursor} {left : Expr}
    (hend : ∀ s, c.peek? = some (.symbol s) → p.operator? s = none) :
    Production limit R (.chainRest p left c) (left, c)
  | minus {c c₁ : Cursor} {inner : Expr} {span : Span} {rest : List Lexeme}
    (htokens : c.tokens = ⟨.symbol .minus, span⟩ :: rest) (hlevel : c.level < limit)
    (hinner : R (.unary (c.past span rest).deeper) (inner, c₁)) :
    Production limit R (.unary c) (negation span inner, c₁.atLevel c.level)
  | step {c c₁ : Cursor} {inner : Expr} {s : Symbol} {span : Span} {rest : List Lexeme}
    {op : BinaryOp} {keys : List Expr} (htokens : c.tokens = ⟨.symbol s, span⟩ :: rest)
    (hop : stepOp? s = some op) (hinner : R (.suffixed (c.past span rest)) (inner, c₁))
    (htarget : target (.step s) inner = .ok keys) :
    Production limit R (.unary c) (step op keys (span.merge inner.span) false, c₁)
  | unsigned {c c' : Cursor} {e : Expr}
    (hsign : ∀ s, c.peek? = some (.symbol s) → s ≠ .minus ∧ stepOp? s = none)
    (h : R (.suffixed c) (e, c')) : Production limit R (.unary c) (e, c')
  -- The levels of an address end with it.
  | address {c c₁ : Cursor} {s : String} {span : Span} {rest : List Lexeme} {keys : List Expr}
    (htokens : c.tokens = ⟨.name s, span⟩ :: rest)
    (hkeys : R (.address span [.string span s] (c.past span rest)) (keys, c₁))
    (hend : ∀ sign, c₁.peek? = some (.symbol sign) → stepOp? sign = none) :
    Production limit R (.suffixed c) (.read (span.merge c₁.last) keys, c₁.atLevel c.level)
  | addressStep {c c₁ : Cursor} {s : String} {span signSpan : Span} {rest behind : List Lexeme}
    {keys : List Expr} {sign : Symbol} {op : BinaryOp}
    (htokens : c.tokens = ⟨.name s, span⟩ :: rest)
    (hkeys : R (.address span [.string span s] (c.past span rest)) (keys, c₁))
    (hsign : c₁.tokens = ⟨.symbol sign, signSpan⟩ :: behind) (hop : stepOp? sign = some op) :
    Production limit R (.suffixed c) (step op keys ((span.merge c₁.last).merge signSpan) true,
      (c₁.atLevel c.level).past signSpan behind)
  | primary {c c' : Cursor} {e : Expr} (hname : ∀ s, c.peek? ≠ some (.name s))
    (h : R (.primary c) (e, c')) : Production limit R (.suffixed c) (e, c')
  | property {start dot span : Span} {keys all : List Expr} {c c' : Cursor} {s : String}
    {rest : List Lexeme} (htokens : c.tokens = ⟨.symbol .dot, dot⟩ :: ⟨.name s, span⟩ :: rest)
    (hrest : R (.address start (keys ++ [.string span s]) (c.past span rest))
      (all, c')) : Production limit R (.address start keys c) (all, c')
  | index {start span close : Span} {keys all : List Expr} {c c₁ c' : Cursor} {index : Expr}
    {rest behind : List Lexeme} (htokens : c.tokens = ⟨.symbol .leftBracket, span⟩ :: rest)
    (hindex : R (.expression (c.past span rest)) (index, c₁))
    (hclose : c₁.tokens = ⟨.symbol .rightBracket, close⟩ :: behind)
    (hrest : R (.address start (keys ++ [index]) (c₁.past close behind)) (all, c')) :
    Production limit R (.address start keys c) (all, c')
  -- A call takes the keys so far, and what follows is an address behind it.
  | call {start span close : Span} {keys arguments all : List Expr} {c c₁ c' : Cursor}
    {rest behind : List Lexeme} (htokens : c.tokens = ⟨.symbol .leftParen, span⟩ :: rest)
    (hlevel : c.level < limit)
    (harguments : R (.items .rightParen (c.past span rest).deeper) (arguments, c₁))
    (hclose : c₁.tokens = ⟨.symbol .rightParen, close⟩ :: behind)
    (hrest : R (.address start [.call (start.merge close) keys arguments]
      (c₁.past close behind)) (all, c')) : Production limit R (.address start keys c) (all, c')
  | segmentsEnd {start : Span} {keys : List Expr} {c : Cursor}
    (hend : ∀ s, c.peek? = some (.symbol s) → s ≠ .dot ∧ s ≠ .leftBracket ∧ s ≠ .leftParen) :
    Production limit R (.address start keys c) (keys, c)
  | int {c : Cursor} {n : Int32} {span : Span} {rest : List Lexeme}
    (htokens : c.tokens = ⟨.int n, span⟩ :: rest) :
    Production limit R (.primary c) (.int span n, c.past span rest)
  | double {c : Cursor} {d : Double} {span : Span} {rest : List Lexeme}
    (htokens : c.tokens = ⟨.double d, span⟩ :: rest) :
    Production limit R (.primary c) (.double span d, c.past span rest)
  | string {c : Cursor} {s : String} {span : Span} {rest : List Lexeme}
    (htokens : c.tokens = ⟨.string s, span⟩ :: rest) :
    Production limit R (.primary c) (.string span s, c.past span rest)
  | parens {c c₁ : Cursor} {inner : Expr} {span close : Span} {rest behind : List Lexeme}
    (htokens : c.tokens = ⟨.symbol .leftParen, span⟩ :: rest)
    (hinner : R (.expression (c.past span rest)) (inner, c₁))
    (hclose : c₁.tokens = ⟨.symbol .rightParen, close⟩ :: behind) :
    Production limit R (.primary c) (inner.withSpan (span.merge close), c₁.past close behind)
  | list {c c₁ : Cursor} {elements : List Expr} {span close : Span} {rest behind : List Lexeme}
    (htokens : c.tokens = ⟨.symbol .leftBracket, span⟩ :: rest)
    (helements : R (.items .rightBracket (c.past span rest)) (elements, c₁))
    (hclose : c₁.tokens = ⟨.symbol .rightBracket, close⟩ :: behind) :
    Production limit R (.primary c) (.list (span.merge close) elements, c₁.past close behind)
  | object {c c₁ : Cursor} {members : List (Expr × Expr)} {span close : Span}
    {rest behind : List Lexeme} (htokens : c.tokens = ⟨.symbol .leftBrace, span⟩ :: rest)
    (hmembers : R (.entries (c.past span rest)) (members, c₁))
    (hclose : c₁.tokens = ⟨.symbol .rightBrace, close⟩ :: behind) :
    Production limit R (.primary c) (.object (span.merge close) members, c₁.past close behind)
  | itemsNone {close : Symbol} {c : Cursor} (hclose : c.peek? = some (.symbol close)) :
    Production limit R (.items close c) ([], c)
  | itemsOne {close : Symbol} {c c₁ : Cursor} {first : Expr}
    (hclose : c.peek? ≠ some (.symbol close)) (hfirst : R (.expression c) (first, c₁))
    (hend : c₁.peek? ≠ some (.symbol .comma)) : Production limit R (.items close c) ([first], c₁)
  | itemsMore {close : Symbol} {c c₁ c' : Cursor} {first : Expr} {others : List Expr}
    {span : Span} {rest : List Lexeme} (hclose : c.peek? ≠ some (.symbol close))
    (hfirst : R (.expression c) (first, c₁))
    (htokens : c₁.tokens = ⟨.symbol .comma, span⟩ :: rest)
    (hothers : R (.items close (c₁.past span rest)) (others, c')) :
    Production limit R (.items close c) (first :: others, c')
  | entriesNone {c : Cursor} (hclose : c.peek? = some (.symbol .rightBrace)) :
    Production limit R (.entries c) ([], c)
  | entriesOne {c c₁ c₂ : Cursor} {key value : Expr} {colon : Span} {behind : List Lexeme}
    (hclose : c.peek? ≠ some (.symbol .rightBrace))
    (hkey : R (.expression c) (key, c₁))
    (hcolon : c₁.tokens = ⟨.symbol .colon, colon⟩ :: behind)
    (hvalue : R (.expression (c₁.past colon behind)) (value, c₂))
    (hend : c₂.peek? ≠ some (.symbol .comma)) : Production limit R (.entries c) ([(key, value)], c₂)
  | entriesMore {c c₁ c₂ c' : Cursor} {key value : Expr} {others : List (Expr × Expr)}
    {colon span : Span} {behind rest : List Lexeme} (hclose : c.peek? ≠ some (.symbol .rightBrace))
    (hkey : R (.expression c) (key, c₁))
    (hcolon : c₁.tokens = ⟨.symbol .colon, colon⟩ :: behind)
    (hvalue : R (.expression (c₁.past colon behind)) (value, c₂))
    (htokens : c₂.tokens = ⟨.symbol .comma, span⟩ :: rest)
    (hothers : R (.entries (c₂.past span rest)) (others, c')) :
    Production limit R (.entries c) ((key, value) :: others, c')
  | printedEnd {c : Cursor} (hend : c.peek? ≠ some (.symbol .comma)) :
    Production limit R (.printedAfterComma c) ([], c)
  | printedMore {c c₁ c' : Cursor} {first : Expr} {others : List Expr} {span : Span}
    {rest : List Lexeme} (htokens : c.tokens = ⟨.symbol .comma, span⟩ :: rest)
    (hfirst : R (.expression (c.past span rest)) (first, c₁))
    (hothers : R (.printedAfterComma c₁) (others, c')) :
    Production limit R (.printedAfterComma c) (first :: others, c')
  | printedNone {c : Cursor} (hend : c.atStatementEnd = true) :
    Production limit R (.printed c) ([], c)
  | printedSome {c c₁ c' : Cursor} {first : Expr} {others : List Expr}
    (hend : c.atStatementEnd = false) (hfirst : R (.expression c) (first, c₁))
    (hothers : R (.printedAfterComma c₁) (others, c')) :
    Production limit R (.printed c) (first :: others, c')
  -- A print statement must end where its arguments do.
  | print {c c' : Cursor} {arguments : List Expr} {span : Span} {rest : List Lexeme}
    (htokens : c.tokens = ⟨.symbol .atSign, span⟩ :: rest)
    (harguments : R (.printed (c.past span rest)) (arguments, c'))
    (hend : c'.atStatementEnd = true) :
    Production limit R (.statement c) (printing span (span.merge c'.last) arguments, c')
  | statement {c c' : Cursor} {e : Expr} (hkeyword : ∀ word, c.peek? ≠ some (.keyword word))
    (hsign : c.peek? ≠ some (.symbol .atSign)) (h : R (.expression c) (e, c')) :
    Production limit R (.statement c) (e, c')
  | programEnd {found : List Expr} {c : Cursor} (htokens : c.tokens = []) :
    Production limit R (.statements found c) found.reverse
  | programSemicolon {found all : List Expr} {c : Cursor} {span : Span} {rest : List Lexeme}
    (htokens : c.tokens = ⟨.symbol .semicolon, span⟩ :: rest)
    (hrest : R (.statements found (c.past span rest)) all) :
    Production limit R (.statements found c) all
  | programStatement {found all : List Expr} {c c₁ : Cursor} {e : Expr} (hne : c.tokens ≠ [])
    (hsign : c.peek? ≠ some (.symbol .semicolon)) (h : R (.statement c) (e, c₁))
    (hrest : R (.statements (e :: found) c₁) all) :
    Production limit R (.statements found c) all

/-! ## What succeeds has a production

  The productions are a contract that asks for nothing, so what the functions promise is
  that their results come by productions. -/

/-- What other calls give as a contract. -/
def gives (R : (k : Call) → k.Gives → Prop) : Contract Unit where
  before _ _ := True
  after _ := R
  blames _ := True

/-- The function of a call gives what it gives by a production. -/
abbrev HasProductions (limit : Nat) (R : (k : Call) → k.Gives → Prop) (k : Call) : Prop :=
  (script limit k).Keeps (gives R) (Production limit R k)

section Scripts

variable {limit : Nat} {R : (k : Call) → k.Gives → Prop} (c : Cursor)

theorem productions_expression : HasProductions limit R (.expression c) := by
  delta HasProductions script
  dsimp only
  refine .level trivial fun hlevel => .asks () trivial ?_
  rintro ⟨left, c₁⟩ hleft
  dsimp only
  split
  · next s span rest htokens =>
    split
    · next sign hsign =>
      refine .known (fun _ _ => trivial) fun keys htarget => ?_
      refine .asks () trivial ?_
      rintro ⟨right, c₂⟩ hright
      exact .pure (.assign hlevel hleft htokens hsign htarget hright)
    · next hsign => exact .pure (.value hlevel hleft (Cursor.eq_none_of_tokens htokens hsign))
  · next hno =>
    exact .pure (.value hlevel hleft fun s hs => absurd hs (Cursor.peek?_ne (hno s)))

theorem productions_chain (p : Precedence) : HasProductions limit R (.chain p c) := by
  delta HasProductions script
  dsimp only
  refine .asks () trivial fun (first, c₁) hfirst => ?_
  exact .asks () trivial fun (all, c₂) hrest => .pure (.chain hfirst hrest)

theorem productions_operand (p : Precedence) : HasProductions limit R (.operand p c) := by
  delta HasProductions script
  dsimp only
  split
  · next q hp => exact .call () trivial fun _ h => .tighter hp h
  · next hp => exact .call () trivial fun _ h => .operand hp h

theorem productions_chainRest (p : Precedence) (left : Expr) :
    HasProductions limit R (.chainRest p left c) := by
  delta HasProductions script
  dsimp only
  split
  · next s span rest htokens =>
    split
    · next op hop =>
      refine .level trivial fun hlevel => .asks () trivial ?_
      rintro ⟨right, c₁⟩ hright
      exact .call () trivial fun _ hrest => .chainMore htokens hop hlevel hright hrest
    · next hop => exact .pure (.chainEnd (Cursor.eq_none_of_tokens htokens hop))
  · next hno => exact .pure (.chainEnd fun s hs => absurd hs (Cursor.peek?_ne (hno s)))

theorem productions_unary : HasProductions limit R (.unary c) := by
  delta HasProductions script
  dsimp only
  split
  · next s span rest htokens =>
    split
    · next hs =>
      subst hs
      refine .level trivial fun hlevel => .asks () trivial ?_
      rintro ⟨inner, c₁⟩ hinner
      exact .pure (.minus htokens hlevel hinner)
    · next hs =>
      split
      · next op hop =>
        refine .asks () trivial ?_
        rintro ⟨inner, c₁⟩ hinner
        exact .known (fun _ _ => trivial) fun keys htarget =>
          .pure (.step htokens hop hinner htarget)
      · next hop =>
        refine .call () trivial fun _ h => .unsigned (fun s' hs' => ?_) h
        cases (Cursor.peek?_of_tokens htokens).symm.trans hs'
        exact ⟨hs, hop⟩
  · next hno =>
    exact .call () trivial fun _ h => .unsigned (fun s hs => absurd hs (Cursor.peek?_ne (hno s))) h

theorem productions_suffixed : HasProductions limit R (.suffixed c) := by
  delta HasProductions script
  dsimp only
  split
  · next s span rest htokens =>
    refine .asks () trivial fun (keys, c₁) hkeys => ?_
    dsimp only
    split
    · next sign signSpan behind hsign =>
      split
      · next op hop => exact .pure (.addressStep htokens hkeys hsign hop)
      · next hop =>
        exact .pure (.address htokens hkeys (Cursor.eq_none_of_tokens hsign hop))
    · next hno =>
      have hend (sign : Symbol) : c₁.peek? ≠ some (.symbol sign) := Cursor.peek?_ne (hno sign)
      exact .pure (.address htokens hkeys fun sign hs => absurd hs (hend sign))
  · next hno => exact .call () trivial fun _ h => .primary (fun s => Cursor.peek?_ne (hno s)) h

theorem productions_address (start : Span) (keys : List Expr) :
    HasProductions limit R (.address start keys c) := by
  delta HasProductions script
  dsimp only
  split
  · next dot s span rest htokens => exact .call () trivial fun _ hrest => .property htokens hrest
  · exact .throw trivial
  · next span rest htokens =>
    refine .asks () trivial fun (index, c₁) hindex => .eat (fun _ => trivial) ?_
    exact fun close behind hclose => .call () trivial fun _ hrest =>
      .index htokens hindex hclose hrest
  · next span rest htokens =>
    refine .level trivial fun hlevel => .asks () trivial fun (arguments, c₁) harguments => ?_
    exact .eat (fun _ => trivial) fun close behind hclose => .call () trivial fun _ hrest =>
      .call htokens hlevel harguments hclose hrest
  · next hdot hdot' hbracket hparen =>
    refine .pure (.segmentsEnd fun s hs => ⟨?_, ?_, ?_⟩)
    · rintro rfl
      exact Cursor.peek?_ne hdot' hs
    · rintro rfl
      exact Cursor.peek?_ne hbracket hs
    · rintro rfl
      exact Cursor.peek?_ne hparen hs

theorem productions_primary : HasProductions limit R (.primary c) := by
  delta HasProductions script
  dsimp only
  split
  · next n span rest htokens => exact .pure (.int htokens)
  · next d span rest htokens => exact .pure (.double htokens)
  · next s span rest htokens => exact .pure (.string htokens)
  · next span rest htokens =>
    refine .asks () trivial fun (inner, c₁) hinner => .eat (fun _ => trivial) ?_
    exact fun close behind hclose => .pure (.parens htokens hinner hclose)
  · next span rest htokens =>
    refine .asks () trivial fun (elements, c₁) helements => .eat (fun _ => trivial) ?_
    exact fun close behind hclose => .pure (.list htokens helements hclose)
  · next span rest htokens =>
    refine .asks () trivial fun (members, c₁) hmembers => .eat (fun _ => trivial) ?_
    exact fun close behind hclose => .pure (.object htokens hmembers hclose)
  · exact .throw trivial

theorem productions_items (close : Symbol) : HasProductions limit R (.items close c) := by
  delta HasProductions script
  dsimp only
  -- An item without a comma behind it is the last one, whatever follows: that the
  -- closing sign follows is for the caller to check.
  split
  · next hclose => exact .pure (.itemsNone hclose)
  · next hclose =>
    refine .asks () trivial fun (first, c₁) hfirst => ?_
    dsimp only
    split
    · next span rest htokens =>
      exact .asks () trivial fun (others, c₂) hothers =>
        .pure (.itemsMore hclose hfirst htokens hothers)
    · next hno => exact .pure (.itemsOne hclose hfirst (Cursor.peek?_ne hno))

theorem productions_entries : HasProductions limit R (.entries c) := by
  delta HasProductions script
  dsimp only
  split
  · next hclose => exact .pure (.entriesNone hclose)
  · next hclose =>
    refine .asks () trivial fun (key, c₁) hkey => .eat (fun _ => trivial) ?_
    refine fun colon behind hcolon => .asks () trivial fun (value, c₂) hvalue => ?_
    dsimp only
    split
    · next span rest htokens =>
      exact .asks () trivial fun (others, c₃) hothers =>
        .pure (.entriesMore hclose hkey hcolon hvalue htokens hothers)
    · next hno => exact .pure (.entriesOne hclose hkey hcolon hvalue (Cursor.peek?_ne hno))

theorem productions_printedAfterComma : HasProductions limit R (.printedAfterComma c) := by
  delta HasProductions script
  dsimp only
  split
  · next span rest htokens =>
    refine .asks () trivial fun (first, c₁) hfirst => ?_
    exact .asks () trivial fun (others, c₂) hothers => .pure (.printedMore htokens hfirst hothers)
  · next hno => exact .pure (.printedEnd (Cursor.peek?_ne hno))

theorem productions_printed : HasProductions limit R (.printed c) := by
  delta HasProductions script
  dsimp only
  split
  · next hend => exact .pure (.printedNone hend)
  · next hend =>
    refine .asks () trivial fun (first, c₁) hfirst => ?_
    exact .asks () trivial fun (others, c₂) hothers =>
      .pure (.printedSome (Bool.eq_false_iff.2 hend) hfirst hothers)

theorem productions_statement : HasProductions limit R (.statement c) := by
  delta HasProductions script
  dsimp only
  split
  · exact .throw trivial
  · next span rest htokens =>
    refine .asks () trivial fun (arguments, c₁) harguments => ?_
    dsimp only
    split
    · next hend => exact .pure (.print htokens harguments hend)
    · exact .throw trivial
  · next hkeyword hsign =>
    exact .call () trivial fun _ h =>
      .statement (fun word => Cursor.peek?_ne (hkeyword word)) (Cursor.peek?_ne hsign) h

theorem productions_statements (found : List Expr) :
    HasProductions limit R (.statements found c) := by
  delta HasProductions script
  dsimp only
  split
  · next htokens => exact .pure (.programEnd htokens)
  · next span rest htokens => exact .call () trivial fun _ hrest => .programSemicolon htokens hrest
  · next hne hsign =>
    refine .asks () trivial fun (e, c₁) h => ?_
    exact .call () trivial fun _ hrest => .programStatement hne (Cursor.peek?_ne hsign) h hrest

end Scripts

theorem hasProductions (limit : Nat) (R : (k : Call) → k.Gives → Prop) (k : Call) :
    HasProductions limit R k := by
  cases k with
  | expression c => exact productions_expression c
  | chain p c => exact productions_chain c p
  | operand p c => exact productions_operand c p
  | chainRest p left c => exact productions_chainRest c p left
  | unary c => exact productions_unary c
  | suffixed c => exact productions_suffixed c
  | address start keys c => exact productions_address c start keys
  | primary c => exact productions_primary c
  | items close c => exact productions_items c close
  | entries c => exact productions_entries c
  | printedAfterComma c => exact productions_printedAfterComma c
  | printed c => exact productions_printed c
  | statement c => exact productions_statement c
  | statements found c => exact productions_statements c found

/-! ## Calls that succeed -/

/-- The call comes to something. -/
def Succeeds (limit : Nat) (k : Call) (g : k.Gives) : Prop :=
  outcome limit k = .ok g

/-- What succeeds has a production in which all calls succeed. -/
theorem Succeeds.production {limit : Nat} {k : Call} {g : k.Gives} (h : Succeeds limit k g) :
    Production limit (Succeeds limit) k g := by
  have hscript := hasProductions limit (Succeeds limit) k
  refine (hscript.promises (fun k' _ _ _ y hy => ?_) (unfolds limit k).run).value g h
  cases hy
  exact ⟨fun _ hg => hg, fun _ _ => trivial⟩

/-- Induction on productions: what is passed on from the calls in a production to the
    call that it is of holds of all calls that succeed. -/
theorem Succeeds.induct {limit : Nat} {motive : (k : Call) → k.Gives → Prop}
    (step : ∀ k g, Production limit (fun k g => Succeeds limit k g ∧ motive k g) k g → motive k g)
    {k : Call} {g : k.Gives} (h : Succeeds limit k g) : motive k g := by
  refine step k g ?_
  have hscript := hasProductions limit (fun k g => Succeeds limit k g ∧ motive k g) k
  obtain ⟨hrun, hmakes⟩ := unfolds limit k
  refine (hscript.promises (fun k' hk' _ _ y hy => ?_) hrun).value g h
  -- The calls that are made have less left to do.
  have hlt := hmakes k' hk'
  cases hy
  exact ⟨fun _ hg => ⟨hg, Succeeds.induct step hg⟩, fun _ _ => trivial⟩
termination_by k.weight

/-! ## What has a production succeeds -/

/-- The script ends with this value. -/
def Script.Yields {α : Type} (limit : Nat) (s : Script α) (a : α) : Prop :=
  s.run (answers limit) = some (.ok a)

namespace Script.Yields

variable {α β : Type} {limit : Nat} {a : α} {b : β} {s : Script β} {f : α → Script β}

theorem pure : Yields limit (Pure.pure a) a := rfl

/-- A call succeeds, and the script goes on from what it gives. -/
theorem asks {k : Call} {g : k.Gives} {f : k.Gives → Script β} (h : Succeeds limit k g)
    (hf : (f g).Yields limit b) : (Script.call k >>= f).Yields limit b := by
  have hanswer : answers limit k = some (.ok g) := congrArg some h
  show (Script.asks k f).run (answers limit) = _
  rw [Script.run, hanswer]
  exact hf

theorem call {k : Call} {g : k.Gives} (h : Succeeds limit k g) : (Script.call k).Yields limit g :=
  asks (f := Pure.pure) h pure

theorem known {x : Except ParseError α} (hx : x = .ok a) (hf : (f a).Yields limit b) :
    (.ends x >>= f : Script β).Yields limit b := by
  rw [hx]
  exact hf

theorem eat {c : Cursor} {sign : Symbol} {span : Span} {rest : List Lexeme}
    {f : Span × Cursor → Script β} (htokens : c.tokens = ⟨.symbol sign, span⟩ :: rest)
    (hf : (f (span, c.past span rest)).Yields limit b) :
    (.ends ((c.eat sign).map Parsed.plain) >>= f : Script β).Yields limit b := by
  obtain ⟨r, hr, hspan, hnext⟩ := Cursor.parses_eat_iff.2 ⟨rest, htokens, rfl⟩
  refine known ?_ hf
  rw [hr, ← hnext, ← hspan]
  rfl

theorem level {opened : Nat} {e : ParseError} (hlevel : opened < limit)
    (hs : s.Yields limit b) :
    Yields limit (if limit ≤ opened then .ends (.error e) else s) b := by
  rw [if_neg (Nat.not_le.2 hlevel)]
  exact hs

end Script.Yields

/-- The script of a call gives what its productions say. -/
abbrev Fulfills (limit : Nat) (k : Call) (g : k.Gives) : Prop :=
  Production limit (Succeeds limit) k g → (script limit k).Yields limit g

section Scripts

variable {limit : Nat} {c : Cursor} {r : Expr × Cursor} {rs : List Expr × Cursor}

theorem fulfills_expression : Fulfills limit (.expression c) r := by
  delta Fulfills script
  dsimp only
  intro h
  cases h with
  | value hlevel hleft hend =>
    refine .level hlevel (.asks hleft ?_)
    dsimp only
    split
    · next s span rest htokens =>
      rw [hend s (Cursor.peek?_of_tokens htokens)]
      exact .pure
    · exact .pure
  | assign hlevel hleft htokens hsign htarget hright =>
    refine .level hlevel (.asks hleft ?_)
    dsimp only
    rw [htokens]
    dsimp only
    rw [hsign]
    exact .known htarget (.asks hright .pure)

theorem fulfills_chain {p : Precedence} : Fulfills limit (.chain p c) r := by
  delta Fulfills script
  dsimp only
  intro h
  cases h with
  | chain hfirst hrest => exact .asks hfirst (.asks hrest .pure)

theorem fulfills_operand {p : Precedence} : Fulfills limit (.operand p c) r := by
  delta Fulfills script
  dsimp only
  intro h
  cases h with
  | tighter hp h =>
    rw [hp]
    exact .call h
  | operand hp h =>
    rw [hp]
    exact .call h

theorem fulfills_chainRest {p : Precedence} {left : Expr} :
    Fulfills limit (.chainRest p left c) r := by
  delta Fulfills script
  dsimp only
  intro h
  cases h with
  | chainMore htokens hop hlevel hright hrest =>
    rw [htokens]
    dsimp only
    rw [hop]
    exact .level hlevel (.asks hright (.call hrest))
  | chainEnd hend =>
    split
    · next s span rest htokens =>
      rw [hend s (Cursor.peek?_of_tokens htokens)]
      exact .pure
    · exact .pure

theorem fulfills_unary : Fulfills limit (.unary c) r := by
  delta Fulfills script
  dsimp only
  intro h
  cases h with
  | minus htokens hlevel hinner =>
    rw [htokens]
    dsimp only
    rw [if_pos rfl]
    exact .level hlevel (.asks hinner .pure)
  | @step _ _ _ s _ _ _ _ htokens hop hinner htarget =>
    -- The minus sign is tried first, but it is no step.
    have hs : s ≠ .minus := by
      rintro rfl
      cases hop
    rw [htokens]
    dsimp only
    rw [if_neg hs, hop]
    exact .asks hinner (.known htarget .pure)
  | unsigned hsign h =>
    split
    · next s span rest htokens =>
      obtain ⟨hs, hop⟩ := hsign s (Cursor.peek?_of_tokens htokens)
      rw [if_neg hs, hop]
      exact .call h
    · exact .call h

theorem fulfills_suffixed : Fulfills limit (.suffixed c) r := by
  delta Fulfills script
  dsimp only
  intro h
  cases h with
  | address htokens hkeys hend =>
    rw [htokens]
    refine .asks hkeys ?_
    dsimp only
    split
    · next sign signSpan behind hsign =>
      rw [hend sign (Cursor.peek?_of_tokens hsign)]
      exact .pure
    · exact .pure
  | addressStep htokens hkeys hsign hop =>
    rw [htokens]
    refine .asks hkeys ?_
    -- The sign stands where the address ends, whatever the level.
    have hsign : ((_ : Cursor).atLevel c.level).tokens = _ := hsign
    dsimp only
    rw [hsign]
    dsimp only
    rw [hop]
    exact .pure
  | primary hname h =>
    split
    · next s span rest htokens => exact absurd (Cursor.peek?_of_tokens htokens) (hname s)
    · exact .call h

theorem fulfills_address {start : Span} {keys : List Expr} :
    Fulfills limit (.address start keys c) rs := by
  delta Fulfills script
  dsimp only
  intro h
  cases h with
  | property htokens hrest =>
    rw [htokens]
    exact .call hrest
  | index htokens hindex hclose hrest =>
    rw [htokens]
    exact .asks hindex (.eat hclose (.call hrest))
  | call htokens hlevel harguments hclose hrest =>
    rw [htokens]
    exact .level hlevel (.asks harguments (.eat hclose (.call hrest)))
  | segmentsEnd hend =>
    -- A dot is no end, with a name behind it or without.
    split
    · next htokens => exact absurd rfl (hend _ (Cursor.peek?_of_tokens htokens)).1
    · next htokens => exact absurd rfl (hend _ (Cursor.peek?_of_tokens htokens)).1
    · next htokens => exact absurd rfl (hend _ (Cursor.peek?_of_tokens htokens)).2.1
    · next htokens => exact absurd rfl (hend _ (Cursor.peek?_of_tokens htokens)).2.2
    · exact .pure

theorem fulfills_primary : Fulfills limit (.primary c) r := by
  delta Fulfills script
  dsimp only
  intro h
  cases h with
  | int htokens | double htokens | string htokens =>
    rw [htokens]
    exact .pure
  | parens htokens h hclose | list htokens h hclose | object htokens h hclose =>
    rw [htokens]
    exact .asks h (.eat hclose .pure)

theorem fulfills_items {close : Symbol} : Fulfills limit (.items close c) rs := by
  delta Fulfills script
  dsimp only
  intro h
  cases h with
  | itemsNone hclose =>
    rw [if_pos hclose]
    exact .pure
  | itemsOne hclose hfirst hend =>
    rw [if_neg hclose]
    refine .asks hfirst ?_
    dsimp only
    split
    · next htokens => exact absurd (Cursor.peek?_of_tokens htokens) hend
    · exact .pure
  | itemsMore hclose hfirst htokens hothers =>
    rw [if_neg hclose]
    refine .asks hfirst ?_
    dsimp only
    rw [htokens]
    exact .asks hothers .pure

theorem fulfills_entries {rs : List (Expr × Expr) × Cursor} : Fulfills limit (.entries c) rs := by
  delta Fulfills script
  dsimp only
  intro h
  cases h with
  | entriesNone hclose =>
    rw [if_pos hclose]
    exact .pure
  | entriesOne hclose hkey hcolon hvalue hend =>
    rw [if_neg hclose]
    refine .asks hkey (.eat hcolon (.asks hvalue ?_))
    dsimp only
    split
    · next htokens => exact absurd (Cursor.peek?_of_tokens htokens) hend
    · exact .pure
  | entriesMore hclose hkey hcolon hvalue htokens hothers =>
    rw [if_neg hclose]
    refine .asks hkey (.eat hcolon (.asks hvalue ?_))
    dsimp only
    rw [htokens]
    exact .asks hothers .pure

theorem fulfills_printedAfterComma : Fulfills limit (.printedAfterComma c) rs := by
  delta Fulfills script
  dsimp only
  intro h
  cases h with
  | printedMore htokens hfirst hothers =>
    rw [htokens]
    exact .asks hfirst (.asks hothers .pure)
  | printedEnd hend =>
    split
    · next htokens => exact absurd (Cursor.peek?_of_tokens htokens) hend
    · exact .pure

theorem fulfills_printed : Fulfills limit (.printed c) rs := by
  delta Fulfills script
  dsimp only
  intro h
  cases h with
  | printedNone hend =>
    rw [if_pos hend]
    exact .pure
  | printedSome hend hfirst hothers =>
    rw [if_neg (Bool.eq_false_iff.1 hend)]
    exact .asks hfirst (.asks hothers .pure)

theorem fulfills_statement : Fulfills limit (.statement c) r := by
  delta Fulfills script
  dsimp only
  intro h
  cases h with
  | print htokens harguments hend =>
    rw [htokens]
    refine .asks harguments ?_
    dsimp only
    rw [if_pos hend]
    exact .pure
  | statement hkeyword hsign h =>
    split
    · next htokens => exact absurd (Cursor.peek?_of_tokens htokens) (hkeyword _)
    · next htokens => exact absurd (Cursor.peek?_of_tokens htokens) hsign
    · exact .call h

theorem fulfills_statements {found all : List Expr} :
    Fulfills limit (.statements found c) all := by
  delta Fulfills script
  dsimp only
  intro h
  cases h with
  | programEnd htokens =>
    rw [htokens]
    exact .pure
  | programSemicolon htokens hrest =>
    rw [htokens]
    exact .call hrest
  | programStatement hne hsign h hrest =>
    split
    · next htokens => exact absurd htokens hne
    · next htokens => exact absurd (Cursor.peek?_of_tokens htokens) hsign
    · exact .asks h (.call hrest)

end Scripts

theorem Succeeds.of_production {limit : Nat} {k : Call} {g : k.Gives}
    (h : Production limit (Succeeds limit) k g) : Succeeds limit k g := by
  have hyields : (script limit k).Yields limit g := by
    cases k with
    | expression c => exact fulfills_expression h
    | chain p c => exact fulfills_chain h
    | operand p c => exact fulfills_operand h
    | chainRest p left c => exact fulfills_chainRest h
    | unary c => exact fulfills_unary h
    | suffixed c => exact fulfills_suffixed h
    | address start keys c => exact fulfills_address h
    | primary c => exact fulfills_primary h
    | items close c => exact fulfills_items h
    | entries c => exact fulfills_entries h
    | printedAfterComma c => exact fulfills_printedAfterComma h
    | printed c => exact fulfills_printed h
    | statement c => exact fulfills_statement h
    | statements found c => exact fulfills_statements h
  rw [Script.Yields, (unfolds limit k).run] at hyields
  exact Option.some.inj hyields

/-! ## With evidence and without -/

section Results

variable {α : Type} {c c' : Cursor} {a : α}

theorem parses_iff {x : Except ParseError (Parsed c α)} :
    Parses x a c' ↔ x.map Parsed.plain = .ok (a, c') := by
  constructor
  · rintro ⟨r, rfl, rfl, rfl⟩
    rfl
  · intro h
    cases x with
    | error e => cases h
    | ok r =>
      cases h
      exact ⟨r, rfl, rfl, rfl⟩

theorem reaches_iff {x : Except ParseError (Reached c α)} :
    Reaches x a c' ↔ x.map Reached.plain = .ok (a, c') := by
  constructor
  · rintro ⟨r, rfl, rfl, rfl⟩
    rfl
  · intro h
    cases x with
    | error e => cases h
    | ok r =>
      cases h
      exact ⟨r, rfl, rfl, rfl⟩

end Results

/-- Calls that give a tree have read a token, and the others have not gone back. -/
def Moves : (k : Call) → k.Gives → Prop
  | .expression c, (_, c') | .chain _ c, (_, c') | .operand _ c, (_, c') | .unary c, (_, c')
  | .suffixed c, (_, c') | .primary c, (_, c') | .statement c, (_, c') => c'.remaining < c.remaining
  | .chainRest _ _ c, (_, c') => c'.remaining ≤ c.remaining
  | .address _ _ c, (_, c') | .items _ c, (_, c') | .printedAfterComma c, (_, c')
  | .printed c, (_, c') => c'.remaining ≤ c.remaining
  | .entries c, (_, c') => c'.remaining ≤ c.remaining
  | .statements _ _, _ => True

theorem Succeeds.moves {limit : Nat} {k : Call} {g : k.Gives} (h : Succeeds limit k g) :
    Moves k g := by
  cases k with
  | expression c | chain p c | operand p c | unary c | suffixed c | primary c | statement c =>
    exact (parses_iff.2 h).lt
  | chainRest p left c | address start keys c | items close c | entries c | printedAfterComma c
  | printed c => exact (reaches_iff.2 h).le
  | statements found c => trivial

/-! ## Programs -/

section Programs

variable {limit : Nat} {motive : List Expr → Cursor → List Expr → Prop}

/-- The case of the loop over statements in the induction on productions. -/
theorem statementsFrom_induct (done : ∀ found c, c.tokens = [] → motive found c found.reverse)
    (semicolon : ∀ found c span rest all, c.tokens = ⟨.symbol .semicolon, span⟩ :: rest →
      motive found (c.past span rest) all → motive found c all)
    (statement : ∀ found c e c₁ all, c.tokens ≠ [] → c.peek? ≠ some (.symbol .semicolon) →
      Parses (statement limit c) e c₁ → motive (e :: found) c₁ all → motive found c all)
    {c : Cursor} {found all : List Expr} (h : statementsFrom limit c found = .ok all) :
    motive found c all := by
  let general : (k : Call) → k.Gives → Prop
    | .statements found c, all => motive found c all
    | _, _ => True
  have hstep : ∀ k g, Production limit (fun k g => Succeeds limit k g ∧ general k g) k g →
      general k g := by
    intro k g hproduction
    cases hproduction with
    | programEnd htokens => exact done _ _ htokens
    | programSemicolon htokens hrest => exact semicolon _ _ _ _ _ htokens hrest.2
    | programStatement hne hsign he hrest =>
      exact statement _ _ _ _ _ hne hsign (parses_iff.2 he.1) hrest.2
    | _ => trivial
  exact Succeeds.induct (k := .statements found c) hstep h

end Programs

end Grammar
end ScopeScript
