/-
  ScopeScript.Proofs.Grammar.Calls

  The calls of the parse functions, with nothing in them that tells that they end.
  The functions of the grammar carry the evidence of that in what they return. Here
  what a function does is a script: it reads tokens, asks for what other calls come
  to, and goes on with that, whatever it is. So the scripts say what is called, and
  are the same recursion whether or not that ends.

  The parse functions come to what their scripts do if all calls are answered by the
  parse functions, and each script makes only calls that have less left to do
  (`unfolds`). This is the one place where the parse functions are opened, and where
  it is shown that their recursion ends.
-/
import ScopeScript.Grammar.Program

namespace ScopeScript
namespace Grammar

/-! ## Calls -/

/-- A call of a parse function. -/
inductive Call where
  | expression (c : Cursor)
  | chain (p : Precedence) (c : Cursor)
  | operand (p : Precedence) (c : Cursor)
  | chainRest (p : Precedence) (left : Expr) (c : Cursor)
  | unary (c : Cursor)
  | suffixed (c : Cursor)
  | address (start : Span) (keys : List Expr) (c : Cursor)
  | primary (c : Cursor)
  | items (close : Symbol) (c : Cursor)
  | entries (c : Cursor)
  | printedAfterComma (c : Cursor)
  | printed (c : Cursor)
  | statement (c : Cursor)
  | statements (found : List Expr) (c : Cursor)

namespace Call

/-- What a call gives where it succeeds. -/
abbrev Gives : Call → Type
  | expression _ | chain _ _ | operand _ _ | chainRest _ _ _ | unary _ | suffixed _ | primary _
  | statement _ => Expr × Cursor
  | address _ _ _ | items _ _ | printedAfterComma _ | printed _ => List Expr × Cursor
  | entries _ => List (Expr × Expr) × Cursor
  | statements _ _ => List Expr

/-- Where a call begins to read. -/
def cursor : Call → Cursor
  | expression c | chain _ c | operand _ c | chainRest _ _ c | unary c | suffixed c
  | address _ _ c | primary c | items _ c | entries c | printedAfterComma c | printed c
  | statement c | statements _ c => c

/-- The rank of the function that is called: at one place functions of a higher rank
    call those of a lower one. -/
def rank : Call → Nat
  | expression _ => 12
  | chain p _ => 2 * p.height + 3
  | operand p _ => 2 * p.height + 2
  | unary _ => 3
  | suffixed _ => 2
  | address _ _ _ | primary _ => 1
  | chainRest _ _ _ | items _ _ | entries _ | printedAfterComma _ | printed _ => 13
  | statement _ => 14
  | statements _ _ => 15

/-- What a call has left to do. -/
def weight (k : Call) : Nat :=
  k.cursor.weight k.rank

end Call

/-- What calls come to, as far as that is known. -/
abbrev Answers :=
  (k : Call) → Option (Except ParseError k.Gives)

/-! ## Scripts -/

/-- What a function does: it ends, or it asks for what a call gives and goes on with
    that. A call that fails ends it too. -/
inductive Script (α : Type) where
  | ends (x : Except ParseError α)
  | asks (k : Call) (next : k.Gives → Script α)

namespace Script

variable {α β γ δ : Type}

def bind : Script α → (α → Script β) → Script β
  | ends (.ok a), f => f a
  | ends (.error e), _ => ends (.error e)
  | asks k next, f => asks k fun g => (next g).bind f

instance : Monad Script where
  pure a := ends (.ok a)
  bind := bind

/-- A single call. -/
def call (k : Call) : Script k.Gives :=
  asks k fun g => ends (.ok g)

/-- What a script comes to if its calls are answered. -/
def run (f : Answers) : Script α → Option (Except ParseError α)
  | ends x => some x
  | asks k next =>
    match f k with
    | none => none
    | some (.error e) => some (.error e)
    | some (.ok g) => (next g).run f

/-- The calls that a script makes where its calls are answered. -/
inductive Makes (f : Answers) (k : Call) : Script α → Prop where
  | here (next : k.Gives → Script α) : Makes f k (asks k next)
  | later {j : Call} {next : j.Gives → Script α} {g : j.Gives} (hj : f j = some (.ok g))
    (h : Makes f k (next g)) : Makes f k (asks j next)

/-- Only the answers to the calls that are made matter. -/
theorem run_congr {f f' : Answers} {s : Script α} (h : ∀ k, s.Makes f k → f' k = f k) :
    s.run f' = s.run f := by
  induction s with
  | ends x => rfl
  | asks k next ih =>
    rw [run, run, h k (.here next)]
    cases hk : f k with
    | none => rfl
    | some x =>
      cases x with
      | error e => rfl
      | ok g => exact ih g fun j hj => h j (.later hk hj)

/-- With these answers a script comes to `x`, and it makes only calls with `P`. -/
structure Comes (f : Answers) (P : Call → Prop) (s : Script α) (x : Except ParseError α) :
    Prop where
  run : s.run f = some x
  makes : ∀ k, s.Makes f k → P k

namespace Comes

variable {f : Answers} {P : Call → Prop}

theorem ends (x : Except ParseError α) : Comes f P (.ends x) x :=
  ⟨rfl, nofun⟩

/-- Nothing is done behind a call that fails. -/
theorem asks_error {k : Call} {e : ParseError} (hk : f k = some (.error e)) (hP : P k)
    (next : k.Gives → Script α) : Comes f P (.asks k next) (.error e) := by
  refine ⟨?_, fun j hj => ?_⟩
  · rw [Script.run, hk]
  · cases hj with
    | here => exact hP
    | later hg _ => cases hk.symm.trans hg

theorem asks_ok {k : Call} {g : k.Gives} {next : k.Gives → Script α} {x : Except ParseError α}
    (hk : f k = some (.ok g)) (hP : P k) (h : Comes f P (next g) x) :
    Comes f P (.asks k next) x := by
  refine ⟨?_, fun j hj => ?_⟩
  · rw [Script.run, hk]
    exact h.run
  · cases hj with
    | here => exact hP
    | later hg hj =>
      cases hk.symm.trans hg
      exact h.makes j hj

theorem call {k : Call} {x : Except ParseError k.Gives} (hk : f k = some x) (hP : P k) :
    Comes f P (.call k) x := by
  cases x with
  | error e => exact asks_error hk hP _
  | ok g => exact asks_ok hk hP (.ends _)

/-- What is done with a value may be told with the evidence that the value is what the
    first part comes to. -/
theorem bind {s : Script α} {k : α → Script β} {x : Except ParseError γ} {plain : γ → α}
    {l : γ → Except ParseError β} (h : Comes f P s (x.map plain))
    (hk : ∀ a, x = .ok a → Comes f P (k (plain a)) (l a)) : Comes f P (s >>= k) (x >>= l) := by
  obtain ⟨hrun, hmakes⟩ := h
  change Comes f P (s.bind k) (x.bind l)
  -- The answers lead along one branch of the script, to where it ends.
  induction s with
  | ends y =>
    cases hrun
    cases x with
    | error e => exact .ends _
    | ok a => exact hk a rfl
  | asks j next ih =>
    have hj : P j := hmakes j (.here next)
    rw [Script.run] at hrun
    cases hanswer : f j with
    | none =>
      rw [hanswer] at hrun
      cases hrun
    | some y =>
      rw [hanswer] at hrun
      cases y with
      | error e =>
        cases x with
        | ok a => cases hrun
        | error e' =>
          cases hrun
          exact asks_error hanswer hj _
      | ok g =>
        have hnext := ih g hrun fun i hi => hmakes i (.later hanswer hi)
        exact asks_ok hanswer hj hnext

/-- The same with the evidence left out of the result. -/
theorem bind_map {s : Script α} {k : α → Script β} {x : Except ParseError γ} {plain : γ → α}
    {l : γ → Except ParseError δ} {plain' : δ → β} (h : Comes f P s (x.map plain))
    (hk : ∀ a, x = .ok a → Comes f P (k (plain a)) ((l a).map plain')) :
    Comes f P (s >>= k) ((x >>= l).map plain') := by
  have heq : (x >>= l).map plain' = x >>= fun a => (l a).map plain' := by
    cases x <;> rfl
  rw [heq]
  exact h.bind hk

/-- Nothing is asked for in between. -/
theorem bind_ends {x : Except ParseError α} {k : α → Script β} {l : α → Except ParseError δ}
    {plain : δ → β} (hk : ∀ a, Comes f P (k a) ((l a).map plain)) :
    Comes f P (.ends x >>= k) ((x >>= l).map plain) := by
  cases x with
  | error e => exact .ends _
  | ok a => exact hk a

/-- What comes last is passed on. -/
theorem last {s : Script α} {x : Except ParseError γ} {plain : γ → α} {give : γ → δ}
    {plain' : δ → α} (h : Comes f P s (x.map plain)) (hgive : ∀ a, plain' (give a) = plain a) :
    Comes f P s ((x >>= fun a => pure (give a)).map plain') := by
  have heq : (x >>= fun a => pure (give a)).map plain' = x.map plain := by
    cases x with
    | error e => rfl
    | ok a => exact congrArg Except.ok (hgive a)
  rw [heq]
  exact h

/-- Where a level is opened the limit may be met. -/
theorem level {limit opened : Nat} {e : ParseError} {s : Script α} {x : Except ParseError β}
    {plain : β → α} (h : Comes f P s (x.map plain)) :
    Comes f P (if limit ≤ opened then .ends (.error e) else s)
      ((if limit ≤ opened then .error e else x).map plain) := by
  split
  · exact .ends _
  · exact h

end Comes

end Script

/-! ## The functions -/

/-- The value and the cursor, without evidence. -/
def Parsed.plain {α : Type} {c : Cursor} (r : Parsed c α) : α × Cursor :=
  (r.value, r.next)

/-- The value and the cursor, without evidence. -/
def Reached.plain {α : Type} {c : Cursor} (r : Reached c α) : α × Cursor :=
  (r.value, r.next)

/-- What the function of a call does, form by form as in the grammar. -/
def script (limit : Nat) : (k : Call) → Script k.Gives
  | .expression c =>
    if limit ≤ c.level then .ends (.error (c.tooDeep limit))
    else do
      let (left, c₁) ← .call (.chain .comparison c.deeper)
      match c₁.tokens with
      | ⟨.symbol s, span⟩ :: rest =>
        match AssignSign.ofSymbol? s with
        | some sign => do
          -- No call is made behind a bad target.
          let address ← .ends (target .assignment left)
          let (right, c₂) ← .call (.expression ((c₁.past span rest).atLevel c.deeper.level))
          return (assignment sign address left.span right, c₂.atLevel c.level)
        | none => return (left, c₁.atLevel c.level)
      | _ => return (left, c₁.atLevel c.level)
  | .chain p c => do
    let (first, c₁) ← .call (.operand p c)
    let (all, c₂) ← .call (.chainRest p first c₁)
    return (all, c₂.atLevel c.level)
  | .operand p c =>
    match p.tighter? with
    | some q => .call (.chain q c)
    | none => .call (.unary c)
  | .chainRest p left c =>
    match c.tokens with
    | ⟨.symbol s, span⟩ :: rest =>
      match p.operator? s with
      | some op =>
        if limit ≤ c.level then .ends (.error ((c.past span rest).tooDeep limit))
        else do
          let (right, c₁) ← .call (.operand p (c.past span rest).deeper)
          .call (.chainRest p (operation op left right) c₁)
      | none => return (left, c)
    | _ => return (left, c)
  | .unary c =>
    match c.tokens with
    | ⟨.symbol s, span⟩ :: rest =>
      if s = .minus then
        if limit ≤ c.level then .ends (.error ((c.past span rest).tooDeep limit))
        else do
          let (inner, c₁) ← .call (.unary (c.past span rest).deeper)
          return (negation span inner, c₁.atLevel c.level)
      else
        match stepOp? s with
        | some op => do
          let (inner, c₁) ← .call (.suffixed (c.past span rest))
          let address ← .ends (target (.step s) inner)
          return (step op address (span.merge inner.span) false, c₁)
        | none => .call (.suffixed c)
    | _ => .call (.suffixed c)
  | .suffixed c =>
    match c.tokens with
    | ⟨.name s, span⟩ :: rest => do
      let (keys, c₁) ← .call (.address span [.string span s] (c.past span rest))
      let whole := span.merge c₁.last
      -- The levels that calls have opened end with the address.
      let c₂ := c₁.atLevel c.level
      match c₂.tokens with
      | ⟨.symbol s, span⟩ :: rest =>
        match stepOp? s with
        | some op => return (step op keys (whole.merge span) true, c₂.past span rest)
        | none => return (.read whole keys, c₂)
      | _ => return (.read whole keys, c₂)
    | _ => .call (.primary c)
  | .address start keys c =>
    match c.tokens with
    | ⟨.symbol .dot, _⟩ :: ⟨.name s, span⟩ :: rest =>
      .call (.address start (keys ++ [.string span s]) (c.past span rest))
    | ⟨.symbol .dot, span⟩ :: rest =>
      .ends (.error ((c.past span rest).unexpected .propertyName))
    | ⟨.symbol .leftBracket, span⟩ :: rest => do
      let (index, c₁) ← .call (.expression (c.past span rest))
      let (_, c₂) ← .ends ((c₁.eat .rightBracket).map Parsed.plain)
      .call (.address start (keys ++ [index]) c₂)
    | ⟨.symbol .leftParen, span⟩ :: rest =>
      if limit ≤ c.level then .ends (.error ((c.past span rest).tooDeep limit))
      else do
        let (arguments, c₁) ← .call (.items .rightParen (c.past span rest).deeper)
        let (close, c₂) ← .ends ((c₁.eat .rightParen).map Parsed.plain)
        .call (.address start [.call (start.merge close) keys arguments] c₂)
    | _ => return (keys, c)
  | .primary c =>
    match c.tokens with
    | ⟨.int n, span⟩ :: rest => return (.int span n, c.past span rest)
    | ⟨.double d, span⟩ :: rest => return (.double span d, c.past span rest)
    | ⟨.string s, span⟩ :: rest => return (.string span s, c.past span rest)
    | ⟨.symbol .leftParen, span⟩ :: rest => do
      let (inner, c₁) ← .call (.expression (c.past span rest))
      let (close, c₂) ← .ends ((c₁.eat .rightParen).map Parsed.plain)
      return (inner.withSpan (span.merge close), c₂)
    | ⟨.symbol .leftBracket, span⟩ :: rest => do
      let (elements, c₁) ← .call (.items .rightBracket (c.past span rest))
      let (close, c₂) ← .ends ((c₁.eat .rightBracket).map Parsed.plain)
      return (.list (span.merge close) elements, c₂)
    | ⟨.symbol .leftBrace, span⟩ :: rest => do
      let (members, c₁) ← .call (.entries (c.past span rest))
      let (close, c₂) ← .ends ((c₁.eat .rightBrace).map Parsed.plain)
      return (.object (span.merge close) members, c₂)
    | _ => .ends (.error (c.unexpected .expression))
  | .items close c =>
    if c.peek? = some (.symbol close) then return ([], c)
    else do
      let (first, c₁) ← .call (.expression c)
      match c₁.tokens with
      | ⟨.symbol .comma, span⟩ :: rest => do
        let (others, c₂) ← .call (.items close (c₁.past span rest))
        return (first :: others, c₂)
      | _ => return ([first], c₁)
  | .entries c =>
    if c.peek? = some (.symbol .rightBrace) then return ([], c)
    else do
      let (key, c₁) ← .call (.expression c)
      let (_, c₂) ← .ends ((c₁.eat .colon).map Parsed.plain)
      let (value, c₃) ← .call (.expression c₂)
      match c₃.tokens with
      | ⟨.symbol .comma, span⟩ :: rest => do
        let (others, c₄) ← .call (.entries (c₃.past span rest))
        return ((key, value) :: others, c₄)
      | _ => return ([(key, value)], c₃)
  | .printedAfterComma c =>
    match c.tokens with
    | ⟨.symbol .comma, span⟩ :: rest => do
      let (first, c₁) ← .call (.expression (c.past span rest))
      let (others, c₂) ← .call (.printedAfterComma c₁)
      return (first :: others, c₂)
    | _ => return ([], c)
  | .printed c =>
    if c.atStatementEnd then return ([], c)
    else do
      let (first, c₁) ← .call (.expression c)
      let (others, c₂) ← .call (.printedAfterComma c₁)
      return (first :: others, c₂)
  | .statement c =>
    match c.tokens with
    | ⟨.keyword k, span⟩ :: _ => .ends (.error ⟨.reserved k, span⟩)
    | ⟨.symbol .atSign, span⟩ :: rest => do
      let (arguments, c₁) ← .call (.printed (c.past span rest))
      if c₁.atStatementEnd then return (printing span (span.merge c₁.last) arguments, c₁)
      else .ends (.error (c₁.unexpected .endOfPrint))
    | _ => .call (.expression c)
  | .statements found c =>
    match c.tokens with
    | [] => return found.reverse
    | ⟨.symbol .semicolon, span⟩ :: rest => .call (.statements found (c.past span rest))
    | _ => do
      let (e, c₁) ← .call (.statement c)
      .call (.statements (e :: found) c₁)

/-- What a call comes to. -/
def outcome (limit : Nat) : (k : Call) → Except ParseError k.Gives
  | .expression c => (expression limit c).map Parsed.plain
  | .chain p c => (chain limit p c).map Parsed.plain
  | .operand p c => (operand limit p c).map Parsed.plain
  | .chainRest p left c => (chainRest limit p left c).map Reached.plain
  | .unary c => (unary limit c).map Parsed.plain
  | .suffixed c => (suffixed limit c).map Parsed.plain
  | .address start keys c => (address limit start keys c).map Reached.plain
  | .primary c => (primary limit c).map Parsed.plain
  | .items close c => (items limit close c).map Reached.plain
  | .entries c => (entries limit c).map Reached.plain
  | .printedAfterComma c => (printedAfterComma limit c).map Reached.plain
  | .printed c => (printed limit c).map Reached.plain
  | .statement c => (statement limit c).map Parsed.plain
  | .statements found c => statementsFrom limit c found

/-- All calls answered by the parse functions. -/
def answers (limit : Nat) : Answers :=
  fun k => some (outcome limit k)

/-! ## What the functions ask for -/

namespace Call

variable {k k' : Call}

theorem rank_lt (k : Call) : k.rank < 16 := by
  cases k with
  | chain p c => cases p <;> exact Nat.lt_of_sub_pos (Nat.succ_pos _)
  | operand p c => exact p.rank_lt
  | _ => exact Nat.lt_of_sub_pos (Nat.succ_pos _)

/-- Behind a token that was read any function may be called. -/
theorem weight_lt_of_moved (h : k'.cursor.remaining < k.cursor.remaining) :
    k'.weight < k.weight :=
  Cursor.weight_lt h k'.rank_lt _

/-- So it is behind the next token. -/
theorem weight_lt_of_next {t : Token} {span : Span} {rest : List Lexeme}
    (htokens : k.cursor.tokens = ⟨t, span⟩ :: rest) (hrest : k'.cursor.tokens = rest) :
    k'.weight < k.weight := by
  refine weight_lt_of_moved ?_
  rw [Cursor.remaining, Cursor.remaining, htokens, hrest]
  exact Nat.lt_succ_self _

/-- Elsewhere only one of a lower rank may be. -/
theorem weight_lt_of_rank (hremaining : k'.cursor.remaining = k.cursor.remaining)
    (hrank : k'.rank < k.rank) : k'.weight < k.weight := by
  unfold weight Cursor.weight
  omega

end Call

/-- A call comes to what its script makes of what other calls come to, and these have
    less left to do. -/
def Call.Unfolds (limit : Nat) (k : Call) : Prop :=
  (script limit k).Comes (answers limit) (fun k' => k'.weight < k.weight) (outcome limit k)

section Functions

open Call

variable {limit : Nat}

theorem operand_of_tighter {p q : Precedence} {c : Cursor} (h : p.tighter? = some q) :
    operand limit p c = chain limit q c := by
  rw [operand]
  split
  · next q' hq =>
    cases h.symm.trans hq
    rfl
  · next hq => cases h.symm.trans hq

theorem operand_of_none {p : Precedence} {c : Cursor} (h : p.tighter? = none) :
    operand limit p c = unary limit c := by
  rw [operand]
  split
  · next q hq => cases h.symm.trans hq
  · rfl

theorem comes_call {P : Call → Prop} {k : Call} (h : P k) :
    (Script.call k).Comes (answers limit) P (outcome limit k) :=
  .call rfl h

theorem unfolds_expression (c : Cursor) : Call.Unfolds limit (.expression c) := by
  -- The one form at hand is opened, here and below, without equations for all of them.
  delta Call.Unfolds script outcome
  dsimp only
  rw [expression]
  refine .level ?_
  refine .bind_map (comes_call (weight_lt_of_rank rfl (Nat.lt_succ_self 11))) fun left _ => ?_
  -- The function and its script look at the tokens each on their own, so both are opened
  -- by writing the tokens out.
  obtain ⟨left, ⟨tokens, last, finish, level⟩, hmoved⟩ := left
  rcases tokens with _ | ⟨⟨t, span⟩, rest⟩
  · exact .ends _
  cases t with
  | symbol s =>
    dsimp only [Parsed.plain]
    cases AssignSign.ofSymbol? s with
    | none => exact .ends _
    | some sign =>
      refine .bind_ends fun address => ?_
      refine .bind_map (comes_call (weight_lt_of_moved ?_)) fun right _ => .ends _
      exact Nat.lt_trans (Nat.lt_succ_self _) hmoved
  | _ => exact .ends _

theorem unfolds_chain (p : Precedence) (c : Cursor) : Call.Unfolds limit (.chain p c) := by
  delta Call.Unfolds script outcome
  dsimp only
  rw [chain]
  refine .bind_map (comes_call (weight_lt_of_rank rfl (Nat.lt_succ_self _))) fun first _ => ?_
  exact .bind_map (comes_call (weight_lt_of_moved first.moved)) fun all _ => .ends _

theorem unfolds_operand (p : Precedence) (c : Cursor) : Call.Unfolds limit (.operand p c) := by
  delta Call.Unfolds script outcome
  dsimp only
  cases hp : p.tighter? with
  | some q =>
    rw [operand_of_tighter hp]
    exact comes_call (weight_lt_of_rank rfl (Precedence.rank_lt_of_tighter hp))
  | none =>
    rw [operand_of_none hp]
    exact comes_call (weight_lt_of_rank rfl p.rank_pos)

theorem unfolds_chainRest (p : Precedence) (left : Expr) (c : Cursor) :
    Call.Unfolds limit (.chainRest p left c) := by
  delta Call.Unfolds script outcome
  dsimp only
  rw [chainRest]
  obtain ⟨tokens, last, finish, level⟩ := c
  rcases tokens with _ | ⟨⟨t, span⟩, rest⟩
  · exact .ends _
  cases t with
  | symbol s =>
    dsimp only
    cases p.operator? s with
    | none => exact .ends _
    | some op =>
      refine .level ?_
      refine .bind_map (comes_call (weight_lt_of_next rfl rfl)) fun right _ => ?_
      -- The rest of the chain is called behind its operator, which has been read by then.
      refine .last (comes_call (weight_lt_of_moved ?_)) fun all => rfl
      exact Nat.lt_trans right.moved (Nat.lt_succ_self _)
  | _ => exact .ends _

theorem unfolds_unary (c : Cursor) : Call.Unfolds limit (.unary c) := by
  delta Call.Unfolds script outcome
  dsimp only
  rw [unary]
  -- Without a sign nothing is read before the call, and the rank goes down.
  have hunsigned : (Call.suffixed c).weight < (Call.unary c).weight :=
    weight_lt_of_rank rfl (Nat.lt_succ_self 2)
  obtain ⟨tokens, last, finish, level⟩ := c
  rcases tokens with _ | ⟨⟨t, span⟩, rest⟩
  · exact comes_call hunsigned
  cases t with
  | symbol s =>
    dsimp only
    split
    · refine .level ?_
      exact .bind_map (comes_call (weight_lt_of_next rfl rfl)) fun inner _ => .ends _
    · cases stepOp? s with
      | none => exact comes_call hunsigned
      | some op =>
        refine .bind_map (comes_call (weight_lt_of_next rfl rfl)) fun inner _ => ?_
        exact .bind_ends fun address => .ends _
  | _ => exact comes_call hunsigned

theorem unfolds_suffixed (c : Cursor) : Call.Unfolds limit (.suffixed c) := by
  delta Call.Unfolds script outcome
  dsimp only
  rw [suffixed]
  have hprimary : (Call.primary c).weight < (Call.suffixed c).weight :=
    weight_lt_of_rank rfl (Nat.lt_succ_self 1)
  obtain ⟨tokens, last, finish, level⟩ := c
  rcases tokens with _ | ⟨⟨t, span⟩, rest⟩
  · exact comes_call hprimary
  cases t with
  | name s =>
    refine .bind_map (comes_call (weight_lt_of_next rfl rfl)) fun read _ => ?_
    obtain ⟨keys, ⟨tokens, last', finish', level'⟩, hkept⟩ := read
    rcases tokens with _ | ⟨⟨t, span'⟩, rest'⟩
    · exact .ends _
    cases t with
    | symbol s =>
      dsimp only [Reached.plain, Cursor.atLevel]
      cases stepOp? s <;> exact .ends _
    | _ => exact .ends _
  | _ => exact comes_call hprimary

theorem unfolds_address (start : Span) (keys : List Expr) (c : Cursor) :
    Call.Unfolds limit (.address start keys c) := by
  delta Call.Unfolds script outcome
  dsimp only
  rw [address]
  obtain ⟨tokens, last, finish, level⟩ := c
  rcases tokens with _ | ⟨⟨t, span⟩, rest⟩
  · exact .ends _
  cases t with
  | symbol s =>
    cases s with
    | dot =>
      rcases rest with _ | ⟨⟨t, span'⟩, rest⟩
      · exact .ends _
      cases t with
      | name s =>
        refine .last (comes_call (weight_lt_of_moved ?_)) fun all => rfl
        exact Nat.lt_succ_of_lt (Nat.lt_succ_self _)
      | _ => exact .ends _
    | leftBracket =>
      refine .bind_map (comes_call (weight_lt_of_next rfl rfl))
        fun index _ => .bind_map (.ends _) fun close _ => ?_
      refine .last (comes_call (weight_lt_of_moved ?_)) fun all => rfl
      exact Nat.lt_trans close.moved (Nat.lt_trans index.moved (Nat.lt_succ_self _))
    | leftParen =>
      refine .level ?_
      refine .bind_map (comes_call (weight_lt_of_next rfl rfl))
        fun arguments _ => .bind_map (.ends _) fun close _ => ?_
      -- There may be no arguments, but the parentheses have been read.
      refine .last (comes_call (weight_lt_of_moved ?_)) fun all => rfl
      exact Nat.lt_trans close.moved (Nat.lt_of_le_of_lt arguments.kept (Nat.lt_succ_self _))
    | _ => exact .ends _
  | _ => exact .ends _

theorem unfolds_primary (c : Cursor) : Call.Unfolds limit (.primary c) := by
  delta Call.Unfolds script outcome
  dsimp only
  rw [primary]
  obtain ⟨tokens, last, finish, level⟩ := c
  rcases tokens with _ | ⟨⟨t, span⟩, rest⟩
  · exact .ends _
  cases t with
  | symbol s =>
    cases s with
    | leftParen | leftBracket | leftBrace =>
      refine .bind_map (comes_call (weight_lt_of_next rfl rfl)) fun inner _ => ?_
      exact .bind_map (.ends _) fun close _ => .ends _
    | _ => exact .ends _
  | _ => exact .ends _

theorem unfolds_items (close : Symbol) (c : Cursor) : Call.Unfolds limit (.items close c) := by
  delta Call.Unfolds script outcome
  dsimp only
  rw [items]
  split
  · exact .ends _
  refine .bind_map (comes_call (weight_lt_of_rank rfl (Nat.lt_succ_self 12))) fun first _ => ?_
  obtain ⟨first, ⟨tokens, last, finish, level⟩, hmoved⟩ := first
  rcases tokens with _ | ⟨⟨t, span⟩, rest⟩
  · exact .ends _
  cases t with
  | symbol s =>
    cases s with
    | comma =>
      refine .bind_map (comes_call (weight_lt_of_moved ?_)) fun others _ => .ends _
      exact Nat.lt_trans (Nat.lt_succ_self _) hmoved
    | _ => exact .ends _
  | _ => exact .ends _

theorem unfolds_entries (c : Cursor) : Call.Unfolds limit (.entries c) := by
  delta Call.Unfolds script outcome
  dsimp only
  rw [entries]
  split
  · exact .ends _
  refine .bind_map (comes_call (weight_lt_of_rank rfl (Nat.lt_succ_self 12))) fun key _ => ?_
  refine .bind_map (.ends _) fun colon _ => ?_
  -- The value is called behind the key, so the rank of the function does not matter there.
  have hlt : colon.next.remaining < c.remaining := Nat.lt_trans colon.moved key.moved
  refine .bind_map (comes_call (weight_lt_of_moved hlt)) fun value _ => ?_
  obtain ⟨value, ⟨tokens, last, finish, level⟩, hmoved⟩ := value
  rcases tokens with _ | ⟨⟨t, span⟩, rest⟩
  · exact .ends _
  cases t with
  | symbol s =>
    cases s with
    | comma =>
      refine .bind_map (comes_call (weight_lt_of_moved ?_)) fun others _ => .ends _
      exact Nat.lt_trans (Nat.lt_succ_self _) (Nat.lt_trans hmoved hlt)
    | _ => exact .ends _
  | _ => exact .ends _

theorem unfolds_printedAfterComma (c : Cursor) : Call.Unfolds limit (.printedAfterComma c) := by
  delta Call.Unfolds script outcome
  dsimp only
  rw [printedAfterComma]
  obtain ⟨tokens, last, finish, level⟩ := c
  rcases tokens with _ | ⟨⟨t, span⟩, rest⟩
  · exact .ends _
  cases t with
  | symbol s =>
    cases s with
    | comma =>
      refine .bind_map (comes_call (weight_lt_of_next rfl rfl)) fun first _ => ?_
      refine .bind_map (comes_call (weight_lt_of_moved ?_)) fun others _ => .ends _
      exact Nat.lt_trans first.moved (Nat.lt_succ_self _)
    | _ => exact .ends _
  | _ => exact .ends _

theorem unfolds_printed (c : Cursor) : Call.Unfolds limit (.printed c) := by
  delta Call.Unfolds script outcome
  dsimp only
  rw [printed]
  split
  · exact .ends _
  refine .bind_map (comes_call (weight_lt_of_rank rfl (Nat.lt_succ_self 12))) fun first _ => ?_
  exact .bind_map (comes_call (weight_lt_of_moved first.moved)) fun others _ => .ends _

theorem unfolds_statement (c : Cursor) : Call.Unfolds limit (.statement c) := by
  delta Call.Unfolds script outcome
  dsimp only
  rw [statement]
  have hexpression : (Call.expression c).weight < (Call.statement c).weight :=
    weight_lt_of_rank rfl (Nat.lt_succ_of_lt (Nat.lt_succ_self 12))
  obtain ⟨tokens, last, finish, level⟩ := c
  rcases tokens with _ | ⟨⟨t, span⟩, rest⟩
  · exact comes_call hexpression
  cases t with
  | keyword k => exact .ends _
  | symbol s =>
    cases s with
    | atSign =>
      refine .bind_map (comes_call (weight_lt_of_next rfl rfl)) fun arguments _ => ?_
      dsimp only [Reached.plain]
      split <;> exact .ends _
    | _ => exact comes_call hexpression
  | _ => exact comes_call hexpression

theorem unfolds_statements (found : List Expr) (c : Cursor) :
    Call.Unfolds limit (.statements found c) := by
  delta Call.Unfolds script outcome
  dsimp only
  rw [statementsFrom]
  have hstatement : (Call.statement c).weight < (Call.statements found c).weight :=
    weight_lt_of_rank rfl (Nat.lt_succ_self 14)
  -- Anything but a semicolon begins a statement.
  have hgo : Script.Comes (answers limit) (fun k => k.weight < (Call.statements found c).weight)
      (do
        let (e, c₁) ← .call (.statement c)
        .call (.statements (e :: found) c₁))
      (do
        let s ← statement limit c
        statementsFrom limit s.next (s.value :: found)) := by
    refine .bind (comes_call hstatement) fun s _ => ?_
    exact comes_call (weight_lt_of_moved s.moved)
  obtain ⟨tokens, last, finish, level⟩ := c
  rcases tokens with _ | ⟨⟨t, span⟩, rest⟩
  · exact .ends _
  cases t with
  | symbol s =>
    cases s with
    | semicolon => exact comes_call (weight_lt_of_next rfl rfl)
    | _ => exact hgo
  | _ => exact hgo

end Functions

/-- All calls unfold. -/
theorem unfolds (limit : Nat) (k : Call) : k.Unfolds limit := by
  cases k with
  | expression c => exact unfolds_expression c
  | chain p c => exact unfolds_chain p c
  | operand p c => exact unfolds_operand p c
  | chainRest p left c => exact unfolds_chainRest p left c
  | unary c => exact unfolds_unary c
  | suffixed c => exact unfolds_suffixed c
  | address start keys c => exact unfolds_address start keys c
  | primary c => exact unfolds_primary c
  | items close c => exact unfolds_items close c
  | entries c => exact unfolds_entries c
  | printedAfterComma c => exact unfolds_printedAfterComma c
  | printed c => exact unfolds_printed c
  | statement c => exact unfolds_statement c
  | statements found c => exact unfolds_statements found c

end Grammar
end ScopeScript
