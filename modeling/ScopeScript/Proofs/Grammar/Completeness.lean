/-
  ScopeScript.Proofs.Grammar.Completeness

  What the grammar derives, the parser accepts. Where the yield of a derivation
  is ahead, with levels left for it and a token behind it that does not belong
  to it, the parse function of the nonterminal reads the yield and gives the
  meaning. There is one lemma for each production and an induction on
  derivations over all of them.
-/
import ScopeScript.Proofs.Grammar.Follow
import ScopeScript.Proofs.Grammar.Productions

namespace ScopeScript
namespace Grammar

open ScopeScript.Expr

variable {limit : Nat}

/-- The parse function of a nonterminal reads from one cursor to another and
    gives a meaning. What follows in a chain or an address has levels of its own,
    which are given back later. -/
def Nonterminal.Accepts (limit : Nat) (c c' : Cursor) : (n : Nonterminal) → n.Meaning → Prop
  | statement, m =>
    c'.level = c.level ∧ ∃ e, Succeeds limit (.statement c) (e, c') ∧ e.bare = m
  | printed, m =>
    c'.level = c.level ∧ ∃ es, Succeeds limit (.printed c) (es, c') ∧ bareAll es = m
  | printedRest, m =>
    c'.level = c.level ∧ ∃ es, Succeeds limit (.printedAfterComma c) (es, c') ∧ bareAll es = m
  | expression, m =>
    c'.level = c.level ∧ ∃ e, Succeeds limit (.expression c) (e, c') ∧ e.bare = m
  | chain p, m => c'.level = c.level ∧ ∃ e, Succeeds limit (.chain p c) (e, c') ∧ e.bare = m
  | operand p, m =>
    c'.level = c.level ∧ ∃ e, Succeeds limit (.operand p c) (e, c') ∧ e.bare = m
  | chainRest p, m =>
    ∀ left, ∃ e, Succeeds limit (.chainRest p left c) (e, c') ∧ e.bare = m left.bare
  | unary, m => c'.level = c.level ∧ ∃ e, Succeeds limit (.unary c) (e, c') ∧ e.bare = m
  | suffixed, m => c'.level = c.level ∧ ∃ e, Succeeds limit (.suffixed c) (e, c') ∧ e.bare = m
  | segments, m =>
    ∀ start keys, ∃ all, Succeeds limit (.address start keys c) (all, c') ∧
      bareAll all = m (bareAll keys)
  | primary, m => c'.level = c.level ∧ ∃ e, Succeeds limit (.primary c) (e, c') ∧ e.bare = m
  | items, m =>
    c'.level = c.level ∧ ∀ close, close = .rightParen ∨ close = .rightBracket →
      c'.peek? = some (.symbol close) →
      ∃ es, Succeeds limit (.items close c) (es, c') ∧ bareAll es = m
  | entries, m =>
    c'.level = c.level ∧ ∃ ps, Succeeds limit (.entries c) (ps, c') ∧ bareEntries ps = m

/-- The parser is complete for a derivation. -/
def Complete (limit : Nat) {n : Nonterminal} (d : Derivation n) : Prop :=
  d.TargetsIdentifiers → ∀ c rest, c.ahead = d.yield ++ rest → d.levels ≤ limit - c.level →
    n.EndsBefore rest → ∃ c', c'.ahead = rest ∧ n.Accepts limit c c' d.meaning

/-! ## Expressions -/

theorem complete_value {e : Derivation (.chain .comparison)} (h : Complete limit e) :
    Complete limit (.value e) := by
  intro ht c rest hahead hlevels hends
  change e.levels + 1 ≤ limit - c.level at hlevels
  obtain ⟨c₁, hc₁, -, left, hleft, hmeaning⟩ := h ht c.deeper rest hahead
    (by simp only [Cursor.level_deeper]; omega) (Loose.mono hends (by decide))
  refine ⟨c₁.atLevel c.level, hc₁, rfl, left, ?_, hmeaning⟩
  -- What stands behind grips too loosely to be a sign of assignment.
  refine .of_production (.value (by omega) hleft ?_)
  rw [← hc₁] at hends
  exact Loose.eq_none hends fun s a ha => Nat.le_of_eq (grip_of_ofSymbol? ha).symm

theorem complete_assign {sign : AssignSign} {s : Symbol} (hs : sign.sign? = some s)
    {target : Derivation (.chain .comparison)} {right : Derivation .expression}
    (hl : Complete limit target) (hr : Complete limit right) :
    Complete limit (.assign hs target right) := by
  intro ⟨hidentifier, htl, htr⟩ c rest hahead hlevels hends
  change max target.levels right.levels + 1 ≤ limit - c.level at hlevels
  rw [Derivation.yield, List.append_assoc] at hahead
  have hsign := ofSymbol?_eq_some_iff.2 hs
  have hgrip := grip_of_ofSymbol? hsign
  obtain ⟨c₁, hc₁, -, left, hleft, hmeaning⟩ := hl htl c.deeper _ hahead
    (by simp only [Cursor.level_deeper]; omega) (loose_cons (by rw [hgrip]; decide))
  obtain ⟨span, behind, htokens, hbehind⟩ := Cursor.exists_tokens_of_ahead hc₁
  obtain ⟨c₂, hc₂, -, e, he, hmeaning'⟩ := hr htr ((c₁.past span behind).atLevel c.deeper.level)
    rest hbehind (by simp only [Cursor.level_atLevel, Cursor.level_deeper]; omega) hends
  -- The target is an identifier in the meaning, so it is one in the tree.
  rw [← hmeaning, isIdentifier_bare] at hidentifier
  refine ⟨c₂.atLevel c.level, hc₂, rfl, assignment sign left.location left.span e, ?_, ?_⟩
  · refine .of_production (.assign (by omega) hleft htokens hsign ?_ he)
    exact target_eq_ok_iff.2 ⟨hidentifier, rfl⟩
  · rw [bare_assignment, Derivation.meaning, hmeaning', ← hmeaning, location_bare]

/-! ## Chains -/

/-- An operand may stand before what follows it in its chain. -/
theorem loose_chainRest {p : Precedence} (d : Derivation (.chainRest p)) {rest : List Token}
    (h : Loose p.grip rest) : Loose (p.grip + 1) (d.yield ++ rest) := by
  cases d with
  | chainEnd => exact h.mono (Nat.le_succ _)
  | chainMore hp right others =>
    refine loose_cons (Nat.lt_succ_of_le (Nat.le_of_eq ?_))
    exact grip_of_operator? (operator?_eq_some_iff.2 ⟨hp, rfl⟩)

theorem complete_chain {p : Precedence} {first : Derivation (.operand p)}
    {others : Derivation (.chainRest p)} (hf : Complete limit first)
    (ho : Complete limit others) : Complete limit (.chain first others) := by
  intro ⟨htf, hto⟩ c rest hahead hlevels hends
  change max first.levels others.levels ≤ limit - c.level at hlevels
  rw [Derivation.yield, List.append_assoc] at hahead
  obtain ⟨c₁, hc₁, hsame, e, he, hmeaning⟩ := hf htf c _ hahead (by omega)
    (loose_chainRest others hends)
  obtain ⟨c₂, hc₂, haccepts⟩ := ho hto c₁ rest hc₁ (by rw [hsame]; omega) hends
  obtain ⟨all, hall, hmeaning'⟩ := haccepts e
  refine ⟨c₂.atLevel c.level, hc₂, rfl, all, .of_production (.chain he hall), ?_⟩
  rw [hmeaning', hmeaning, Derivation.meaning]

theorem complete_chainEnd {p : Precedence} :
    Complete limit (.chainEnd : Derivation (.chainRest p)) := by
  intro _ c rest hahead _ hends
  refine ⟨c, hahead, fun left => ⟨left, ?_, rfl⟩⟩
  refine .of_production (.chainEnd ?_)
  have hloose : Loose p.grip c.ahead := by
    rw [hahead]
    exact hends
  exact hloose.eq_none fun s op hop => Nat.le_of_eq (grip_of_operator? hop).symm

theorem complete_chainMore {p : Precedence} {op : BinaryOp} (hp : Precedence.ofOp op = p)
    {right : Derivation (.operand p)} {others : Derivation (.chainRest p)}
    (hr : Complete limit right) (ho : Complete limit others) :
    Complete limit (.chainMore hp right others) := by
  intro ⟨htr, hto⟩ c rest hahead hlevels hends
  change max right.levels others.levels + 1 ≤ limit - c.level at hlevels
  rw [Derivation.yield, List.cons_append, List.append_assoc] at hahead
  obtain ⟨span, behind, htokens, hbehind⟩ := Cursor.exists_tokens_of_ahead hahead
  obtain ⟨c₁, hc₁, hsame, e, he, hmeaning⟩ := hr htr (c.past span behind).deeper _ hbehind
    (by simp only [Cursor.level_deeper, Cursor.level_past]; omega) (loose_chainRest others hends)
  obtain ⟨c₂, hc₂, haccepts⟩ := ho hto c₁ rest hc₁
    (by rw [hsame]; simp only [Cursor.level_deeper, Cursor.level_past]; omega) hends
  -- The chain so far is the left operand of what follows: chains lean left.
  refine ⟨c₂, hc₂, fun left => ?_⟩
  obtain ⟨all, hall, hmeaning'⟩ := haccepts (operation op left e)
  have hop := operator?_eq_some_iff.2 ⟨hp, rfl⟩
  refine ⟨all, .of_production (.chainMore htokens hop (by omega) he hall), ?_⟩
  rw [hmeaning', bare_operation, hmeaning, Derivation.meaning]

theorem complete_tighter {p q : Precedence} (hq : p.Over q) {inner : Derivation (.chain q)}
    (h : Complete limit inner) : Complete limit (.tighter hq inner) := by
  intro ht c rest hahead hlevels hends
  have hgrip : p.grip + 1 = q.grip := by cases hq <;> rfl
  obtain ⟨c₁, hc₁, hsame, e, he, hmeaning⟩ := h ht c rest hahead hlevels
    (by rw [Nonterminal.EndsBefore, ← hgrip]; exact hends)
  exact ⟨c₁, hc₁, hsame, e, .of_production (.tighter (tighter?_eq_some_iff.2 hq) he), hmeaning⟩

theorem complete_operand {inner : Derivation .unary} (h : Complete limit inner) :
    Complete limit (.operand inner) := by
  intro ht c rest hahead hlevels hends
  obtain ⟨c₁, hc₁, hsame, e, he, hmeaning⟩ := h ht c rest hahead hlevels hends
  exact ⟨c₁, hc₁, hsame, e, .of_production (.operand rfl he), hmeaning⟩

/-! ## Operands -/

theorem complete_minus {inner : Derivation .unary} (h : Complete limit inner) :
    Complete limit (.minus inner) := by
  intro ht c rest hahead hlevels hends
  change inner.levels + 1 ≤ limit - c.level at hlevels
  rw [Derivation.yield, List.cons_append] at hahead
  obtain ⟨span, behind, htokens, hbehind⟩ := Cursor.exists_tokens_of_ahead hahead
  obtain ⟨c₁, hc₁, -, e, he, hmeaning⟩ := h ht (c.past span behind).deeper rest hbehind
    (by simp only [Cursor.level_deeper, Cursor.level_past]; omega) hends
  refine ⟨c₁.atLevel c.level, hc₁, rfl, negation span e, ?_, ?_⟩
  · exact .of_production (.minus htokens (by omega) he)
  · rw [bare_negation, hmeaning, Derivation.meaning]

theorem complete_step {op : BinaryOp} {s : Symbol} (hs : stepSign? op = some s)
    {inner : Derivation .suffixed} (h : Complete limit inner) :
    Complete limit (.step hs inner) := by
  intro ⟨hidentifier, ht⟩ c rest hahead hlevels hends
  rw [Derivation.yield, List.cons_append] at hahead
  obtain ⟨span, behind, htokens, hbehind⟩ := Cursor.exists_tokens_of_ahead hahead
  -- Other than a minus, the sign of a step takes no level.
  obtain ⟨c₁, hc₁, hsame, e, he, hmeaning⟩ := h ht (c.past span behind) rest hbehind hlevels hends
  rw [← hmeaning, isIdentifier_bare] at hidentifier
  refine ⟨c₁, hc₁, hsame, step op e.location (span.merge e.span) false, ?_, ?_⟩
  · refine .of_production (.step htokens (stepOp?_eq_some_iff.2 hs) he ?_)
    exact target_eq_ok_iff.2 ⟨hidentifier, rfl⟩
  · rw [bare_step, Derivation.meaning, ← hmeaning, location_bare]

theorem complete_unsigned {inner : Derivation .suffixed} (h : Complete limit inner) :
    Complete limit (.unsigned inner) := by
  intro ht c rest hahead hlevels hends
  obtain ⟨c₁, hc₁, hsame, e, he, hmeaning⟩ := h ht c rest hahead hlevels hends
  refine ⟨c₁, hc₁, hsame, e, .of_production (.unsigned (fun s hs => ?_) he), hmeaning⟩
  -- The first token of an operand without a sign is no sign.
  obtain ⟨t, ts, hyield, hstart⟩ := inner.exists_start rfl
  change c.ahead = inner.yield ++ rest at hahead
  rw [Cursor.peek?_eq_head?, hahead, hyield] at hs
  cases hs
  refine ⟨?_, ?_⟩
  · rintro rfl
    exact absurd hstart (by decide)
  · cases hop : stepOp? s with
    | none => rfl
    | some op =>
      rw [start_of_stepSign? (stepOp?_eq_some_iff.1 hop)] at hstart
      exact absurd hstart (by decide)

theorem complete_address {name : String} {others : Derivation .segments}
    (h : Complete limit others) : Complete limit (.address name others) := by
  intro ht c rest hahead hlevels hends
  rw [Derivation.yield, List.cons_append] at hahead
  obtain ⟨span, behind, htokens, hbehind⟩ := Cursor.exists_tokens_of_ahead hahead
  -- Segments end before what a suffixed operand ends before, and before a step.
  obtain ⟨c₁, hc₁, haccepts⟩ := h ht (c.past span behind) rest hbehind hlevels
    (Loose.mono hends (by decide))
  obtain ⟨keys, hkeys, hmeaning⟩ := haccepts span [.string span name]
  refine ⟨c₁.atLevel c.level, hc₁, rfl, .read (span.merge c₁.last) keys, ?_, ?_⟩
  · refine .of_production (.address htokens hkeys ?_)
    rw [← hc₁] at hends
    exact Loose.eq_none hends fun s op hop => Nat.le_of_eq (grip_of_stepOp? hop).symm
  · rw [bare, hmeaning]
    rfl

theorem complete_addressStep {op : BinaryOp} {s : Symbol} (hs : stepSign? op = some s)
    {name : String} {others : Derivation .segments} (h : Complete limit others) :
    Complete limit (.addressStep hs name others) := by
  intro ht c rest hahead hlevels hends
  rw [Derivation.yield, List.cons_append, List.append_assoc] at hahead
  obtain ⟨span, behind, htokens, hbehind⟩ := Cursor.exists_tokens_of_ahead hahead
  have hop := stepOp?_eq_some_iff.2 hs
  have hgrip := grip_of_stepOp? hop
  obtain ⟨c₁, hc₁, haccepts⟩ := h ht (c.past span behind) _ hbehind hlevels
    (loose_cons (by rw [hgrip]; decide))
  obtain ⟨keys, hkeys, hmeaning⟩ := haccepts span [.string span name]
  obtain ⟨signSpan, after, hsign, hafter⟩ := Cursor.exists_tokens_of_ahead hc₁
  refine ⟨(c₁.atLevel c.level).past signSpan after, hafter, rfl,
    step op keys ((span.merge c₁.last).merge signSpan) true, ?_, ?_⟩
  · exact .of_production (.addressStep htokens hkeys hsign hop)
  · rw [bare_step, hmeaning]
    rfl

theorem complete_primary {inner : Derivation .primary} (h : Complete limit inner) :
    Complete limit (.primary inner) := by
  intro ht c rest hahead hlevels _
  obtain ⟨c₁, hc₁, hsame, e, he, hmeaning⟩ := h ht c rest hahead hlevels trivial
  refine ⟨c₁, hc₁, hsame, e, .of_production (.primary (fun s hs => ?_) he), hmeaning⟩
  obtain ⟨t, ts, hyield, hstart⟩ := inner.exists_start rfl
  change c.ahead = inner.yield ++ rest at hahead
  rw [Cursor.peek?_eq_head?, hahead, hyield] at hs
  cases hs
  -- A name would have `start` 2, but a primary expression begins with 1.
  exact absurd hstart (Nat.not_succ_le_self 1)

/-! ## Addresses -/

theorem complete_segmentsEnd : Complete limit .segmentsEnd := by
  intro _ c rest hahead _ hends
  refine ⟨c, hahead, fun origin keys => ⟨keys, ?_, rfl⟩⟩
  refine .of_production (.segmentsEnd fun s hs => ?_)
  change c.ahead = rest at hahead
  rw [Cursor.peek?_eq_head?, hahead] at hs
  have hgrip := hends _ hs
  refine ⟨?_, ?_, ?_⟩
  · rintro rfl
    exact absurd hgrip (by decide)
  · rintro rfl
    exact absurd hgrip (by decide)
  · rintro rfl
    exact absurd hgrip (by decide)

theorem complete_property {name : String} {others : Derivation .segments}
    (h : Complete limit others) : Complete limit (.property name others) := by
  intro ht c rest hahead hlevels hends
  rw [Derivation.yield, List.cons_append, List.cons_append] at hahead
  obtain ⟨dot, behind, htokens, hbehind⟩ := Cursor.exists_tokens_of_ahead hahead
  obtain ⟨span, after, hname, hafter⟩ := Cursor.exists_tokens_of_ahead hbehind
  rw [Cursor.tokens_past] at hname
  subst hname
  obtain ⟨c₁, hc₁, haccepts⟩ := h ht (c.past span after) rest hafter hlevels hends
  refine ⟨c₁, hc₁, fun origin keys => ?_⟩
  obtain ⟨all, hall, hmeaning⟩ := haccepts origin (keys ++ [.string span name])
  refine ⟨all, .of_production (.property htokens hall), ?_⟩
  rw [hmeaning, bareAll_append]
  rfl

theorem complete_index {key : Derivation .expression} {others : Derivation .segments}
    (hk : Complete limit key) (ho : Complete limit others) :
    Complete limit (.index key others) := by
  intro ⟨htk, hto⟩ c rest hahead hlevels hends
  change max key.levels others.levels ≤ limit - c.level at hlevels
  rw [Derivation.yield, List.cons_append, List.append_assoc] at hahead
  obtain ⟨span, behind, htokens, hbehind⟩ := Cursor.exists_tokens_of_ahead hahead
  obtain ⟨c₁, hc₁, hsame, e, he, hmeaning⟩ := hk htk (c.past span behind) _ hbehind
    (by simp only [Cursor.level_past]; omega) (loose_cons (by decide))
  obtain ⟨close, after, hclose, hafter⟩ := Cursor.exists_tokens_of_ahead hc₁
  obtain ⟨c₂, hc₂, haccepts⟩ := ho hto (c₁.past close after) rest hafter
    (by simp only [Cursor.level_past] at *; omega) hends
  refine ⟨c₂, hc₂, fun origin keys => ?_⟩
  obtain ⟨all, hall, hmeaning'⟩ := haccepts origin (keys ++ [e])
  refine ⟨all, .of_production (.index htokens he hclose hall), ?_⟩
  rw [hmeaning', bareAll_append, bareAll, bareAll, hmeaning]
  rfl

theorem complete_call {arguments : Derivation .items} {others : Derivation .segments}
    (ha : Complete limit arguments) (ho : Complete limit others) :
    Complete limit (.call arguments others) := by
  intro ⟨hta, hto⟩ c rest hahead hlevels hends
  change max arguments.levels others.levels + 1 ≤ limit - c.level at hlevels
  rw [Derivation.yield, List.cons_append, List.append_assoc] at hahead
  obtain ⟨span, behind, htokens, hbehind⟩ := Cursor.exists_tokens_of_ahead hahead
  obtain ⟨c₁, hc₁, hsame, hitems⟩ := ha hta (c.past span behind).deeper _ hbehind
    (by simp only [Cursor.level_deeper, Cursor.level_past]; omega) (.inl rfl)
  obtain ⟨es, hes, hmeaning⟩ := hitems .rightParen (.inl rfl) (by
    rw [Cursor.peek?_eq_head?, hc₁]
    rfl)
  obtain ⟨close, after, hclose, hafter⟩ := Cursor.exists_tokens_of_ahead hc₁
  obtain ⟨c₂, hc₂, haccepts⟩ := ho hto (c₁.past close after) rest hafter
    (by simp only [Cursor.level_deeper, Cursor.level_past] at *; omega) hends
  refine ⟨c₂, hc₂, fun origin keys => ?_⟩
  -- The call takes the keys so far, and is the only key of what follows.
  obtain ⟨all, hall, hmeaning'⟩ := haccepts origin [.call (origin.merge close) keys es]
  refine ⟨all, .of_production (.call htokens (by omega) hes hclose hall), ?_⟩
  rw [hmeaning', bareAll, bareAll, bare, hmeaning]
  rfl

/-! ## Primary expressions -/

theorem complete_int (n : Int32) : Complete limit (.int n) := by
  intro _ c rest hahead _ _
  obtain ⟨span, behind, htokens, hbehind⟩ := Cursor.exists_tokens_of_ahead hahead
  exact ⟨_, hbehind, rfl, .int span n, .of_production (.int htokens), rfl⟩

theorem complete_double (d : Double) : Complete limit (.double d) := by
  intro _ c rest hahead _ _
  obtain ⟨span, behind, htokens, hbehind⟩ := Cursor.exists_tokens_of_ahead hahead
  exact ⟨_, hbehind, rfl, .double span d, .of_production (.double htokens), rfl⟩

theorem complete_string (s : String) : Complete limit (.string s) := by
  intro _ c rest hahead _ _
  obtain ⟨span, behind, htokens, hbehind⟩ := Cursor.exists_tokens_of_ahead hahead
  exact ⟨_, hbehind, rfl, .string span s, .of_production (.string htokens), rfl⟩

theorem complete_parens {e : Derivation .expression} (h : Complete limit e) :
    Complete limit (.parens e) := by
  intro ht c rest hahead hlevels _
  rw [Derivation.yield, List.cons_append, List.append_assoc] at hahead
  obtain ⟨span, behind, htokens, hbehind⟩ := Cursor.exists_tokens_of_ahead hahead
  obtain ⟨c₁, hc₁, hsame, inner, hinner, hmeaning⟩ := h ht (c.past span behind) _ hbehind hlevels
    (loose_cons (by decide))
  obtain ⟨close, after, hclose, hafter⟩ := Cursor.exists_tokens_of_ahead hc₁
  refine ⟨c₁.past close after, hafter, hsame, inner.withSpan (span.merge close), ?_, ?_⟩
  · exact .of_production (.parens htokens hinner hclose)
  · rw [bare_withSpan]
    exact hmeaning

theorem complete_list {elements : Derivation .items} (h : Complete limit elements) :
    Complete limit (.list elements) := by
  intro ht c rest hahead hlevels _
  rw [Derivation.yield, List.cons_append, List.append_assoc] at hahead
  obtain ⟨span, behind, htokens, hbehind⟩ := Cursor.exists_tokens_of_ahead hahead
  obtain ⟨c₁, hc₁, hsame, hitems⟩ := h ht (c.past span behind) _ hbehind hlevels (.inr rfl)
  -- The items are those of a list, since its bracket stands behind them.
  obtain ⟨es, hes, hmeaning⟩ := hitems .rightBracket (.inr rfl) (by
    rw [Cursor.peek?_eq_head?, hc₁]
    rfl)
  obtain ⟨close, after, hclose, hafter⟩ := Cursor.exists_tokens_of_ahead hc₁
  refine ⟨c₁.past close after, hafter, hsame, .list (span.merge close) es, ?_, ?_⟩
  · exact .of_production (.list htokens hes hclose)
  · rw [bare, hmeaning, Derivation.meaning]

theorem complete_object {members : Derivation .entries} (h : Complete limit members) :
    Complete limit (.object members) := by
  intro ht c rest hahead hlevels _
  rw [Derivation.yield, List.cons_append, List.append_assoc] at hahead
  obtain ⟨span, behind, htokens, hbehind⟩ := Cursor.exists_tokens_of_ahead hahead
  obtain ⟨c₁, hc₁, hsame, ps, hps, hmeaning⟩ := h ht (c.past span behind) _ hbehind hlevels rfl
  obtain ⟨close, after, hclose, hafter⟩ := Cursor.exists_tokens_of_ahead hc₁
  refine ⟨c₁.past close after, hafter, hsame, .object (span.merge close) ps, ?_, ?_⟩
  · exact .of_production (.object htokens hps hclose)
  · rw [bare, hmeaning, Derivation.meaning]

/-! ## Lists between brackets -/

/-- An expression is ahead only where no token stands next that begins none. -/
theorem peek?_ne_of_start {e : Derivation .expression} {c : Cursor} {rest : List Token} {t : Token}
    (h : c.ahead = e.yield ++ rest) (ht : start t = 4) : c.peek? ≠ some t := by
  obtain ⟨u, ts, hyield, hstart⟩ := e.exists_start rfl
  rw [Cursor.peek?_eq_head?, h, hyield]
  intro hu
  cases hu
  omega

theorem loose_of_head? {n : Nat} {t : Token} {ts : List Token} (h : ts.head? = some t)
    (ht : Grammar.grip t < n) : Loose n ts := by
  intro u hu
  cases h.symm.trans hu
  exact ht

theorem complete_itemsNone : Complete limit .itemsNone := by
  intro _ c rest hahead _ _
  exact ⟨c, hahead, rfl, fun close _ hpeek =>
    ⟨[], .of_production (.itemsNone hpeek), rfl⟩⟩

theorem complete_itemsOne {e : Derivation .expression} (h : Complete limit e) :
    Complete limit (.itemsOne e) := by
  intro ht c rest hahead hlevels hends
  have hloose : Loose 1 rest := by
    rcases hends with hend | hend
    · exact loose_of_head? hend (by decide)
    · exact loose_of_head? hend (by decide)
  obtain ⟨c₁, hc₁, hsame, first, hfirst, hmeaning⟩ := h ht c rest hahead hlevels hloose
  refine ⟨c₁, hc₁, hsame, fun close hclose hpeek => ⟨[first], ?_, ?_⟩⟩
  · refine .of_production (.itemsOne ?_ hfirst ?_)
    · refine peek?_ne_of_start hahead ?_
      rcases hclose with rfl | rfl <;> rfl
    · rw [hpeek]
      rcases hclose with rfl | rfl <;> decide
  · rw [bareAll, bareAll, hmeaning, Derivation.meaning]

theorem complete_itemsMore {e : Derivation .expression} {others : Derivation .items}
    (he : Complete limit e) (ho : Complete limit others) :
    Complete limit (.itemsMore e others) := by
  intro ⟨hte, hto⟩ c rest hahead hlevels hends
  change max e.levels others.levels ≤ limit - c.level at hlevels
  rw [Derivation.yield, List.append_assoc] at hahead
  obtain ⟨c₁, hc₁, hsame, first, hfirst, hmeaning⟩ := he hte c _ hahead (by omega)
    (loose_cons (by decide))
  obtain ⟨span, behind, htokens, hbehind⟩ := Cursor.exists_tokens_of_ahead hc₁
  obtain ⟨c₂, hc₂, hsame', hitems⟩ := ho hto (c₁.past span behind) rest hbehind
    (by rw [Cursor.level_past, hsame]; omega) hends
  refine ⟨c₂, hc₂, hsame'.trans hsame, fun close hclose hpeek => ?_⟩
  obtain ⟨es, hes, hmeaning'⟩ := hitems close hclose hpeek
  refine ⟨first :: es, ?_, ?_⟩
  · refine .of_production (.itemsMore ?_ hfirst htokens hes)
    refine peek?_ne_of_start hahead ?_
    rcases hclose with rfl | rfl <;> rfl
  · rw [bareAll, hmeaning, hmeaning', Derivation.meaning]

theorem complete_entriesNone : Complete limit .entriesNone := by
  intro _ c rest hahead _ hends
  refine ⟨c, hahead, rfl, [], .of_production (.entriesNone ?_), rfl⟩
  rw [Cursor.peek?_eq_head?, hahead]
  exact hends

theorem complete_entriesOne {key value : Derivation .expression} (hk : Complete limit key)
    (hv : Complete limit value) : Complete limit (.entriesOne key value) := by
  intro ⟨htk, htv⟩ c rest hahead hlevels hends
  change max key.levels value.levels ≤ limit - c.level at hlevels
  rw [Derivation.yield, List.append_assoc] at hahead
  obtain ⟨c₁, hc₁, hsame, k, hkey, hmeaning⟩ := hk htk c _ hahead (by omega)
    (loose_cons (by decide))
  obtain ⟨colon, behind, hcolon, hbehind⟩ := Cursor.exists_tokens_of_ahead hc₁
  obtain ⟨c₂, hc₂, hsame', v, hvalue, hmeaning'⟩ := hv htv (c₁.past colon behind) rest hbehind
    (by rw [Cursor.level_past, hsame]; omega) (loose_of_head? hends (by decide))
  refine ⟨c₂, hc₂, hsame'.trans hsame, [(k, v)], ?_, ?_⟩
  · have hopen : c.peek? ≠ some (.symbol .rightBrace) := peek?_ne_of_start hahead rfl
    -- With a comma behind it the entry would not be the last one.
    refine .of_production (.entriesOne hopen hkey hcolon hvalue ?_)
    change rest.head? = some (.symbol .rightBrace) at hends
    rw [Cursor.peek?_eq_head?, hc₂, hends]
    decide
  · rw [bareEntries, bareEntries, hmeaning, hmeaning', Derivation.meaning]

theorem complete_entriesMore {key value : Derivation .expression} {others : Derivation .entries}
    (hk : Complete limit key) (hv : Complete limit value) (ho : Complete limit others) :
    Complete limit (.entriesMore key value others) := by
  intro ⟨htk, htv, hto⟩ c rest hahead hlevels hends
  change max (max key.levels value.levels) others.levels ≤ limit - c.level at hlevels
  rw [Derivation.yield, List.append_assoc, List.cons_append, List.append_assoc] at hahead
  obtain ⟨c₁, hc₁, hsame, k, hkey, hmeaning⟩ := hk htk c _ hahead (by omega)
    (loose_cons (by decide))
  obtain ⟨colon, behind, hcolon, hbehind⟩ := Cursor.exists_tokens_of_ahead hc₁
  obtain ⟨c₂, hc₂, hsame', v, hvalue, hmeaning'⟩ := hv htv (c₁.past colon behind) _ hbehind
    (by rw [Cursor.level_past, hsame]; omega) (loose_cons (by decide))
  have hlevel : c₂.level = c.level := hsame'.trans hsame
  obtain ⟨span, after, htokens, hafter⟩ := Cursor.exists_tokens_of_ahead hc₂
  obtain ⟨c₃, hc₃, hkept, ps, hps, hmeaning''⟩ := ho hto (c₂.past span after) rest hafter
    (by rw [Cursor.level_past, hlevel]; omega) hends
  refine ⟨c₃, hc₃, hkept.trans hlevel, (k, v) :: ps, ?_, ?_⟩
  · have hopen : c.peek? ≠ some (.symbol .rightBrace) := peek?_ne_of_start hahead rfl
    exact .of_production (.entriesMore hopen hkey hcolon hvalue htokens hps)
  · rw [bareEntries, hmeaning, hmeaning', hmeaning'', Derivation.meaning]

/-! ## Statements -/

/-- The end of a statement is the end of an expression. -/
theorem loose_of_statementEnd {ts : List Token}
    (h : ts.head? = none ∨ ts.head? = some (.symbol .semicolon)) : Loose 1 ts := by
  rcases h with h | h
  · intro t ht
    rw [h] at ht
    cases ht
  · exact loose_of_head? h (by decide)

theorem complete_printedEnd : Complete limit .printedEnd := by
  intro _ c rest hahead _ hends
  refine ⟨c, hahead, rfl, [], .of_production (.printedEnd ?_), rfl⟩
  change c.ahead = rest at hahead
  rw [Cursor.peek?_eq_head?, hahead]
  rcases hends with hend | hend
  · rw [hend]
    decide
  · rw [hend]
    decide

/-- An argument may stand before what follows it. -/
theorem loose_printedRest (d : Derivation .printedRest) {rest : List Token}
    (h : rest.head? = none ∨ rest.head? = some (.symbol .semicolon)) :
    Loose 1 (d.yield ++ rest) := by
  cases d with
  | printedEnd => exact loose_of_statementEnd h
  | printedMore next others => exact loose_cons (by decide)

theorem complete_printedMore {e : Derivation .expression} {others : Derivation .printedRest}
    (he : Complete limit e) (ho : Complete limit others) :
    Complete limit (.printedMore e others) := by
  intro ⟨hte, hto⟩ c rest hahead hlevels hends
  change max e.levels others.levels ≤ limit - c.level at hlevels
  rw [Derivation.yield, List.cons_append, List.append_assoc] at hahead
  obtain ⟨span, behind, htokens, hbehind⟩ := Cursor.exists_tokens_of_ahead hahead
  obtain ⟨c₁, hc₁, hsame, first, hfirst, hmeaning⟩ := he hte (c.past span behind) _ hbehind
    (by rw [Cursor.level_past]; omega) (loose_printedRest others hends)
  obtain ⟨c₂, hc₂, hsame', es, hes, hmeaning'⟩ := ho hto c₁ rest hc₁
    (by rw [hsame, Cursor.level_past]; omega) hends
  refine ⟨c₂, hc₂, hsame'.trans hsame, first :: es, ?_, ?_⟩
  · exact .of_production (.printedMore htokens hfirst hes)
  · rw [bareAll, hmeaning, hmeaning', Derivation.meaning]

theorem complete_printedNone : Complete limit .printedNone := by
  intro _ c rest hahead _ hends
  refine ⟨c, hahead, rfl, [], .of_production (.printedNone ?_), rfl⟩
  change c.ahead = rest at hahead
  rw [Cursor.atStatementEnd_iff, Cursor.peek?_eq_head?, hahead]
  exact hends

theorem complete_printedSome {e : Derivation .expression} {others : Derivation .printedRest}
    (he : Complete limit e) (ho : Complete limit others) :
    Complete limit (.printedSome e others) := by
  intro ⟨hte, hto⟩ c rest hahead hlevels hends
  change max e.levels others.levels ≤ limit - c.level at hlevels
  rw [Derivation.yield, List.append_assoc] at hahead
  obtain ⟨c₁, hc₁, hsame, first, hfirst, hmeaning⟩ := he hte c _ hahead (by omega)
    (loose_printedRest others hends)
  obtain ⟨c₂, hc₂, hsame', es, hes, hmeaning'⟩ := ho hto c₁ rest hc₁
    (by rw [hsame]; omega) hends
  refine ⟨c₂, hc₂, hsame'.trans hsame, first :: es, ?_, ?_⟩
  · refine .of_production (.printedSome ?_ hfirst hes)
    -- There is an argument ahead, which is neither nothing nor a semicolon.
    cases hend : c.atStatementEnd with
    | false => rfl
    | true =>
      rcases Cursor.atStatementEnd_iff.1 hend with hnone | hsign
      · obtain ⟨t, ts, hyield, -⟩ := e.exists_start rfl
        rw [Cursor.peek?_eq_head?, hahead, hyield] at hnone
        cases hnone
      · exact absurd hsign (peek?_ne_of_start hahead rfl)
  · rw [bareAll, hmeaning, hmeaning', Derivation.meaning]

theorem complete_print {arguments : Derivation .printed} (h : Complete limit arguments) :
    Complete limit (.print arguments) := by
  intro ht c rest hahead hlevels hends
  rw [Derivation.yield, List.cons_append] at hahead
  obtain ⟨span, behind, htokens, hbehind⟩ := Cursor.exists_tokens_of_ahead hahead
  obtain ⟨c₁, hc₁, hsame, es, hes, hmeaning⟩ := h ht (c.past span behind) rest hbehind hlevels hends
  refine ⟨c₁, hc₁, hsame, printing span (span.merge c₁.last) es, ?_, ?_⟩
  · refine .of_production (.print htokens hes ?_)
    rw [Cursor.atStatementEnd_iff, Cursor.peek?_eq_head?, hc₁]
    exact hends
  · rw [bare_printing, hmeaning, Derivation.meaning]

theorem complete_statement {e : Derivation .expression} (h : Complete limit e) :
    Complete limit (.statement e) := by
  intro ht c rest hahead hlevels hends
  obtain ⟨c₁, hc₁, hsame, first, hfirst, hmeaning⟩ := h ht c rest hahead hlevels
    (loose_of_statementEnd hends)
  refine ⟨c₁, hc₁, hsame, first, .of_production (.statement (fun word => ?_) ?_ hfirst), hmeaning⟩
  · exact peek?_ne_of_start hahead rfl
  · exact peek?_ne_of_start hahead rfl

/-! ## Derivations -/

/-- The parser is complete for every derivation. -/
theorem complete {n : Nonterminal} (d : Derivation n) : Complete limit d := by
  induction d with
  | print _ ih => exact complete_print ih
  | statement _ ih => exact complete_statement ih
  | printedNone => exact complete_printedNone
  | printedSome _ _ he ho => exact complete_printedSome he ho
  | printedEnd => exact complete_printedEnd
  | printedMore _ _ he ho => exact complete_printedMore he ho
  | value _ ih => exact complete_value ih
  | assign hs _ _ hl hr => exact complete_assign hs hl hr
  | chain _ _ hf ho => exact complete_chain hf ho
  | chainEnd => exact complete_chainEnd
  | chainMore hp _ _ hr ho => exact complete_chainMore hp hr ho
  | tighter hq _ ih => exact complete_tighter hq ih
  | operand _ ih => exact complete_operand ih
  | minus _ ih => exact complete_minus ih
  | step hs _ ih => exact complete_step hs ih
  | unsigned _ ih => exact complete_unsigned ih
  | address _ _ ih => exact complete_address ih
  | addressStep hs _ _ ih => exact complete_addressStep hs ih
  | primary _ ih => exact complete_primary ih
  | segmentsEnd => exact complete_segmentsEnd
  | property _ _ ih => exact complete_property ih
  | index _ _ hk ho => exact complete_index hk ho
  | call _ _ ha ho => exact complete_call ha ho
  | int n => exact complete_int n
  | double d => exact complete_double d
  | string s => exact complete_string s
  | parens _ ih => exact complete_parens ih
  | list _ ih => exact complete_list ih
  | object _ ih => exact complete_object ih
  | itemsNone => exact complete_itemsNone
  | itemsOne _ ih => exact complete_itemsOne ih
  | itemsMore _ _ he ho => exact complete_itemsMore he ho
  | entriesNone => exact complete_entriesNone
  | entriesOne _ _ hk hv => exact complete_entriesOne hk hv
  | entriesMore _ _ _ hk hv ho => exact complete_entriesMore hk hv ho

/-- No statement begins with a semicolon. -/
theorem peek?_ne_semicolon {d : Derivation .statement} {c : Cursor} {rest : List Token}
    (h : c.ahead = d.yield ++ rest) : c.peek? ≠ some (.symbol .semicolon) := by
  cases d with
  | print arguments =>
    rw [Cursor.peek?_eq_head?, h]
    intro hsign
    cases hsign
  | statement e => exact peek?_ne_of_start h rfl

/-- The tokens of a derivation of a statement are one statement. -/
theorem exists_ofLexemes {d : Derivation .statement} (size : Nat) {tokens : List Lexeme}
    (ht : d.TargetsIdentifiers) (hlevels : d.levels ≤ limit)
    (hyield : tokens.map (·.token) = d.yield) :
    ∃ e, Program.ofLexemes limit size tokens = .ok ⟨[e]⟩ ∧ e.bare = d.meaning := by
  have hahead : (Cursor.start size tokens).ahead = d.yield ++ [] := by
    rw [List.append_nil]
    exact hyield
  obtain ⟨c', hc', -, e, he, hmeaning⟩ := complete d ht _ [] hahead hlevels (.inl rfl)
  have hnil : c'.tokens = [] := List.map_eq_nil_iff.1 hc'
  have hend : Succeeds limit (.statements [e] c') [e] := .of_production (.programEnd hnil)
  have hall : Succeeds limit (.statements [] (.start size tokens)) [e] := by
    -- There are tokens, since reading the statement has used some.
    refine .of_production (.programStatement ?_ (peek?_ne_semicolon hahead) he hend)
    intro hempty
    have hlt := (parses_iff.2 he).lt
    rw [Cursor.remaining, Cursor.remaining, hempty] at hlt
    exact Nat.not_lt_zero _ hlt
  have hstatements : statementsFrom limit (.start size tokens) [] = .ok [e] := hall
  refine ⟨e, ?_, hmeaning⟩
  rw [Program.ofLexemes, hstatements]
  rfl

end Grammar
end ScopeScript
