/-
  ScopeScript.Proofs.Grammar.Transplant

  Parsing looks no further than it reads, but for one token, and a semicolon or
  the end of the tokens is always good to stop at. So what is parsed from the
  tokens before some tail is parsed from the same tokens elsewhere, in front of
  nothing or of a semicolon, and the trees are the same elsewhere. The induction is
  on the productions of what was parsed.
-/
import ScopeScript.Proofs.Expr.Relocation
import ScopeScript.Proofs.Grammar.Soundness

namespace ScopeScript
namespace Grammar

open ScopeScript.Expr

/-- Tokens before a tail are put in front of others, each at another place. -/
structure Transplant where
  place : Span → Span
  tail : List Lexeme
  behind : List Lexeme
  keepsMerges : Span.KeepsMerges place
  /-- A statement can end where the tokens do. -/
  ends : ∀ t ∈ behind.head?, t.token = .symbol .semicolon

namespace Transplant

variable {m : Transplant} {limit : Nat}

/-- One cursor is at the place of the other: the tokens up to the tail are those
    up to the others behind, and as many levels are open. -/
structure Mirrors (m : Transplant) (c d : Cursor) : Prop where
  tokens : ∃ used, c.tokens = used ++ m.tail ∧
    d.tokens = used.map (Lexeme.relocate m.place) ++ m.behind
  level : d.level = c.level

/-- The cursors are at one place, and behind one token. -/
structure Follows (m : Transplant) (c d : Cursor) : Prop extends m.Mirrors c d where
  last : d.last = m.place c.last

/-! ## Cursors -/

namespace Mirrors

variable {c d : Cursor} {t : Token} {span : Span} {rest : List Lexeme}

theorem deeper (h : m.Mirrors c d) : m.Mirrors c.deeper d.deeper :=
  ⟨h.tokens, congrArg (· + 1) h.level⟩

theorem atLevel (h : m.Mirrors c d) {j k : Nat} (hlevel : k = j) :
    m.Mirrors (c.atLevel j) (d.atLevel k) :=
  ⟨h.tokens, hlevel⟩

/-- A token before the tail is at its other place. -/
theorem next (h : m.Mirrors c d) (hc : c.tokens = ⟨t, span⟩ :: rest)
    (hkeep : m.tail.length ≤ rest.length) :
    ∃ more, d.tokens = ⟨t, m.place span⟩ :: more ∧
      m.Follows (c.past span rest) (d.past (m.place span) more) := by
  obtain ⟨used, hused, hd⟩ := h.tokens
  rw [hc] at hused
  cases used with
  | nil =>
    rw [List.nil_append] at hused
    rw [← hused, List.length_cons] at hkeep
    omega
  | cons u used =>
    obtain ⟨rfl, hrest⟩ := List.cons.inj hused
    exact ⟨_, hd, ⟨⟨used, hrest, rfl⟩, h.level⟩, rfl⟩

/-- Where the tokens before the tail are over a statement can end. -/
theorem peek?_cases (h : m.Mirrors c d) :
    d.peek? = c.peek? ∨ d.peek? = none ∨ d.peek? = some (.symbol .semicolon) := by
  obtain ⟨used, hc, hd⟩ := h.tokens
  cases used with
  | nil =>
    have hends := m.ends
    rw [Cursor.peek?, hd, List.map_nil, List.nil_append]
    cases hhead : m.behind.head? with
    | none => exact .inr (.inl rfl)
    | some t => exact .inr (.inr (congrArg some (hends t hhead)))
  | cons u used =>
    rw [Cursor.peek?, Cursor.peek?, hc, hd]
    exact .inl rfl

/-- What a semicolon is not, and the next symbol is not, it is not elsewhere. -/
theorem peek?_symbol (h : m.Mirrors c d) {P : Symbol → Prop} (hsemicolon : P .semicolon)
    (hc : ∀ s, c.peek? = some (.symbol s) → P s) : ∀ s, d.peek? = some (.symbol s) → P s := by
  intro s hs
  rcases h.peek?_cases with hsame | hnone | hend
  · exact hc s (hsame ▸ hs)
  · cases hnone.symm.trans hs
  · cases hend.symm.trans hs
    exact hsemicolon

theorem peek?_ne (h : m.Mirrors c d) (ht : t ≠ .symbol .semicolon) (hc : c.peek? ≠ some t) :
    d.peek? ≠ some t := by
  intro hd
  rcases h.peek?_cases with hsame | hnone | hend
  · exact hc (hsame ▸ hd)
  · cases hnone.symm.trans hd
  · exact ht (Option.some.inj (hd.symm.trans hend))

/-- Before the tail the next token is the same. -/
theorem peek?_eq (h : m.Mirrors c d) (hkeep : m.tail.length < c.remaining) :
    d.peek? = c.peek? := by
  obtain ⟨used, hc, hd⟩ := h.tokens
  cases used with
  | nil =>
    rw [Cursor.remaining, hc, List.nil_append] at hkeep
    exact absurd hkeep (Nat.lt_irrefl _)
  | cons u used =>
    rw [Cursor.peek?, Cursor.peek?, hc, hd]
    rfl

end Mirrors

namespace Follows

variable {c d : Cursor}

theorem deeper (h : m.Follows c d) : m.Follows c.deeper d.deeper :=
  ⟨h.toMirrors.deeper, h.last⟩

theorem atLevel (h : m.Follows c d) {j k : Nat} (hlevel : k = j) :
    m.Follows (c.atLevel j) (d.atLevel k) :=
  ⟨h.toMirrors.atLevel hlevel, h.last⟩

end Follows

/-! ## Calls elsewhere -/

/-- What the call gives it gives elsewhere too, if the tail is not read. Calls that may
    read nothing look at the token behind them, and lists between brackets end before
    the tail, since their closing symbol does. -/
def Replays (m : Transplant) (limit : Nat) : (k : Call) → k.Gives → Prop
  | .expression c, (e, c') => ∀ d, m.Mirrors c d → m.tail.length ≤ c'.remaining →
    ∃ d', Succeeds limit (.expression d) (e.relocate m.place, d') ∧ m.Follows c' d'
  | .chain p c, (e, c') => ∀ d, m.Mirrors c d → m.tail.length ≤ c'.remaining →
    ∃ d', Succeeds limit (.chain p d) (e.relocate m.place, d') ∧ m.Follows c' d'
  | .operand p c, (e, c') => ∀ d, m.Mirrors c d → m.tail.length ≤ c'.remaining →
    ∃ d', Succeeds limit (.operand p d) (e.relocate m.place, d') ∧ m.Follows c' d'
  | .chainRest p left c, (e, c') => ∀ d, m.Follows c d → m.tail.length ≤ c'.remaining →
    ∃ d', Succeeds limit (.chainRest p (left.relocate m.place) d) (e.relocate m.place, d') ∧
      m.Follows c' d'
  | .unary c, (e, c') => ∀ d, m.Mirrors c d → m.tail.length ≤ c'.remaining →
    ∃ d', Succeeds limit (.unary d) (e.relocate m.place, d') ∧ m.Follows c' d'
  | .suffixed c, (e, c') => ∀ d, m.Mirrors c d → m.tail.length ≤ c'.remaining →
    ∃ d', Succeeds limit (.suffixed d) (e.relocate m.place, d') ∧ m.Follows c' d'
  | .address start keys c, (all, c') => ∀ d, m.Follows c d → m.tail.length ≤ c'.remaining →
    ∃ d', Succeeds limit (.address (m.place start) (relocateAll m.place keys) d)
      (relocateAll m.place all, d') ∧ m.Follows c' d'
  | .primary c, (e, c') => ∀ d, m.Mirrors c d → m.tail.length ≤ c'.remaining →
    ∃ d', Succeeds limit (.primary d) (e.relocate m.place, d') ∧ m.Follows c' d'
  | .items close c, (es, c') => ∀ d, m.Follows c d → m.tail.length < c'.remaining →
    ∃ d', Succeeds limit (.items close d) (relocateAll m.place es, d') ∧ m.Follows c' d'
  | .entries c, (es, c') => ∀ d, m.Follows c d → m.tail.length < c'.remaining →
    ∃ d', Succeeds limit (.entries d) (relocateEntries m.place es, d') ∧ m.Follows c' d'
  | .printedAfterComma c, (es, c') => ∀ d, m.Follows c d → m.tail.length ≤ c'.remaining →
    ∃ d', Succeeds limit (.printedAfterComma d) (relocateAll m.place es, d') ∧ m.Follows c' d'
  | .printed c, (es, c') => ∀ d, m.Follows c d → m.tail.length ≤ c'.remaining →
    ∃ d', Succeeds limit (.printed d) (relocateAll m.place es, d') ∧ m.Follows c' d'
  | .statement c, (e, c') => ∀ d, m.Mirrors c d → m.tail.length ≤ c'.remaining →
    ∃ d', Succeeds limit (.statement d) (e.relocate m.place, d') ∧ m.Follows c' d'
  | .statements _ _, _ => True

/-- The calls in a production succeed, here and elsewhere. -/
abbrev ReplayedParts (m : Transplant) (limit : Nat) (k : Call) (g : k.Gives) : Prop :=
  Production limit (fun k g => Succeeds limit k g ∧ m.Replays limit k g) k g

section Calls

variable {p : Precedence} {c c' : Cursor} {e left : Expr} {es : List Expr}

/-! ## Expressions -/

theorem replays_expression (h : m.ReplayedParts limit (.expression c) (e, c')) :
    m.Replays limit (.expression c) (e, c') := by
  intro d hcd hkeep
  cases h with
  | value hlevel hleft hend =>
    rw [← hcd.level] at hlevel
    obtain ⟨d₁, hleft', hfollows⟩ := hleft.2 d.deeper hcd.deeper hkeep
    exact ⟨d₁.atLevel d.level,
      .of_production (.value hlevel hleft' (hfollows.peek?_symbol rfl hend)),
      hfollows.atLevel hcd.level⟩
  | @assign _ _ _ _ _ _ span _ _ _ hlevel hleft htokens hsign htarget hright =>
    rw [← hcd.level] at hlevel
    have hkeep₁ : m.tail.length ≤ _ := Nat.le_trans hkeep (Nat.le_of_lt hright.1.moves)
    obtain ⟨d₁, hleft', hfollows⟩ := hleft.2 d.deeper hcd.deeper
      (Nat.le_trans hkeep₁ (Nat.le_of_lt (Cursor.past_lt span htokens)))
    obtain ⟨more, htokens', hnext⟩ := hfollows.next htokens hkeep₁
    obtain ⟨d₂, hright', hfollows'⟩ := hright.2 _
      (hnext.toMirrors.atLevel (congrArg (· + 1) hcd.level)) hkeep
    refine ⟨d₂.atLevel d.level, ?_, hfollows'.atLevel hcd.level⟩
    rw [relocate_assignment m.keepsMerges, ← span_relocate m.place]
    exact .of_production (.assign hlevel hleft' htokens' hsign (target_relocate htarget) hright')

theorem replays_chain (h : m.ReplayedParts limit (.chain p c) (e, c')) :
    m.Replays limit (.chain p c) (e, c') := by
  intro d hcd hkeep
  cases h with
  | chain hfirst hrest =>
    obtain ⟨d₁, hfirst', hfollows⟩ := hfirst.2 d hcd (Nat.le_trans hkeep hrest.1.moves)
    obtain ⟨d₂, hrest', hfollows'⟩ := hrest.2 d₁ hfollows hkeep
    exact ⟨d₂.atLevel d.level, .of_production (.chain hfirst' hrest'),
      hfollows'.atLevel hcd.level⟩

theorem replays_operand (h : m.ReplayedParts limit (.operand p c) (e, c')) :
    m.Replays limit (.operand p c) (e, c') := by
  intro d hcd hkeep
  cases h with
  | tighter hp h =>
    obtain ⟨d', h', hfollows⟩ := h.2 d hcd hkeep
    exact ⟨d', .of_production (.tighter hp h'), hfollows⟩
  | operand hp h =>
    obtain ⟨d', h', hfollows⟩ := h.2 d hcd hkeep
    exact ⟨d', .of_production (.operand hp h'), hfollows⟩

theorem replays_chainRest (h : m.ReplayedParts limit (.chainRest p left c) (e, c')) :
    m.Replays limit (.chainRest p left c) (e, c') := by
  intro d hcd hkeep
  cases h with
  | chainMore htokens hop hlevel hright hrest =>
    have hkeep₁ : m.tail.length ≤ _ := Nat.le_trans hkeep hrest.1.moves
    obtain ⟨more, htokens', hnext⟩ := hcd.next htokens
      (Nat.le_trans hkeep₁ (Nat.le_of_lt hright.1.moves))
    obtain ⟨d₁, hright', hfollows⟩ := hright.2 _ hnext.toMirrors.deeper hkeep₁
    obtain ⟨d₂, hrest', hfollows'⟩ := hrest.2 d₁ hfollows hkeep
    rw [relocate_operation m.keepsMerges] at hrest'
    rw [← hcd.level] at hlevel
    exact ⟨d₂, .of_production (.chainMore htokens' hop hlevel hright' hrest'), hfollows'⟩
  | chainEnd hend =>
    exact ⟨d, .of_production (.chainEnd (hcd.peek?_symbol (by cases p <;> rfl) hend)), hcd⟩

theorem replays_unary (h : m.ReplayedParts limit (.unary c) (e, c')) :
    m.Replays limit (.unary c) (e, c') := by
  intro d hcd hkeep
  cases h with
  | minus htokens hlevel hinner =>
    obtain ⟨more, htokens', hnext⟩ := hcd.next htokens
      (Nat.le_trans hkeep (Nat.le_of_lt hinner.1.moves))
    obtain ⟨d₁, hinner', hfollows⟩ := hinner.2 _ hnext.toMirrors.deeper hkeep
    rw [← hcd.level] at hlevel
    refine ⟨d₁.atLevel d.level, ?_, hfollows.atLevel hcd.level⟩
    rw [relocate_negation m.keepsMerges]
    exact .of_production (.minus htokens' hlevel hinner')
  | step htokens hop hinner htarget =>
    obtain ⟨more, htokens', hnext⟩ := hcd.next htokens
      (Nat.le_trans hkeep (Nat.le_of_lt hinner.1.moves))
    obtain ⟨d₁, hinner', hfollows⟩ := hinner.2 _ hnext.toMirrors hkeep
    refine ⟨d₁, ?_, hfollows⟩
    rw [relocate_step, m.keepsMerges.map_merge, ← span_relocate m.place]
    exact .of_production (.step htokens' hop hinner' (target_relocate htarget))
  | unsigned hsign h =>
    obtain ⟨d₁, h', hfollows⟩ := h.2 d hcd hkeep
    exact ⟨d₁, .of_production (.unsigned (hcd.peek?_symbol ⟨by decide, rfl⟩ hsign) h'), hfollows⟩

theorem replays_suffixed (h : m.ReplayedParts limit (.suffixed c) (e, c')) :
    m.Replays limit (.suffixed c) (e, c') := by
  intro d hcd hkeep
  cases h with
  | address htokens hkeys hend =>
    obtain ⟨more, htokens', hnext⟩ := hcd.next htokens (Nat.le_trans hkeep hkeys.1.moves)
    obtain ⟨d₁, hkeys', hfollows⟩ := hkeys.2 _ hnext hkeep
    refine ⟨d₁.atLevel d.level, ?_, hfollows.atLevel hcd.level⟩
    rw [relocate, m.keepsMerges.map_merge, ← hfollows.last]
    exact .of_production (.address htokens' hkeys' (hfollows.peek?_symbol rfl hend))
  | addressStep htokens hkeys hsign hop =>
    have hkeep₁ : m.tail.length ≤ _ :=
      Nat.le_trans hkeep (Nat.le_of_lt (Cursor.past_lt _ hsign))
    obtain ⟨more, htokens', hnext⟩ := hcd.next htokens (Nat.le_trans hkeep₁ hkeys.1.moves)
    obtain ⟨d₁, hkeys', hfollows⟩ := hkeys.2 _ hnext hkeep₁
    obtain ⟨more', hsign', hnext'⟩ := (hfollows.atLevel hcd.level).next hsign hkeep
    refine ⟨_, ?_, hnext'⟩
    rw [relocate_step, m.keepsMerges.map_merge, m.keepsMerges.map_merge, ← hfollows.last]
    exact .of_production (.addressStep htokens' hkeys' hsign' hop)
  | primary hname h =>
    obtain ⟨d₁, h', hfollows⟩ := h.2 d hcd hkeep
    have hname' (s : String) : d.peek? ≠ some (.name s) := hcd.peek?_ne nofun (hname s)
    exact ⟨d₁, .of_production (.primary hname' h'), hfollows⟩

theorem replays_address {start : Span} {keys : List Expr}
    (h : m.ReplayedParts limit (.address start keys c) (es, c')) :
    m.Replays limit (.address start keys c) (es, c') := by
  intro d hcd hkeep
  cases h with
  | @property _ dot span _ _ _ _ s rest htokens hrest =>
    have hlength : m.tail.length ≤ rest.length := Nat.le_trans hkeep hrest.1.moves
    obtain ⟨more, htokens', hnext⟩ := hcd.next htokens (Nat.le_succ_of_le hlength)
    obtain ⟨more', hname, hnext'⟩ := hnext.next rfl hlength
    obtain ⟨d₁, hrest', hfollows⟩ := hrest.2 (d.past (m.place span) more')
      ⟨⟨hnext'.tokens, hcd.level⟩, rfl⟩ hkeep
    rw [relocateAll_append] at hrest'
    rw [Cursor.tokens_past] at hname
    rw [hname] at htokens'
    exact ⟨d₁, .of_production (.property htokens' hrest'), hfollows⟩
  | index htokens hindex hclose hrest =>
    have hkeep₂ : m.tail.length ≤ _ := Nat.le_trans hkeep hrest.1.moves
    have hkeep₁ : m.tail.length ≤ _ :=
      Nat.le_trans hkeep₂ (Nat.le_of_lt (Cursor.past_lt _ hclose))
    obtain ⟨more, htokens', hnext⟩ := hcd.next htokens
      (Nat.le_trans hkeep₁ (Nat.le_of_lt hindex.1.moves))
    obtain ⟨d₁, hindex', hfollows⟩ := hindex.2 _ hnext.toMirrors hkeep₁
    obtain ⟨more', hclose', hnext'⟩ := hfollows.next hclose hkeep₂
    obtain ⟨d₂, hrest', hfollows'⟩ := hrest.2 _ hnext' hkeep
    rw [relocateAll_append] at hrest'
    exact ⟨d₂, .of_production (.index htokens' hindex' hclose' hrest'), hfollows'⟩
  | call htokens hlevel harguments hclose hrest =>
    have hkeep₂ : m.tail.length ≤ _ := Nat.le_trans hkeep hrest.1.moves
    have hkeep₁ : m.tail.length < _ := Nat.lt_of_le_of_lt hkeep₂ (Cursor.past_lt _ hclose)
    obtain ⟨more, htokens', hnext⟩ := hcd.next htokens
      (Nat.le_trans (Nat.le_of_lt hkeep₁) harguments.1.moves)
    obtain ⟨d₁, harguments', hfollows⟩ := harguments.2 _ hnext.deeper hkeep₁
    obtain ⟨more', hclose', hnext'⟩ := hfollows.next hclose hkeep₂
    obtain ⟨d₂, hrest', hfollows'⟩ := hrest.2 _ hnext' hkeep
    rw [relocateAll, relocateAll, relocate, m.keepsMerges.map_merge] at hrest'
    rw [← hcd.level] at hlevel
    exact ⟨d₂, .of_production (.call htokens' hlevel harguments' hclose' hrest'), hfollows'⟩
  | segmentsEnd hend =>
    exact ⟨d, .of_production (.segmentsEnd (hcd.peek?_symbol (by decide) hend)), hcd⟩

theorem replays_primary (h : m.ReplayedParts limit (.primary c) (e, c')) :
    m.Replays limit (.primary c) (e, c') := by
  intro d hcd hkeep
  cases h with
  | int htokens =>
    obtain ⟨more, htokens', hnext⟩ := hcd.next htokens hkeep
    exact ⟨_, .of_production (.int htokens'), hnext⟩
  | double htokens =>
    obtain ⟨more, htokens', hnext⟩ := hcd.next htokens hkeep
    exact ⟨_, .of_production (.double htokens'), hnext⟩
  | string htokens =>
    obtain ⟨more, htokens', hnext⟩ := hcd.next htokens hkeep
    exact ⟨_, .of_production (.string htokens'), hnext⟩
  | parens htokens hinner hclose =>
    have hkeep₁ : m.tail.length ≤ _ := Nat.le_trans hkeep (Nat.le_of_lt (Cursor.past_lt _ hclose))
    obtain ⟨more, htokens', hnext⟩ := hcd.next htokens
      (Nat.le_trans hkeep₁ (Nat.le_of_lt hinner.1.moves))
    obtain ⟨d₁, hinner', hfollows⟩ := hinner.2 _ hnext.toMirrors hkeep₁
    obtain ⟨more', hclose', hnext'⟩ := hfollows.next hclose hkeep
    refine ⟨_, ?_, hnext'⟩
    rw [relocate_withSpan, m.keepsMerges.map_merge]
    exact .of_production (.parens htokens' hinner' hclose')
  | list htokens helements hclose =>
    have hkeep₁ : m.tail.length < _ := Nat.lt_of_le_of_lt hkeep (Cursor.past_lt _ hclose)
    obtain ⟨more, htokens', hnext⟩ := hcd.next htokens
      (Nat.le_trans (Nat.le_of_lt hkeep₁) helements.1.moves)
    obtain ⟨d₁, helements', hfollows⟩ := helements.2 _ hnext hkeep₁
    obtain ⟨more', hclose', hnext'⟩ := hfollows.next hclose hkeep
    refine ⟨_, ?_, hnext'⟩
    rw [relocate, m.keepsMerges.map_merge]
    exact .of_production (.list htokens' helements' hclose')
  | object htokens hmembers hclose =>
    have hkeep₁ : m.tail.length < _ := Nat.lt_of_le_of_lt hkeep (Cursor.past_lt _ hclose)
    obtain ⟨more, htokens', hnext⟩ := hcd.next htokens
      (Nat.le_trans (Nat.le_of_lt hkeep₁) hmembers.1.moves)
    obtain ⟨d₁, hmembers', hfollows⟩ := hmembers.2 _ hnext hkeep₁
    obtain ⟨more', hclose', hnext'⟩ := hfollows.next hclose hkeep
    refine ⟨_, ?_, hnext'⟩
    rw [relocate, m.keepsMerges.map_merge]
    exact .of_production (.object htokens' hmembers' hclose')

/-! ## Lists between brackets -/

/-- The closing symbol stands before the tail. -/
theorem replays_items {close : Symbol} (h : m.ReplayedParts limit (.items close c) (es, c')) :
    m.Replays limit (.items close c) (es, c') := by
  intro d hcd hkeep
  cases h with
  | itemsNone hclose =>
    have hpeek : d.peek? = c.peek? := hcd.peek?_eq hkeep
    exact ⟨d, .of_production (.itemsNone (hpeek.trans hclose)), hcd⟩
  | itemsOne hclose hfirst hend =>
    have hpeek : d.peek? = c.peek? := hcd.peek?_eq (Nat.lt_trans hkeep hfirst.1.moves)
    rw [← hpeek] at hclose
    obtain ⟨d₁, hfirst', hfollows⟩ := hfirst.2 d hcd.toMirrors (Nat.le_of_lt hkeep)
    exact ⟨d₁, .of_production (.itemsOne hclose hfirst' (hfollows.peek?_ne (by decide) hend)),
      hfollows⟩
  | itemsMore hclose hfirst htokens hothers =>
    have hkeep₂ : m.tail.length < _ := Nat.lt_of_lt_of_le hkeep hothers.1.moves
    have hkeep₁ : m.tail.length < _ := Nat.lt_trans hkeep₂ (Cursor.past_lt _ htokens)
    have hpeek : d.peek? = c.peek? := hcd.peek?_eq (Nat.lt_trans hkeep₁ hfirst.1.moves)
    rw [← hpeek] at hclose
    obtain ⟨d₁, hfirst', hfollows⟩ := hfirst.2 d hcd.toMirrors (Nat.le_of_lt hkeep₁)
    obtain ⟨more, htokens', hnext⟩ := hfollows.next htokens (Nat.le_of_lt hkeep₂)
    obtain ⟨d₂, hothers', hfollows'⟩ := hothers.2 _ hnext hkeep
    exact ⟨d₂, .of_production (.itemsMore hclose hfirst' htokens' hothers'), hfollows'⟩

theorem replays_entries {ps : List (Expr × Expr)}
    (h : m.ReplayedParts limit (.entries c) (ps, c')) :
    m.Replays limit (.entries c) (ps, c') := by
  intro d hcd hkeep
  cases h with
  | entriesNone hclose =>
    have hpeek : d.peek? = c.peek? := hcd.peek?_eq hkeep
    exact ⟨d, .of_production (.entriesNone (hpeek.trans hclose)), hcd⟩
  | entriesOne hclose hkey hcolon hvalue hend =>
    have hkeep₂ : m.tail.length < _ := Nat.lt_trans hkeep hvalue.1.moves
    have hkeep₁ : m.tail.length < _ := Nat.lt_trans hkeep₂ (Cursor.past_lt _ hcolon)
    have hpeek : d.peek? = c.peek? := hcd.peek?_eq (Nat.lt_trans hkeep₁ hkey.1.moves)
    rw [← hpeek] at hclose
    obtain ⟨d₁, hkey', hfollows₁⟩ := hkey.2 d hcd.toMirrors (Nat.le_of_lt hkeep₁)
    obtain ⟨more, hcolon', hnext⟩ := hfollows₁.next hcolon (Nat.le_of_lt hkeep₂)
    obtain ⟨d₂, hvalue', hfollows₂⟩ := hvalue.2 _ hnext.toMirrors (Nat.le_of_lt hkeep)
    exact ⟨d₂, .of_production (.entriesOne hclose hkey' hcolon' hvalue'
      (hfollows₂.peek?_ne (by decide) hend)), hfollows₂⟩
  | entriesMore hclose hkey hcolon hvalue htokens hothers =>
    have hkeep₃ : m.tail.length < _ := Nat.lt_of_lt_of_le hkeep hothers.1.moves
    have hkeep₂' : m.tail.length < _ := Nat.lt_trans hkeep₃ (Cursor.past_lt _ htokens)
    have hkeep₂ : m.tail.length < _ := Nat.lt_trans hkeep₂' hvalue.1.moves
    have hkeep₁ : m.tail.length < _ := Nat.lt_trans hkeep₂ (Cursor.past_lt _ hcolon)
    have hpeek : d.peek? = c.peek? := hcd.peek?_eq (Nat.lt_trans hkeep₁ hkey.1.moves)
    rw [← hpeek] at hclose
    obtain ⟨d₁, hkey', hfollows₁⟩ := hkey.2 d hcd.toMirrors (Nat.le_of_lt hkeep₁)
    obtain ⟨more, hcolon', hnext⟩ := hfollows₁.next hcolon (Nat.le_of_lt hkeep₂)
    obtain ⟨d₂, hvalue', hfollows₂⟩ := hvalue.2 _ hnext.toMirrors (Nat.le_of_lt hkeep₂')
    obtain ⟨more', htokens', hnext'⟩ := hfollows₂.next htokens (Nat.le_of_lt hkeep₃)
    obtain ⟨d₃, hothers', hfollows₃⟩ := hothers.2 _ hnext' hkeep
    exact ⟨d₃, .of_production (.entriesMore hclose hkey' hcolon' hvalue' htokens' hothers'),
      hfollows₃⟩

/-! ## Statements -/

/-- A statement can end wherever it could. -/
theorem Mirrors.atStatementEnd {c d : Cursor} (h : m.Mirrors c d)
    (hend : c.atStatementEnd = true) : d.atStatementEnd = true := by
  rw [Cursor.atStatementEnd_iff] at hend ⊢
  rcases h.peek?_cases with hsame | hd
  · rwa [hsame]
  · exact hd

theorem replays_printedAfterComma (h : m.ReplayedParts limit (.printedAfterComma c) (es, c')) :
    m.Replays limit (.printedAfterComma c) (es, c') := by
  intro d hcd hkeep
  cases h with
  | printedMore htokens hfirst hothers =>
    have hkeep₁ : m.tail.length ≤ _ := Nat.le_trans hkeep hothers.1.moves
    obtain ⟨more, htokens', hnext⟩ := hcd.next htokens
      (Nat.le_trans hkeep₁ (Nat.le_of_lt hfirst.1.moves))
    obtain ⟨d₁, hfirst', hfollows⟩ := hfirst.2 _ hnext.toMirrors hkeep₁
    obtain ⟨d₂, hothers', hfollows'⟩ := hothers.2 d₁ hfollows hkeep
    exact ⟨d₂, .of_production (.printedMore htokens' hfirst' hothers'), hfollows'⟩
  | printedEnd hend =>
    exact ⟨d, .of_production (.printedEnd (hcd.peek?_ne (by decide) hend)), hcd⟩

theorem replays_printed (h : m.ReplayedParts limit (.printed c) (es, c')) :
    m.Replays limit (.printed c) (es, c') := by
  intro d hcd hkeep
  cases h with
  | printedNone hend =>
    exact ⟨d, .of_production (.printedNone (hcd.toMirrors.atStatementEnd hend)), hcd⟩
  | printedSome hend hfirst hothers =>
    have hkeep₁ : m.tail.length ≤ _ := Nat.le_trans hkeep hothers.1.moves
    -- An argument is read here, so this is before the tail.
    have hpeek : d.peek? = c.peek? := hcd.peek?_eq (Nat.lt_of_le_of_lt hkeep₁ hfirst.1.moves)
    have hend' : d.atStatementEnd = false := by
      rw [Cursor.atStatementEnd, hpeek]
      exact hend
    obtain ⟨d₁, hfirst', hfollows⟩ := hfirst.2 d hcd.toMirrors hkeep₁
    obtain ⟨d₂, hothers', hfollows'⟩ := hothers.2 d₁ hfollows hkeep
    exact ⟨d₂, .of_production (.printedSome hend' hfirst' hothers'), hfollows'⟩

theorem replays_statement (h : m.ReplayedParts limit (.statement c) (e, c')) :
    m.Replays limit (.statement c) (e, c') := by
  intro d hcd hkeep
  cases h with
  | print htokens harguments hend =>
    obtain ⟨more, htokens', hnext⟩ := hcd.next htokens (Nat.le_trans hkeep harguments.1.moves)
    obtain ⟨d₁, harguments', hfollows⟩ := harguments.2 _ hnext hkeep
    refine ⟨d₁, ?_, hfollows⟩
    rw [relocate_printing, m.keepsMerges.map_merge, ← hfollows.last]
    exact .of_production (.print htokens' harguments' (hfollows.toMirrors.atStatementEnd hend))
  | statement hkeyword hsign h =>
    obtain ⟨d₁, h', hfollows⟩ := h.2 d hcd hkeep
    have hkeyword' (word : Keyword) : d.peek? ≠ some (.keyword word) :=
      hcd.peek?_ne nofun (hkeyword word)
    exact ⟨d₁, .of_production (.statement hkeyword' (hcd.peek?_ne (by decide) hsign) h'), hfollows⟩

end Calls

/-- What a call gives it gives elsewhere. -/
theorem replays (m : Transplant) {k : Call} {g : k.Gives} (h : Succeeds limit k g) :
    m.Replays limit k g := by
  refine h.induct fun k g hparts => ?_
  cases k with
  | expression c => exact replays_expression hparts
  | chain p c => exact replays_chain hparts
  | operand p c => exact replays_operand hparts
  | chainRest p left c => exact replays_chainRest hparts
  | unary c => exact replays_unary hparts
  | suffixed c => exact replays_suffixed hparts
  | address start keys c => exact replays_address hparts
  | primary c => exact replays_primary hparts
  | items close c => exact replays_items hparts
  | entries c => exact replays_entries hparts
  | printedAfterComma c => exact replays_printedAfterComma hparts
  | printed c => exact replays_printed hparts
  | statement c => exact replays_statement hparts
  | statements found c => trivial

theorem parses_statement {c c' d : Cursor} {e : Expr} (h : Parses (statement limit c) e c')
    (hcd : m.Mirrors c d) (hkeep : m.tail.length ≤ c'.remaining) :
    ∃ d', Parses (statement limit d) (e.relocate m.place) d' ∧ m.Follows c' d' := by
  obtain ⟨d', h', hfollows⟩ := replays m (k := .statement c) (parses_iff.1 h) d hcd hkeep
  exact ⟨d', parses_iff.2 h', hfollows⟩

/-- The statements up to the end of the tokens are read elsewhere too, and what is
    read behind them is read from the tokens behind. -/
theorem exists_statements {c d : Cursor} {found all : List Expr} (htail : m.tail = [])
    (hlevel : c.level = 0) (h : statementsFrom limit c found = .ok all) (hcd : m.Mirrors c d) :
    ∃ es d', all = found.reverse ++ es ∧ d'.tokens = m.behind ∧ d'.level = 0 ∧
      ∀ found' all', statementsFrom limit d' ((es.map (relocate m.place)).reverse ++ found') =
        .ok all' → statementsFrom limit d found' = .ok all' := by
  have hkeep (n : Nat) : m.tail.length ≤ n := by rw [htail]; exact Nat.zero_le n
  refine statementsFrom_induct (motive := fun found c all => c.level = 0 →
    ∀ d : Cursor, m.Mirrors c d → ∃ es d', all = found.reverse ++ es ∧ d'.tokens = m.behind ∧
      d'.level = 0 ∧ ∀ found' all',
        statementsFrom limit d' ((es.map (relocate m.place)).reverse ++ found') = .ok all' →
          statementsFrom limit d found' = .ok all') ?done ?semicolon ?statement h hlevel d hcd
  case done =>
    intro found c htokens hlevel d hcd
    obtain ⟨used, hused, hd⟩ := hcd.tokens
    rw [htokens] at hused
    obtain ⟨rfl, -⟩ := List.append_eq_nil_iff.1 hused.symm
    exact ⟨[], d, (List.append_nil _).symm, hd, hcd.level.trans hlevel, fun _ _ h => h⟩
  case semicolon =>
    intro found c span rest all htokens ih hlevel d hcd
    obtain ⟨more, htokens', hnext⟩ := hcd.next htokens (hkeep _)
    obtain ⟨es, d', hall, hbehind, hlevel', hread⟩ := ih hlevel _ hnext.toMirrors
    refine ⟨es, d', hall, hbehind, hlevel', fun found' all' h' => ?_⟩
    exact Succeeds.of_production (.programSemicolon htokens' (hread found' all' h'))
  case statement =>
    intro found c e c₁ all hne hsemicolon he ih hlevel d hcd
    obtain ⟨d₁, he', hfollows⟩ := parses_statement he hcd (hkeep _)
    obtain ⟨es, d', hall, hbehind, hlevel', hread⟩ :=
      ih ((level_of_statement he).trans hlevel) d₁ hfollows.toMirrors
    have hpeek : d.peek? = c.peek? :=
      hcd.peek?_eq (Nat.lt_of_le_of_lt (hkeep _) (List.length_pos_iff.2 hne))
    refine ⟨e :: es, d', ?_, hbehind, hlevel', fun found' all' h' => ?_⟩
    · rw [hall, List.reverse_cons, List.append_assoc]
      rfl
    · rw [List.map_cons, List.reverse_cons, List.append_assoc] at h'
      refine Succeeds.of_production (.programStatement ?_ ?_ (parses_iff.1 he') (hread _ all' h'))
      · intro hnil
        have hlt := he'.lt
        rw [Cursor.remaining, Cursor.remaining, hnil] at hlt
        exact absurd hlt (Nat.not_lt_zero _)
      · rw [hpeek]
        exact hsemicolon

end Transplant
end Grammar
end ScopeScript
