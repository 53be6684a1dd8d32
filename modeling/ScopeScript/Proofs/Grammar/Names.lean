/-
  ScopeScript.Proofs.Grammar.Names

  The names that a source text can assign to. A name token is spelled like a name
  and is no reserved word. An address begins with one of the names of its
  derivation, or with a call once there is one in it, so the addresses that the
  statements of a program assign to begin with names or calls. The built-in
  namespace stands in no address but the callee of a call.
-/
import ScopeScript.Proofs.Expr.Assignments
import ScopeScript.Proofs.Grammar.Soundness
import ScopeScript.Proofs.Token.MaximalMunch
import ScopeScript.Source

namespace ScopeScript

/-! ## Name tokens -/

/-- The string is made like a name and is no reserved word. -/
structure IsName (s : String) : Prop where
  made : s.toList ∈ Rule.name.language
  free : ∀ k : Keyword, k.spelling ≠ s

/-- If a token is a name, it is one of some kind. -/
def Token.Names (N : String → Prop) : Token → Prop
  | name s => N s
  | _ => True

theorem Token.Reads.names {t : Token} {w : List Char} (h : t.Reads w) : t.Names IsName := by
  cases h with
  | name hword hreserved =>
    refine ⟨by rwa [String.toList_ofList], fun k heq => hreserved k ?_⟩
    rw [heq, String.toList_ofList]
  | _ => trivial

theorem Lexes.names {start stop : Nat} {text rest : List Char} {ts : List Lexeme}
    (h : Lexes start text ts stop rest) : ∀ t ∈ ts, t.token.Names IsName := by
  induction h with
  | gap => exact fun t ht => nomatch ht
  | token _ _ ht _ _ ih => exact List.forall_mem_cons.2 ⟨ht.names, ih⟩

theorem names_of_tokenize {source : String} {tokens : List Lexeme}
    (h : tokenize source = .ok tokens) : ∀ t ∈ tokens, t.token.Names IsName := by
  have hlexed := lexed_tokensFrom 0 source.toList
  rw [← tokenize, h] at hlexed
  cases hlexed with
  | ok h => exact h.names

namespace Grammar

open ScopeScript.Expr

/-! ## Addresses -/

/-- The address begins with a name of some kind or with a call. -/
def HeadedBy (N : String → Prop) : List Expr → Prop
  | .string _ s :: _ => N s
  | .call _ _ _ :: _ => True
  | _ => False

section Derivations

variable {N : String → Prop}

theorem HeadedBy.concat {address : List Expr} (h : HeadedBy N address) (key : Expr) :
    HeadedBy N (address ++ [key]) := by
  cases address with
  | nil => cases h
  | cons e es => cases e <;> exact h

/-- What a derivation whose names are of the kind `N` means assigns to addresses
    that begin with such names or with calls. An operand reads such an address, if
    it reads one, since a step or an assignment may take it. -/
def Nonterminal.NamedIn (N : String → Prop) : (n : Nonterminal) → n.Meaning → Prop
  | statement, e => e.AssignsTo (HeadedBy N)
  | expression, e | chain _, e | operand _, e | unary, e | suffixed, e | primary, e =>
    e.AssignsTo (HeadedBy N) ∧ e.LocatedIn (HeadedBy N)
  | chainRest _, f => ∀ left : Expr,
    left.AssignsTo (HeadedBy N) ∧ left.LocatedIn (HeadedBy N) →
      (f left).AssignsTo (HeadedBy N) ∧ (f left).LocatedIn (HeadedBy N)
  | segments, f => ∀ keys : List Expr, HeadedBy N keys ∧ AllAssignTo (HeadedBy N) keys →
    HeadedBy N (f keys) ∧ AllAssignTo (HeadedBy N) (f keys)
  | printed, es | printedRest, es | items, es => AllAssignTo (HeadedBy N) es
  | entries, ps => EntriesAssignTo (HeadedBy N) ps

/-- What reads no location has none to assign to. -/
theorem namedIn_value {e : Expr} (h : e.AssignsTo (HeadedBy N))
    (hvalue : ∀ span address, e ≠ .read span address) :
    e.AssignsTo (HeadedBy N) ∧ e.LocatedIn (HeadedBy N) :=
  ⟨h, fun ⟨span, _, _, hident⟩ => absurd hident (hvalue span _)⟩

/-- What follows the name in an address. -/
theorem namedIn_name {f : List Expr → List Expr} {name : String} (hname : N name)
    (h : Nonterminal.NamedIn N .segments f) :
    HeadedBy N (f [.string nowhere name]) ∧ AllAssignTo (HeadedBy N) (f [.string nowhere name]) :=
  h _ ⟨hname, trivial, trivial⟩

theorem negated_ne_read (e : Expr) (span : Span) (address : List Expr) :
    negated e ≠ .read span address := by
  cases e <;> exact nofun

theorem assigned_ne_read (sign : AssignSign) (target : List Expr) (right : Expr) (span : Span)
    (address : List Expr) : assigned sign target right ≠ .read span address := by
  cases sign <;> exact nofun

theorem Derivation.namedIn {n : Nonterminal} (d : Derivation n) (htargets : d.TargetsIdentifiers)
    (hnames : ∀ t ∈ d.yield, t.Names N) : n.NamedIn N d.meaning := by
  induction d with
  | print arguments ih => exact ⟨trivial, trivial⟩
  | statement e ih => exact (ih htargets hnames).1
  | printedNone | printedEnd | itemsNone | entriesNone => trivial
  | printedSome first rest ihf ihr =>
    rw [yield, List.forall_mem_append] at hnames
    exact ⟨(ihf htargets.1 hnames.1).1, ihr htargets.2 hnames.2⟩
  | printedMore next rest ihn ihr =>
    rw [yield, List.forall_mem_cons, List.forall_mem_append] at hnames
    exact ⟨(ihn htargets.1 hnames.2.1).1, ihr htargets.2 hnames.2.2⟩
  | value e ih => exact ih htargets hnames
  | @assign sign s hs target right iht ihr =>
    rw [yield, List.forall_mem_append, List.forall_mem_cons] at hnames
    obtain ⟨hident, htarget, hright⟩ := htargets
    obtain ⟨hassigns, hlocated⟩ := iht htarget hnames.1
    refine namedIn_value ?_ (assigned_ne_read _ _ _)
    exact assignsTo_assigned sign (hlocated hident) hassigns.location (ihr hright hnames.2.2).1
  | chain first rest ihf ihr =>
    rw [yield, List.forall_mem_append] at hnames
    exact ihr htargets.2 hnames.2 _ (ihf htargets.1 hnames.1)
  | chainEnd => exact fun left h => h
  | chainMore hop right rest ihr ihs =>
    rw [yield, List.forall_mem_cons, List.forall_mem_append] at hnames
    intro left hleft
    refine ihs htargets.2 hnames.2.2 _ (namedIn_value ?_ nofun)
    exact ⟨hleft.1, (ihr htargets.1 hnames.2.1).1⟩
  | tighter hq inner ih => exact ih htargets hnames
  | operand inner ih => exact ih htargets hnames
  | minus inner ih =>
    rw [yield, List.forall_mem_cons] at hnames
    refine namedIn_value ?_ (negated_ne_read _)
    exact assignsTo_negated (ih htargets hnames.2).1
  | @step op s hs inner ih =>
    rw [yield, List.forall_mem_cons] at hnames
    obtain ⟨hassigns, hlocated⟩ := ih htargets.2 hnames.2
    exact namedIn_value (assignsTo_stepped op false (hlocated htargets.1) hassigns.location) nofun
  | unsigned inner ih => exact ih htargets hnames
  | address name rest ih =>
    rw [yield, List.forall_mem_cons] at hnames
    obtain ⟨hheaded, hkeys⟩ := namedIn_name hnames.1 (ih htargets hnames.2)
    exact ⟨hkeys, fun _ => hheaded⟩
  | @addressStep op s hs name rest ih =>
    rw [yield, List.forall_mem_cons, List.forall_mem_append] at hnames
    obtain ⟨hheaded, hkeys⟩ := namedIn_name hnames.1 (ih htargets hnames.2.1)
    exact namedIn_value (assignsTo_stepped op true hheaded hkeys) nofun
  | primary inner ih => exact ih htargets hnames
  | segmentsEnd => exact fun keys h => h
  | property name rest ih =>
    rw [yield, List.forall_mem_cons, List.forall_mem_cons] at hnames
    intro keys hkeys
    refine ih htargets hnames.2.2 _ ⟨hkeys.1.concat _, ?_⟩
    exact allAssignTo_concat hkeys.2 trivial
  | index key rest ihk ihr =>
    rw [yield, List.forall_mem_cons, List.forall_mem_append, List.forall_mem_cons] at hnames
    intro keys hkeys
    refine ihr htargets.2 hnames.2.2.2 _ ⟨hkeys.1.concat _, ?_⟩
    exact allAssignTo_concat hkeys.2 (ihk htargets.1 hnames.2.1).1
  | call arguments rest iha ihr =>
    rw [yield, List.forall_mem_cons, List.forall_mem_append, List.forall_mem_cons] at hnames
    -- From here on the address begins with the call.
    exact fun keys _ => ihr htargets.2 hnames.2.2.2 _ ⟨trivial, trivial, trivial⟩
  | int _ | double _ | string _ => exact namedIn_value trivial nofun
  | parens e ih =>
    rw [yield, List.forall_mem_cons, List.forall_mem_append] at hnames
    exact ih htargets hnames.2.1
  | list elements ih =>
    rw [yield, List.forall_mem_cons, List.forall_mem_append] at hnames
    exact namedIn_value (ih htargets hnames.2.1) nofun
  | object members ih =>
    rw [yield, List.forall_mem_cons, List.forall_mem_append] at hnames
    exact namedIn_value (ih htargets hnames.2.1) nofun
  | itemsOne e ih => exact ⟨(ih htargets hnames).1, trivial⟩
  | itemsMore e rest ihe ihr =>
    rw [yield, List.forall_mem_append, List.forall_mem_cons] at hnames
    exact ⟨(ihe htargets.1 hnames.1).1, ihr htargets.2 hnames.2.2⟩
  | entriesOne k v ihk ihv =>
    rw [yield, List.forall_mem_append, List.forall_mem_cons] at hnames
    exact ⟨(ihk htargets.1 hnames.1).1, (ihv htargets.2 hnames.2.2).1, trivial⟩
  | entriesMore k v rest ihk ihv ihr =>
    simp only [yield, List.forall_mem_append, List.forall_mem_cons] at hnames
    exact ⟨(ihk htargets.1 hnames.1).1, (ihv htargets.2.1 hnames.2.2.1).1,
      ihr htargets.2.2 hnames.2.2.2.2⟩

/-- The statements that a token list is split into assign to addresses that begin
    with names of it, or with calls. -/
theorem Splits.assignsTo {limit : Nat} {ts : List Token} {es : List Expr}
    (h : Splits limit ts es) (hnames : ∀ t ∈ ts, t.Names N) :
    ∀ e ∈ es, e.AssignsTo (HeadedBy N) := by
  induction h with
  | nil => exact fun e he => nomatch he
  | semicolon _ ih => exact ih (List.forall_mem_cons.1 hnames).2
  | statement d targets _ _ ih =>
    rw [List.forall_mem_append] at hnames
    exact List.forall_mem_cons.2 ⟨d.namedIn targets hnames.1, ih hnames.2⟩

end Derivations

end Grammar

/-- A source text assigns to addresses that begin with names or with calls. -/
theorem Program.assignsTo_of_ofSource {limit : Nat} {source : String} {p : Program}
    (h : Program.ofSource limit source = .ok p) :
    ∀ e ∈ p.statements, e.bare.AssignsTo (Grammar.HeadedBy IsName) := by
  obtain ⟨tokens, htokens, hstatements⟩ := ofSource_eq_ok_iff.1 h
  obtain ⟨es, hes, hsplits⟩ := Grammar.splits_of_statementsFrom rfl hstatements
  rw [List.reverse_nil, List.nil_append] at hes
  have hnames : ∀ t ∈ tokens.map (·.token), t.Names IsName :=
    List.forall_mem_map.2 (names_of_tokenize htokens)
  rw [hes]
  exact List.forall_mem_map.1 (hsplits.assignsTo hnames)

end ScopeScript
