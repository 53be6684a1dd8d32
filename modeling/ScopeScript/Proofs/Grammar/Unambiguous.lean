/-
  ScopeScript.Proofs.Grammar.Unambiguous

  Tokens can be read in one way only. Two derivations of a nonterminal that begin with
  the same tokens are the same, or one of them reads further, and then the next token
  behind the other goes on with it, and what it means has fewer nodes. So derivations
  that end where they may are the same, and so are those that mean the same: there is
  one way only to spell the tokens of a program with the meanings of its statements.
-/
import ScopeScript.Proofs.Expr.Size
import ScopeScript.Proofs.Grammar.Follow
import ScopeScript.Proofs.Grammar.Soundness

namespace ScopeScript
namespace Grammar

open ScopeScript.Expr
open ScopeScript.Grammar.Derivation (TargetsIdentifiers yield)

/-! ## Overlaps -/

/-- A meaning has fewer nodes than another one. What follows in a chain or in an address
    makes fewer of any tree or keys. -/
def Nonterminal.Fewer : (n : Nonterminal) → n.Meaning → n.Meaning → Prop
  | statement, e, e' | expression, e, e' | chain _, e, e' | operand _, e, e' | unary, e, e'
  | suffixed, e, e' | primary, e, e' => e.nodes < e'.nodes
  | chainRest _, f, f' => ∀ left : Expr, (f left).nodes < (f' left).nodes
  | segments, f, f' => ∀ keys : List Expr, nodesAll (f keys) < nodesAll (f' keys)
  | printed, es, es' | printedRest, es, es' | items, es, es' => nodesAll es < nodesAll es'
  | entries, ps, ps' => nodesEntries ps < nodesEntries ps'

/-- Two derivations of tokens that begin alike, with the tokens behind them: they are the
    same, or the one that ends earlier does so where it may not end. -/
inductive Overlap {n : Nonterminal} (d : Derivation n) (ts : List Token) (d' : Derivation n)
    (ts' : List Token) : Prop where
  | same (hd : d = d') (hts : ts = ts')
  | longer (hends : ¬ n.EndsBefore ts) (hfewer : n.Fewer d.meaning d'.meaning)
  | shorter (hends : ¬ n.EndsBefore ts') (hfewer : n.Fewer d'.meaning d.meaning)

namespace Overlap

variable {l m n : Nonterminal} {d d' : Derivation n} {ts ts' : List Token}

theorem symm (h : Overlap d ts d' ts') : Overlap d' ts' d ts := by
  cases h with
  | same hd hts => exact .same hd.symm hts.symm
  | longer hends hfewer => exact .shorter hends hfewer
  | shorter hends hfewer => exact .longer hends hfewer

/-- Derivations that end where they may do not overlap in part. -/
theorem eq (h : Overlap d ts d' ts') (hts : n.EndsBefore ts) (hts' : n.EndsBefore ts') :
    d = d' ∧ ts = ts' := by
  cases h with
  | same hd hts => exact ⟨hd, hts⟩
  | longer hends _ => exact absurd hts hends
  | shorter hends _ => exact absurd hts' hends

/-- What is made of overlapping derivations overlaps alike. -/
theorem map (f : Derivation n → Derivation m) (h : Overlap d ts d' ts')
    (hends : ∀ us, m.EndsBefore us → n.EndsBefore us)
    (hfewer : ∀ c c', n.Fewer c.meaning c'.meaning → m.Fewer (f c).meaning (f c').meaning) :
    Overlap (f d) ts (f d') ts' := by
  cases h with
  | same hd hts => exact .same (congrArg f hd) hts
  | longer hgoes hless => exact .longer (fun hus => hgoes (hends _ hus)) (hfewer _ _ hless)
  | shorter hgoes hless => exact .shorter (fun hus => hgoes (hends _ hus)) (hfewer _ _ hless)

/-- Derivations in two parts overlap as their first parts do, or, where these are the same,
    as the others do. A first part that is read further has only the end behind it in the
    other derivation. -/
theorem seq {first first' : Derivation n} {rest rest' : Derivation m} (stop : Derivation m)
    (f : Derivation n → Derivation m → Derivation l)
    (hfirst : Overlap first (rest.yield ++ ts) first' (rest'.yield ++ ts'))
    (hrest : rest.yield ++ ts = rest'.yield ++ ts' → Overlap rest ts rest' ts')
    (hstop : ∀ (c : Derivation m) us, ¬ n.EndsBefore (c.yield ++ us) →
      c = stop ∧ ¬ l.EndsBefore us)
    (hends : ∀ us, l.EndsBefore us → m.EndsBefore us)
    (hfewer : ∀ c c' e', n.Fewer c.meaning c'.meaning →
      l.Fewer (f c stop).meaning (f c' e').meaning)
    (hfewer' : ∀ c e e', m.Fewer e.meaning e'.meaning →
      l.Fewer (f c e).meaning (f c e').meaning) :
    Overlap (f first rest) ts (f first' rest') ts' := by
  cases hfirst with
  | same hd hts =>
    subst hd
    exact (hrest hts).map (f first) hends (hfewer' first)
  | longer hgoes hless =>
    obtain ⟨rfl, hts⟩ := hstop rest ts hgoes
    exact .longer hts (hfewer _ _ _ hless)
  | shorter hgoes hless =>
    obtain ⟨rfl, hts⟩ := hstop rest' ts' hgoes
    exact .shorter hts (hfewer _ _ _ hless)

end Overlap

/-! ## Tokens -/

section Tokens

variable {n : Nonterminal} {k : Nat} {t : Token} {ts us : List Token}

theorem loose_nil : Loose k [] :=
  fun _ ht => absurd ht nofun

/-- Where a statement may end, nothing goes on with an expression. -/
theorem loose_of_end (h : ts.head? = none ∨ ts.head? = some (.symbol .semicolon)) :
    Loose (k + 1) ts := by
  intro t ht
  rcases h with h | h
  · cases h.symm.trans ht
  · cases h.symm.trans ht
    exact Nat.succ_pos k

/-- The first token of a tree can begin one. -/
theorem start_le_of_yield {d : Derivation n} (hn : n.start? = some k)
    (h : t :: us = d.yield ++ ts) : start t ≤ k := by
  obtain ⟨u, rest, hyield, hstart⟩ := d.exists_start hn
  rw [hyield] at h
  obtain ⟨rfl, -⟩ := List.cons.inj h
  exact hstart

theorem grip_opSign {op : BinaryOp} {p : Precedence} (h : Precedence.ofOp op = p) :
    Grammar.grip (.symbol (opSign op)) = p.grip :=
  grip_of_operator? (operator?_eq_some_iff.2 ⟨h, rfl⟩)

theorem grip_sign {sign : AssignSign} {s : Symbol} (h : sign.sign? = some s) :
    Grammar.grip (.symbol s) = 1 :=
  grip_of_ofSymbol? (ofSymbol?_eq_some_iff.2 h)

theorem grip_stepSign {op : BinaryOp} {s : Symbol} (h : stepSign? op = some s) :
    Grammar.grip (.symbol s) = 6 :=
  grip_of_stepOp? (stepOp?_eq_some_iff.2 h)

end Tokens

/-! ## Nodes -/

/-- What follows in a chain or in an address takes no nodes away. -/
def Nonterminal.Extends : (n : Nonterminal) → n.Meaning → Prop
  | chainRest _, f => ∀ left : Expr, left.nodes ≤ (f left).nodes
  | segments, f => ∀ keys : List Expr, nodesAll keys ≤ nodesAll (f keys)
  | _, _ => True

theorem Derivation.extends {n : Nonterminal} (d : Derivation n) : n.Extends d.meaning := by
  induction d with
  | chainEnd => exact fun left => Nat.le_refl _
  | @chainMore p op hop right rest _ ih =>
    intro left
    have hrest : (Expr.binary nowhere op left right.meaning).nodes ≤ _ := ih _
    rw [Expr.nodes] at hrest
    show left.nodes ≤ (rest.meaning (.binary nowhere op left right.meaning)).nodes
    omega
  | segmentsEnd => exact fun keys => Nat.le_refl _
  | property name rest ih =>
    intro keys
    have hrest : nodesAll (keys ++ [.string nowhere name]) ≤ _ := ih _
    rw [nodesAll_concat] at hrest
    exact Nat.le_of_add_right_le hrest
  | index key rest _ ih =>
    intro keys
    have hrest : nodesAll (keys ++ [key.meaning]) ≤ _ := ih _
    rw [nodesAll_concat] at hrest
    exact Nat.le_of_add_right_le hrest
  | call arguments rest _ ih =>
    intro keys
    have hrest : nodesAll [.call nowhere keys arguments.meaning] ≤ _ := ih _
    rw [nodesAll, nodesAll, Expr.nodes] at hrest
    show nodesAll keys ≤ nodesAll (rest.meaning [.call nowhere keys arguments.meaning])
    omega
  | _ => trivial

/-- A segment adds a key, or puts the keys below a call. -/
theorem nodesAll_lt_property (name : String) (rest : Derivation .segments) (keys : List Expr) :
    nodesAll keys < nodesAll ((Derivation.property name rest).meaning keys) := by
  have hrest : nodesAll (keys ++ [.string nowhere name]) ≤ _ := rest.extends _
  rw [nodesAll_concat] at hrest
  exact Nat.lt_of_lt_of_le (Nat.lt_add_of_pos_right (nodes_pos _)) hrest

theorem nodesAll_lt_index (key : Derivation .expression) (rest : Derivation .segments)
    (keys : List Expr) : nodesAll keys < nodesAll ((Derivation.index key rest).meaning keys) := by
  have hrest : nodesAll (keys ++ [key.meaning]) ≤ _ := rest.extends _
  rw [nodesAll_concat] at hrest
  exact Nat.lt_of_lt_of_le (Nat.lt_add_of_pos_right (nodes_pos _)) hrest

theorem nodesAll_lt_call (arguments : Derivation .items) (rest : Derivation .segments)
    (keys : List Expr) :
    nodesAll keys < nodesAll ((Derivation.call arguments rest).meaning keys) := by
  have hrest : nodesAll [.call nowhere keys arguments.meaning] ≤ _ := rest.extends _
  rw [nodesAll, nodesAll, Expr.nodes] at hrest
  show nodesAll keys < nodesAll (rest.meaning [.call nowhere keys arguments.meaning])
  omega

theorem nodes_negated_lt {e e' : Expr} (h : e.nodes < e'.nodes) :
    (negated e).nodes < (negated e').nodes := by
  have hle := nodes_negated_le e
  have hpos := e.nodes_pos
  -- A number has one node, so the greater of two trees is none.
  have hnegated : (negated e').nodes = 2 + e'.nodes := by
    cases e' with
    | int _ _ | double _ _ =>
      rw [nodes] at h
      omega
    | _ => simp only [negated, nodes]
  omega

/-- An identifier has a node above those of its address. -/
theorem nodes_of_isIdentifier {e : Expr} (h : e.IsIdentifier) :
    e.nodes = 1 + nodesAll e.location := by
  obtain ⟨span, key, keys, rfl⟩ := h
  rw [location, nodes]

theorem nodes_lt_assigned {e right : Expr} (sign : AssignSign) (h : e.IsIdentifier) :
    e.nodes < (assigned sign e.location right).nodes := by
  have hpos := right.nodes_pos
  rw [nodes_of_isIdentifier h]
  cases sign with
  | plain =>
    rw [nodes_plain]
    omega
  | compound op =>
    rw [nodes_compound]
    omega

theorem nodes_assigned_lt {right right' : Expr} (sign : AssignSign) (address : List Expr)
    (h : right.nodes < right'.nodes) :
    (assigned sign address right).nodes < (assigned sign address right').nodes := by
  cases sign with
  | plain =>
    rw [nodes_plain, nodes_plain]
    omega
  | compound op =>
    rw [nodes_compound, nodes_compound]
    omega

/-! ## Productions

  A derivation overlaps with all others if its parts do. Where the parts of two
  derivations are the same, or only the last of them is read further in one, so it is
  with the derivations. A part that is followed by a sign or a bracket ends there, since
  these do not go on with it. -/

/-- Lists between brackets are read up to the bracket. -/
def Nonterminal.Closes : Nonterminal → List Token → Prop
  | items, ts => items.EndsBefore ts
  | entries, ts => entries.EndsBefore ts
  | _, _ => True

/-- A derivation overlaps with all those of tokens that begin like its own. -/
def Derivation.Overlaps {n : Nonterminal} (d : Derivation n) : Prop :=
  ∀ (d' : Derivation n) {ts ts' : List Token}, d.TargetsIdentifiers → d'.TargetsIdentifiers →
    n.Closes ts → n.Closes ts' → d.yield ++ ts = d'.yield ++ ts' → Overlap d ts d' ts'

section Productions

variable {p : Precedence} {ts ts' us : List Token}

/-! ### Statements -/

theorem overlaps_print {arguments : Derivation .printed} (harguments : arguments.Overlaps) :
    (Derivation.print arguments).Overlaps := by
  intro d' ts ts' hd hd' _ _ h
  cases d' with
  | print arguments' =>
    have hover := harguments arguments' hd hd' trivial trivial (List.cons.inj h).2
    refine hover.map .print (fun _ hus => hus) fun c c' hless => ?_
    show (printCall c.meaning).nodes < (printCall c'.meaning).nodes
    rw [nodes_printCall, nodes_printCall]
    exact Nat.add_lt_add_right hless 4
  -- No expression begins with the sign of a print statement.
  | statement e => exact absurd (start_le_of_yield (d := e) rfl h) (by decide)

theorem overlaps_statement {e : Derivation .expression} (he : e.Overlaps) :
    (Derivation.statement e).Overlaps := by
  intro d' ts ts' hd hd' _ _ h
  cases d' with
  | print arguments => exact absurd (start_le_of_yield (d := e) rfl h.symm) (by decide)
  | statement e' =>
    exact (he e' hd hd' trivial trivial h).map .statement (fun _ hus => loose_of_end hus)
      fun _ _ hless => hless

/-- No argument is fewer than some, and no statement ends where one begins. -/
theorem longer_printedNone {first : Derivation .expression} {rest : Derivation .printedRest}
    (h : ts = first.yield ++ us) : Overlap .printedNone ts (.printedSome first rest) ts' := by
  obtain ⟨t, more, hyield, hstart⟩ := first.exists_start (k := 3) rfl
  rw [hyield] at h
  subst h
  refine .longer ?_ (Nat.lt_add_right _ (nodes_pos _))
  rintro (hend | hend)
  · cases hend
  · cases hend
    exact absurd hstart (by decide)

theorem longer_printedEnd {next : Derivation .expression} {rest : Derivation .printedRest}
    (h : ts = .symbol .comma :: us) : Overlap .printedEnd ts (.printedMore next rest) ts' := by
  subst h
  refine .longer ?_ (Nat.lt_add_right _ (nodes_pos _))
  rintro (hend | hend) <;> cases hend

/-- Behind an argument a comma follows, or the list ends. -/
theorem stop_of_printedRest (rest : Derivation .printedRest) (ts : List Token)
    (h : ¬ Nonterminal.expression.EndsBefore (rest.yield ++ ts)) :
    rest = .printedEnd ∧ ¬ Nonterminal.printed.EndsBefore ts := by
  cases rest with
  | printedEnd => exact ⟨rfl, fun hts => h (loose_of_end hts)⟩
  | printedMore next rest => exact absurd (loose_cons (Nat.succ_pos 0)) h

theorem overlaps_printedNone : Derivation.printedNone.Overlaps := by
  intro d' ts ts' _ _ _ _ h
  cases d' with
  | printedNone => exact .same rfl h
  | printedSome first rest => exact longer_printedNone (h.trans (List.append_assoc _ _ _))

theorem overlaps_printedSome {first : Derivation .expression} {rest : Derivation .printedRest}
    (hfirst : first.Overlaps) (hrest : rest.Overlaps) :
    (Derivation.printedSome first rest).Overlaps := by
  intro d' ts ts' hd hd' _ _ h
  cases d' with
  | printedNone => exact (longer_printedNone (h.symm.trans (List.append_assoc _ _ _))).symm
  | printedSome first' rest' =>
    simp only [yield, List.append_assoc] at h
    refine (hfirst first' hd.1 hd'.1 trivial trivial h).seq .printedEnd .printedSome
      (hrest rest' hd.2 hd'.2 trivial trivial) stop_of_printedRest (fun _ hus => hus)
      (fun c c' e' hless => ?_) fun c e e' hless => Nat.add_lt_add_left hless _
    exact Nat.add_lt_add_of_lt_of_le hless (Nat.zero_le _)

theorem overlaps_printedEnd : Derivation.printedEnd.Overlaps := by
  intro d' ts ts' _ _ _ _ h
  cases d' with
  | printedEnd => exact .same rfl h
  | printedMore next rest => exact longer_printedEnd h

theorem overlaps_printedMore {next : Derivation .expression} {rest : Derivation .printedRest}
    (hnext : next.Overlaps) (hrest : rest.Overlaps) :
    (Derivation.printedMore next rest).Overlaps := by
  intro d' ts ts' hd hd' _ _ h
  cases d' with
  | printedEnd => exact (longer_printedEnd h.symm).symm
  | printedMore next' rest' =>
    simp only [yield, List.cons_append, List.append_assoc, List.cons.injEq, true_and] at h
    refine (hnext next' hd.1 hd'.1 trivial trivial h).seq .printedEnd .printedMore
      (hrest rest' hd.2 hd'.2 trivial trivial) stop_of_printedRest (fun _ hus => hus)
      (fun c c' e' hless => ?_) fun c e e' hless => Nat.add_lt_add_left hless _
    exact Nat.add_lt_add_of_lt_of_le hless (Nat.zero_le _)

/-! ### Expressions -/

/-- A tree that is assigned to ends at the sign. -/
theorem overlap_value_assign {sign : AssignSign} {s : Symbol} (hs : sign.sign? = some s)
    {e target : Derivation (.chain .comparison)} {right : Derivation .expression}
    (htarget : IsIdentifier target.meaning) (h : Overlap e ts target (.symbol s :: us)) :
    Overlap (.value e) ts (.assign hs target right) ts' := by
  have hsign := grip_sign hs
  have hless : Expr.nodes target.meaning <
      (assigned sign (location target.meaning) right.meaning).nodes :=
    nodes_lt_assigned sign htarget
  cases h with
  | same hd hts =>
    subst hd hts
    refine .longer (fun hus => ?_) hless
    exact absurd (hus _ rfl) (by omega)
  | longer hgoes hfewer =>
    exact .longer (fun hus => hgoes (Loose.mono hus (by decide))) (Nat.lt_trans hfewer hless)
  | shorter hgoes _ => exact absurd (loose_cons (by rw [hsign]; decide)) hgoes

theorem overlaps_value {e : Derivation (.chain .comparison)} (he : e.Overlaps) :
    (Derivation.value e).Overlaps := by
  intro d' ts ts' hd hd' _ _ h
  cases d' with
  | value e' =>
    exact (he e' hd hd' trivial trivial h).map .value (fun _ hus => Loose.mono hus (by decide))
      fun _ _ hless => hless
  | assign hs target right =>
    simp only [yield, List.append_assoc, List.cons_append] at h
    exact overlap_value_assign hs hd'.1 (he target hd hd'.2.1 trivial trivial h)

theorem overlaps_assign {sign : AssignSign} {s : Symbol} (hs : sign.sign? = some s)
    {target : Derivation (.chain .comparison)} {right : Derivation .expression}
    (htarget : target.Overlaps) (hright : right.Overlaps) :
    (Derivation.assign hs target right).Overlaps := by
  intro d' ts ts' hd hd' _ _ h
  cases d' with
  | value e =>
    simp only [yield, List.append_assoc, List.cons_append] at h
    have hover := htarget e hd.2.1 hd' trivial trivial h
    exact (overlap_value_assign hs hd.1 hover.symm).symm
  | @assign sign' s' hs' target' right' =>
    simp only [yield, List.append_assoc, List.cons_append] at h
    have hends : ∀ {sign : AssignSign} {s : Symbol} (us : List Token), sign.sign? = some s →
        (Nonterminal.chain .comparison).EndsBefore (.symbol s :: us) := by
      intro sign s us hs
      exact loose_cons (by rw [grip_sign hs]; decide)
    obtain ⟨rfl, htokens⟩ := (htarget target' hd.2.1 hd'.2.1 trivial trivial h).eq (hends _ hs)
      (hends _ hs')
    obtain ⟨hsign, hrest⟩ := List.cons.inj htokens
    cases hsign
    -- The sign tells the kind of assignment.
    obtain rfl : sign = sign' := Option.some.inj
      ((ofSymbol?_eq_some_iff.2 hs).symm.trans (ofSymbol?_eq_some_iff.2 hs'))
    exact (hright right' hd.2.2 hd'.2.2 trivial trivial hrest).map (.assign hs target)
      (fun _ hus => hus) fun c c' hless => nodes_assigned_lt sign _ hless

/-! ### Chains -/

/-- Behind an operand an operator of the chain follows, or the chain ends. -/
theorem stop_of_chainRest (rest : Derivation (.chainRest p)) (ts : List Token)
    (h : ¬ (Nonterminal.operand p).EndsBefore (rest.yield ++ ts)) :
    rest = .chainEnd ∧ ¬ Loose p.grip ts := by
  cases rest with
  | chainEnd => exact ⟨rfl, fun hts => h (Loose.mono hts (Nat.le_succ _))⟩
  | chainMore hop right rest =>
    exact absurd (loose_cons (Nat.lt_succ_of_le (Nat.le_of_eq (grip_opSign hop)))) h

theorem overlaps_chain {first : Derivation (.operand p)} {rest : Derivation (.chainRest p)}
    (hfirst : first.Overlaps) (hrest : rest.Overlaps) :
    (Derivation.chain first rest).Overlaps := by
  intro d' ts ts' hd hd' _ _ h
  cases d' with
  | chain first' rest' =>
    simp only [yield, List.append_assoc] at h
    refine (hfirst first' hd.1 hd'.1 trivial trivial h).seq .chainEnd .chain
      (hrest rest' hd.2 hd'.2 trivial trivial) stop_of_chainRest (fun _ hus => hus)
      (fun c c' e' hless => ?_) fun c e e' hless => hless c.meaning
    exact Nat.lt_of_lt_of_le hless (e'.extends c'.meaning)

theorem longer_chainEnd {op : BinaryOp} (hop : Precedence.ofOp op = p)
    {right : Derivation (.operand p)} {rest : Derivation (.chainRest p)}
    (h : ts = .symbol (opSign op) :: us) :
    Overlap .chainEnd ts (.chainMore hop right rest) ts' := by
  subst h
  refine .longer (fun hus => ?_) fun left => ?_
  · have hlt := hus _ rfl
    rw [grip_opSign hop] at hlt
    exact Nat.lt_irrefl _ hlt
  · have hrest : (Expr.binary nowhere op left right.meaning).nodes ≤ _ := rest.extends _
    rw [Expr.nodes] at hrest
    show left.nodes < (rest.meaning (.binary nowhere op left right.meaning)).nodes
    omega

theorem overlaps_chainEnd : (Derivation.chainEnd (p := p)).Overlaps := by
  intro d' ts ts' _ _ _ _ h
  cases d' with
  | chainEnd => exact .same rfl h
  | chainMore hop right rest => exact longer_chainEnd hop h

theorem overlaps_chainMore {op : BinaryOp} (hop : Precedence.ofOp op = p)
    {right : Derivation (.operand p)} {rest : Derivation (.chainRest p)}
    (hright : right.Overlaps) (hrest : rest.Overlaps) :
    (Derivation.chainMore hop right rest).Overlaps := by
  intro d' ts ts' hd hd' _ _ h
  cases d' with
  | chainEnd => exact (longer_chainEnd hop h.symm).symm
  | @chainMore _ op' hop' right' rest' =>
    simp only [yield, List.cons_append, List.append_assoc, List.cons.injEq, Token.symbol.injEq] at h
    obtain ⟨hsign, htail⟩ := h
    -- The sign tells the operator.
    obtain rfl : op = op' := Option.some.inj
      ((operator?_eq_some_iff.2 ⟨hop, hsign⟩).symm.trans (operator?_eq_some_iff.2 ⟨hop', rfl⟩))
    refine (hright right' hd.1 hd'.1 trivial trivial htail).seq .chainEnd (.chainMore hop)
      (hrest rest' hd.2 hd'.2 trivial trivial) stop_of_chainRest (fun _ hus => hus)
      (fun c c' e' hless left => ?_) fun c e e' hless left => hless _
    have hall : (Expr.binary nowhere op left c'.meaning).nodes ≤ _ := e'.extends _
    rw [Expr.nodes] at hall
    refine Nat.lt_of_lt_of_le ?_ hall
    show (Expr.binary nowhere op left c.meaning).nodes < _
    rw [Expr.nodes]
    exact Nat.add_lt_add_left hless _

/-! ### Operands -/

theorem Precedence.Over.unique {q q' : Precedence} (h : p.Over q) (h' : p.Over q') : q = q' := by
  cases h <;> cases h' <;> rfl

theorem overlaps_tighter {q : Precedence} (hq : p.Over q) {inner : Derivation (.chain q)}
    (hinner : inner.Overlaps) : (Derivation.tighter hq inner).Overlaps := by
  intro d' ts ts' hd hd' _ _ h
  cases d' with
  | tighter hq' inner' =>
    obtain rfl := hq.unique hq'
    refine (hinner inner' hd hd' trivial trivial h).map (.tighter hq) (fun us hus => ?_)
      fun c c' hless => hless
    have hgrip : p.grip + 1 = q.grip := by cases hq <;> rfl
    exact Loose.mono hus (Nat.le_of_eq hgrip)
  | operand inner' => cases hq

theorem overlaps_operand {inner : Derivation .unary} (hinner : inner.Overlaps) :
    (Derivation.operand inner).Overlaps := by
  intro d' ts ts' hd hd' _ _ h
  cases d' with
  | tighter hq inner' => cases hq
  | operand inner' =>
    exact (hinner inner' hd hd' trivial trivial h).map .operand (fun _ hus => hus)
      fun _ _ hless => hless

theorem stepSign?_ne_minus {op : BinaryOp} : stepSign? op ≠ some .minus := by
  cases op <;> exact nofun

theorem overlaps_minus {inner : Derivation .unary} (hinner : inner.Overlaps) :
    (Derivation.minus inner).Overlaps := by
  intro d' ts ts' hd hd' _ _ h
  cases d' with
  | minus inner' =>
    exact (hinner inner' hd hd' trivial trivial (List.cons.inj h).2).map .minus
      (fun _ hus => hus) fun _ _ hless => nodes_negated_lt hless
  | step hs inner' =>
    cases (List.cons.inj h).1
    exact absurd hs stepSign?_ne_minus
  | unsigned inner' => exact absurd (start_le_of_yield (d := inner') rfl h) (by decide)

/-- What is stepped is an identifier, so fewer nodes are those of a shorter address. -/
theorem nodes_stepped_lt {e e' : Expr} (op : BinaryOp) (he : e.IsIdentifier)
    (he' : e'.IsIdentifier) (h : e.nodes < e'.nodes) :
    (stepped op e.location false).nodes < (stepped op e'.location false).nodes := by
  rw [nodes_of_isIdentifier he, nodes_of_isIdentifier he'] at h
  rw [nodes_stepped, nodes_stepped]
  omega

theorem overlaps_step {op : BinaryOp} {s : Symbol} (hs : stepSign? op = some s)
    {inner : Derivation .suffixed} (hinner : inner.Overlaps) :
    (Derivation.step hs inner).Overlaps := by
  intro d' ts ts' hd hd' _ _ h
  cases d' with
  | minus inner' =>
    cases (List.cons.inj h).1
    exact absurd hs stepSign?_ne_minus
  | @step op' s' hs' inner' =>
    obtain ⟨hsign, htail⟩ := List.cons.inj h
    cases hsign
    -- The sign tells the operator.
    obtain rfl : op = op' := Option.some.inj
      ((stepOp?_eq_some_iff.2 hs).symm.trans (stepOp?_eq_some_iff.2 hs'))
    cases hinner inner' hd.2 hd'.2 trivial trivial htail with
    | same hd hts => exact .same (congrArg _ hd) hts
    | longer hgoes hless => exact .longer hgoes (nodes_stepped_lt op hd.1 hd'.1 hless)
    | shorter hgoes hless => exact .shorter hgoes (nodes_stepped_lt op hd'.1 hd.1 hless)
  | unsigned inner' =>
    have hle := start_le_of_yield (d := inner') rfl h
    rw [start_of_stepSign? hs] at hle
    exact absurd hle (by decide)

theorem overlaps_unsigned {inner : Derivation .suffixed} (hinner : inner.Overlaps) :
    (Derivation.unsigned inner).Overlaps := by
  intro d' ts ts' hd hd' _ _ h
  cases d' with
  | minus inner' => exact absurd (start_le_of_yield (d := inner) rfl h.symm) (by decide)
  | step hs inner' =>
    have hle := start_le_of_yield (d := inner) rfl h.symm
    rw [start_of_stepSign? hs] at hle
    exact absurd hle (by decide)
  | unsigned inner' =>
    exact (hinner inner' hd hd' trivial trivial h).map .unsigned (fun _ hus => hus)
      fun _ _ hless => hless

/-! ### Addresses -/

/-- An address that is stepped ends at the sign. -/
theorem overlap_address_addressStep {op : BinaryOp} {s : Symbol} (hs : stepSign? op = some s)
    {name : String} {rest rest' : Derivation .segments}
    (h : Overlap rest ts rest' (.symbol s :: us)) :
    Overlap (.address name rest) ts (.addressStep hs name rest') us := by
  have hsign := grip_stepSign hs
  have hfewer : ∀ keys keys' : List Expr, nodesAll keys ≤ nodesAll keys' →
      (Expr.read nowhere keys).nodes < (stepped op keys' true).nodes := by
    intro keys keys' hle
    rw [Expr.nodes, nodes_stepped]
    omega
  cases h with
  | same hd hts =>
    subst hd hts
    refine .longer (fun hus => ?_) (hfewer _ _ (Nat.le_refl _))
    exact absurd (hus _ rfl) (by omega)
  | longer hgoes hless =>
    refine .longer (fun hus => hgoes (Loose.mono hus (by decide))) ?_
    exact hfewer _ _ (Nat.le_of_lt (hless _))
  | shorter hgoes _ => exact absurd (loose_cons (by rw [hsign]; decide)) hgoes

/-- No name begins a primary expression. -/
theorem ne_primary_of_name {name : String} {inner : Derivation .primary}
    (h : .name name :: us = inner.yield ++ ts) : False :=
  absurd (start_le_of_yield (d := inner) rfl h) (Nat.not_succ_le_self 1)

theorem overlaps_address {name : String} {rest : Derivation .segments} (hrest : rest.Overlaps) :
    (Derivation.address name rest).Overlaps := by
  intro d' ts ts' hd hd' _ _ h
  cases d' with
  | address name' rest' =>
    obtain ⟨hname, htail⟩ := List.cons.inj h
    cases hname
    refine (hrest rest' hd hd' trivial trivial htail).map (.address name)
      (fun us hus => Loose.mono hus (by decide)) fun c c' hless => ?_
    show (Expr.read nowhere (c.meaning [.string nowhere name])).nodes <
      (Expr.read nowhere (c'.meaning [.string nowhere name])).nodes
    rw [Expr.nodes, Expr.nodes]
    exact Nat.add_lt_add_left (hless _) 1
  | addressStep hs name' rest' =>
    simp only [yield, List.cons_append, List.append_assoc, List.nil_append, List.cons.injEq] at h
    obtain ⟨hname, htail⟩ := h
    cases hname
    exact overlap_address_addressStep hs (hrest rest' hd hd' trivial trivial htail)
  | primary inner => exact (ne_primary_of_name h).elim

theorem overlaps_addressStep {op : BinaryOp} {s : Symbol} (hs : stepSign? op = some s)
    {name : String} {rest : Derivation .segments} (hrest : rest.Overlaps) :
    (Derivation.addressStep hs name rest).Overlaps := by
  intro d' ts ts' hd hd' _ _ h
  cases d' with
  | address name' rest' =>
    simp only [yield, List.cons_append, List.append_assoc, List.nil_append, List.cons.injEq] at h
    obtain ⟨hname, htail⟩ := h
    cases hname
    have hover := hrest rest' hd hd' trivial trivial htail
    exact (overlap_address_addressStep hs hover.symm).symm
  | @addressStep op' s' hs' name' rest' =>
    simp only [yield, List.cons_append, List.append_assoc, List.nil_append, List.cons.injEq] at h
    obtain ⟨hname, htail⟩ := h
    cases hname
    have hends : ∀ {op : BinaryOp} {s : Symbol} (us : List Token), stepSign? op = some s →
        Nonterminal.segments.EndsBefore (.symbol s :: us) := by
      intro op s us hs
      exact loose_cons (by rw [grip_stepSign hs]; decide)
    obtain ⟨rfl, htokens⟩ := (hrest rest' hd hd' trivial trivial htail).eq (hends _ hs)
      (hends _ hs')
    obtain ⟨hsign, rfl⟩ := List.cons.inj htokens
    cases hsign
    obtain rfl : op = op' := Option.some.inj
      ((stepOp?_eq_some_iff.2 hs).symm.trans (stepOp?_eq_some_iff.2 hs'))
    exact .same rfl rfl
  | primary inner => exact (ne_primary_of_name h).elim

theorem overlaps_primary {inner : Derivation .primary} (hinner : inner.Overlaps) :
    (Derivation.primary inner).Overlaps := by
  intro d' ts ts' hd hd' _ _ h
  cases d' with
  | address name rest => exact (ne_primary_of_name h.symm).elim
  | addressStep hs name rest => exact (ne_primary_of_name h.symm).elim
  | primary inner' =>
    exact (hinner inner' hd hd' trivial trivial h).map .primary (fun _ _ => trivial)
      fun _ _ hless => hless

/-! ### Segments -/

/-- An address goes on where a segment follows. -/
theorem longer_segmentsEnd {d : Derivation .segments} {s : Symbol}
    (hsign : Grammar.grip (.symbol s) = 7) (h : ts = .symbol s :: us)
    (hmore : ∀ keys, nodesAll keys < nodesAll (d.meaning keys)) :
    Overlap .segmentsEnd ts d ts' := by
  subst h
  refine .longer (fun hus => ?_) hmore
  exact absurd (hus _ rfl) (by omega)

/-- A bracket, a comma or a colon ends the expression before it. -/
theorem Overlap.eq_of_sign {e e' : Derivation .expression} {s s' : Symbol}
    (h : Overlap e (.symbol s :: ts) e' (.symbol s' :: ts'))
    (hs : Grammar.grip (.symbol s) = 0) (hs' : Grammar.grip (.symbol s') = 0) :
    e = e' ∧ s = s' ∧ ts = ts' := by
  have hends : ∀ {s : Symbol} (us : List Token), Grammar.grip (.symbol s) = 0 →
      Nonterminal.expression.EndsBefore (.symbol s :: us) := by
    intro s us hs
    exact loose_cons (by rw [hs]; decide)
  obtain ⟨he, htokens⟩ := h.eq (hends _ hs) (hends _ hs')
  obtain ⟨hsign, hts⟩ := List.cons.inj htokens
  exact ⟨he, Token.symbol.inj hsign, hts⟩

theorem overlaps_segmentsEnd : Derivation.segmentsEnd.Overlaps := by
  intro d' ts ts' _ _ _ _ h
  cases d' with
  | segmentsEnd => exact .same rfl h
  | property name rest => exact longer_segmentsEnd rfl h (nodesAll_lt_property name rest)
  | index key rest => exact longer_segmentsEnd rfl h (nodesAll_lt_index key rest)
  | call arguments rest => exact longer_segmentsEnd rfl h (nodesAll_lt_call arguments rest)

theorem overlaps_property {name : String} {rest : Derivation .segments} (hrest : rest.Overlaps) :
    (Derivation.property name rest).Overlaps := by
  intro d' ts ts' hd hd' _ _ h
  cases d' with
  | segmentsEnd => exact (longer_segmentsEnd rfl h.symm (nodesAll_lt_property name rest)).symm
  | property name' rest' =>
    simp only [yield, List.cons_append, List.cons.injEq, true_and] at h
    obtain ⟨hname, htail⟩ := h
    cases hname
    exact (hrest rest' hd hd' trivial trivial htail).map (.property name) (fun _ hus => hus)
      fun _ _ hless _ => hless _
  | index key rest' | call arguments rest' => cases (List.cons.inj h).1

theorem overlaps_index {key : Derivation .expression} {rest : Derivation .segments}
    (hkey : key.Overlaps) (hrest : rest.Overlaps) : (Derivation.index key rest).Overlaps := by
  intro d' ts ts' hd hd' _ _ h
  cases d' with
  | segmentsEnd => exact (longer_segmentsEnd rfl h.symm (nodesAll_lt_index key rest)).symm
  | index key' rest' =>
    simp only [yield, List.cons_append, List.append_assoc, List.cons.injEq, true_and] at h
    obtain ⟨rfl, -, htail⟩ := (hkey key' hd.1 hd'.1 trivial trivial h).eq_of_sign rfl rfl
    exact (hrest rest' hd.2 hd'.2 trivial trivial htail).map (.index key) (fun _ hus => hus)
      fun _ _ hless _ => hless _
  | property name rest' | call arguments rest' => cases (List.cons.inj h).1

theorem overlaps_call {arguments : Derivation .items} {rest : Derivation .segments}
    (harguments : arguments.Overlaps) (hrest : rest.Overlaps) :
    (Derivation.call arguments rest).Overlaps := by
  intro d' ts ts' hd hd' _ _ h
  cases d' with
  | segmentsEnd => exact (longer_segmentsEnd rfl h.symm (nodesAll_lt_call arguments rest)).symm
  | call arguments' rest' =>
    simp only [yield, List.cons_append, List.append_assoc, List.cons.injEq, true_and] at h
    obtain ⟨rfl, htokens⟩ := (harguments arguments' hd.1 hd'.1 (.inl rfl) (.inl rfl) h).eq
      (.inl rfl) (.inl rfl)
    exact (hrest rest' hd.2 hd'.2 trivial trivial (List.cons.inj htokens).2).map (.call arguments)
      (fun _ hus => hus) fun _ _ hless _ => hless _
  | property name rest' | index key rest' => cases (List.cons.inj h).1

/-! ### Primary expressions -/

theorem overlaps_int (n : Int32) : (Derivation.int n).Overlaps := by
  intro d' ts ts' _ _ _ _ h
  cases d' with
  | int n' =>
    obtain ⟨htoken, hts⟩ := List.cons.inj h
    cases htoken
    exact .same rfl hts
  | _ => cases (List.cons.inj h).1

theorem overlaps_double (x : Double) : (Derivation.double x).Overlaps := by
  intro d' ts ts' _ _ _ _ h
  cases d' with
  | double x' =>
    obtain ⟨htoken, hts⟩ := List.cons.inj h
    cases htoken
    exact .same rfl hts
  | _ => cases (List.cons.inj h).1

theorem overlaps_string (s : String) : (Derivation.string s).Overlaps := by
  intro d' ts ts' _ _ _ _ h
  cases d' with
  | string s' =>
    obtain ⟨htoken, hts⟩ := List.cons.inj h
    cases htoken
    exact .same rfl hts
  | _ => cases (List.cons.inj h).1

theorem overlaps_parens {e : Derivation .expression} (he : e.Overlaps) :
    (Derivation.parens e).Overlaps := by
  intro d' ts ts' hd hd' _ _ h
  cases d' with
  | parens e' =>
    simp only [yield, List.cons_append, List.append_assoc, List.nil_append, List.cons.injEq,
      true_and] at h
    obtain ⟨rfl, -, hts⟩ := (he e' hd hd' trivial trivial h).eq_of_sign rfl rfl
    exact .same rfl hts
  | _ => cases (List.cons.inj h).1

theorem overlaps_list {elements : Derivation .items} (helements : elements.Overlaps) :
    (Derivation.list elements).Overlaps := by
  intro d' ts ts' hd hd' _ _ h
  cases d' with
  | list elements' =>
    simp only [yield, List.cons_append, List.append_assoc, List.nil_append, List.cons.injEq,
      true_and] at h
    obtain ⟨rfl, htokens⟩ := (helements elements' hd hd' (.inr rfl) (.inr rfl) h).eq (.inr rfl)
      (.inr rfl)
    exact .same rfl (List.cons.inj htokens).2
  | _ => cases (List.cons.inj h).1

theorem overlaps_object {members : Derivation .entries} (hmembers : members.Overlaps) :
    (Derivation.object members).Overlaps := by
  intro d' ts ts' hd hd' _ _ h
  cases d' with
  | object members' =>
    simp only [yield, List.cons_append, List.append_assoc, List.nil_append, List.cons.injEq,
      true_and] at h
    have hends : ∀ us, Nonterminal.entries.EndsBefore (.symbol .rightBrace :: us) := fun _ => rfl
    obtain ⟨rfl, htokens⟩ := (hmembers members' hd hd' (hends _) (hends _) h).eq (hends _) (hends _)
    exact .same rfl (List.cons.inj htokens).2
  | _ => cases (List.cons.inj h).1

/-! ### Lists between brackets -/

/-- A closing bracket is not the beginning of an expression. -/
theorem not_start_of_closes {e : Derivation .expression}
    (hclose : Nonterminal.items.EndsBefore ts ∨ Nonterminal.entries.EndsBefore ts)
    (h : ts = e.yield ++ us) : False := by
  obtain ⟨t, more, hyield, hstart⟩ := e.exists_start (k := 3) rfl
  rw [hyield] at h
  subst h
  rcases hclose with (h | h) | h <;> cases h <;> exact absurd hstart (by decide)

/-- A closing bracket ends an expression. -/
theorem loose_of_closes
    (hclose : Nonterminal.items.EndsBefore ts ∨ Nonterminal.entries.EndsBefore ts) :
    Loose 1 ts := by
  intro t ht
  rcases hclose with (h | h) | h <;> cases h.symm.trans ht <;> decide

theorem overlaps_itemsNone : Derivation.itemsNone.Overlaps := by
  intro d' ts ts' _ _ hts _ h
  cases d' with
  | itemsNone => exact .same rfl h
  | itemsOne e => exact (not_start_of_closes (.inl hts) h).elim
  | itemsMore e rest =>
    exact (not_start_of_closes (.inl hts) (h.trans (List.append_assoc _ _ _))).elim

/-- An item ends at the bracket, or at a comma if there are others. -/
theorem ne_comma_of_items {e e' : Derivation .expression} (hts : Nonterminal.items.EndsBefore ts)
    (h : Overlap e ts e' (.symbol .comma :: us)) : False := by
  obtain ⟨-, rfl⟩ := h.eq (loose_of_closes (.inl hts)) (loose_cons (by decide))
  rcases hts with h | h <;> cases h

theorem overlaps_itemsOne {e : Derivation .expression} (he : e.Overlaps) :
    (Derivation.itemsOne e).Overlaps := by
  intro d' ts ts' hd hd' hts hts' h
  cases d' with
  | itemsNone => exact (not_start_of_closes (.inl hts') h.symm).elim
  | itemsOne e' =>
    obtain ⟨rfl, rfl⟩ := (he e' hd hd' trivial trivial h).eq (loose_of_closes (.inl hts))
      (loose_of_closes (.inl hts'))
    exact .same rfl rfl
  | itemsMore e' rest' =>
    simp only [yield, List.append_assoc, List.cons_append] at h
    exact (ne_comma_of_items hts (he e' hd hd'.1 trivial trivial h)).elim

theorem overlaps_itemsMore {e : Derivation .expression} {rest : Derivation .items}
    (he : e.Overlaps) (hrest : rest.Overlaps) : (Derivation.itemsMore e rest).Overlaps := by
  intro d' ts ts' hd hd' hts hts' h
  simp only [yield, List.append_assoc, List.cons_append] at h
  cases d' with
  | itemsNone => exact (not_start_of_closes (.inl hts') h.symm).elim
  | itemsOne e' => exact (ne_comma_of_items hts' (he e' hd.1 hd' trivial trivial h).symm).elim
  | itemsMore e' rest' =>
    simp only [yield, List.append_assoc, List.cons_append] at h
    obtain ⟨rfl, -, htail⟩ := (he e' hd.1 hd'.1 trivial trivial h).eq_of_sign rfl rfl
    obtain ⟨rfl, rfl⟩ := (hrest rest' hd.2 hd'.2 hts hts' htail).eq hts hts'
    exact .same rfl rfl

theorem overlaps_entriesNone : Derivation.entriesNone.Overlaps := by
  intro d' ts ts' _ _ hts _ h
  cases d' with
  | entriesNone => exact .same rfl h
  | entriesOne k v =>
    exact (not_start_of_closes (.inr hts) (h.trans (List.append_assoc _ _ _))).elim
  | entriesMore k v rest =>
    exact (not_start_of_closes (.inr hts) (h.trans (List.append_assoc _ _ _))).elim

theorem ne_comma_of_entries {v v' : Derivation .expression}
    (hts : Nonterminal.entries.EndsBefore ts) (h : Overlap v ts v' (.symbol .comma :: us)) :
    False := by
  obtain ⟨-, rfl⟩ := h.eq (loose_of_closes (.inr hts)) (loose_cons (by decide))
  cases hts

theorem overlaps_entriesOne {k v : Derivation .expression} (hk : k.Overlaps) (hv : v.Overlaps) :
    (Derivation.entriesOne k v).Overlaps := by
  intro d' ts ts' hd hd' hts hts' h
  simp only [yield, List.append_assoc, List.cons_append] at h
  cases d' with
  | entriesNone => exact (not_start_of_closes (.inr hts') h.symm).elim
  | entriesOne k' v' =>
    simp only [yield, List.append_assoc, List.cons_append] at h
    obtain ⟨rfl, -, htail⟩ := (hk k' hd.1 hd'.1 trivial trivial h).eq_of_sign rfl rfl
    obtain ⟨rfl, rfl⟩ := (hv v' hd.2 hd'.2 trivial trivial htail).eq (loose_of_closes (.inr hts))
      (loose_of_closes (.inr hts'))
    exact .same rfl rfl
  | entriesMore k' v' rest' =>
    simp only [yield, List.append_assoc, List.cons_append] at h
    obtain ⟨rfl, -, htail⟩ := (hk k' hd.1 hd'.1 trivial trivial h).eq_of_sign rfl rfl
    exact (ne_comma_of_entries hts (hv v' hd.2 hd'.2.1 trivial trivial htail)).elim

theorem overlaps_entriesMore {k v : Derivation .expression} {rest : Derivation .entries}
    (hk : k.Overlaps) (hv : v.Overlaps) (hrest : rest.Overlaps) :
    (Derivation.entriesMore k v rest).Overlaps := by
  intro d' ts ts' hd hd' hts hts' h
  simp only [yield, List.append_assoc, List.cons_append] at h
  cases d' with
  | entriesNone => exact (not_start_of_closes (.inr hts') h.symm).elim
  | entriesOne k' v' =>
    simp only [yield, List.append_assoc, List.cons_append] at h
    obtain ⟨rfl, -, htail⟩ := (hk k' hd.1 hd'.1 trivial trivial h).eq_of_sign rfl rfl
    exact (ne_comma_of_entries hts' (hv v' hd.2.1 hd'.2 trivial trivial htail).symm).elim
  | entriesMore k' v' rest' =>
    simp only [yield, List.append_assoc, List.cons_append] at h
    obtain ⟨rfl, -, htail⟩ := (hk k' hd.1 hd'.1 trivial trivial h).eq_of_sign rfl rfl
    obtain ⟨rfl, -, htail⟩ := (hv v' hd.2.1 hd'.2.1 trivial trivial htail).eq_of_sign rfl rfl
    obtain ⟨rfl, rfl⟩ := (hrest rest' hd.2.2 hd'.2.2 hts hts' htail).eq hts hts'
    exact .same rfl rfl

end Productions

/-! ## Derivations -/

/-- Two derivations of tokens that begin alike are the same, or the one that ends earlier
    has fewer nodes and ends where it may not. -/
theorem Derivation.overlaps {n : Nonterminal} (d : Derivation n) : d.Overlaps := by
  induction d with
  | print arguments ih => exact overlaps_print ih
  | statement e ih => exact overlaps_statement ih
  | printedNone => exact overlaps_printedNone
  | printedSome first rest ihf ihr => exact overlaps_printedSome ihf ihr
  | printedEnd => exact overlaps_printedEnd
  | printedMore next rest ihn ihr => exact overlaps_printedMore ihn ihr
  | value e ih => exact overlaps_value ih
  | assign hs target right iht ihr => exact overlaps_assign hs iht ihr
  | chain first rest ihf ihr => exact overlaps_chain ihf ihr
  | chainEnd => exact overlaps_chainEnd
  | chainMore hop right rest ihr ihs => exact overlaps_chainMore hop ihr ihs
  | tighter hq inner ih => exact overlaps_tighter hq ih
  | operand inner ih => exact overlaps_operand ih
  | minus inner ih => exact overlaps_minus ih
  | step hs inner ih => exact overlaps_step hs ih
  | unsigned inner ih => exact overlaps_unsigned ih
  | address name rest ih => exact overlaps_address ih
  | addressStep hs name rest ih => exact overlaps_addressStep hs ih
  | primary inner ih => exact overlaps_primary ih
  | segmentsEnd => exact overlaps_segmentsEnd
  | property name rest ih => exact overlaps_property ih
  | index key rest ihk ihr => exact overlaps_index ihk ihr
  | call arguments rest iha ihr => exact overlaps_call iha ihr
  | int n => exact overlaps_int n
  | double x => exact overlaps_double x
  | string s => exact overlaps_string s
  | parens e ih => exact overlaps_parens ih
  | list elements ih => exact overlaps_list ih
  | object members ih => exact overlaps_object ih
  | itemsNone => exact overlaps_itemsNone
  | itemsOne e ih => exact overlaps_itemsOne ih
  | itemsMore e rest ihe ihr => exact overlaps_itemsMore ihe ihr
  | entriesNone => exact overlaps_entriesNone
  | entriesOne k v ihk ihv => exact overlaps_entriesOne ihk ihv
  | entriesMore k v rest ihk ihv ihr => exact overlaps_entriesMore ihk ihv ihr

/-- The next token tells where a derivation ends: two that end where they may, of tokens
    that begin alike, are the same. -/
theorem Derivation.unique {n : Nonterminal} {d d' : Derivation n} {ts ts' : List Token}
    (hd : d.TargetsIdentifiers) (hd' : d'.TargetsIdentifiers) (hts : n.EndsBefore ts)
    (hts' : n.EndsBefore ts') (h : d.yield ++ ts = d'.yield ++ ts') : d = d' ∧ ts = ts' := by
  have hcloses : ∀ us, n.EndsBefore us → n.Closes us := by
    intro us hus
    cases n with
    | items | entries => exact hus
    | _ => trivial
  exact (d.overlaps d' hd hd' (hcloses _ hts) (hcloses _ hts') h).eq hts hts'

/-! ## Programs -/

theorem Derivation.semicolon_cons_ne (d : Derivation .statement) {ts us : List Token} :
    .symbol .semicolon :: us ≠ d.yield ++ ts := by
  intro h
  cases d with
  | print arguments => cases (List.cons.inj h).1
  | statement e => exact absurd (start_le_of_yield (d := e) rfl h) (by decide)

/-- Statements with the same meaning, of tokens that begin alike, are the same, though
    nothing is said of what stands behind them. -/
theorem Derivation.eq_of_meaning {d d' : Derivation .statement} {ts ts' : List Token}
    (hd : d.TargetsIdentifiers) (hd' : d'.TargetsIdentifiers) (hmeaning : d.meaning = d'.meaning)
    (h : d.yield ++ ts = d'.yield ++ ts') : d = d' ∧ ts = ts' := by
  have hnodes : Expr.nodes d.meaning = Expr.nodes d'.meaning := congrArg Expr.nodes hmeaning
  cases d.overlaps d' hd hd' trivial trivial h with
  | same hdd hts => exact ⟨hdd, hts⟩
  | longer _ hfewer => exact absurd hnodes (Nat.ne_of_lt hfewer)
  | shorter _ hfewer => exact absurd hnodes (Nat.ne_of_gt hfewer)

/-- Tokens are spelled with the same meanings in one way only. -/
theorem Spells.unique {ts : List Token} {ds ds' : List (Derivation .statement)}
    (h : Spells ts ds) (h' : Spells ts ds')
    (hmeaning : ds.map (·.meaning) = ds'.map (·.meaning))
    (hds : ∀ d ∈ ds, d.TargetsIdentifiers) (hds' : ∀ d ∈ ds', d.TargetsIdentifiers) :
    ds = ds' := by
  induction h generalizing ds' with
  | nil => exact (List.map_eq_nil_iff.1 hmeaning.symm).symm
  | @semicolon ts ds _ ih =>
    generalize htokens : Token.symbol Symbol.semicolon :: ts = us at h'
    cases h' with
    | nil => cases htokens
    | semicolon h' =>
      obtain ⟨-, rfl⟩ := List.cons.inj htokens
      exact ih h' hmeaning hds hds'
    | statement d' h' => exact absurd htokens d'.semicolon_cons_ne
  | @statement ts ds d _ ih =>
    generalize htokens : d.yield ++ ts = us at h'
    cases h' with
    | nil => cases hmeaning
    | semicolon h' => exact absurd htokens.symm d.semicolon_cons_ne
    | statement d' h' =>
      obtain ⟨hd, hmore⟩ := List.forall_mem_cons.1 hds
      obtain ⟨hd', hmore'⟩ := List.forall_mem_cons.1 hds'
      obtain ⟨hfirst, hrest⟩ := List.cons.inj hmeaning
      obtain ⟨rfl, rfl⟩ := Derivation.eq_of_meaning hd hd' hfirst htokens
      rw [ih h' hrest hmore hmore']

end Grammar
end ScopeScript
