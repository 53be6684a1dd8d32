/-
  ScopeScript.Proofs.Grammar.Size

  How many nodes the trees of a token list have. A step and a compound assignment
  stand for an assignment that names its target twice, so a target that stands in
  the target of another is there four times, and so on: where targets of this
  kind stand `depth` deep one inside another, a token gives up to two to the
  power of `depth + 1` nodes. A print statement gives four by itself. The number
  of nodes is not bounded by a multiple of the number of tokens.
-/
import ScopeScript.Expr.Equality
import ScopeScript.Proofs.Expr.Size
import ScopeScript.Proofs.Grammar.Height
import ScopeScript.Proofs.Grammar.Completeness
import ScopeScript.Proofs.Grammar.Limit
import ScopeScript.Source

namespace ScopeScript
namespace Grammar

open ScopeScript.Expr

/-! ## Copied targets -/

/-- How often the tree of an assignment names its target again. -/
def AssignSign.copies : AssignSign → Nat
  | plain => 0
  | compound _ => 1

/-- How many targets that are named twice stand one inside another at most. -/
@[simp] def Derivation.copies : {n : Nonterminal} → Derivation n → Nat
  | _, print arguments => arguments.copies
  | _, statement e => e.copies
  | _, printedNone => 0
  | _, printedSome first rest => max first.copies rest.copies
  | _, printedEnd => 0
  | _, printedMore next rest => max next.copies rest.copies
  | _, value e => e.copies
  | _, @assign sign _ _ target right => max (target.copies + sign.copies) right.copies
  | _, chain first rest => max first.copies rest.copies
  | _, chainEnd => 0
  | _, chainMore _ right rest => max right.copies rest.copies
  | _, tighter _ inner => inner.copies
  | _, operand inner => inner.copies
  | _, minus inner => inner.copies
  | _, step _ inner => inner.copies + 1
  | _, unsigned inner => inner.copies
  | _, address _ rest => rest.copies
  | _, addressStep _ _ rest => rest.copies + 1
  | _, primary inner => inner.copies
  | _, segmentsEnd => 0
  | _, property _ rest => rest.copies
  | _, index key rest => max key.copies rest.copies
  | _, call arguments rest => max arguments.copies rest.copies
  | _, int _ => 0
  | _, double _ => 0
  | _, string _ => 0
  | _, parens e => e.copies
  | _, list elements => elements.copies
  | _, object members => members.copies
  | _, itemsNone => 0
  | _, itemsOne e => e.copies
  | _, itemsMore e rest => max e.copies rest.copies
  | _, entriesNone => 0
  | _, entriesOne k v => max k.copies v.copies
  | _, entriesMore k v rest => max (max k.copies v.copies) rest.copies

/-! ## The bound -/

/-- How many nodes a token gives at most where targets are copied `depth` deep. -/
def growth (depth : Nat) : Nat :=
  2 ^ (depth + 1)

theorem growth_succ (depth : Nat) : growth (depth + 1) = growth depth + growth depth := by
  rw [growth, Nat.pow_succ, Nat.mul_two, growth]

theorem two_le_growth (depth : Nat) : 2 ≤ growth depth :=
  Nat.le_self_pow (Nat.succ_ne_zero depth) 2

theorem one_le_growth (depth : Nat) : 1 ≤ growth depth :=
  Nat.le_of_succ_le (two_le_growth depth)

/-- What `k` tokens stand for has at most `w` nodes for each. What follows in a
    chain or in an address adds so many to the tree or the keys so far. -/
def Nonterminal.SizeBound (w k : Nat) : (n : Nonterminal) → n.Meaning → Prop
  | statement, e => e.nodes ≤ max w 4 * k
  | expression, e | chain _, e | operand _, e | unary, e | suffixed, e | primary, e =>
    e.nodes ≤ w * k
  | chainRest _, f => ∀ left : Expr, (f left).nodes ≤ left.nodes + w * k
  | segments, f => ∀ keys : List Expr, nodesAll (f keys) ≤ nodesAll keys + w * k
  | printed, es | printedRest, es | items, es => nodesAll es ≤ w * k
  | entries, ps => nodesEntries ps ≤ w * k

variable {w i j k depth : Nat}

/-- More tokens give a bound that is no less. -/
theorem Nonterminal.SizeBound.mono {n : Nonterminal} {x : n.Meaning} (h : n.SizeBound w i x)
    (hk : i ≤ k) : n.SizeBound w k x := by
  have hle : w * i ≤ w * k := Nat.mul_le_mul_left w hk
  cases n with
  | statement => exact Nat.le_trans h (Nat.mul_le_mul_left _ hk)
  | chainRest p => exact fun left => Nat.le_trans (h left) (Nat.add_le_add_left hle _)
  | segments => exact fun keys => Nat.le_trans (h keys) (Nat.add_le_add_left hle _)
  | _ => exact Nat.le_trans h hle

/-- Parts of a yield bound together what they bound apart. -/
theorem sizeBound_add {a b : Nat} (ha : a ≤ w * i) (hb : b ≤ w * j) : a + b ≤ w * (i + j) := by
  rw [Nat.mul_add]
  exact Nat.add_le_add ha hb

/-- A node for a token. -/
theorem sizeBound_one (hw : 1 ≤ w) : 1 ≤ w * 1 := by
  rw [Nat.mul_one]
  exact hw

/-- What a token opens has a node above its parts. -/
theorem sizeBound_above {a : Nat} (hw : 1 ≤ w) (ha : a ≤ w * k) : 1 + a ≤ w * (k + 1) := by
  rw [Nat.mul_add_one]
  omega

/-! ### Steps, assignments and print statements -/

/-- A tree whose nodes are counted to `w` a token gives a step by a further token
    whose nodes are counted to twice as much. -/
theorem sizeBound_stepped {e : Expr} (op : BinaryOp) (yieldsOld : Bool) (hw : 2 ≤ w)
    (h : e.nodes ≤ w * k) : (stepped op e.location yieldsOld).nodes ≤ (w + w) * (k + 1) := by
  have hlocation := nodesAll_location_lt e
  rw [nodes_stepped, Nat.add_mul, Nat.mul_add_one]
  omega

theorem sizeBound_plain {target right : Expr} (hw : 1 ≤ w) (htarget : target.nodes ≤ w * i)
    (hright : right.nodes ≤ w * j) :
    (assigned .plain target.location right).nodes ≤ w * (i + (j + 1)) := by
  have hlocation := nodesAll_location_lt target
  rw [nodes_plain, Nat.mul_add, Nat.mul_add_one]
  omega

theorem sizeBound_compound {target right : Expr} (op : BinaryOp) (hw : 1 ≤ w)
    (htarget : target.nodes ≤ w * i) (hright : right.nodes ≤ (w + w) * j) :
    (assigned (.compound op) target.location right).nodes ≤ (w + w) * (i + (j + 1)) := by
  have hlocation := nodesAll_location_lt target
  rw [nodes_compound, Nat.mul_add, Nat.mul_add_one, Nat.add_mul]
  omega

theorem sizeBound_printCall {arguments : List Expr} (h : nodesAll arguments ≤ w * k) :
    (printCall arguments).nodes ≤ max w 4 * (k + 1) := by
  have hmax : w * k ≤ max w 4 * k := Nat.mul_le_mul_right k (Nat.le_max_left w 4)
  rw [nodes_printCall, Nat.mul_add_one]
  omega

/-! ### Chains and signs -/

theorem sizeBound_chain {first : Expr} {p : Precedence} {f : Expr → Expr}
    (hfirst : first.nodes ≤ w * i) (hrest : Nonterminal.SizeBound w j (.chainRest p) f) :
    (f first).nodes ≤ w * (i + j) :=
  calc (f first).nodes
    _ ≤ first.nodes + w * j := hrest first
    _ ≤ w * (i + j) := sizeBound_add hfirst (Nat.le_refl _)

/-- The sign of an operator is a token, and the operation a node. -/
theorem sizeBound_chainMore {p : Precedence} {op : BinaryOp} {right : Expr} {f : Expr → Expr}
    (hw : 1 ≤ w) (hright : right.nodes ≤ w * i)
    (hrest : Nonterminal.SizeBound w j (.chainRest p) f) :
    Nonterminal.SizeBound w (i + j + 1) (.chainRest p)
      (fun left => f (.binary nowhere op left right)) := by
  intro left
  have hle := hrest (.binary nowhere op left right)
  rw [Expr.nodes] at hle
  show (f (.binary nowhere op left right)).nodes ≤ _
  rw [Nat.mul_add_one, Nat.mul_add]
  omega

theorem sizeBound_negated {e : Expr} (hw : 2 ≤ w) (h : e.nodes ≤ w * k) :
    (negated e).nodes ≤ w * (k + 1) := by
  have hle := nodes_negated_le e
  rw [Nat.mul_add_one]
  omega

/-! ### Addresses -/

/-- An address read is a node above its keys, of which the first is the name. -/
theorem sizeBound_read {f : List Expr → List Expr} (name : String) (hw : 2 ≤ w)
    (h : Nonterminal.SizeBound w k .segments f) :
    (Expr.read nowhere (f [.string nowhere name])).nodes ≤ w * (k + 1) := by
  have hkeys := h [.string nowhere name]
  have hname : nodesAll [.string nowhere name] = 1 := rfl
  rw [Expr.nodes, Nat.mul_add_one]
  omega

theorem sizeBound_key {key : Expr} {f : List Expr → List Expr} (hkey : key.nodes ≤ w * i)
    (h : Nonterminal.SizeBound w j .segments f) :
    Nonterminal.SizeBound w (i + j) .segments (fun keys => f (keys ++ [key])) := by
  intro keys
  have hle := h (keys ++ [key])
  rw [nodesAll_concat] at hle
  show nodesAll (f (keys ++ [key])) ≤ _
  rw [Nat.mul_add]
  omega

/-- A call puts the keys so far below itself. -/
theorem sizeBound_call {arguments : List Expr} {f : List Expr → List Expr} (hw : 1 ≤ w)
    (harguments : nodesAll arguments ≤ w * i) (h : Nonterminal.SizeBound w j .segments f) :
    Nonterminal.SizeBound w (i + j + 1) .segments
      (fun keys => f [.call nowhere keys arguments]) := by
  intro keys
  have hle := h [.call nowhere keys arguments]
  rw [nodesAll, nodesAll, Expr.nodes] at hle
  show nodesAll (f [.call nowhere keys arguments]) ≤ _
  rw [Nat.mul_add_one, Nat.mul_add]
  omega

/-! ### Derivations -/

/-- What copies a target once more copies what is in it one time less deep. -/
theorem exists_growth {copies : Nat} (h : copies + 1 ≤ depth) :
    ∃ inner, copies ≤ inner ∧ growth depth = growth inner + growth inner := by
  obtain ⟨inner, rfl, hinner⟩ := exists_level h
  exact ⟨inner, hinner, growth_succ inner⟩

/-- A derivation that copies targets `depth` deep means a tree within the bound
    for its tokens. -/
theorem Derivation.sizeBound {n : Nonterminal} (d : Derivation n) (h : d.copies ≤ depth) :
    n.SizeBound (growth depth) d.yield.length d.meaning := by
  -- The lemmas count tokens part by part, and `mono` counts them as the yield has them.
  induction d generalizing depth with
  | print arguments ih => exact sizeBound_printCall (ih h)
  | statement e ih => exact Nat.le_trans (ih h) (Nat.mul_le_mul_right _ (Nat.le_max_left _ 4))
  | printedNone | printedEnd | itemsNone | entriesNone => exact Nat.zero_le _
  | printedSome first rest ihf ihr =>
    rw [copies, Nat.max_le] at h
    rw [yield, List.length_append]
    exact sizeBound_add (ihf h.1) (ihr h.2)
  | printedMore next rest ihn ihr =>
    rw [copies, Nat.max_le] at h
    rw [yield, List.length_cons, List.length_append]
    exact (sizeBound_add (ihn h.1) (ihr h.2)).trans (Nat.mul_le_mul_left _ (Nat.le_succ _))
  | value _ ih | operand _ ih | unsigned _ ih | primary _ ih | itemsOne _ ih => exact ih h
  | @assign sign s hs target right iht ihr =>
    rw [copies, Nat.max_le] at h
    rw [yield, List.length_append, List.length_cons]
    have hright := ihr h.2
    cases sign with
    | plain => exact sizeBound_plain (one_le_growth depth) (iht h.1) hright
    | compound op =>
      obtain ⟨inner, hinner, hgrowth⟩ := exists_growth h.1
      rw [hgrowth] at hright ⊢
      exact sizeBound_compound op (one_le_growth inner) (iht hinner) hright
  | chain first rest ihf ihr =>
    rw [copies, Nat.max_le] at h
    rw [yield, List.length_append]
    exact sizeBound_chain (ihf h.1) (ihr h.2)
  | chainEnd => exact fun left => Nat.le_add_right _ _
  | chainMore hop right rest ihr ihs =>
    rw [copies, Nat.max_le] at h
    rw [yield, List.length_cons, List.length_append]
    exact sizeBound_chainMore (one_le_growth depth) (ihr h.1) (ihs h.2)
  | tighter _ _ ih => exact ih h
  | minus inner ih => exact sizeBound_negated (two_le_growth depth) (ih h)
  | step hs inner ih =>
    obtain ⟨less, hless, hgrowth⟩ := exists_growth h
    rw [hgrowth]
    exact sizeBound_stepped _ _ (two_le_growth less) (ih hless)
  | address name rest ih => exact sizeBound_read name (two_le_growth depth) (ih h)
  | addressStep hs name rest ih =>
    obtain ⟨less, hless, hgrowth⟩ := exists_growth h
    have hw := two_le_growth less
    rw [yield, List.length_cons, List.length_append, List.length_singleton, hgrowth]
    exact sizeBound_stepped _ _ hw (sizeBound_read name hw (ih hless))
  | segmentsEnd => exact fun keys => Nat.le_add_right _ _
  | property name rest ih =>
    have hname : (Expr.string nowhere name).nodes ≤ growth depth * 1 :=
      sizeBound_one (one_le_growth depth)
    refine (sizeBound_key hname (ih h)).mono ?_
    rw [yield, List.length_cons, List.length_cons]
    omega
  | index key rest ihk ihr =>
    rw [copies, Nat.max_le] at h
    refine (sizeBound_key (ihk h.1) (ihr h.2)).mono ?_
    rw [yield, List.length_cons, List.length_append, List.length_cons]
    omega
  | call arguments rest iha ihr =>
    rw [copies, Nat.max_le] at h
    refine (sizeBound_call (one_le_growth depth) (iha h.1) (ihr h.2)).mono ?_
    rw [yield, List.length_cons, List.length_append, List.length_cons]
    omega
  | int _ | double _ | string _ => exact sizeBound_one (one_le_growth depth)
  | parens e ih =>
    refine Nonterminal.SizeBound.mono (n := .primary) (ih h) ?_
    rw [yield, List.length_cons, List.length_append]
    omega
  | list elements ih | object members ih =>
    refine Nonterminal.SizeBound.mono (n := .primary)
      (sizeBound_above (one_le_growth depth) (ih h)) ?_
    rw [yield, List.length_cons, List.length_append]
    omega
  | itemsMore e rest ihe ihr =>
    rw [copies, Nat.max_le] at h
    refine Nonterminal.SizeBound.mono (n := .items) (sizeBound_add (ihe h.1) (ihr h.2)) ?_
    rw [yield, List.length_append, List.length_cons]
    omega
  | entriesOne k v ihk ihv =>
    rw [copies, Nat.max_le] at h
    have hnone : nodesEntries [] ≤ growth depth * 0 := Nat.zero_le _
    refine Nonterminal.SizeBound.mono (n := .entries)
      (sizeBound_add (sizeBound_add (ihk h.1) (ihv h.2)) hnone) ?_
    rw [yield, List.length_append, List.length_cons]
    omega
  | entriesMore k v rest ihk ihv ihr =>
    rw [copies, Nat.max_le, Nat.max_le] at h
    refine Nonterminal.SizeBound.mono (n := .entries)
      (sizeBound_add (sizeBound_add (ihk h.1.1) (ihv h.1.2)) (ihr h.2)) ?_
    rw [yield, List.length_append, List.length_cons, List.length_append, List.length_cons]
    omega

/-! ## Programs -/

theorem Spells.nodesAll_le {ts : List Token} {ds : List (Derivation .statement)} (h : Spells ts ds)
    (hd : ∀ d ∈ ds, d.copies ≤ depth) :
    nodesAll (ds.map (·.meaning)) ≤ max (growth depth) 4 * ts.length := by
  induction h with
  | nil => exact Nat.zero_le _
  | semicolon _ ih => exact Nat.le_trans (ih hd) (Nat.mul_le_mul_left _ (Nat.le_succ _))
  | statement d _ ih =>
    obtain ⟨hcopies, hds⟩ := List.forall_mem_cons.1 hd
    rw [List.length_append]
    exact sizeBound_add (d.sizeBound hcopies) (ih hds)

/-- A program has at most sixteen nodes for each of its tokens if its targets of
    steps and compound assignments stand at most three deep one inside another, in
    a key or in an argument of a call, and twice as many for every one that they
    stand deeper. This is so for all derivations that spell the tokens and have the
    meaning of the program, and there are some. -/
theorem nodesAll_statements_le {limit size : Nat} {tokens : List Lexeme} {p : Program}
    (h : Program.ofLexemes limit size tokens = .ok p) :
    (∃ ds, Spells (tokens.map (·.token)) ds ∧ ds.map (·.meaning) = p.statements.map bare) ∧
    ∀ ds, Spells (tokens.map (·.token)) ds → ds.map (·.meaning) = p.statements.map bare →
      ((∀ d ∈ ds, d.copies ≤ 3) → nodesAll p.statements ≤ 16 * tokens.length) ∧
      ∀ depth, (∀ d ∈ ds, d.copies ≤ depth) →
        nodesAll p.statements ≤ max (2 ^ (depth + 1)) 4 * tokens.length := by
  obtain ⟨ds, hspells, hmeaning, -, -⟩ := exists_spells h
  refine ⟨⟨ds, hspells, hmeaning⟩, fun ds hspells hmeaning => ?_⟩
  have hbound : ∀ depth, (∀ d ∈ ds, d.copies ≤ depth) →
      nodesAll p.statements ≤ max (growth depth) 4 * tokens.length := by
    intro depth hd
    have hle := hspells.nodesAll_le hd
    rwa [hmeaning, nodesAll_map_bare, List.length_map] at hle
  exact ⟨hbound 3, hbound⟩

/-- In `f(a++)[i++]++` two steps stand in the target of a third one, the one as an
    argument and the other as a key. -/
theorem nodesAll_statements_le_step :
    let tokens : List Lexeme := [⟨.name "f", ⟨0, 1⟩⟩, ⟨.symbol .leftParen, ⟨1, 2⟩⟩,
      ⟨.name "a", ⟨2, 3⟩⟩, ⟨.symbol .increment, ⟨3, 5⟩⟩, ⟨.symbol .rightParen, ⟨5, 6⟩⟩,
      ⟨.symbol .leftBracket, ⟨6, 7⟩⟩, ⟨.name "i", ⟨7, 8⟩⟩, ⟨.symbol .increment, ⟨8, 10⟩⟩,
      ⟨.symbol .rightBracket, ⟨10, 11⟩⟩, ⟨.symbol .increment, ⟨11, 13⟩⟩]
    let stepOf (address : List Expr) (span : Span) : Expr := Grammar.step .add address span true
    let p : Program := ⟨[stepOf [.call ⟨0, 6⟩ [.string ⟨0, 1⟩ "f"]
      [stepOf [.string ⟨2, 3⟩ "a"] ⟨2, 5⟩], stepOf [.string ⟨7, 8⟩ "i"] ⟨7, 10⟩] ⟨0, 13⟩]⟩
    let stepping (name : String) (rest : Derivation .segments) : Derivation .expression :=
      .expressionOf (.unsigned (@Derivation.addressStep .add .increment rfl name rest))
    let d : Derivation .statement := .statement (stepping "f" (.call
      (.itemsOne (stepping "a" .segmentsEnd)) (.index (stepping "i" .segmentsEnd) .segmentsEnd)))
    Program.ofLexemes 3 13 tokens = .ok p ∧ Spells (tokens.map (·.token)) [d] ∧
      [d].map (·.meaning) = p.statements.map bare ∧ d.copies = 2 ∧
      nodesAll p.statements ≤ 16 * tokens.length ∧
      nodesAll p.statements ≤ max (2 ^ (2 + 1)) 4 * tokens.length := by
  intro tokens stepOf p stepping d
  have hp : Program.ofLexemes 3 13 tokens = .ok p := by decide +kernel
  have hspells : Spells (tokens.map (·.token)) [d] := .statement d .nil
  have hmeaning : [d].map (·.meaning) = p.statements.map bare := rfl
  have hcopies : d.copies = 2 := rfl
  obtain ⟨hthree, hdepth⟩ := (nodesAll_statements_le hp).2 [d] hspells hmeaning
  have htwo : ∀ c ∈ [d], c.copies ≤ 2 := List.forall_mem_singleton.2 (Nat.le_of_eq hcopies)
  exact ⟨hp, hspells, hmeaning, hcopies, hthree fun c hc => Nat.le_succ_of_le (htwo c hc),
    hdepth 2 htwo⟩

/-- A text of 27 tokens with four steps one inside another has more than sixteen
    nodes for each. -/
theorem nodesAll_above_sixteen :
    let source := "a[a[a[a[- - - - - - - - - - a]++]++]++]++"
    ∃ tokens p, tokenize source = .ok tokens ∧
      Program.ofLexemes 100 source.utf8ByteSize tokens = .ok p ∧
      16 * tokens.length < nodesAll p.statements := by
  intro source
  have hlarge : ∃ tokens ∈ (tokenize source).toOption,
      ∃ p ∈ (Program.ofLexemes 100 source.utf8ByteSize tokens).toOption,
        16 * tokens.length < nodesAll p.statements := by decide +kernel
  obtain ⟨tokens, htokens, p, hp, hlarge⟩ := hlarge
  exact ⟨tokens, p, eq_ok_of_mem_toOption htokens, eq_ok_of_mem_toOption hp, hlarge⟩

/-! ## Growth -/

/-- `m` steps, each in the target of the next. -/
def stepsInside : Nat → Derivation .suffixed
  | 0 => .address "a" .segmentsEnd
  | m + 1 => @Derivation.addressStep .add .increment rfl "a"
    (.index (Derivation.expressionOf (.unsigned (stepsInside m))) .segmentsEnd)

theorem stepsInside_correct (m : Nat) :
    (stepsInside m).TargetsIdentifiers ∧ (stepsInside m).yield.length = 4 * m + 1 ∧
      2 ^ (m + 1) ≤ Expr.nodes (stepsInside m).meaning := by
  induction m with
  | zero => exact ⟨trivial, rfl, Nat.le_refl 2⟩
  | succ m ih =>
    obtain ⟨htargets, hyield, hnodes⟩ := ih
    refine ⟨⟨(Derivation.targetsIdentifiers_expressionOf _).2 htargets, trivial⟩, ?_, ?_⟩
    · simp only [stepsInside, Derivation.yield, Derivation.yield_expressionOf, List.length_cons,
        List.length_append, List.length_nil, hyield]
      omega
    · show 2 ^ (m + 2) ≤ (stepped .add [.string nowhere "a", (stepsInside m).meaning] true).nodes
      rw [nodes_stepped, nodesAll, nodesAll, nodesAll, Nat.pow_succ]
      omega

theorem exists_ofLexemes_stepsInside (m : Nat) :
    ∃ limit size tokens p, Program.ofLexemes limit size tokens = .ok p ∧
      tokens.length = 4 * m + 1 ∧ 2 ^ (m + 1) ≤ nodesAll p.statements := by
  obtain ⟨htargets, hyield, hnodes⟩ := stepsInside_correct m
  generalize stepsInside m = inner at *
  let d : Derivation .statement := .statement (Derivation.expressionOf (.unsigned inner))
  have htokens : (d.yield.map (Lexeme.mk · nowhere)).map (·.token) = d.yield := by
    rw [List.map_map]
    exact List.map_id _
  obtain ⟨e, he, hmeaning⟩ := exists_ofLexemes 0
    ((Derivation.targetsIdentifiers_expressionOf _).2 htargets) (Nat.le_refl d.levels) htokens
  refine ⟨_, _, _, _, he, ?_, ?_⟩
  · rw [List.length_map, ← hyield]
    exact congrArg List.length (Derivation.yield_expressionOf _)
  · rw [nodesAll, nodesAll, ← nodes_bare, hmeaning]
    exact hnodes

/-- No multiple of the number of tokens bounds the number of nodes. -/
theorem exists_nodesAll_gt (c : Nat) :
    ∃ limit size tokens p, Program.ofLexemes limit size tokens = .ok p ∧
      c * tokens.length < nodesAll p.statements := by
  obtain ⟨limit, size, tokens, p, hp, hlength, hnodes⟩ := exists_ofLexemes_stepsInside (2 * c + 6)
  refine ⟨limit, size, tokens, p, hp, Nat.lt_of_lt_of_le ?_ hnodes⟩
  have hc : c < 2 ^ c := Nat.lt_two_pow_self
  rw [hlength]
  calc c * (4 * (2 * c + 6) + 1)
    _ ≤ 2 ^ c * (25 * 2 ^ c) := Nat.mul_le_mul (by omega) (by omega)
    _ < 2 ^ c * (128 * 2 ^ c) := Nat.mul_lt_mul_of_pos_left (by omega) (by omega)
    _ = 2 ^ (2 * c + 6 + 1) := by ring

end Grammar
end ScopeScript
