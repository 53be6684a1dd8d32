/-
  ScopeScript.Proofs.Session.Unsupported

  What is not evaluated. A tree has a value only where all of its parts have, so a
  call or a comparison anywhere in it keeps it from having one. What stands in a
  call is never looked at: the tree without it does the same. The internal error
  of an assignment to nothing is out of reach of source texts.
-/
import ScopeScript.Proofs.Grammar.Completeness
import ScopeScript.Proofs.Grammar.Proper
import ScopeScript.Proofs.Session.FirstFailure

namespace ScopeScript

/-! ## Trees that have values -/

/-- The tree has a value in some session. -/
def Expr.HasValue (t : Expr) : Prop :=
  ∃ s v s', evaluate t s = .ok v s'

theorem hasValue_of_evaluateAll {es : List Expr} {s s' : Session} {keys : List Key}
    (h : evaluateAll es s = .ok keys s') : ∀ e ∈ es, e.HasValue := by
  induction es generalizing s s' keys with
  | nil => exact fun e he => absurd he List.not_mem_nil
  | cons e es ih =>
    rw [evaluateAll] at h
    obtain ⟨v, s₁, hv, h⟩ := Action.bind_eq_ok_iff.1 h
    obtain ⟨rest, s₂, hrest, -⟩ := Action.bind_eq_ok_iff.1 h
    exact List.forall_mem_cons.2 ⟨⟨s, v, s₁, hv⟩, ih hrest⟩

theorem hasValue_of_evaluateEntries {entries : List (Expr × Expr)} {o o' : Object} {s s' : Session}
    (h : evaluateEntries o entries s = .ok o' s') : ∀ e ∈ entryParts entries, e.HasValue := by
  induction entries generalizing o s with
  | nil => exact fun e he => absurd he List.not_mem_nil
  | cons entry entries ih =>
    obtain ⟨key, value⟩ := entry
    rw [evaluateEntries] at h
    obtain ⟨k, s₁, hkey, h⟩ := Action.bind_eq_ok_iff.1 h
    obtain ⟨name, s₂, -, h⟩ := Action.bind_eq_ok_iff.1 h
    obtain ⟨v, s₃, hvalue, hrest⟩ := Action.bind_eq_ok_iff.1 h
    exact List.forall_mem_cons.2 ⟨⟨s, k, s₁, hkey⟩,
      List.forall_mem_cons.2 ⟨⟨s₂, v, s₃, hvalue⟩, ih hrest⟩⟩

theorem BinaryOp.not_comparison_of_apply {op : BinaryOp} {a b v : Value}
    (h : op.apply a b = .ok v) : op.isComparison = false := by
  cases op <;> first | rfl | cases h

namespace Expr

/-- Nodes that evaluation has no meaning for. -/
inductive Unsupported : Expr → Prop where
  | call (span : Span) (callee arguments : List Expr) : Unsupported (.call span callee arguments)
  | comparison (span : Span) {op : BinaryOp} (left right : Expr) (h : op.isComparison = true) :
    Unsupported (binary span op left right)

/-- A tree with a value is supported, and all of its parts have values too: none is
    left out. -/
theorem HasValue.supported {t : Expr} (h : t.HasValue) :
    ¬ t.Unsupported ∧ ∀ part ∈ t.parts, part.HasValue := by
  obtain ⟨s, v, s', h⟩ := h
  cases t with
  | int _ _ | double _ _ | string _ _ =>
    exact ⟨nofun, fun part hpart => absurd hpart List.not_mem_nil⟩
  | read span address =>
    rw [evaluate] at h
    obtain ⟨-, s₁, h, -⟩ := Action.nested_eq_ok_iff.1 h
    obtain ⟨keys, s₂, hkeys, -⟩ := Action.bind_eq_ok_iff.1 h
    exact ⟨nofun, hasValue_of_evaluateAll hkeys⟩
  | assign span address right yieldsOld =>
    rw [evaluate] at h
    obtain ⟨-, s₁, h, -⟩ := Action.nested_eq_ok_iff.1 h
    obtain ⟨keys, s₂, hkeys, h⟩ := Action.bind_eq_ok_iff.1 h
    obtain ⟨s₃, s₄, -, h⟩ := Action.bind_eq_ok_iff.1 h
    obtain ⟨target, s₅, -, h⟩ := Action.bind_eq_ok_iff.1 h
    obtain ⟨value, s₆, hvalue, -⟩ := Action.bind_eq_ok_iff.1 h
    exact ⟨nofun,
      List.forall_mem_cons.2 ⟨⟨s₅, value, s₆, hvalue⟩, hasValue_of_evaluateAll hkeys⟩⟩
  | binary span op left right =>
    rw [evaluate] at h
    obtain ⟨hlt, s₁, h, -⟩ := Action.nested_eq_ok_iff.1 h
    obtain ⟨a, s₂, hleft, h⟩ := Action.bind_eq_ok_iff.1 h
    obtain ⟨b, s₃, hright, h⟩ := Action.bind_eq_ok_iff.1 h
    refine ⟨fun hop => ?_, ?_⟩
    · cases hop with
      | comparison _ _ _ hop =>
        obtain ⟨happly, -⟩ := Action.ok_of_ofFault h
        rw [BinaryOp.not_comparison_of_apply happly] at hop
        cases hop
    · exact List.forall_mem_cons.2 ⟨⟨s.entered, a, s₂, hleft⟩,
        List.forall_mem_singleton.2 ⟨s₂, b, s₃, hright⟩⟩
  | list span elements =>
    rw [evaluate] at h
    obtain ⟨-, s₁, h, -⟩ := Action.nested_eq_ok_iff.1 h
    obtain ⟨keys, s₂, hkeys, -⟩ := Action.bind_eq_ok_iff.1 h
    exact ⟨nofun, hasValue_of_evaluateAll hkeys⟩
  | object span entries =>
    rw [evaluate] at h
    obtain ⟨-, s₁, h, -⟩ := Action.nested_eq_ok_iff.1 h
    obtain ⟨o, s₂, hentries, -⟩ := Action.bind_eq_ok_iff.1 h
    exact ⟨nofun, hasValue_of_evaluateEntries hentries⟩
  | call span callee arguments =>
    rw [evaluate] at h
    obtain ⟨-, s₁, h, -⟩ := Action.nested_eq_ok_iff.1 h
    cases h

/-- Every node of a tree with a value is supported. -/
theorem HasValue.everywhere {t : Expr} (h : t.HasValue) : t.Everywhere (¬ Unsupported ·) := by
  induction t using parts_induction with
  | step t ih =>
    obtain ⟨hsupported, hparts⟩ := h.supported
    exact .intro hsupported fun part hpart => ih part hpart (hparts part hpart)

/-! ## Inside of calls -/

mutual

/-- The tree with nothing left in its calls. -/
def hollow : Expr → Expr
  | int span n => int span n
  | double span d => double span d
  | string span s => string span s
  | read span address => read span (hollowAll address)
  | assign span address right yieldsOld =>
    assign span (hollowAll address) right.hollow yieldsOld
  | binary span op left right => binary span op left.hollow right.hollow
  | list span elements => list span (hollowAll elements)
  | object span entries => object span (hollowEntries entries)
  | call span _ _ => call span [] []

def hollowAll : List Expr → List Expr
  | [] => []
  | e :: es => e.hollow :: hollowAll es

def hollowEntries : List (Expr × Expr) → List (Expr × Expr)
  | [] => []
  | (k, v) :: ps => (k.hollow, v.hollow) :: hollowEntries ps

end

theorem span_hollow (t : Expr) : t.hollow.span = t.span := by
  cases t <;> rw [hollow] <;> rfl

end Expr

mutual

/-- What stands in a call has no effect. -/
theorem evaluate_hollow : ∀ t : Expr, evaluate t.hollow = evaluate t
  | .int _ _ | .double _ _ | .string _ _ => by rw [Expr.hollow]
  | .read span address => by rw [Expr.hollow, evaluate, evaluate, evaluateAll_hollow address]
  | .assign span address right yieldsOld => by
    rw [Expr.hollow, evaluate, evaluate, evaluateAll_hollow address, evaluate_hollow right]
  | .binary span op left right => by
    rw [Expr.hollow, evaluate, evaluate, evaluate_hollow left, evaluate_hollow right]
  | .list span elements => by rw [Expr.hollow, evaluate, evaluate, evaluateAll_hollow elements]
  | .object span entries => by
    rw [Expr.hollow, evaluate, evaluate, evaluateEntries_hollow [] entries]
  | .call span callee arguments => by rw [Expr.hollow, evaluate, evaluate]

theorem evaluateAll_hollow : ∀ es : List Expr, evaluateAll (Expr.hollowAll es) = evaluateAll es
  | [] => by rw [Expr.hollowAll]
  | e :: es => by
    rw [Expr.hollowAll, evaluateAll, evaluateAll, evaluate_hollow e, evaluateAll_hollow es,
      Expr.span_hollow]

theorem evaluateEntries_hollow : ∀ (o : Object) (ps : List (Expr × Expr)),
    evaluateEntries o (Expr.hollowEntries ps) = evaluateEntries o ps
  | o, [] => by rw [Expr.hollowEntries]
  | o, (key, value) :: ps => by
    rw [Expr.hollowEntries, evaluateEntries, evaluateEntries, evaluate_hollow key,
      evaluate_hollow value, Expr.span_hollow]
    simp only [fun o => evaluateEntries_hollow o ps]

end

/-- In the course of a call there is only the call. -/
theorem ended_call (span : Span) (callee arguments : List Expr) (s : Session) :
    (course (.call span callee arguments)).ended s = [⟨[], .call span callee arguments, s⟩] := by
  rw [course]
  show (if s.limit ≤ s.depth then [] else []) ++ [_] = [_]
  rw [ite_self, List.nil_append]

/-- No part of a call is evaluated: what is evaluated stands in no call. -/
theorem not_call_of_enclosing {t : Expr} {s : Session} {v : Ended} (hv : v ∈ (course t).ended s)
    {place : List Nat} (hplace : place ∈ enclosing v.place) {n : Expr}
    (hn : t.node? place = some n) : ¬ n.IsCall := by
  induction t using Expr.parts_induction generalizing s v place with
  | step t ih =>
    obtain ⟨turns, hended, hparts, hfate⟩ := exists_turns t s
    rw [hended] at hv
    rcases List.mem_append.1 hv with hv | hv
    · obtain ⟨turn, hturn, hin⟩ := List.mem_flatMap.1 hv
      obtain ⟨w, hw, rfl⟩ := Turn.mem_ended hin
      have hpart := hparts turn hturn
      rcases List.mem_append.1 hplace with hplace | hplace
      · -- The node stands in the part whose turn it was.
        obtain ⟨q, hq, rfl⟩ := List.mem_map.1 hplace
        rw [Expr.node?, hpart] at hn
        exact ih turn.part (List.mem_of_getElem? hpart) hw hq hn
      · obtain rfl := List.mem_singleton.1 hplace
        cases hn
        rintro ⟨span, callee, arguments, rfl⟩
        rw [ended_call] at hended
        have hnone : turns.flatMap Turn.ended = [] := List.append_left_eq_self.1 hended.symm
        have hmem : w.below turn.number ∈ turns.flatMap Turn.ended :=
          List.mem_flatMap.2 ⟨turn, hturn, hin⟩
        rw [hnone] at hmem
        exact absurd hmem List.not_mem_nil
    · obtain rfl := List.mem_singleton.1 hv
      exact absurd hplace List.not_mem_nil

/-! ## The internal error -/

theorem Target.BreaksAt.kind {store : Store} {keys : List Key} {key : Key} {f : RuntimeFault}
    (h : Target.BreaksAt store keys key f) : f.kind.OfValues := by
  cases h with
  | root =>
    show FaultKind.OfValues .unknownIdentifier
    decide
  | member _ _ hkey => exact Value.kind_of_readMember hkey

/-- Only an assignment to the empty address is an internal error. -/
theorem Raises.address_nil {t : Expr} {s : Session} {f : RuntimeFault} {place : Span}
    (h : Raises t s f place) (hkind : f.kind = .invalidState) : t.address? = some [] := by
  cases h with
  | noTarget => rfl
  | limit | call => cases hkind
  | read _ hkey | container _ hkey => exact absurd hkind hkey.kind.ne_invalidState
  | oldName _ hkey => exact absurd hkind (Value.kind_of_readObject hkey).ne_invalidState
  | name _ hkey => exact absurd hkind (Value.kind_of_toKey hkey).ne_invalidState
  | oldMember _ _ hkey => exact absurd hkind (Value.kind_of_readMember hkey).ne_invalidState
  | member _ _ hkey => exact absurd hkind (Value.kind_of_checkWrite hkey).ne_invalidState
  | operation _ _ _ hop => exact absurd hkind (BinaryOp.kind_of_apply hop).ne_invalidState
  | key _ _ _ hfault => exact absurd hkind (Value.kind_of_toKey hfault).ne_invalidState

/-- The run has met an internal error. -/
def Run.FailsInternally {α : Type} : Run α → Prop
  | .ok _ _ => False
  | .error e _ => e.fault.kind = .invalidState

/-- A tree whose addresses all have keys has no internal error, in whatever session
    it is evaluated. -/
theorem not_failsInternally_evaluate {t : Expr} (ht : t.Everywhere Expr.Proper) (s : Session) :
    ¬ Run.FailsInternally (evaluate t s) := by
  cases h : evaluate t s with
  | ok v s' => exact id
  | error e s' =>
    obtain ⟨before, origin, around, hfirst⟩ := exists_firstFailure h
    obtain ⟨f, place, rfl, hraises⟩ := hfirst.own
    have hmem : origin ∈ (course t).ended s := by
      rw [hfirst.ended_eq]
      exact List.mem_append_right _ List.mem_cons_self
    have horigin : origin.node.Proper := (ht.node? (node_of_mem_ended hmem)).here
    intro hkind
    exact horigin.address_ne_nil [] (hraises.address_nil hkind) rfl

theorem not_failsInternally_evaluateStatements {ts : List Expr}
    (hts : ∀ t ∈ ts, t.Everywhere Expr.Proper) (s : Session) :
    ¬ Run.FailsInternally (evaluateStatements ts s) := by
  induction ts generalizing s with
  | nil => exact id
  | cons t ts ih =>
    obtain ⟨ht, hts⟩ := List.forall_mem_cons.1 hts
    have hfirst := not_failsInternally_evaluate ht s
    rw [evaluateStatements]
    cases hv : evaluate t s with
    | error e s₁ =>
      rw [hv] at hfirst
      rw [Action.bind_of_error hv]
      exact hfirst
    | ok v s₁ =>
      have hrest := ih hts s₁
      rw [Action.bind_of_ok hv]
      cases hvs : evaluateStatements ts s₁ with
      | ok values s₂ =>
        rw [Action.bind_of_ok hvs]
        exact id
      | error e s₂ =>
        rw [hvs] at hrest
        rw [Action.bind_of_error hvs]
        exact hrest

/-- A tree with a call or a comparison anywhere in it never has a value, and what
    stands in a call is not evaluated and has no effect. In the trees of a program
    every address has a key, calls stand only where an address begins, and only
    steps ask for the old value; and no program meets the internal error, in
    whatever session it runs. -/
theorem unsupported_never_evaluated :
    (∀ (t : Expr) (s : Session),
      (∀ place n, t.node? place = some n → n.Unsupported → ∀ v s', evaluate t s ≠ .ok v s') ∧
      evaluate t.hollow s = evaluate t s ∧
      ∀ v ∈ (course t).ended s, ∀ place ∈ enclosing v.place, ∀ n, t.node? place = some n →
        ¬ n.IsCall) ∧
    ∀ limit size tokens p, Program.ofLexemes limit size tokens = .ok p →
      (∀ e ∈ p.statements, ¬ e.IsCall ∧ ∀ place n, e.node? place = some n → n.Proper) ∧
      ∀ s, ¬ Run.FailsInternally (p.run s) := by
  refine ⟨fun t s => ⟨fun place n hn hunsupported v s' hok => ?_, ?_, ?_⟩, ?_⟩
  · have hvalue : t.HasValue := ⟨s, v, s', hok⟩
    exact (hvalue.everywhere.node? hn).here hunsupported
  · rw [evaluate_hollow]
  · exact fun v hv place hplace n hn => not_call_of_enclosing hv hplace hn
  · intro limit size tokens p hp
    have hproper := Grammar.building_proper.statement_of_ofLexemes hp
    refine ⟨fun e he => ⟨(hproper e he).not_call, fun place n hn => ?_⟩, fun s => ?_⟩
    · exact ((hproper e he).everywhere.node? hn).here
    · exact not_failsInternally_evaluateStatements (fun t ht => (hproper t ht).everywhere) s

open ScopeScript.Grammar ScopeScript.Grammar.Derivation in
/-- `[f(x = 1)]` has no value, and the tokens of `x++` are a program that never meets
    the internal error. -/
theorem unsupported_never_evaluated_argument :
    let x := Expr.string nowhere "x"
    let f := Expr.call nowhere [.string nowhere "f"] [.assign nowhere [x] (.int nowhere 1) false]
    let t := Expr.list nowhere [.read nowhere [f]]
    let tokens : List Lexeme := [⟨.name "x", ⟨0, 1⟩⟩, ⟨.symbol .increment, ⟨1, 3⟩⟩]
    (∀ v s', evaluate t (Session.new 100) ≠ .ok v s') ∧
      ∃ e, Program.ofLexemes 10 3 tokens = .ok ⟨[e]⟩ ∧
        e.bare = stepped .add [x] true ∧ e.Proper ∧
        ∀ s, ¬ Run.FailsInternally (Program.run ⟨[e]⟩ s) := by
  intro x f t tokens
  refine ⟨?_, ?_⟩
  · have hf : f.Unsupported := .call _ _ _
    exact (unsupported_never_evaluated.1 t _).1 [0, 0] f rfl hf
  · -- The tokens are the yield of a derivation, which the parser finds.
    let d := expressionOf (.unsigned (@addressStep .add .increment rfl "x" .segmentsEnd))
    have htargets : (Derivation.statement d).TargetsIdentifiers :=
      (targetsIdentifiers_expressionOf _).2 trivial
    have hlevels : (Derivation.statement d).levels ≤ 10 := by decide
    have hyield : tokens.map (·.token) = (Derivation.statement d).yield := rfl
    obtain ⟨e, he, hmeaning⟩ := exists_ofLexemes 3 htargets hlevels hyield
    obtain ⟨hstatements, hrun⟩ := unsupported_never_evaluated.2 10 3 tokens _ he
    obtain ⟨-, hproper⟩ := hstatements e (List.mem_singleton_self e)
    exact ⟨e, he, hmeaning, hproper [] e rfl, hrun⟩

end ScopeScript
