/-
  ScopeScript.Proofs.Session.Course

  The course of an evaluation: which nodes of a tree are evaluated, and in which
  sessions, in the order in which their evaluations end. A node ends behind those
  of its parts that are evaluated at all, so the last one is the tree itself. The
  course is noted down by the evaluator, written once more over actions that note
  (`course`); without the notes it is the evaluator (`run_course`).
-/
import ScopeScript.Proofs.Expr.Everywhere
import ScopeScript.Proofs.Session.Unlimited

namespace ScopeScript

/-! ## Places in trees -/

namespace Expr

/-- The node of a tree at a place: the numbers of the parts to take one after
    another, from the tree down. -/
def node? (t : Expr) : List Nat → Option Expr
  | [] => some t
  | i :: place => t.parts[i]?.bind fun part => part.node? place

theorem Everywhere.node? {P : Expr → Prop} {t n : Expr} {place : List Nat} (h : t.Everywhere P)
    (hn : t.node? place = some n) : n.Everywhere P := by
  induction place generalizing t with
  | nil =>
    cases hn
    exact h
  | cons i place ih =>
    obtain ⟨part, hpart, hn⟩ := Option.bind_eq_some_iff.1 hn
    exact ih (h.part (List.mem_of_getElem? hpart)) hn

end Expr

/-- The places of the nodes around the one at a place, the innermost first. -/
def enclosing : List Nat → List (List Nat)
  | [] => []
  | i :: place => (enclosing place).map (i :: ·) ++ [[]]

/-! ## Evaluations that have ended -/

/-- The evaluation of a node, which has ended: where the node stands in the tree,
    and in which session its evaluation began. -/
structure Ended where
  place : List Nat
  node : Expr
  session : Session

namespace Ended

/-- What the evaluation came to. -/
def run (v : Ended) : Run Value :=
  evaluate v.node v.session

def Succeeds (v : Ended) : Prop :=
  ∃ a s', v.run = .ok a s'

def FailsWith (v : Ended) (e : RuntimeError) : Prop :=
  ∃ s', v.run = .error e s'

/-- The same evaluation, seen from a tree that has the tree at hand as a part. -/
def below (i : Nat) (v : Ended) : Ended :=
  { v with place := i :: v.place }

end Ended

/-! ## Actions that note evaluations -/

/-- An action with the evaluations that end in it, in order. -/
def Course (α : Type) :=
  Session → Run α × List Ended

namespace Course

variable {α β : Type}

/-- A step in which no tree is evaluated. -/
def step (f : Action α) : Course α := fun s =>
  (f s, [])

/-- One after another; nothing is begun behind a failure. -/
def andThen (f : Course α) (k : α → Course β) : Course β := fun s =>
  match f s with
  | (.ok a s', ended) => ((k a s').1, ended ++ (k a s').2)
  | (.error e s', ended) => (.error e s', ended)

instance : Monad Course where
  pure a := step (pure a)
  bind := andThen

/-- The evaluation of the part with the number `i`. -/
def part (i : Nat) (f : Course α) : Course α := fun s =>
  ((f s).1, (f s).2.map (Ended.below i))

/-- The evaluation of a whole tree, which ends behind all that happens in it. At
    the limit nothing does. -/
def whole (t : Expr) (body : Course Value) : Course Value := fun s =>
  (Action.nested t.span (fun s => (body s).1) s,
    (if s.limit ≤ s.depth then [] else (body s.entered).2) ++ [⟨[], t, s⟩])

end Course

/-! ## Trees -/

mutual

/-- The evaluation of a tree with its course. -/
def course : Expr → Course Value
  | .int span n => .whole (.int span n) do return .int n
  | .double span d => .whole (.double span d) do return .double d
  | .string span s => .whole (.string span s) do return .string s
  | .read span address => .whole (.read span address) do
    let keys ← courseAll 0 address
    .step (Session.readAddress keys)
  | .assign span address right yieldsOld => .whole (.assign span address right yieldsOld) do
    -- The right-hand side is the first part of the tree, but comes last.
    let keys ← courseAll 1 address
    let s ← .step get
    let (target, old) ← .step (Action.ofExcept (Target.resolve s.store keys yieldsOld))
    let value ← .part 0 (course right)
    .step (target.commit s.writes.length value)
    return old.getD value
  | .binary span op left right => .whole (.binary span op left right) do
    let a ← .part 0 (course left)
    let b ← .part 1 (course right)
    .step (Action.ofFault (op.apply a b))
  | .list span elements => .whole (.list span elements) do
    let values ← courseAll 0 elements
    return .list (values.map (·.value))
  | .object span entries => .whole (.object span entries) do
    let o ← courseEntries 0 [] entries
    return .object o
  | .call span callee arguments => .whole (.call span callee arguments) do
    .step (throw ⟨.unsupportedNodeKind (Expr.call span [] []).kind, none⟩)

/-- The evaluation of trees that are parts of another one from the number `first`
    on. -/
def courseAll (first : Nat) : List Expr → Course (List Key)
  | [] => return []
  | e :: rest => do
    let v ← .part first (course e)
    let values ← courseAll (first + 1) rest
    return ⟨v, e.span⟩ :: values

def courseEntries (first : Nat) (o : Object) : List (Expr × Expr) → Course Object
  | [] => return o
  | (key, value) :: rest => do
    let k ← .part first (course key)
    let k ← .step (Action.ofExcept (Value.atKey ⟨k, key.span⟩ k.toKey))
    let v ← .part (first + 1) (course value)
    courseEntries (first + 2) (o.insert k v) rest

end

/-! ## Without the notes -/

namespace Course

variable {α β : Type}

/-- The action alone. -/
def run (f : Course α) : Action α := fun s =>
  (f s).1

/-- What is noted when the action is run in a session. -/
def ended (f : Course α) (s : Session) : List Ended :=
  (f s).2

theorem run_step (f : Action α) : (step f).run = f := rfl

theorem run_part (i : Nat) (f : Course α) : (part i f).run = f.run := rfl

theorem run_whole (t : Expr) (body : Course Value) :
    (whole t body).run = Action.nested t.span body.run := rfl

theorem run_bind (f : Course α) (k : α → Course β) :
    (f >>= k).run = f.run >>= fun a => (k a).run := by
  funext s
  show (andThen f k s).1 = EStateM.bind f.run (fun a => (k a).run) s
  rw [andThen, EStateM.bind, run]
  rcases f s with ⟨⟨a, s'⟩ | ⟨e, s'⟩, ended⟩
  · rfl
  · rfl

end Course

mutual

theorem run_course : ∀ t : Expr, (course t).run = evaluate t
  | .int _ _ | .double _ _ | .string _ _ | .call _ _ _ => rfl
  | .read span address => by
    rw [course, evaluate, Course.run_whole, Course.run_bind, run_courseAll]
    rfl
  | .assign span address right yieldsOld => by
    rw [course, evaluate, Course.run_whole, Course.run_bind, run_courseAll]
    simp only [Course.run_bind, Course.run_step, Course.run_part, run_course right]
    rfl
  | .binary span op left right => by
    rw [course, evaluate, Course.run_whole]
    simp only [Course.run_bind, Course.run_part, run_course left, run_course right]
    rfl
  | .list span elements => by
    rw [course, evaluate, Course.run_whole, Course.run_bind, run_courseAll]
    rfl
  | .object span entries => by
    rw [course, evaluate, Course.run_whole, Course.run_bind, run_courseEntries]
    rfl

theorem run_courseAll (first : Nat) : ∀ es : List Expr, (courseAll first es).run = evaluateAll es
  | [] => rfl
  | e :: rest => by
    rw [courseAll, evaluateAll]
    simp only [Course.run_bind, Course.run_part, run_course e, run_courseAll (first + 1) rest]
    rfl

theorem run_courseEntries (first : Nat) (o : Object) :
    ∀ entries : List (Expr × Expr), (courseEntries first o entries).run = evaluateEntries o entries
  | [] => rfl
  | (key, value) :: rest => by
    rw [courseEntries, evaluateEntries]
    simp only [Course.run_bind, Course.run_part, run_course key, run_course value,
      fun o => run_courseEntries (first + 2) o rest]
    rfl

end

/-! ## What is noted -/

namespace Course

variable {α β : Type} {s s' : Session}

theorem ended_bind_of_ok {f : Course α} {k : α → Course β} {a : α} (h : f.run s = .ok a s') :
    (f >>= k).ended s = f.ended s ++ (k a).ended s' := by
  change (f s).1 = .ok a s' at h
  show (andThen f k s).2 = (f s).2 ++ (k a s').2
  rw [andThen]
  generalize f s = noted at h ⊢
  obtain ⟨run, ended⟩ := noted
  subst h
  rfl

theorem ended_bind_of_error {f : Course α} {k : α → Course β} {e : RuntimeError}
    (h : f.run s = .error e s') : (f >>= k).ended s = f.ended s := by
  change (f s).1 = .error e s' at h
  show (andThen f k s).2 = (f s).2
  rw [andThen]
  generalize f s = noted at h ⊢
  obtain ⟨run, ended⟩ := noted
  subst h
  rfl

end Course

/-- The evaluation of a part of a tree: the number of the part, and the session in
    which its turn comes. -/
structure Turn where
  number : Nat
  part : Expr
  session : Session

namespace Turn

def run (turn : Turn) : Run Value :=
  evaluate turn.part turn.session

def Succeeds (turn : Turn) : Prop :=
  ∃ a s', turn.run = .ok a s'

def FailsWith (turn : Turn) (e : RuntimeError) : Prop :=
  ∃ s', turn.run = .error e s'

/-- What ends while the part is evaluated. -/
def ended (turn : Turn) : List Ended :=
  ((course turn.part).ended turn.session).map (Ended.below turn.number)

end Turn

/-- How an action ends that evaluates parts one after another. Where it fails, a
    part has failed, which is the last one then, or a step of the action's own. -/
inductive Fate {α : Type} (own : RuntimeError → Prop) : Run α → List Turn → Prop where
  | ok {turns : List Turn} (h : ∀ turn ∈ turns, turn.Succeeds) (a : α) (s' : Session) :
    Fate own (.ok a s') turns
  | own {turns : List Turn} {e : RuntimeError} (h : ∀ turn ∈ turns, turn.Succeeds) (he : own e)
      (s' : Session) :
    Fate own (.error e s') turns
  | part {turns : List Turn} {last : Turn} {e : RuntimeError}
      (h : ∀ turn ∈ turns, turn.Succeeds) (hlast : last.FailsWith e) (s' : Session) :
    Fate own (.error e s') (turns ++ [last])

/-- In the session the action evaluates these parts of a tree, and no other tree. -/
structure Turns {α : Type} (t : Expr) (own : RuntimeError → Prop) (f : Course α) (s : Session)
    (turns : List Turn) : Prop where
  ended_eq : f.ended s = turns.flatMap Turn.ended
  parts : ∀ turn ∈ turns, t.parts[turn.number]? = some turn.part
  fate : Fate own (f.run s) turns

/-- The action evaluates parts of a tree, and no other tree. -/
def TakesTurns {α : Type} (t : Expr) (own : RuntimeError → Prop) (f : Course α) (s : Session) :
    Prop :=
  ∃ turns, Turns t own f s turns

namespace TakesTurns

variable {α β : Type} {t : Expr} {own : RuntimeError → Prop} {s : Session}

theorem step {f : Action α} (h : ∀ e s', f s = .error e s' → own e) :
    TakesTurns t own (.step f) s := by
  refine ⟨[], rfl, fun turn hturn => absurd hturn List.not_mem_nil, ?_⟩
  rw [Course.run_step]
  cases hs : f s with
  | ok a s' => exact .ok (fun turn hturn => absurd hturn List.not_mem_nil) a s'
  | error e s' => exact .own (fun turn hturn => absurd hturn List.not_mem_nil) (h e s' hs) s'

theorem pure (a : α) : TakesTurns t own (Pure.pure a) s :=
  step (f := Pure.pure a) fun _ _ h => nomatch h

theorem part {i : Nat} {e : Expr} (h : t.parts[i]? = some e) :
    TakesTurns t own (.part i (course e)) s := by
  refine ⟨[⟨i, e, s⟩], ?_, List.forall_mem_singleton.2 h, ?_⟩
  · rw [List.flatMap_cons, List.flatMap_nil, List.append_nil]
    rfl
  · rw [Course.run_part, run_course]
    cases hs : evaluate e s with
    | ok a s' =>
      have hturn : Turn.Succeeds ⟨i, e, s⟩ := ⟨a, s', hs⟩
      exact .ok (List.forall_mem_singleton.2 hturn) a s'
    | error err s' =>
      have hturn : Turn.FailsWith ⟨i, e, s⟩ err := ⟨s', hs⟩
      have hnone : ∀ turn ∈ ([] : List Turn), turn.Succeeds :=
        fun turn hturn => absurd hturn List.not_mem_nil
      exact .part hnone hturn s'

theorem bind {f : Course α} {k : α → Course β} (hf : TakesTurns t own f s)
    (hk : ∀ a s₁, f.run s = .ok a s₁ → TakesTurns t own (k a) s₁) :
    TakesTurns t own (f >>= k) s := by
  obtain ⟨turns, hended, hparts, hfate⟩ := hf
  cases hs : f.run s with
  | error e s' =>
    -- What comes behind a failure is not begun.
    refine ⟨turns, ?_, hparts, ?_⟩
    · rw [Course.ended_bind_of_error hs, hended]
    · rw [Course.run_bind, Action.bind_of_error hs]
      rw [hs] at hfate
      cases hfate with
      | own hturns he => exact .own hturns he s'
      | part hturns hlast => exact .part hturns hlast s'
  | ok a s₁ =>
    obtain ⟨others, hended', hparts', hfate'⟩ := hk a s₁ hs
    rw [hs] at hfate
    have hturns : ∀ turn ∈ turns, turn.Succeeds := by
      cases hfate with
      | ok hturns => exact hturns
    refine ⟨turns ++ others, ?_, List.forall_mem_append.2 ⟨hparts, hparts'⟩, ?_⟩
    · rw [Course.ended_bind_of_ok hs, hended, hended', List.flatMap_append]
    · rw [Course.run_bind, Action.bind_of_ok hs]
      cases h : (k a).run s₁ with
      | ok b s' =>
        rw [h] at hfate'
        cases hfate' with
        | ok hothers => exact .ok (List.forall_mem_append.2 ⟨hturns, hothers⟩) b s'
      | error e s' =>
        rw [h] at hfate'
        cases hfate' with
        | own hothers he => exact .own (List.forall_mem_append.2 ⟨hturns, hothers⟩) he s'
        | part hothers hlast =>
          rw [← List.append_assoc]
          exact .part (List.forall_mem_append.2 ⟨hturns, hothers⟩) hlast s'

/-- A tree takes the turns that its body does, and then it ends itself. -/
theorem whole {body : Course Value}
    (hlimit : s.limit ≤ s.depth → own ⟨.stackOverflow s.limit, some t.span⟩)
    (hbody : s.depth < s.limit →
      TakesTurns t (fun e => own (e.located t.span)) body s.entered) :
    ∃ turns, (Course.whole t body).ended s = turns.flatMap Turn.ended ++ [⟨[], t, s⟩] ∧
      (∀ turn ∈ turns, t.parts[turn.number]? = some turn.part) ∧
      Fate own ((Course.whole t body).run s) turns := by
  rw [Course.run_whole]
  by_cases hle : s.limit ≤ s.depth
  · refine ⟨[], ?_, fun turn hturn => absurd hturn List.not_mem_nil, ?_⟩
    · show (if s.limit ≤ s.depth then [] else body.ended s.entered) ++ _ = _
      rw [if_pos hle, List.flatMap_nil]
    · rw [Action.nested, if_pos hle]
      exact .own (fun turn hturn => absurd hturn List.not_mem_nil) (hlimit hle) s
  · obtain ⟨turns, hended, hparts, hfate⟩ := hbody (Nat.lt_of_not_le hle)
    refine ⟨turns, ?_, hparts, ?_⟩
    · show (if s.limit ≤ s.depth then [] else body.ended s.entered) ++ _ = _
      rw [if_neg hle, hended]
    · rw [Action.nested, if_neg hle]
      generalize body.run s.entered = r at hfate ⊢
      cases hfate with
      | ok hturns a s' => exact .ok hturns a s'.left
      | own hturns he s' => exact .own hturns he s'.left
      | part hturns hlast s' =>
        -- The error of a part has a span, so the tree gives it no other.
        obtain ⟨s₁, hlast'⟩ := hlast
        show Fate own (.error (RuntimeError.located t.span _) _) _
        rw [located_of_evaluate_eq_error hlast']
        exact .part hturns ⟨s₁, hlast'⟩ s'.left

end TakesTurns

end ScopeScript
