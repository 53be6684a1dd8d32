/-
  ScopeScript.Proofs.Session.Unlimited

  Evaluation without a limit: trees may nest as they like. It does the same in a
  session whatever the limit there, it leaves the depth as it was, and it never
  reports an overflow. The same is true of every step of evaluation that
  evaluates no tree, so these properties (`Indifferent`) compose along the tree.
-/
import ScopeScript.Proofs.Session.Assignment

namespace ScopeScript

/-! ## Runs -/

/-- The same session with another limit. -/
def Session.withLimit (s : Session) (m : Nat) : Session :=
  { s with limit := m }

/-- As many evaluations are under way, and may be, in one session as in another. -/
structure Session.SameNesting (s s' : Session) : Prop where
  depth_eq : s'.depth = s.depth
  limit_eq : s'.limit = s.limit

namespace Session.SameNesting

variable {s s' s'' : Session}

theorem refl (s : Session) : s.SameNesting s :=
  ⟨rfl, rfl⟩

theorem trans (h : s.SameNesting s') (h' : s'.SameNesting s'') : s.SameNesting s'' :=
  ⟨h'.depth_eq.trans h.depth_eq, h'.limit_eq.trans h.limit_eq⟩

/-- What is kept inside an evaluation is kept by it. -/
theorem left (h : s.entered.SameNesting s') : s.SameNesting s'.left :=
  ⟨congrArg (· - 1) h.depth_eq, h.limit_eq⟩

end Session.SameNesting

/-- What running an action comes to. -/
abbrev Run (α : Type) := EStateM.Result RuntimeError Session α

namespace Run

variable {α : Type}

/-- The session that a run leaves. -/
def session : Run α → Session
  | .ok _ s | .error _ s => s

/-- The same run, leaving a session with another limit. -/
def withLimit (m : Nat) : Run α → Run α
  | .ok a s => .ok a (s.withLimit m)
  | .error e s => .error e (s.withLimit m)

/-- The run has met the limit. -/
def Overflows : Run α → Prop
  | .ok _ _ => False
  | .error e _ => e.fault.kind = .stackOverflow

end Run

/-! ## Faults of other kinds -/

/-- A kind of faults that values and operators have, whatever the nesting and the
    scopes. -/
structure FaultKind.OfValues (k : FaultKind) : Prop where
  ne_stackOverflow : k ≠ .stackOverflow
  ne_invalidState : k ≠ .invalidState

instance (k : FaultKind) : Decidable k.OfValues :=
  decidable_of_iff (k ≠ .stackOverflow ∧ k ≠ .invalidState)
    ⟨fun h => ⟨h.1, h.2⟩, fun h => ⟨h.1, h.2⟩⟩

namespace Value

theorem kind_of_readObject {o : Object} {key : Value} {f : RuntimeFault}
    (h : readObject o key = .error f) : f.kind.OfValues := by
  rw [readObject] at h
  split at h
  · cases h
  · cases h
    show FaultKind.OfValues .keyNotFound
    decide

theorem kind_of_readMember {container key : Value} {f : RuntimeFault}
    (h : container.readMember key = .error f) : f.kind.OfValues := by
  cases container with
  | primitive p =>
    cases h
    show FaultKind.OfValues .unsupportedMemberAccess
    decide
  | object o => exact kind_of_readObject h
  | list es =>
    rw [readMember] at h
    split at h
    · cases h
    · cases h
      show FaultKind.OfValues .indexOutOfRange
      decide

theorem kind_of_toKey {key : Value} {f : RuntimeFault} (h : key.toKey = .error f) :
    f.kind.OfValues := by
  cases key <;> cases h <;>
    (show FaultKind.OfValues .typeMismatch
     decide)

theorem kind_of_checkWrite {container key : Value} {f : RuntimeFault}
    (h : container.checkWrite key = .error f) : f.kind.OfValues := by
  cases container with
  | primitive p =>
    cases h
    show FaultKind.OfValues .unsupportedMemberAccess
    decide
  | object o =>
    cases key <;> cases h <;>
      (show FaultKind.OfValues .typeMismatch
       decide)
  | list es =>
    rw [checkWrite] at h
    split at h
    · cases h
    · cases h
      show FaultKind.OfValues .indexOutOfRange
      decide

theorem kind_of_walk {v : Value} {path : List Key} {e : RuntimeError}
    (h : v.walk path = .error e) : e.fault.kind.OfValues := by
  induction path generalizing v with
  | nil => cases h
  | cons k path ih =>
    rw [walk] at h
    cases hr : v.readMember k.value with
    | error f =>
      rw [hr] at h
      cases h
      exact kind_of_readMember hr
    | ok m =>
      rw [hr] at h
      exact ih h

theorem kind_of_writeMember {container key value : Value} {f : RuntimeFault}
    (h : container.writeMember key value = .error f) : f.kind.OfValues := by
  rw [writeMember_eq] at h
  cases hcheck : container.checkWrite key with
  | ok _ =>
    rw [hcheck] at h
    cases h
  | error g =>
    rw [hcheck] at h
    cases h
    exact kind_of_checkWrite hcheck

theorem kind_of_atKey {α : Type} {key : Key} {x : Except RuntimeFault α} {e : RuntimeError}
    (hx : ∀ f, x = .error f → f.kind.OfValues) (h : atKey key x = .error e) :
    e.fault.kind.OfValues := by
  cases x with
  | ok a => cases h
  | error f => cases h; exact hx f rfl

theorem kind_of_updateAt {change : Value → Except RuntimeError Value} {v : Value} {path : List Key}
    {e : RuntimeError} (hchange : ∀ w e, change w = .error e → e.fault.kind.OfValues)
    (h : v.updateAt change path = .error e) : e.fault.kind.OfValues := by
  induction path generalizing v e with
  | nil =>
    rw [updateAt_nil] at h
    exact hchange v e h
  | cons k path ih =>
    rw [updateAt_key] at h
    cases hr : v.readMember k.value with
    | error f =>
      rw [hr] at h
      cases h
      exact kind_of_readMember hr
    | ok m =>
      rw [hr] at h
      change (m.updateAt change path >>= _) = _ at h
      cases hm : m.updateAt change path with
      | error e' =>
        rw [hm] at h
        cases h
        exact ih hm
      | ok u =>
        rw [hm] at h
        exact kind_of_atKey (fun _ => kind_of_writeMember) h

end Value

namespace Target

theorem kind_of_read {store : Store} {head : Key} {path : List Key} {e : RuntimeError}
    (h : read store head path = .error e) : e.fault.kind.OfValues := by
  rw [read] at h
  split at h
  · exact Value.kind_of_walk h
  · cases h
    show FaultKind.OfValues .unknownIdentifier
    decide

theorem Faulty.kind {store : Store} {keys : List Key} {wantsOld : Bool} {e : RuntimeError}
    (h : Faulty store keys wantsOld e) : e.fault.kind ≠ .stackOverflow := by
  cases h with
  | empty => exact nofun
  | oldName h => exact (Value.kind_of_readObject h).ne_stackOverflow
  | key h => exact (Value.kind_of_toKey h).ne_stackOverflow
  | root => exact nofun
  | path _ _ _ h => exact (Value.kind_of_walk h).ne_stackOverflow
  | oldMember _ _ h => exact (Value.kind_of_readMember h).ne_stackOverflow
  | member _ _ h => exact (Value.kind_of_checkWrite h).ne_stackOverflow

end Target

/-- Arithmetic fails on a zero divisor only. -/
theorem BinaryOp.eq_divisionByZero {op : BinaryOp}
    {f : Number → Number → Except RuntimeFault Number} {a b : Number} {x : RuntimeFault}
    (hf : op.arithmetic? = some f) (h : f a b = .error x) : x = .divisionByZero := by
  cases op <;> cases hf
  case div =>
    rw [Number.div] at h
    split at h <;> cases h
    rfl
  case mod =>
    rw [Number.rem] at h
    split at h <;> cases h
    rfl
  all_goals cases h

theorem BinaryOp.kind_of_apply {op : BinaryOp} {left right : Value} {x : RuntimeFault}
    (h : op.apply left right = .error x) : x.kind.OfValues := by
  rw [apply] at h
  split at h
  · cases h
    show FaultKind.OfValues .unsupportedOperator
    decide
  · next f hf =>
    split at h
    · next a b _ _ =>
      cases hab : f a b with
      | ok n => rw [hab] at h; cases h
      | error y =>
        rw [hab] at h
        cases h
        rw [eq_divisionByZero hf hab]
        show FaultKind.OfValues .divisionByZero
        decide
    · cases h
      show FaultKind.OfValues .typeMismatch
      decide

/-! ## Steps that do not look at the limit -/

/-- The action does the same whatever the limit and the depth, which it leaves as
    they are, and it is never stopped by the limit. -/
structure Indifferent {α : Type} (g : Action α) : Prop where
  keeps : ∀ s : Session, s.SameNesting (Run.session (g s))
  withLimit : ∀ s m, g (s.withLimit m) = Run.withLimit m (g s)
  completes : ∀ s, ¬ Run.Overflows (g s)

namespace Indifferent

variable {α β : Type}

theorem pure (a : α) : Indifferent (Pure.pure a) :=
  ⟨.refl, fun _ _ => rfl, fun _ h => h⟩

theorem throw {e : RuntimeError} (h : e.fault.kind ≠ .stackOverflow) :
    Indifferent (MonadExcept.throw e : Action α) :=
  ⟨.refl, fun _ _ => rfl, fun _ => h⟩

theorem ofExcept {x : Except RuntimeError α}
    (h : ∀ e, x = .error e → e.fault.kind ≠ .stackOverflow) : Indifferent (Action.ofExcept x) := by
  cases x with
  | ok a => exact .pure a
  | error e => exact .throw (h e rfl)

theorem ofFault {x : Except RuntimeFault α} (h : ∀ f, x = .error f → f.kind ≠ .stackOverflow) :
    Indifferent (Action.ofFault x) := by
  cases x with
  | ok a => exact .pure a
  | error f => exact .throw (h f rfl)

theorem bind {f : Action α} {k : α → Action β} (hf : Indifferent f)
    (hk : ∀ a, Indifferent (k a)) : Indifferent (f >>= k) := by
  refine ⟨fun s => ?_, fun s m => ?_, fun s => ?_⟩
  · have hkeeps := hf.keeps s
    cases hs : f s with
    | ok a s₁ =>
      rw [hs] at hkeeps
      rw [Action.bind_of_ok hs]
      exact hkeeps.trans ((hk a).keeps s₁)
    | error e s₁ =>
      rw [hs] at hkeeps
      rw [Action.bind_of_error hs]
      exact hkeeps
  · have hsame := hf.withLimit s m
    cases hs : f s with
    | ok a s₁ =>
      rw [hs] at hsame
      rw [Action.bind_of_ok hs, Action.bind_of_ok hsame, (hk a).withLimit]
    | error e s₁ =>
      rw [hs] at hsame
      rw [Action.bind_of_error hs, Action.bind_of_error hsame]
      rfl
  · cases hs : f s with
    | ok a s₁ =>
      rw [Action.bind_of_ok hs]
      exact (hk a).completes s₁
    | error e s₁ =>
      have hcompletes := hf.completes s
      rw [hs] at hcompletes
      rw [Action.bind_of_error hs]
      exact hcompletes

/-- An action that looks at the scopes and the writes first, and then does what is
    indifferent. -/
theorem of_scopes {g : Action α}
    (h : ∀ s : Session, ∃ g' : Action α,
      Indifferent g' ∧ ∀ m, g (s.withLimit m) = g' (s.withLimit m)) :
    Indifferent g := by
  have heq (s : Session) {g' : Action α} (hg : ∀ m, g (s.withLimit m) = g' (s.withLimit m)) :
      g s = g' s := hg s.limit
  refine ⟨fun s => ?_, fun s m => ?_, fun s => ?_⟩
  all_goals
    obtain ⟨g', hg', hg⟩ := h s
    rw [heq s hg]
  · exact hg'.keeps s
  · rw [hg, hg'.withLimit]
  · exact hg'.completes s

/-- A change of the store, with a note of where it was written. -/
theorem wrote (change : Store → Store) (place : Location) :
    Indifferent fun s => .ok () ({ s with store := change s.store }.wrote place) :=
  ⟨fun _ => ⟨rfl, rfl⟩, fun _ _ => rfl, fun _ h => h⟩

end Indifferent

theorem indifferent_readAddress (keys : List Key) : Indifferent (Session.readAddress keys) := by
  refine .of_scopes fun s => ?_
  cases keys with
  | nil => exact ⟨_, .pure (.object s.store.current), fun _ => rfl⟩
  | cons head path =>
    refine ⟨_, .ofExcept (x := Target.read s.store head path) fun e h => ?_,
      fun m => ?_⟩
    · exact (Target.kind_of_read h).ne_stackOverflow
    simp only [Session.readAddress, show (s.withLimit m).store = s.store from rfl]
    cases Target.read s.store head path <;> rfl

/-- A write to a member is dropped, fails at the root or on the path, or is done. -/
theorem commit_member (frame : Nat) (root : Primitive) (span : Span) (path : List Key) (key : Key)
    (mark : Nat) (value : Value) (s : Session) :
    (Target.member frame root span path key).commit mark value s =
      if (Target.writesSince mark s).any (·.covers (Target.home frame root path)) then .ok () s
      else
        match s.store.binding? frame root with
        | none => .error (Target.unknown ⟨.primitive root, span⟩) s
        | some old =>
          match old.updateAt
            (fun container => Value.atKey key (container.writeMember key.value value)) path with
          | .error e => .error e s
          | .ok changed => .ok () ({ s with store := s.store.bind frame root changed }.wrote
            ⟨frame, (Target.home frame root path).keys ++ [key.value]⟩) := by
  show (if _ then _ else _ : Action Unit) s = _
  split
  · rfl
  · show (match s.store.binding? frame root with
      | none => _
      | some old => _ : Action Unit) s = _
    cases s.store.binding? frame root with
    | none => rfl
    | some old =>
      simp only
      cases old.updateAt
        (fun container => Value.atKey key (container.writeMember key.value value)) path <;> rfl

theorem indifferent_commit (target : Target) (mark : Nat) (value : Value) :
    Indifferent (target.commit mark value) := by
  refine .of_scopes fun s => ?_
  cases target with
  | name key => exact ⟨_, .wrote (·.define key value) ⟨s.store.depth - 1, [.primitive key]⟩,
      fun _ => rfl⟩
  | member frame root span path key =>
    simp only [commit_member]
    -- The test, the root and the path are looked up in the scopes alone.
    show ∃ g' : Action Unit, Indifferent g' ∧ ∀ m,
      (if (Target.writesSince mark s).any (·.covers (Target.home frame root path)) then _ else
        match s.store.binding? frame root with
        | none => _
        | some old => _ : Run Unit) = g' (s.withLimit m)
    cases (Target.writesSince mark s).any (·.covers (Target.home frame root path)) with
    | true => exact ⟨_, .pure (), fun m => rfl⟩
    | false =>
      cases s.store.binding? frame root with
      | none =>
        exact ⟨_, .throw (e := Target.unknown ⟨.primitive root, span⟩)
          (fun h => FaultKind.noConfusion h), fun m => rfl⟩
      | some old =>
        cases hu : old.updateAt
          (fun container => Value.atKey key (container.writeMember key.value value)) path with
        | error e =>
          simp only [hu]
          refine ⟨_, .throw (e := e) ?_, fun m => rfl⟩
          have hkind := Value.kind_of_updateAt
            (fun _ _ h => Value.kind_of_atKey (fun _ => Value.kind_of_writeMember) h) hu
          exact hkind.ne_stackOverflow
        | ok changed =>
          simp only [hu]
          exact ⟨_, .wrote (·.bind frame root changed) _, fun m => rfl⟩

/-- The target of an assignment is resolved in the scopes alone. -/
theorem Assignment.write_withLimit (keys : List Key) (right : Action Value) (yieldsOld : Bool)
    (s : Session) (m : Nat) :
    Assignment.write keys right yieldsOld (s.withLimit m) =
      match Target.resolve s.store keys yieldsOld with
      | .error e => .error e (s.withLimit m)
      | .ok (target, old) => (right >>= fun value =>
        target.commit s.writes.length value >>= fun _ => pure (old.getD value)) (s.withLimit m) :=
  rfl

/-! ## Evaluation without a limit -/

/-- As `Action.nested`, but however many evaluations are under way. -/
def Action.unlimited (span : Span) (body : Action Value) : Action Value := fun s =>
  match body s.entered with
  | .ok v s' => .ok v s'.left
  | .error e s' => .error (e.located span) s'.left

theorem Indifferent.unlimited {body : Action Value} (h : Indifferent body) (span : Span) :
    Indifferent (Action.unlimited span body) := by
  refine ⟨fun s => ?_, fun s m => ?_, fun s => ?_⟩
  all_goals rw [Action.unlimited]
  · have hkeeps := h.keeps s.entered
    cases hs : body s.entered <;> rw [hs] at hkeeps <;> exact hkeeps.left
  · rw [Action.unlimited, show (s.withLimit m).entered = s.entered.withLimit m from rfl,
      h.withLimit]
    cases body s.entered <;> rfl
  · have hcompletes := h.completes s.entered
    cases hs : body s.entered with
    | ok v s₁ => exact fun h => h
    | error e s₁ => rw [hs] at hcompletes; exact hcompletes

namespace Unlimited

mutual

/-- The value of a tree. -/
def evaluate : Expr → Action Value
  | .int span n => Action.unlimited span do return .int n
  | .double span d => Action.unlimited span do return .double d
  | .string span s => Action.unlimited span do return .string s
  | .read span address => Action.unlimited span do
    let keys ← evaluateAll address
    Session.readAddress keys
  | .assign span address right yieldsOld => Action.unlimited span do
    let keys ← evaluateAll address
    Assignment.write keys (evaluate right) yieldsOld
  | .binary span op left right => Action.unlimited span do
    let a ← evaluate left
    let b ← evaluate right
    Action.ofFault (op.apply a b)
  | .list span elements => Action.unlimited span do
    let values ← evaluateAll elements
    return .list (values.map (·.value))
  | .object span entries => Action.unlimited span do
    let o ← evaluateEntries [] entries
    return .object o
  | .call span _ _ => Action.unlimited span do
    throw ⟨.unsupportedNodeKind (Expr.call span [] []).kind, none⟩

/-- The values of trees, each with the span of its tree. -/
def evaluateAll : List Expr → Action (List Key)
  | [] => return []
  | e :: rest => do
    let v ← evaluate e
    let values ← evaluateAll rest
    return ⟨v, e.span⟩ :: values

/-- An object with the entries that pairs of trees give it one after another. -/
def evaluateEntries (o : Object) : List (Expr × Expr) → Action Object
  | [] => return o
  | (key, value) :: rest => do
    let k ← evaluate key
    let k ← Action.ofExcept (Value.atKey ⟨k, key.span⟩ k.toKey)
    let v ← evaluate value
    evaluateEntries (o.insert k v) rest

end

end Unlimited

end ScopeScript
