/-
  ScopeScript.Proofs.Session.Transport

  Evaluation behind a change of the store and of source ranges. If the scopes
  above the host's stay as they are and source ranges are only reported, then
  whatever is evaluated behind the change has the same value or the changed
  error, and leaves the changed store (`carries_evaluate`). There is one rule
  for each way to compose actions.
-/
import ScopeScript.Proofs.Expr.Relocation
import ScopeScript.Proofs.Session.Unlimited
import ScopeScript.Proofs.Store.Frames

namespace ScopeScript

/-- The same target, found at another place in the source. -/
def Target.relocate (f : Span → Span) : Target → Target
  | name n => name n
  | member frame root rootSpan path key =>
    member frame root (f rootSpan) (path.map (Key.relocate f)) (key.relocate f)

/-- A change of the store and of source ranges. No frame above the host's looks
    different or is bound to differently behind it. -/
structure Transport where
  store : Store → Store
  place : Span → Span
  depth_eq : ∀ s : Store, (store s).depth = s.depth
  current_eq : ∀ s : Store, (store s).current = s.current
  find?_eq : ∀ (s : Store) key, (store s).find? key = s.find? key
  binding?_eq : ∀ (s : Store) {frame} key, frame ≠ 0 →
    (store s).binding? frame key = s.binding? frame key
  bind_eq : ∀ (s : Store) {frame} key value, frame ≠ 0 →
    (store s).bind frame key value = store (s.bind frame key value)

namespace Transport

variable (T : Transport) {α β γ δ : Type}

/-- The session with its store changed. -/
def session (s : Session) : Session :=
  { s with store := T.store s.store }

@[simp] theorem store_session (s : Session) : (T.session s).store = T.store s.store := rfl

/-- What a run comes to behind the change. -/
def carry (result : α → β) : Run α → Run β
  | .ok a s => .ok (result a) (T.session s)
  | .error e s => .error (e.relocate T.place) (T.session s)

/-- What does not depend on the session, behind the change. -/
def carryExcept (result : α → β) : Except RuntimeError α → Except RuntimeError β
  | .ok a => .ok (result a)
  | .error e => .error (e.relocate T.place)

/-- The second action does behind the change what the first does before it. -/
def Carries (result : α → β) (f : Action α) (g : Action β) : Prop :=
  ∀ s, g (T.session s) = T.carry result (f s)

/-- The key elsewhere. -/
abbrev key (k : Key) : Key :=
  k.relocate T.place

/-! ## Composed actions -/

namespace Carries

variable {T} {result : α → β} {result' : γ → δ}

theorem pure (a : α) : T.Carries result (Pure.pure a) (Pure.pure (result a)) :=
  fun _ => rfl

theorem throw (e : RuntimeError) : T.Carries result (MonadExcept.throw e)
    (MonadExcept.throw (e.relocate T.place)) :=
  fun _ => rfl

/-- A fault that has no range yet is the same everywhere. -/
theorem ofFault (x : Except RuntimeFault α) :
    T.Carries id (Action.ofFault x) (Action.ofFault x) := by
  cases x with
  | ok a => exact .pure a
  | error f => exact .throw ⟨f, none⟩

/-- A fault at a key is at the same key behind the change. -/
theorem atKey (k : Key) (x : Except RuntimeFault α) :
    T.Carries id (Action.ofExcept (Value.atKey k x))
      (Action.ofExcept (Value.atKey (T.key k) x)) := by
  cases x with
  | ok a => exact .pure a
  | error f => exact .throw ⟨f, some k.span⟩

theorem bind {f : Action α} {g : Action β} {k : α → Action γ} {l : β → Action δ}
    (hf : T.Carries result f g) (hk : ∀ a, T.Carries result' (k a) (l (result a))) :
    T.Carries result' (f >>= k) (g >>= l) := by
  intro s
  have hs := hf s
  cases h : f s with
  | ok a s₁ =>
    rw [h] at hs
    rw [Action.bind_of_ok h, Action.bind_of_ok hs, hk a s₁]
  | error e s₁ =>
    rw [h] at hs
    rw [Action.bind_of_error h, Action.bind_of_error hs]
    rfl

theorem nested {body body' : Action Value} (span : Span) (h : T.Carries id body body') :
    T.Carries id (Action.nested span body) (Action.nested (T.place span) body') := by
  intro s
  rw [Action.nested, Action.nested, show (T.session s).entered = T.session s.entered from rfl, h]
  show (if s.limit ≤ s.depth then _ else _ : Run Value) = _
  split
  · rfl
  · cases body s.entered with
    | ok v s₁ => rfl
    | error e s₁ => simp only [carry, RuntimeError.relocate_located]; rfl

end Carries

/-! ## Members -/

theorem carryExcept_bind {x : Except RuntimeError α} {k : α → Except RuntimeError γ}
    {l : β → Except RuntimeError δ} {result : α → β} {result' : γ → δ}
    (h : ∀ a, l (result a) = T.carryExcept result' (k a)) :
    (T.carryExcept result x >>= l) = T.carryExcept result' (x >>= k) := by
  cases x with
  | ok a => exact h a
  | error e => rfl

theorem atKey_key (k : Key) (x : Except RuntimeFault α) :
    Value.atKey (T.key k) x = T.carryExcept id (Value.atKey k x) := by
  cases x <;> rfl

theorem walk_map (v : Value) (path : List Key) :
    v.walk (path.map T.key) = T.carryExcept id (v.walk path) := by
  induction path generalizing v with
  | nil => rfl
  | cons k path ih =>
    rw [List.map_cons, Value.walk, Value.walk, atKey_key]
    exact T.carryExcept_bind fun m => ih m

theorem updateAt_map (v : Value) (path : List Key)
    {change change' : Value → Except RuntimeError Value}
    (h : ∀ w, change' w = T.carryExcept id (change w)) :
    v.updateAt change' (path.map T.key) = T.carryExcept id (v.updateAt change path) := by
  induction path generalizing v with
  | nil =>
    rw [List.map_nil, Value.updateAt_nil, Value.updateAt_nil]
    exact h v
  | cons k path ih =>
    rw [List.map_cons, Value.updateAt_key, Value.updateAt_key, atKey_key]
    refine T.carryExcept_bind fun m => ?_
    rw [id, ih]
    exact T.carryExcept_bind fun u => T.atKey_key k _

/-! ## Targets -/

/-- A change of a target, and the old value with it. -/
abbrev resolved : Target × Option Value → Target × Option Value :=
  Prod.map (Target.relocate T.place) id

theorem lookup?_eq (s : Store) (name : Primitive) : (T.store s).lookup? name = s.lookup? name := by
  rw [Store.lookup?, Store.lookup?, T.find?_eq]
  cases h : s.find? name with
  | none => rfl
  | some frame => exact T.binding?_eq s name (Store.find?_ne_zero h)

theorem read_map (s : Store) (head : Key) (path : List Key) :
    Target.read (T.store s) (T.key head) (path.map T.key) =
      T.carryExcept id (Target.read s head path) := by
  have hlookup : (T.store s).lookup? = s.lookup? := funext (T.lookup?_eq s)
  simp only [Target.read, hlookup, Key.value_relocate]
  cases head.value.primitive?.bind s.lookup? with
  | none => rfl
  | some v => exact T.walk_map v path

/-- An old value is read, where it is wanted, and what follows it goes on. -/
theorem old_bind (wantsOld : Bool) (k : Key) (x : Except RuntimeFault Value)
    {l l' : Option Value → Except RuntimeError (Target × Option Value)}
    (h : ∀ old, l' old = T.carryExcept T.resolved (l old)) :
    (if wantsOld then (Value.atKey (T.key k) x).map some >>= l' else pure none >>= l') =
      T.carryExcept T.resolved
        (if wantsOld then (Value.atKey k x).map some >>= l else pure none >>= l) := by
  cases wantsOld with
  | false => exact h none
  | true =>
    cases x with
    | ok v => exact h (some v)
    | error f => rfl

theorem ofName_map (s : Store) (k : Key) (wantsOld : Bool) :
    Target.ofName (T.store s) (T.key k) wantsOld =
      T.carryExcept T.resolved (Target.ofName s k wantsOld) := by
  rw [Target.ofName, Target.ofName, T.current_eq]
  refine T.old_bind wantsOld k _ fun old => ?_
  rw [atKey_key]
  exact T.carryExcept_bind fun name => rfl

theorem ofMember_map (s : Store) (head : Key) (path : List Key) (k : Key) (wantsOld : Bool) :
    Target.ofMember (T.store s) (T.key head) (path.map T.key) (T.key k) wantsOld =
      T.carryExcept T.resolved (Target.ofMember s head path k wantsOld) := by
  rw [Target.ofMember, Target.ofMember, Key.value_relocate]
  cases head.value with
  | list es => rfl
  | object ps => rfl
  | primitive root =>
    simp only [T.find?_eq]
    cases hfind : s.find? root with
    | none => rfl
    | some frame =>
      simp only [T.binding?_eq s root (Store.find?_ne_zero hfind)]
      cases s.binding? frame root with
      | none => rfl
      | some value =>
        -- The container, the old value and the check follow one after another.
        simp only
        rw [walk_map]
        refine T.carryExcept_bind fun container => T.old_bind wantsOld k _ fun old => ?_
        rw [atKey_key]
        exact T.carryExcept_bind fun _ => rfl

theorem resolve_map (s : Store) (keys : List Key) (wantsOld : Bool) :
    Target.resolve (T.store s) (keys.map T.key) wantsOld =
      T.carryExcept T.resolved (Target.resolve s keys wantsOld) := by
  match keys with
  | [] => rfl
  | [k] => exact T.ofName_map s k wantsOld
  | head :: next :: rest =>
    show Target.ofMember _ _ ((next :: rest).map T.key).dropLast
      (((next :: rest).map T.key).getLastD (T.key next)) wantsOld = _
    rw [← List.map_dropLast, List.getLastD_map]
    exact T.ofMember_map s head _ _ wantsOld

/-! ## Actions on the store -/

theorem carries_readAddress (keys : List Key) :
    T.Carries id (Session.readAddress keys) (Session.readAddress (keys.map T.key)) := by
  intro s
  cases keys with
  | nil =>
    show EStateM.Result.ok (Value.object (T.store s.store).current) _ = _
    rw [T.current_eq]
    rfl
  | cons head path =>
    simp only [List.map_cons, Session.readAddress, store_session, read_map]
    cases Target.read s.store head path <;> rfl

theorem home_map (frame : Nat) (root : Primitive) (path : List Key) :
    Target.home frame root (path.map T.key) = Target.home frame root path := by
  simp [Target.home, Key.relocate, Function.comp_def]

theorem define_eq (s : Store) (name : Primitive) (value : Value) :
    (T.store s).define name value = T.store (s.define name value) := by
  rw [Store.define, T.depth_eq]
  exact T.bind_eq s name value (Nat.succ_ne_zero s.nested.length)

/-- A write to what an address names goes to a frame above the host's. -/
theorem carries_commit {store : Store} {keys : List Key} {target : Target}
    (h : target.Found store keys) (mark : Nat) (value : Value) :
    T.Carries id (target.commit mark value) ((target.relocate T.place).commit mark value) := by
  intro s
  cases h with
  | name n span =>
    show EStateM.Result.ok () (Session.wrote ⟨(T.store s.store).define n value, _, _, _⟩
      ⟨(T.store s.store).depth - 1, _⟩) = _
    rw [define_eq, T.depth_eq]
    rfl
  | @member frame root hfind span path k =>
    have hframe := Store.find?_ne_zero hfind
    rw [Target.relocate, commit_member, commit_member, home_map]
    show (if (Target.writesSince mark s).any _ then _ else _ : Run Unit) = _
    split
    · rfl
    · simp only [store_session, T.binding?_eq s.store root hframe]
      cases s.store.binding? frame root with
      | none => rfl
      | some old =>
        simp only [Key.value_relocate]
        rw [T.updateAt_map old path fun container => T.atKey_key k _]
        cases old.updateAt
            (fun container => Value.atKey k (container.writeMember k.value value)) path with
        | error e => rfl
        | ok changed =>
          show EStateM.Result.ok () (Session.wrote ⟨(T.store s.store).bind frame root changed,
            _, _, _⟩ _) = _
          rw [T.bind_eq s.store root changed hframe]
          rfl

/-- An assignment does behind the change what it does before it, if its
    right-hand side does. -/
theorem carries_write (keys : List Key) {right right' : Action Value} (yieldsOld : Bool)
    (h : T.Carries id right right') : T.Carries id (Assignment.write keys right yieldsOld)
      (Assignment.write (keys.map T.key) right' yieldsOld) := by
  intro s
  rw [Assignment.write, Assignment.write, session, resolve_map]
  cases hres : Target.resolve s.store keys yieldsOld with
  | error e => rfl
  | ok r =>
    have hfound : r.1.Found s.store keys := Target.found_of_resolve hres
    have hall : T.Carries id
        (right >>= fun value => r.1.commit s.writes.length value >>= fun _ =>
          pure (r.2.getD value))
        (right' >>= fun value => (r.1.relocate T.place).commit s.writes.length value >>= fun _ =>
          pure (r.2.getD value)) :=
      h.bind fun value =>
        (T.carries_commit hfound s.writes.length value).bind fun _ => .pure (r.2.getD value)
    exact hall s

/-! ## Trees -/

variable {T}

mutual

/-- A tree has behind the change the value that it has before it, or its error. -/
theorem carries_evaluate :
    ∀ e : Expr, T.Carries id (evaluate e) (evaluate (e.relocate T.place))
  | .int span _ => .nested span (.pure _)
  | .double span _ => .nested span (.pure _)
  | .string span _ => .nested span (.pure _)
  | .read span address => .nested span (.bind (carries_evaluateAll address) T.carries_readAddress)
  | .assign span address right yieldsOld => by
    rw [Expr.relocate, Assignment.evaluate_assign, Assignment.evaluate_assign]
    refine .nested span (.bind (carries_evaluateAll address) fun keys => ?_)
    exact T.carries_write keys yieldsOld (carries_evaluate right)
  | .binary span op left right =>
    .nested span (.bind (carries_evaluate left) fun a => .bind (carries_evaluate right) fun b =>
      .ofFault (op.apply a b))
  | .list span elements => by
    refine .nested span (.bind (carries_evaluateAll elements) fun keys => ?_)
    rw [List.map_map]
    exact .pure _
  | .object span entries =>
    .nested span (.bind (carries_evaluateEntries [] entries) fun o => .pure (Value.object o))
  | .call span _ _ => .nested span (.throw _)

theorem carries_evaluateAll : ∀ es : List Expr,
    T.Carries (List.map T.key) (evaluateAll es) (evaluateAll (Expr.relocateAll T.place es))
  | [] => .pure []
  | e :: es => by
    refine .bind (carries_evaluate e) fun v => .bind (carries_evaluateAll es) fun keys => ?_
    rw [Expr.span_relocate]
    exact .pure (⟨v, e.span⟩ :: keys)

theorem carries_evaluateEntries : ∀ (o : Object) (ps : List (Expr × Expr)),
    T.Carries id (evaluateEntries o ps) (evaluateEntries o (Expr.relocateEntries T.place ps))
  | o, [] => .pure o
  | o, (key, value) :: ps => by
    refine .bind (carries_evaluate key) fun k => ?_
    rw [Expr.span_relocate]
    refine .bind (.atKey ⟨k, key.span⟩ k.toKey) fun name => ?_
    exact .bind (carries_evaluate value) fun v => carries_evaluateEntries (o.insert name v) ps

end

/-- The statements of a program have the values that they have before the change,
    up to the same error. -/
theorem carries_evaluateStatements (es : List Expr) :
    T.Carries id (evaluateStatements es) (evaluateStatements (Expr.relocateAll T.place es)) := by
  induction es with
  | nil => exact .pure []
  | cons e es ih => exact .bind (carries_evaluate e) fun v => .bind ih fun vs => .pure (v :: vs)

end Transport
end ScopeScript
