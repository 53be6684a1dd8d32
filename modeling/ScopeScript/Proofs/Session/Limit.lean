/-
  ScopeScript.Proofs.Session.Limit

  The limit on nested evaluations is exact and otherwise not seen. A tree needs
  as many evaluations under way at once as the parts of it that are evaluated are
  deep (`Expr.need`). `Limits n f g` relates an action under the limit to the one
  without: they agree where there is room for `n` more evaluations, and where
  there is not the first does not succeed. It composes along the tree as `need`
  does.
-/
import ScopeScript.Proofs.Session.Unlimited

namespace ScopeScript
namespace Expr

mutual

/-- How many evaluations are under way at once when all parts of a tree that can
    be evaluated are. A call fails before its parts, and an assignment to the
    empty address before its right-hand side. -/
def need : Expr → Nat
  | int _ _ | double _ _ | string _ _ | call _ _ _ => 1
  | read _ address => 1 + needAll address
  | assign _ address right _ =>
    if address.isEmpty then 1 else 1 + max (needAll address) right.need
  | binary _ _ left right => 1 + max left.need right.need
  | list _ elements => 1 + needAll elements
  | object _ entries => 1 + needEntries entries

def needAll : List Expr → Nat
  | [] => 0
  | e :: es => max e.need (needAll es)

def needEntries : List (Expr × Expr) → Nat
  | [] => 0
  | (k, v) :: ps => max k.need (max v.need (needEntries ps))

end

end Expr

/-! ## Actions under the limit -/

/-- How many more evaluations may be under way. -/
def Session.room (s : Session) : Nat :=
  s.limit - s.depth

theorem Session.SameNesting.room_eq {s s' : Session} (h : s.SameNesting s') : s'.room = s.room := by
  rw [Session.room, h.limit_eq, h.depth_eq]
  rfl

/-- An evaluation takes up the room for one. -/
theorem Session.le_room_entered {s : Session} {n : Nat} (h : 1 + n ≤ s.room) :
    n ≤ s.entered.room := by
  rw [Session.room] at h ⊢
  show n ≤ s.limit - (s.depth + 1)
  omega

/-- The first action is the second one where there is room for `n` more
    evaluations, and succeeds only there. It keeps the depth and the limit however
    it ends, and does the same under a higher limit unless it meets the limit. -/
structure Limits {α : Type} (n : Nat) (f g : Action α) : Prop where
  indifferent : Indifferent g
  keeps : ∀ s : Session, s.SameNesting (Run.session (f s))
  eq_of_room : ∀ {s}, n ≤ s.room → f s = g s
  room_of_ok : ∀ {s a s'}, f s = .ok a s' → n ≤ s.room
  withLimit : ∀ {s m}, ¬ Run.Overflows (f s) → s.limit ≤ m →
    f (s.withLimit m) = Run.withLimit m (f s)

namespace Limits

variable {α β : Type} {n m : Nat} {f g : Action α}

/-- A step that evaluates no tree needs no room. -/
theorem of_indifferent (h : Indifferent f) : Limits 0 f f where
  indifferent := h
  keeps := h.keeps
  eq_of_room _ := rfl
  room_of_ok _ := Nat.zero_le _
  withLimit _ _ := h.withLimit _ _

/-- What an action leaves where it succeeds has the same room. -/
theorem keeps_of_ok (h : Limits n f g) {s s₁ : Session} {a : α} (hs : f s = .ok a s₁) :
    s.SameNesting s₁ := by
  have hkeeps := h.keeps s
  rw [hs] at hkeeps
  exact hkeeps

theorem bind {k l : α → Action β} (h : Limits n f g) (hk : ∀ a, Limits m (k a) (l a)) :
    Limits (max n m) (f >>= k) (g >>= l) where
  indifferent := h.indifferent.bind fun a => (hk a).indifferent
  keeps s := by
    cases hs : f s with
    | ok a s₁ =>
      rw [Action.bind_of_ok hs]
      exact (h.keeps_of_ok hs).trans ((hk a).keeps s₁)
    | error e s₁ =>
      have hkeeps := h.keeps s
      rw [hs] at hkeeps
      rw [Action.bind_of_error hs]
      exact hkeeps
  eq_of_room {s} hroom := by
    have heq := h.eq_of_room (Nat.le_trans (Nat.le_max_left n m) hroom)
    cases hs : f s with
    | ok a s₁ =>
      rw [Action.bind_of_ok hs, Action.bind_of_ok (heq.symm.trans hs)]
      refine (hk a).eq_of_room ?_
      rw [(h.keeps_of_ok hs).room_eq]
      exact Nat.le_trans (Nat.le_max_right n m) hroom
    | error e s₁ => rw [Action.bind_of_error hs, Action.bind_of_error (heq.symm.trans hs)]
  room_of_ok {s b s'} hok := by
    obtain ⟨a, s₁, hs, hb⟩ := Action.bind_eq_ok_iff.1 hok
    have hm := (hk a).room_of_ok hb
    rw [(h.keeps_of_ok hs).room_eq] at hm
    exact Nat.max_le.2 ⟨h.room_of_ok hs, hm⟩
  withLimit {s m} hover hm := by
    cases hs : f s with
    | ok a s₁ =>
      rw [Action.bind_of_ok hs] at hover ⊢
      have hsame := h.withLimit (s := s) (by rw [hs]; exact fun h => h) hm
      rw [hs] at hsame
      rw [Action.bind_of_ok hsame]
      refine (hk a).withLimit hover ?_
      rw [(h.keeps_of_ok hs).limit_eq]
      exact hm
    | error e s₁ =>
      rw [Action.bind_of_error hs] at hover ⊢
      have hsame := h.withLimit (s := s) (by rw [hs]; exact hover) hm
      rw [hs] at hsame
      rw [Action.bind_of_error hsame]
      rfl

/-- A step before an action adds no need. -/
theorem bind_after {h : Action β} {k l : β → Action α} (hh : Indifferent h)
    (hk : ∀ b, Limits n (k b) (l b)) : Limits n (h >>= k) (h >>= l) := by
  have hbind := (of_indifferent hh).bind hk
  rw [Nat.zero_max] at hbind
  exact hbind

/-- Nor does one behind it. -/
theorem bind_before {k : α → Action β} (h : Limits n f g) (hk : ∀ a, Indifferent (k a)) :
    Limits n (f >>= k) (g >>= k) := by
  have hbind := h.bind fun a => of_indifferent (hk a)
  rw [Nat.max_zero] at hbind
  exact hbind

/-- A tree needs one evaluation more than its parts do. -/
theorem nested {f g : Action Value} (h : Limits n f g) (span : Span) :
    Limits (1 + n) (Action.nested span f) (Action.unlimited span g) where
  indifferent := h.indifferent.unlimited span
  keeps s := by
    rw [Action.nested]
    split
    · exact .refl s
    · have hkeeps := h.keeps s.entered
      cases hs : f s.entered <;> rw [hs] at hkeeps <;> exact hkeeps.left
  eq_of_room {s} hroom := by
    have hlt : ¬ s.limit ≤ s.depth := by
      rw [Session.room] at hroom
      omega
    rw [Action.nested, if_neg hlt, h.eq_of_room (Session.le_room_entered hroom)]
    rfl
  room_of_ok {s v s'} hok := by
    obtain ⟨hlt, s₁, hs, -⟩ := Action.nested_eq_ok_iff.1 hok
    have hn := h.room_of_ok hs
    rw [Session.room] at hn ⊢
    change n ≤ s.limit - (s.depth + 1) at hn
    omega
  withLimit {s m} hover hm := by
    rw [Action.nested] at hover ⊢
    split at hover
    · exact absurd rfl hover
    · next hlt =>
      have hlt' : ¬ (s.withLimit m).limit ≤ (s.withLimit m).depth := by
        show ¬ m ≤ s.depth
        omega
      rw [if_neg hlt', Action.nested, if_neg hlt]
      have hsame := h.withLimit (s := s.entered) (m := m) (by
        cases hs : f s.entered <;> rw [hs] at hover <;> exact hover) hm
      rw [show (s.withLimit m).entered = s.entered.withLimit m from rfl, hsame]
      cases f s.entered <;> rfl

/-- A failure of another kind needs no room and gives no value. -/
theorem throw (n : Nat) {e : RuntimeError} (h : e.fault.kind ≠ .stackOverflow) :
    Limits n (MonadExcept.throw e : Action α) (MonadExcept.throw e) where
  indifferent := .throw h
  keeps := .refl
  eq_of_room _ := rfl
  room_of_ok h := nomatch h
  withLimit _ _ := rfl

/-- Two actions that look at the scopes and the writes first. -/
theorem of_scopes (h : ∀ s : Session, ∃ f' g' : Action α, Limits n f' g' ∧
    ∀ m, f (s.withLimit m) = f' (s.withLimit m) ∧ g (s.withLimit m) = g' (s.withLimit m)) :
    Limits n f g where
  indifferent := .of_scopes fun s =>
    have ⟨_, g', hlimits, heq⟩ := h s
    ⟨g', hlimits.indifferent, fun m => (heq m).2⟩
  keeps s := by
    obtain ⟨f', g', hlimits, heq⟩ := h s
    rw [show f s = f' s from (heq s.limit).1]
    exact hlimits.keeps s
  eq_of_room {s} hroom := by
    obtain ⟨f', g', hlimits, heq⟩ := h s
    rw [show f s = f' s from (heq s.limit).1, show g s = g' s from (heq s.limit).2]
    exact hlimits.eq_of_room hroom
  room_of_ok {s a s'} hok := by
    obtain ⟨f', g', hlimits, heq⟩ := h s
    rw [show f s = f' s from (heq s.limit).1] at hok
    exact hlimits.room_of_ok hok
  withLimit {s m} hover hm := by
    obtain ⟨f', g', hlimits, heq⟩ := h s
    rw [show f s = f' s from (heq s.limit).1] at hover ⊢
    rw [(heq m).1]
    exact hlimits.withLimit hover hm

/-- Past its address an assignment needs what its right-hand side does. -/
theorem write {f g : Action Value} (h : Limits n f g) (keys : List Key) (yieldsOld : Bool) :
    Limits n (Assignment.write keys f yieldsOld) (Assignment.write keys g yieldsOld) := by
  refine .of_scopes fun s => ?_
  simp only [Assignment.write_withLimit]
  cases hres : Target.resolve s.store keys yieldsOld with
  | error e => exact ⟨_, _, .throw n (Target.resolve_eq_error_iff.1 hres).kind, fun m => ⟨rfl, rfl⟩⟩
  | ok r =>
    exact ⟨_, _, h.bind_before fun value => (indifferent_commit r.1 s.writes.length value).bind
      fun _ => .pure (r.2.getD value), fun m => ⟨rfl, rfl⟩⟩

end Limits

/-! ## Trees -/

theorem limits_assign {address : List Expr} {right : Expr}
    (haddress : Limits (Expr.needAll address) (evaluateAll address) (Unlimited.evaluateAll address))
    (hright : Limits right.need (evaluate right) (Unlimited.evaluate right)) (span : Span)
    (yieldsOld : Bool) :
    Limits (Expr.assign span address right yieldsOld).need
      (evaluate (.assign span address right yieldsOld))
      (Unlimited.evaluate (.assign span address right yieldsOld)) := by
  rw [Assignment.evaluate_assign, Unlimited.evaluate, Expr.need]
  cases address with
  | nil =>
    exact .nested (.throw 0 (e := ⟨.invalidState _, none⟩) (fun h => FaultKind.noConfusion h)) span
  | cons key keys => exact .nested (haddress.bind fun ks => hright.write ks yieldsOld) span

mutual

/-- Evaluation of a tree under the limit needs room for `e.need` evaluations. -/
theorem limits_evaluate : ∀ e : Expr, Limits e.need (evaluate e) (Unlimited.evaluate e)
  | .int span _ => .nested (.of_indifferent (.pure _)) span
  | .double span _ => .nested (.of_indifferent (.pure _)) span
  | .string span _ => .nested (.of_indifferent (.pure _)) span
  | .read span address =>
    .nested ((limits_evaluateAll address).bind_before indifferent_readAddress) span
  | .assign span address right yieldsOld =>
    limits_assign (limits_evaluateAll address) (limits_evaluate right) span yieldsOld
  | .binary span _ left right =>
    .nested ((limits_evaluate left).bind fun _ => (limits_evaluate right).bind_before fun _ =>
      .ofFault fun _ h => (BinaryOp.kind_of_apply h).ne_stackOverflow) span
  | .list span elements =>
    .nested ((limits_evaluateAll elements).bind_before fun _ => .pure _) span
  | .object span entries =>
    .nested ((limits_evaluateEntries [] entries).bind_before fun _ => .pure _) span
  | .call span _ _ =>
    .nested (.throw 0 (fun h => FaultKind.noConfusion h)) span

theorem limits_evaluateAll : ∀ es : List Expr,
    Limits (Expr.needAll es) (evaluateAll es) (Unlimited.evaluateAll es)
  | [] => .of_indifferent (.pure _)
  | e :: es =>
    (limits_evaluate e).bind fun _ => (limits_evaluateAll es).bind_before fun _ => .pure _

theorem limits_evaluateEntries : ∀ (o : Object) (ps : List (Expr × Expr)),
    Limits (Expr.needEntries ps) (evaluateEntries o ps) (Unlimited.evaluateEntries o ps)
  | _, [] => .of_indifferent (.pure _)
  | _, (key, value) :: ps =>
    (limits_evaluate key).bind fun _ =>
      .bind_after (.ofExcept fun _ h =>
        (Value.kind_of_atKey (fun _ => Value.kind_of_toKey) h).ne_stackOverflow) fun _ =>
        (limits_evaluate value).bind fun _ => limits_evaluateEntries _ ps

end

/-! ## Statements -/

/-- Between statements, under any limit `m`. A tree that needs no more than `m`
    does what it does without a limit, and does not meet the limit; one that needs
    more does not succeed. What does not meet the limit is the same under every
    higher one. However a statement ends, no evaluation is under way behind it. -/
theorem limit_exact (e : Expr) (s : Session) (hs : s.depth = 0) (m : Nat) :
    (e.need ≤ m →
      evaluate e (s.withLimit m) = Run.withLimit m (Unlimited.evaluate e s) ∧
      ¬ Run.Overflows (evaluate e (s.withLimit m))) ∧
    (m < e.need → ∀ v s', evaluate e (s.withLimit m) ≠ .ok v s') ∧
    (¬ Run.Overflows (evaluate e (s.withLimit m)) → ∀ m', m ≤ m' →
      evaluate e (s.withLimit m') = Run.withLimit m' (evaluate e (s.withLimit m))) ∧
    (Run.session (evaluate e (s.withLimit m))).depth = 0 := by
  have h := limits_evaluate e
  have hroom : (s.withLimit m).room = m := by
    show m - s.depth = m
    rw [hs, Nat.sub_zero]
  refine ⟨fun hneed => ?_, fun hneed v s' hok => ?_, fun hover m' hm => ?_, ?_⟩
  · have heq : evaluate e (s.withLimit m) = Unlimited.evaluate e (s.withLimit m) :=
      h.eq_of_room (by rw [hroom]; exact hneed)
    rw [heq]
    exact ⟨h.indifferent.withLimit s m, h.indifferent.completes _⟩
  · have hle := h.room_of_ok hok
    omega
  · exact h.withLimit hover hm
  · rw [(h.keeps _).depth_eq]
    exact hs

/-- `a[x] = 1 + 2` needs three evaluations at once, for the sum; the address needs
    as many as its second key, which is read. -/
theorem limit_exact_assignment :
    let at0 : Span := ⟨0, 0⟩
    let x := Expr.read at0 [.string at0 "x"]
    let e := Expr.assign at0 [.string at0 "a", x]
      (.binary at0 .add (.int at0 1) (.int at0 2)) false
    let s := Session.new 3
    s.depth = 0 ∧ e.need = 3 ∧ ¬ Run.Overflows (evaluate e s) ∧
      ∀ v s', evaluate e (s.withLimit 2) ≠ .ok v s' := by
  intro at0 x e s
  have h := limit_exact e s rfl
  exact ⟨rfl, rfl, ((h 3).1 (by decide)).2, (h 2).2.1 (by decide)⟩

end ScopeScript
