/-
  ScopeScript.Proofs.Session.Assignment

  Where an assignment can fail: in its address, in the check of its target, or in
  its right-hand side, and nowhere after that. Whatever the right-hand side has
  written, the resolved container is covered by one of the writes or can still
  take the member; this is read off the refinement by identities. What a failed
  assignment leaves is what the part that failed has left.
-/
import ScopeScript.Proofs.Identity.Refinement
import ScopeScript.Proofs.Session.ReadOnly
import ScopeScript.Proofs.Session.TargetFaults

namespace ScopeScript
namespace Assignment

/-! ## Parts of an assignment -/

/-- What an assignment does once the keys of its address are there. -/
def write (keys : List Key) (right : Action Value) (yieldsOld : Bool) : Action Value := fun s =>
  match Target.resolve s.store keys yieldsOld with
  | .error e => .error e s
  | .ok (target, old) =>
    (right >>= fun value =>
      target.commit s.writes.length value >>= fun _ => pure (old.getD value)) s

theorem evaluate_assign (span : Span) (address : List Expr) (right : Expr) (yieldsOld : Bool) :
    evaluate (.assign span address right yieldsOld) = Action.nested span
      (evaluateAll address >>= fun keys => write keys (evaluate right) yieldsOld) := by
  rw [evaluate]
  congr 2
  funext keys s
  rw [write]
  show ((Action.ofExcept (Target.resolve s.store keys yieldsOld)) >>= _ : Action Value) s = _
  cases Target.resolve s.store keys yieldsOld with
  | error e => rfl
  | ok r => rfl

/-- The keys of an address are those before the last one, and then that. -/
theorem evaluateAll_concat (before : List Expr) (last : Expr) :
    evaluateAll (before ++ [last]) =
      (evaluateAll before >>= fun path => evaluate last >>= fun v =>
        pure (path ++ [⟨v, last.span⟩])) := by
  induction before with
  | nil => simp only [List.nil_append, evaluateAll, pure_bind]
  | cons e before ih =>
    simp only [List.cons_append, evaluateAll, ih, bind_assoc, pure_bind]

/-- An assignment evaluates the keys of the container, then the last key of its
    address, and fixes the target by them. An address without a last key has no
    target. -/
theorem evaluate_assign_splitLast (span : Span) (address : List Expr) (right : Expr)
    (yieldsOld : Bool) :
    (Expr.splitLast? address = none →
      evaluate (.assign span address right yieldsOld) =
        Action.nested span (throw ⟨.invalidState "assignment to an empty address", none⟩)) ∧
    ∀ last before, Expr.splitLast? address = some (last, before) →
      evaluate (.assign span address right yieldsOld) = Action.nested span
        (evaluateAll before >>= fun path => evaluate last >>= fun v =>
          write (path ++ [⟨v, last.span⟩]) (evaluate right) yieldsOld) := by
  rcases List.eq_nil_or_concat address with rfl | ⟨before, last, rfl⟩
  · refine ⟨fun _ => ?_, fun last before h => by cases h⟩
    rw [evaluate_assign, evaluateAll, pure_bind]
    rfl
  · rw [List.concat_eq_append]
    have hsplit : Expr.splitLast? (before ++ [last]) = some (last, before) := by
      rw [Expr.splitLast?, List.getLast?_concat, List.dropLast_concat]
      rfl
    constructor
    · intro h
      cases hsplit.symm.trans h
    · intro last' before' h
      cases hsplit.symm.trans h
      simp only [evaluate_assign, evaluateAll_concat, bind_assoc, pure_bind]

/-- The target of an assignment and the session in which it was resolved, after
    the address and before the right-hand side. -/
structure Resolves (s : Session) (address : List Expr) (yieldsOld : Bool) (s₁ : Session)
    (target : Target) (old : Option Value) : Prop where
  below_limit : s.depth < s.limit
  exists_keys : ∃ keys, evaluateAll address s.entered = .ok keys s₁ ∧
    Target.resolve s₁.store keys yieldsOld = .ok (target, old)

/-- The parts in which an assignment can fail. -/
inductive Part where
  | address
  | target
  | right

/-- The evaluation of a part of an assignment has failed with the error `e` and
    left the session `s'`. -/
def FailsIn (span : Span) (address : List Expr) (right : Expr) (yieldsOld : Bool) (s : Session)
    (e : RuntimeError) (s' : Session) : Part → Prop
  | .address =>
    s.depth < s.limit ∧ ∃ before segment after keys s₁ s₂, address = before ++ segment :: after ∧
      evaluateAll before s.entered = .ok keys s₁ ∧ evaluate segment s₁ = .error e s₂ ∧
      s' = s₂.left
  | .target =>
    -- Whatever the right-hand side is, it has not been evaluated.
    (∀ other, evaluate (.assign span address other yieldsOld) s = .error e s') ∧
    (Expr.anyAssignment address = false → s'.store = s.store) ∧
    (s.limit ≤ s.depth ∧ e = ⟨.stackOverflow s.limit, some span⟩ ∧ s' = s ∨
      s.depth < s.limit ∧ ∃ keys s₁ fault, evaluateAll address s.entered = .ok keys s₁ ∧
        Target.Faulty s₁.store keys yieldsOld fault ∧ e = fault.located span ∧ s' = s₁.left)
  | .right =>
    ∃ s₁ target old s₂, Resolves s address yieldsOld s₁ target old ∧
      evaluate right s₁ = .error e s₂ ∧ s' = s₂.left

/-- The container of a resolved member can take it: its frame still binds the
    root, the path still leads to a container, and that has a place for the
    key. -/
def Takes (s : Session) (frame : Nat) (root : Primitive) (path : List Key) (key : Key)
    (value : Value) : Prop :=
  ∃ bound container changed, s.store.binding? frame root = some bound ∧
    bound.walk path = .ok container ∧ container.writeMember key.value value = .ok changed

variable {s s₁ s₂ s' : Session} {e : RuntimeError} {keys : List Key} {right : Expr}
  {yieldsOld : Bool} {target : Target} {old : Option Value} {value : Value}

/-! ## Writing -/

/-- An update along a path reaches a container and changes it. -/
theorem exists_of_updateAt {change : Value → Except RuntimeError Value} {v w : Value}
    {path : List Key} (h : v.updateAt change path = .ok w) :
    ∃ container changed, v.walk path = .ok container ∧ change container = .ok changed := by
  induction path generalizing v w with
  | nil =>
    rw [Value.updateAt_nil] at h
    exact ⟨v, w, rfl, h⟩
  | cons k path ih =>
    rw [Value.updateAt_key] at h
    cases hr : v.readMember k.value with
    | error f => rw [hr] at h; cases h
    | ok m =>
      rw [hr] at h
      cases hm : m.updateAt change path with
      | error e =>
        change (m.updateAt change path >>= _) = _ at h
        rw [hm] at h
        cases h
      | ok u =>
        obtain ⟨container, changed, hwalk, hchange⟩ := ih hm
        refine ⟨container, changed, ?_, hchange⟩
        rw [Value.walk, hr]
        exact hwalk

/-- A member that is written, and not dropped, is taken. -/
theorem takes_of_commit {frame : Nat} {root : Primitive} {span : Span} {path : List Key} {key : Key}
    {mark : Nat} (h : (Target.member frame root span path key).commit mark value s = .ok () s')
    (hany : (Target.writesSince mark s).any (·.covers (Target.home frame root path)) = false) :
    Takes s frame root path key value := by
  change (if _ then _ else _ : Action Unit) s = _ at h
  rw [if_neg (by rw [hany]; decide)] at h
  cases hb : s.store.binding? frame root with
  | none => rw [hb] at h; cases h
  | some bound =>
    rw [hb] at h
    cases hu : bound.updateAt
        (fun container => Value.atKey key (container.writeMember key.value value)) path with
    | error e => simp only [hu] at h; cases h
    | ok w =>
      obtain ⟨container, changed, hwalk, hchange⟩ := exists_of_updateAt hu
      exact ⟨bound, container, changed, hb, hwalk, Value.ok_of_atKey hchange⟩

/-- After the right-hand side the write does not fail, and the log since the
    target was resolved is part of the log. -/
theorem exists_commit (hd : 0 < s.depth)
    (hres : Target.resolve s.store keys yieldsOld = .ok (target, old))
    (hright : evaluate right s = .ok value s₁) :
    s.writes.length ≤ s₁.writes.length ∧
      ∃ s₂, target.commit s.writes.length value s₁ = .ok () s₂ := by
  -- Give identities to the containers where the target has been resolved.
  have hid := Identity.State.identifies_ofSession s
  -- The evaluations with and without identities agree from there.
  have hrefers := hid.resolved keys yieldsOld
  have hagree := (Identity.nests right).simulates s _ hd hid
  rw [hres] at hrefers
  rw [hright] at hagree
  generalize Identity.Target.resolve (Identity.State.ofSession s) keys yieldsOld = x at hrefers
  generalize Identity.evaluate right (Identity.State.ofSession s) = y at hagree
  cases hrefers with
  | ok _ ht =>
    cases hagree with
    | ok _ hfollows =>
      obtain ⟨log, hlog, -⟩ := hfollows.exists_log
      obtain ⟨s₂, -, hcommit, -⟩ := Identity.commit_agrees hid ht hfollows value
      refine ⟨?_, s₂, hcommit⟩
      rw [hlog, List.length_append]
      omega

/-- The address leaves an evaluation under way. -/
theorem depth_pos_of_evaluateAll {address : List Expr}
    (h : evaluateAll address s.entered = .ok keys s₁) : 0 < s₁.depth := by
  have hpos : 0 < s.entered.depth := Nat.succ_pos _
  have hagree := Identity.simulates_evaluateAll address s.entered _ hpos
    (Identity.State.identifies_ofSession s.entered)
  rw [h] at hagree
  generalize Identity.evaluateAll address (Identity.State.ofSession s.entered) = y at hagree
  cases hagree with
  | ok _ hfollows =>
    rw [hfollows.depth_eq]
    exact hpos

/-- Below an assignment there are two ways to fail, both before the write. -/
theorem write_eq_error_iff (hd : 0 < s.depth) :
    write keys (evaluate right) yieldsOld s = .error e s' ↔
      (Target.Faulty s.store keys yieldsOld e ∧ s' = s) ∨
      ∃ target old, Target.resolve s.store keys yieldsOld = .ok (target, old) ∧
        evaluate right s = .error e s' := by
  rw [write]
  cases hres : Target.resolve s.store keys yieldsOld with
  | error e' =>
    have hfaulty := Target.resolve_eq_error_iff.1 hres
    constructor
    · intro h
      cases h
      exact .inl ⟨hfaulty, rfl⟩
    · rintro (⟨h, rfl⟩ | ⟨_, _, h, -⟩)
      · have heq := h.resolve_eq_error
        rw [hres] at heq
        cases heq
        rfl
      · cases h
  | ok r =>
    constructor
    · intro h
      refine .inr ⟨r.1, r.2, rfl, ?_⟩
      rcases Action.bind_eq_error_iff.1 h with h | ⟨value, s₁, hright, h⟩
      · exact h
      · -- Once there is a value the write succeeds, so this is no failure.
        obtain ⟨-, s₂, hcommit⟩ := exists_commit hd hres hright
        rw [Action.bind_of_ok hcommit] at h
        cases h
    · rintro (⟨h, rfl⟩ | ⟨_, _, -, h⟩)
      · have heq := h.resolve_eq_error
        rw [hres] at heq
        cases heq
      · exact Action.bind_of_error h

/-! ## Failures -/

/-- The part in which an assignment fails, if it fails. -/
def lastPart (s : Session) (address : List Expr) (yieldsOld : Bool) : Part :=
  if s.limit ≤ s.depth then .target
  else
    match evaluateAll address s.entered with
    | .error _ _ => .address
    | .ok keys s₁ =>
      match Target.resolve s₁.store keys yieldsOld with
      | .error _ => .target
      | .ok _ => .right

variable {span : Span} {address : List Expr}

/-- No two parts of an assignment fail. -/
theorem eq_lastPart {p : Part} (h : FailsIn span address right yieldsOld s e s' p) :
    p = lastPart s address yieldsOld := by
  rw [lastPart]
  cases p with
  | address =>
    obtain ⟨hlt, before, segment, after, keys, s₁, s₂, hsplit, hbefore, hsegment, -⟩ := h
    have herror : evaluateAll address s.entered = .error e s₂ :=
      evaluateAll_eq_error_iff.2 ⟨before, segment, after, keys, s₁, hsplit, hbefore, hsegment⟩
    rw [if_neg (by omega), herror]
  | target =>
    rcases h with ⟨-, -, ⟨hle, -⟩ | ⟨hlt, keys, s₁, fault, hkeys, hfaulty, -⟩⟩
    · rw [if_pos hle]
    · rw [if_neg (by omega), hkeys]
      simp only [hfaulty.resolve_eq_error]
  | right =>
    obtain ⟨s₁, target, old, s₂, ⟨hlt, keys, hkeys, hres⟩, -⟩ := h
    rw [if_neg (by omega), hkeys]
    simp only [hres]

/-- The error of an address is that of one of its segments. -/
theorem failsIn_address (hlt : s.depth < s.limit)
    (h : evaluateAll address s.entered = .error e s₁) :
    FailsIn span address right yieldsOld s (e.located span) s₁.left .address := by
  obtain ⟨before, segment, after, keys, s₂, hsplit, hbefore, hsegment⟩ :=
    evaluateAll_eq_error_iff.1 h
  rw [located_of_evaluate_eq_error hsegment]
  exact ⟨hlt, before, segment, after, keys, s₂, s₁, hsplit, hbefore, hsegment, rfl⟩

/-- The error of a target is that of the assignment, whatever the right-hand
    side is, and nothing has been written but by the address. -/
theorem failsIn_target (hlt : s.depth < s.limit)
    (h : evaluateAll address s.entered = .ok keys s₁)
    (hfaulty : Target.Faulty s₁.store keys yieldsOld e) :
    FailsIn span address right yieldsOld s (e.located span) s₁.left .target := by
  refine ⟨fun other => ?_, fun hnone => ?_, .inr ⟨hlt, keys, s₁, e, h, hfaulty, rfl, rfl⟩⟩
  · rw [evaluate_assign, Action.nested_eq_error_iff]
    refine .inr ⟨hlt, e, s₁, ?_, rfl, rfl⟩
    rw [Action.bind_of_ok h]
    exact (write_eq_error_iff (depth_pos_of_evaluateAll h)).2 (.inl ⟨hfaulty, rfl⟩)
  · have hstore : s₁.store = s.entered.store := (keeps_evaluateAll address hnone).ok h
    exact hstore

theorem failsIn_of_error (h : evaluate (.assign span address right yieldsOld) s = .error e s') :
    FailsIn span address right yieldsOld s e s' (lastPart s address yieldsOld) := by
  have hfails : ∃ p, FailsIn span address right yieldsOld s e s' p := by
    rw [evaluate_assign, Action.nested_eq_error_iff] at h
    rcases h with ⟨hle, rfl, rfl⟩ | ⟨hlt, e₁, s₁, hbody, rfl, rfl⟩
    · refine ⟨.target, fun other => ?_, fun _ => rfl, .inl ⟨hle, rfl, rfl⟩⟩
      rw [evaluate_assign, Action.nested_eq_error_iff]
      exact .inl ⟨hle, rfl, rfl⟩
    · rcases Action.bind_eq_error_iff.1 hbody with hkeys | ⟨keys, s₂, hkeys, hwrite⟩
      · exact ⟨.address, failsIn_address hlt hkeys⟩
      · rcases (write_eq_error_iff (depth_pos_of_evaluateAll hkeys)).1 hwrite with
          ⟨hfaulty, rfl⟩ | ⟨target, old, hres, hright⟩
        · exact ⟨.target, failsIn_target hlt hkeys hfaulty⟩
        · refine ⟨.right, s₂, target, old, s₁, ⟨hlt, keys, hkeys, hres⟩, ?_, rfl⟩
          -- The error has the span of the tree that failed and keeps it.
          rw [located_of_evaluate_eq_error hright]
          exact hright
  obtain ⟨p, hp⟩ := hfails
  rw [← eq_lastPart hp]
  exact hp

/-- An assignment fails in exactly one of its address, its target and its
    right-hand side, with the error and the store of that part. Once the
    right-hand side has a value, the log holds all that it held when the target
    was resolved, the write is made or dropped without an error, the container
    of a write that is not dropped takes the member, and the assignment has a
    value. -/
theorem assign_fails_before_write (span : Span) (address : List Expr) (right : Expr)
    (yieldsOld : Bool) (s : Session) :
    (∀ e s', evaluate (.assign span address right yieldsOld) s = .error e s' →
      ∃ part, FailsIn span address right yieldsOld s e s' part ∧
        ∀ other, FailsIn span address right yieldsOld s e s' other → other = part) ∧
    ∀ s₁ target old value s₂, Resolves s address yieldsOld s₁ target old →
      evaluate right s₁ = .ok value s₂ →
      s₁.writes.length ≤ s₂.writes.length ∧
      (∀ frame root rootSpan path key, target = .member frame root rootSpan path key →
        (Target.writesSince s₁.writes.length s₂).any (·.covers (Target.home frame root path)) =
          false → Takes s₂ frame root path key value) ∧
      ∃ s₃, target.commit s₁.writes.length value s₂ = .ok () s₃ ∧
        evaluate (.assign span address right yieldsOld) s = .ok (old.getD value) s₃.left := by
  refine ⟨fun e s' h => ?_, fun s₁ target old value s₂ hres hright => ?_⟩
  · refine ⟨lastPart s address yieldsOld, failsIn_of_error h, fun other hother => ?_⟩
    exact eq_lastPart hother
  · obtain ⟨hlt, keys, hkeys, hres⟩ := hres
    obtain ⟨hle, s₃, hcommit⟩ := exists_commit (depth_pos_of_evaluateAll hkeys) hres hright
    refine ⟨hle, fun frame root rootSpan path key htarget hany => ?_, s₃, hcommit, ?_⟩
    · subst htarget
      exact takes_of_commit hcommit hany
    · rw [evaluate_assign, Action.nested_eq_ok_iff]
      refine ⟨hlt, s₃, ?_, rfl⟩
      rw [Action.bind_of_ok hkeys, write, hres]
      show (evaluate right >>= _ : Action Value) s₁ = _
      rw [Action.bind_of_ok hright, Action.bind_of_ok hcommit]
      rfl

/-- The target `x[0]` of an unbound `x` fails. With `l` bound to `[10, 20]`, the
    right-hand side of `l[0] = l[1] = 7` writes beside the target. The list that
    it leaves takes the member, and both members are 7. -/
theorem assign_fails_before_write_new :
    let at0 : Span := ⟨0, 0⟩
    let x := Expr.string at0 "x"
    let l := Expr.string at0 "l"
    let right := Expr.assign at0 [l, .int at0 1] (.int at0 7) false
    let fresh := Session.new 100
    let s := { fresh with store := fresh.store.define (.string "l") (.list [.int 10, .int 20]) }
    (∃ part, FailsIn at0 [x, .int at0 0] (.int at0 1) false fresh
      ⟨.unknownIdentifier "'x'", some at0⟩ { fresh with writes := [] } part) ∧
    ∃ s₂ s₃, evaluate right s.entered = .ok (.int 7) s₂ ∧
      s₂.writes = [⟨1, [.string "l", .int 1]⟩] ∧
      Takes s₂ 1 (.string "l") [] ⟨.int 0, at0⟩ (.int 7) ∧
      evaluate (.assign at0 [l, .int at0 0] right false) s = .ok (.int 7) s₃ ∧
      s₃.store.lookup? (.string "l") = some (.list [.int 7, .int 7]) := by
  intro at0 x l right fresh s
  constructor
  · obtain ⟨part, hpart, -⟩ :=
      (assign_fails_before_write at0 [x, .int at0 0] (.int at0 1) false fresh).1 _ _ rfl
    exact ⟨part, hpart⟩
  · -- What the right-hand side leaves: the second member and one write.
    have hright : ∃ s₂, evaluate right s.entered = .ok (.int 7) s₂ := ⟨_, rfl⟩
    obtain ⟨s₂, hs₂⟩ := hright
    obtain ⟨-, htakes, s₃, -, hvalue⟩ :=
      (assign_fails_before_write at0 [l, .int at0 0] right false s).2 s.entered
        (.member 1 (.string "l") at0 [] ⟨.int 0, at0⟩) none (.int 7) s₂
        ⟨by decide, _, rfl, rfl⟩ hs₂
    obtain rfl : _ = s₂ := (EStateM.Result.ok.inj hs₂).2
    have hlist : s₃.left.store.lookup? (.string "l") = some (.list [.int 7, .int 7]) := by
      rw [← (EStateM.Result.ok.inj hvalue).2]
      rfl
    exact ⟨_, s₃.left, rfl, rfl, htakes _ _ _ _ _ rfl (by decide), hvalue, hlist⟩

end Assignment
end ScopeScript
