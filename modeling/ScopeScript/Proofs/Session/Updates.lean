/-
  ScopeScript.Proofs.Session.Updates

  What steps and compound assignments change. The tree that stands for one names
  its address twice: the target is resolved first, and then the right-hand side
  evaluates the address again and reads what is there. If that leads back to the
  location of the target, and the value there is still the same, the number that
  was held there is the one that is changed. An address without assignments
  always leads back; one whose keys assign may lead elsewhere, and then it is the
  number there that is changed and stored where the target is.
-/
import ScopeScript.Grammar.Expression
import ScopeScript.Proofs.Session.Cells
import ScopeScript.Proofs.Session.Steady

namespace ScopeScript

/-! ## Locations -/

/-- Both are the same place: the keys that lead there are equal. -/
def Location.Same (p q : Location) : Prop :=
  p.frame = q.frame ∧ List.Forall₂ (fun k l => k = l ∨ k.same l = true) p.keys q.keys

theorem Location.Same.refl (p : Location) : p.Same p :=
  ⟨rfl, List.forall₂_same.2 fun _ _ => .inl rfl⟩

theorem Store.at?_of_same {s : Store} {p q : Location} (h : p.Same q) : s.at? p = s.at? q := by
  obtain ⟨i, path⟩ := p
  obtain ⟨j, path'⟩ := q
  obtain ⟨rfl, hkeys⟩ := h
  have hat (v : Value) : v.at? path = v.at? path' := by
    simp only at hkeys
    induction hkeys generalizing v with
    | nil => rfl
    | cons hkl _ ih =>
      rw [Value.at?, Value.at?, Value.member?_congr hkl]
      exact congrArg _ (funext ih)
  exact congrArg (Option.bind _) (funext fun f => hat (.object f))

namespace Assignment

/-! ## Updates -/

/-- How an update that succeeds goes: an assignment to an address whose value is an
    operation on what the address reads and on `right`. -/
structure Update (op : BinaryOp) (address : List Expr) (right : Expr) (yieldsOld : Bool)
    (s s' : Session) where
  /-- Where the target is resolved. -/
  resolved : Session
  target : Target
  old : Option Value
  resolves : Resolves s address yieldsOld resolved target old
  /-- The keys that the address has when it is evaluated again, inside the operation
      and its first operand, and where it is read. -/
  keys : List Key
  again : Session
  keys_eq : evaluateAll address resolved.entered.entered = .ok keys again
  operand : Value
  operand_eq : Session.readAddress keys again = .ok operand again
  amount : Value
  behind : Session
  amount_eq : evaluate right again.left = .ok amount behind
  result : Value
  result_eq : op.apply operand amount = .ok result
  frames_eq : behind.store.depth = resolved.store.depth
  written : Session
  commit_eq : target.commit resolved.writes.length result behind.left = .ok () written
  left_eq : s' = written.left

variable {op : BinaryOp} {address : List Expr} {right : Expr} {yieldsOld : Bool} {s s' : Session}
  {v : Value}

theorem readAddress_eq_ok {keys : List Key} (h : Session.readAddress keys s = .ok v s') :
    s' = s := by
  cases keys with
  | nil => cases h; rfl
  | cons head path =>
    rw [Session.readAddress] at h
    split at h <;> cases h
    rfl

/-- An update that succeeds has its old value if it is asked for, and its result
    otherwise. -/
theorem exists_update {span inner place : Span}
    (h : evaluate (.assign span address (.binary inner op (.read place address) right) yieldsOld)
      s = .ok v s') :
    ∃ u : Update op address right yieldsOld s s', v = u.old.getD u.result := by
  rw [evaluate_assign, Action.nested_eq_ok_iff] at h
  obtain ⟨hlt, written, h, rfl⟩ := h
  obtain ⟨keys₁, resolved, hkeys₁, h⟩ := Action.bind_eq_ok_iff.1 h
  rw [write] at h
  cases hres : Target.resolve resolved.store keys₁ yieldsOld with
  | error e => rw [hres] at h; cases h
  | ok r =>
    rw [hres] at h
    obtain ⟨result, after, hright, h⟩ := Action.bind_eq_ok_iff.1 h
    obtain ⟨_, written', hcommit, h⟩ := Action.bind_eq_ok_iff.1 h
    cases h
    -- No scope is opened or left meanwhile, so the target stays where it is.
    have hframes := inherits_evaluate (.binary inner op (.read place address) right) resolved
    rw [Moves, hright] at hframes
    -- The operation: first the read of the address, then the other operand.
    rw [evaluate, Action.nested_eq_ok_iff] at hright
    obtain ⟨-, behind, hoperation, rfl⟩ := hright
    obtain ⟨operand, again, hread, hoperation⟩ := Action.bind_eq_ok_iff.1 hoperation
    obtain ⟨amount, behind', hamount, happly⟩ := Action.bind_eq_ok_iff.1 hoperation
    rw [evaluate, Action.nested_eq_ok_iff] at hread
    obtain ⟨-, again, hread, rfl⟩ := hread
    obtain ⟨keys, again', hkeys, hread⟩ := Action.bind_eq_ok_iff.1 hread
    obtain rfl := readAddress_eq_ok hread
    cases hresult : op.apply operand amount with
    | error f => rw [hresult] at happly; cases happly
    | ok result' =>
      rw [hresult] at happly
      cases happly
      exact ⟨⟨resolved, r.1, r.2, ⟨hlt, keys₁, hkeys₁, hres⟩, keys, _, hkeys, operand, hread,
        amount, _, hamount, _, hresult, hframes.depth_eq, _, hcommit, rfl⟩, rfl⟩

namespace Update

variable (u : Update op address right yieldsOld s s')

/-- The location of the target. -/
def place : Location :=
  u.target.place u.resolved.store

/-- The write was dropped. -/
def Dropped : Prop :=
  u.target.dropped u.resolved.writes.length u.behind.left = true

/-- The address has led to the location of the target again, and what was held
    there was there still. -/
def LeadsBack : Prop :=
  ∃ target, Target.Found u.again.store u.keys target ∧
    (Target.place u.again.store target).Same u.place ∧
    u.again.store.at? u.place = u.resolved.store.at? u.place

/-- A write that is not dropped leaves the result where the target is. -/
theorem at?_place (h : ¬ u.Dropped) : s'.store.at? u.place = some u.result := by
  have hputs := Target.puts_of_commit u.commit_eq (Bool.eq_false_iff.2 h)
  have hplace : Target.place u.behind.left.store u.target = u.place :=
    Target.place_eq u.frames_eq u.target
  have hstore : s'.store = u.written.left.store := congrArg Session.store u.left_eq
  rw [hstore, ← hplace]
  exact hputs.put_get

theorem old_eq_none (u : Update op address right false s s') : u.old = none := by
  obtain ⟨-, keys, -, hres⟩ := u.resolves
  exact Target.old_eq_none hres

/-- What was held at the location is the number that is changed. -/
theorem operand_eq_of_leadsBack {w : Value} (h : u.LeadsBack)
    (hw : u.resolved.store.at? u.place = some w) : u.operand = w := by
  obtain ⟨target, hfound, hsame, hkept⟩ := h
  have hread : Session.readAddress u.keys u.again = .ok w u.again := by
    refine Target.readAddress_of_found hfound ?_
    rw [Store.at?_of_same hsame, hkept, hw]
  have hoperand := u.operand_eq
  rw [hread] at hoperand
  cases hoperand
  rfl

/-- An address without assignments leads back. -/
theorem leadsBack_of_readOnly (h : Expr.anyAssignment address = false) : u.LeadsBack := by
  -- Both evaluations of the address see the store as it was, and change nothing.
  obtain ⟨-, keys, hkeys, hres⟩ := u.resolves
  have hsteady : Steady (· = s.store) (evaluateAll address) :=
    steady_evaluateAll address h fun _ => ⟨s.store, fun _ ht => ht⟩
  have hstore : u.resolved.store = s.entered.store := (keeps_evaluateAll address h).ok hkeys
  obtain ⟨rfl, -, hagain⟩ := hsteady.eq_of_ok (s := s.entered)
    (t := u.resolved.entered.entered) (Nat.succ_pos _) (Nat.succ_pos _) rfl hstore hkeys u.keys_eq
  have hsame : u.again.store = u.resolved.store := by
    rw [hagain]
    rfl
  refine ⟨u.target, hsame ▸ Target.found_of_resolve hres, ?_, by rw [hsame]⟩
  rw [hsame]
  exact .refl u.place

/-- What a step changes is a number. -/
theorem exists_number {span : Span} (hop : op = .add ∨ op = .sub)
    (u : Update op address (.int span 1) yieldsOld s s') :
    ∃ a : Number, u.operand = .ofNumber a ∧
      (op = .add ∧ u.result = .ofNumber (a.add (.int 1)) ∨
        op = .sub ∧ u.result = .ofNumber (a.sub (.int 1))) := by
  have hamount : u.amount = .int 1 := by
    obtain ⟨-, t, ht, -⟩ := Action.nested_eq_ok_iff.1 u.amount_eq
    exact (EStateM.Result.ok.inj ht).1.symm
  have happly := u.result_eq
  rw [hamount, BinaryOp.apply] at happly
  have hnumber {a : Number} (h : u.operand.number? = some a) : u.operand = .ofNumber a := by
    generalize u.operand = w at h
    cases w with
    | primitive p =>
      cases p <;> cases h <;> rfl
    | list es => cases h
    | object ps => cases h
  cases ha : u.operand.number? with
  | none =>
    rcases hop with rfl | rfl <;> rw [ha] at happly <;> cases happly
  | some a =>
    refine ⟨a, hnumber ha, ?_⟩
    rw [ha] at happly
    rcases hop with rfl | rfl
    · exact .inl ⟨rfl, (Except.ok.inj happly).symm⟩
    · exact .inr ⟨rfl, (Except.ok.inj happly).symm⟩

end Update

theorem add_or_sub_of_stepOp? {symbol : Symbol} (h : Grammar.stepOp? symbol = some op) :
    op = .add ∨ op = .sub := by
  cases symbol <;> cases h
  · exact .inl rfl
  · exact .inr rfl

/-- What steps and compound assignments change. The value of a step that is behind
    its target is what is held where the target is, and the value of any other
    update is the one that is stored there, unless the write is dropped. The
    number that is changed is what the address reads when it is evaluated again.
    If the address leads back, this is what is held where the target is; and an
    address without assignments leads back. -/
theorem updates_target (address : List Expr) (s : Session) :
    (∀ symbol op span v s', Grammar.stepOp? symbol = some op →
      evaluate (Grammar.step op address span true) s = .ok v s' →
      ∃ (u : Update op address (.int span 1) true s s') (a : Number),
        u.resolved.store.at? u.place = some v ∧ u.operand = .ofNumber a ∧
        (op = .add ∧ u.result = .ofNumber (a.add (.int 1)) ∨
          op = .sub ∧ u.result = .ofNumber (a.sub (.int 1))) ∧
        (¬ u.Dropped → s'.store.at? u.place = some u.result) ∧
        (u.LeadsBack → u.operand = v) ∧
        (Expr.anyAssignment address = false → u.LeadsBack)) ∧
    (∀ symbol op span v s', Grammar.stepOp? symbol = some op →
      evaluate (Grammar.step op address span false) s = .ok v s' →
      ∃ (u : Update op address (.int span 1) false s s') (a : Number),
        v = u.result ∧ u.operand = .ofNumber a ∧
        (op = .add ∧ v = .ofNumber (a.add (.int 1)) ∨
          op = .sub ∧ v = .ofNumber (a.sub (.int 1))) ∧
        (¬ u.Dropped → s'.store.at? u.place = some v) ∧
        (u.LeadsBack → ∀ w, u.resolved.store.at? u.place = some w → u.operand = w) ∧
        (Expr.anyAssignment address = false → u.LeadsBack)) ∧
    ∀ op place right v s',
      evaluate (Grammar.assignment (.compound op) address place right) s = .ok v s' →
      ∃ u : Update op address right false s s',
        v = u.result ∧ op.apply u.operand u.amount = .ok v ∧
        (¬ u.Dropped → s'.store.at? u.place = some v) ∧
        (u.LeadsBack → ∀ w, u.resolved.store.at? u.place = some w → u.operand = w) ∧
        (Expr.anyAssignment address = false → u.LeadsBack) := by
  refine ⟨fun symbol op span v s' hop h => ?behind, fun symbol op span v s' hop h => ?before,
    fun op place right v s' h => ?compound⟩
  case behind =>
    obtain ⟨u, hv⟩ := exists_update h
    obtain ⟨-, keys, -, hres⟩ := u.resolves
    obtain ⟨w, hold, hheld⟩ := Target.old_of_resolve hres
    rw [hold, Option.getD_some] at hv
    subst hv
    obtain ⟨a, ha, hresult⟩ := u.exists_number (add_or_sub_of_stepOp? hop)
    exact ⟨u, a, hheld, ha, hresult, u.at?_place,
      fun hback => u.operand_eq_of_leadsBack hback hheld, u.leadsBack_of_readOnly⟩
  case before =>
    obtain ⟨u, hv⟩ := exists_update h
    rw [u.old_eq_none, Option.getD_none] at hv
    subst hv
    obtain ⟨a, ha, hresult⟩ := u.exists_number (add_or_sub_of_stepOp? hop)
    exact ⟨u, a, rfl, ha, hresult, u.at?_place, fun hback _ => u.operand_eq_of_leadsBack hback,
      u.leadsBack_of_readOnly⟩
  case compound =>
    obtain ⟨u, hv⟩ := exists_update h
    rw [u.old_eq_none, Option.getD_none] at hv
    subst hv
    exact ⟨u, rfl, u.result_eq, u.at?_place, fun hback _ => u.operand_eq_of_leadsBack hback,
      u.leadsBack_of_readOnly⟩

/-- With `x` bound to 1, `x++` has the value 1 and changes 1 into 2, `++x` has the
    value 2, and `x += 2` has the value 3. With `l` bound to `[10, 20]` as well,
    `l[x]++` has the value 20 and leaves 21 in its place, and `l[x] -= 5` has the
    value 15 and leaves that there. -/
theorem updates_target_name :
    let at0 : Span := ⟨0, 0⟩
    let x := [Expr.string at0 "x"]
    let lx := [Expr.string at0 "l", .read at0 x]
    let s : Session :=
      ⟨⟨[], [(.string "x", .int 1), (.string "l", .list [.int 10, .int 20])], []⟩, 0, 10, []⟩
    Grammar.stepOp? .increment = some .add ∧
    (∃ s', evaluate (Grammar.step .add x at0 true) s = .ok (.int 1) s' ∧
      ∃ u : Update .add x (.int at0 1) true s s', u.operand = .int 1 ∧ u.result = .int 2) ∧
    (∃ s', evaluate (Grammar.step .add x at0 false) s = .ok (.int 2) s' ∧
      ∃ u : Update .add x (.int at0 1) false s s', u.result = .int 2 ∧ u.LeadsBack) ∧
    (∃ s', evaluate (Grammar.assignment (.compound .add) x at0 (.int at0 2)) s = .ok (.int 3) s' ∧
      ∃ u : Update .add x (.int at0 2) false s s', u.result = .int 3 ∧ u.LeadsBack) ∧
    (∃ s', evaluate (Grammar.step .add lx at0 true) s = .ok (.int 20) s' ∧
      s'.store.at? ⟨1, [.string "l", .int 1]⟩ = some (.int 21) ∧
      ∃ u : Update .add lx (.int at0 1) true s s', u.operand = .int 20 ∧ u.LeadsBack) ∧
    ∃ s', evaluate (Grammar.assignment (.compound .sub) lx at0 (.int at0 5)) s = .ok (.int 15) s' ∧
      s'.store.at? ⟨1, [.string "l", .int 1]⟩ = some (.int 15) ∧
      ∃ u : Update .sub lx (.int at0 5) false s s', u.result = .int 15 ∧ u.LeadsBack := by
  intro at0 x lx s
  obtain ⟨hbehind, hbefore, hcompound⟩ := updates_target x s
  refine ⟨rfl, ⟨_, rfl, ?_⟩, ⟨_, rfl, ?_⟩, ⟨_, rfl, ?_⟩, ⟨_, rfl, rfl, ?_⟩, _, rfl, rfl, ?_⟩
  · obtain ⟨u, a, -, ha, hresult, -, hback, hleads⟩ := hbehind .increment .add at0 _ _ rfl rfl
    have hoperand : u.operand = .int 1 := hback (hleads rfl)
    refine ⟨u, hoperand, ?_⟩
    rw [hoperand] at ha
    rcases hresult with ⟨-, hresult⟩ | ⟨h, -⟩
    · cases a <;> cases ha
      exact hresult
    · cases h
  · obtain ⟨u, -, hv, -, -, -, -, hleads⟩ := hbefore .increment .add at0 _ _ rfl rfl
    exact ⟨u, hv.symm, hleads rfl⟩
  · obtain ⟨u, hv, -, -, -, hleads⟩ := hcompound .add at0 (.int at0 2) _ _ rfl
    exact ⟨u, hv.symm, hleads rfl⟩
  · obtain ⟨u, -, -, -, -, -, hback, hleads⟩ :=
      (updates_target lx s).1 .increment .add at0 _ _ rfl rfl
    exact ⟨u, hback (hleads rfl), hleads rfl⟩
  · obtain ⟨u, hv, -, -, -, hleads⟩ := (updates_target lx s).2.2 .sub at0 (.int at0 5) _ _ rfl
    exact ⟨u, hv.symm, hleads rfl⟩

/-- With `l` bound to `[10, 20]` and `i` to 0, `l[i++]++` has the value 10, which is
    held at `l[0]`, and its write is not dropped. But evaluated again the address
    leads to `l[1]`, and `l[0]` becomes 21. -/
theorem update_elsewhere :
    let at0 : Span := ⟨0, 0⟩
    let address := [Expr.string at0 "l", Grammar.step .add [.string at0 "i"] at0 true]
    let s : Session :=
      ⟨⟨[], [(.string "l", .list [.int 10, .int 20]), (.string "i", .int 0)], []⟩, 0, 10, []⟩
    ∃ s', evaluate (Grammar.step .add address at0 true) s = .ok (.int 10) s' ∧
      ∃ u : Update .add address (.int at0 1) true s s',
        ¬ u.Dropped ∧ u.resolved.store.at? u.place = some (.int 10) ∧
          s'.store.at? u.place = some (.int 21) ∧
            s'.store.at? u.place ≠ some (.ofNumber (.add (.int 10) (.int 1))) := by
  intro at0 address s
  refine ⟨_, rfl, ⟨_, _, _, ⟨by decide, _, rfl, rfl⟩, _, _, rfl, _, rfl, _, _, rfl, _, rfl, rfl, _,
    rfl, rfl⟩, ?_, rfl, rfl, ?_⟩
  · rw [Update.Dropped]
    decide
  · intro h
    have hprimitive := Value.primitive.inj (Option.some.inj h)
    exact absurd hprimitive (by decide)

end Assignment
end ScopeScript
