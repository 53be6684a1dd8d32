/-
  ScopeScript.Proofs.Session.Addresses

  Addresses of literals are lawful cells. An expression that neither assigns nor
  reads comes to the same in every store, and an assignment of it to an address
  puts its value where the address leads, or fails and leaves the store as it is.
  What it comes to is the same in all stores in which the address is the same
  target. So the laws of `Store.Puts` are laws of addresses, errors included.
-/
import ScopeScript.Proofs.Session.Steady
import ScopeScript.Proofs.Session.Ways

namespace ScopeScript

/-! ## Addresses of literals -/

/-- A literal, and where it stands. -/
structure Literal where
  span : Span
  value : Primitive

/-- The tree of a literal. -/
def Literal.expr (l : Literal) : Expr :=
  match l.value with
  | .int n => .int l.span n
  | .double d => .double l.span d
  | .string s => .string l.span s

/-- The segments of an address. -/
abbrev Address := List Literal

namespace Address

/-- The trees of the segments. -/
def exprs (t : Address) : List Expr :=
  t.map Literal.expr

/-- What the segments evaluate to. -/
def keys (t : Address) : List Key :=
  t.map fun l => ⟨.primitive l.value, l.span⟩

/-- The keys alone, wherever the address stands. -/
def path (t : Address) : List Value :=
  t.map fun l => .primitive l.value

theorem map_keys (t : Address) : t.keys.map (·.value) = t.path := by
  rw [keys, path, List.map_map]
  rfl

end Address

/-- The tree neither assigns nor reads. -/
def Expr.Inert (e : Expr) : Prop :=
  e.hasAssignment = false ∧ e.hasRead = false

variable {t t' : Address} {s s' u : Session} {e right : Expr} {span span' : Span} {v : Value}

/-- It comes to the same in every store. -/
theorem Expr.Inert.steady (h : e.Inert) : Steady (fun _ => True) (evaluate e) :=
  steady_evaluate e h.1 fun hread => by rw [h.2] at hread; cases hread

theorem Literal.evaluate_expr (l : Literal) :
    evaluate l.expr = Action.nested l.span (pure (.primitive l.value)) := by
  obtain ⟨span, value⟩ := l
  cases value <;> rfl

theorem Literal.span_expr (l : Literal) : l.expr.span = l.span := by
  obtain ⟨span, value⟩ := l
  cases value <;> rfl

namespace Address

theorem steady_exprs (t : Address) : Steady (fun _ => True) (evaluateAll t.exprs) := by
  induction t with
  | nil => exact .pure _
  | cons l t ih =>
    have hl : Steady (fun _ => True) (evaluate l.expr) := by
      rw [l.evaluate_expr]
      exact .nested (.pure _) l.span
    exact .bind hl fun _ => .bind ih fun _ => .pure _

/-- With room for one evaluation more the segments evaluate to the keys. -/
theorem evaluateAll_exprs (t : Address) (hd : 0 < s.depth) (hlt : s.depth < s.limit) :
    evaluateAll t.exprs s = .ok t.keys s := by
  induction t with
  | nil => rfl
  | cons l t ih =>
    have hl : evaluate l.expr s = .ok (.primitive l.value) s := by
      rw [l.evaluate_expr]
      exact Action.nested_eq_ok_iff.2 ⟨hlt, s.entered, rfl, (Steady.left_entered hd).symm⟩
    change evaluateAll (l.expr :: exprs t) s = _
    rw [evaluateAll, Action.bind_of_ok hl, Action.bind_of_ok ih, l.span_expr]
    rfl

/-- Segments that evaluate do so with room for one evaluation more. -/
theorem lt_of_evaluateAll {keys : List Key} (ht : t ≠ [])
    (h : evaluateAll t.exprs s = .ok keys s') : s.depth < s.limit := by
  cases t with
  | nil => exact absurd rfl ht
  | cons l t =>
    obtain ⟨w, s₁, hl, -⟩ := Action.bind_eq_ok_iff.1 h
    rw [l.evaluate_expr] at hl
    exact (Action.nested_eq_ok_iff.1 hl).1

/-- Whatever segments evaluate to are the keys. -/
theorem evaluateAll_exprs_eq {keys : List Key} (hd : 0 < s.depth)
    (h : evaluateAll t.exprs s = .ok keys s') : keys = t.keys ∧ s' = s := by
  cases t with
  | nil => cases h; exact ⟨rfl, rfl⟩
  | cons l t =>
    have hlt := lt_of_evaluateAll (List.cons_ne_nil l t) h
    rw [evaluateAll_exprs (l :: t) hd hlt] at h
    cases h
    exact ⟨rfl, rfl⟩

end Address

/-! ## How an assignment ends -/

/-- What an assignment comes to in `s`: an error, with the store as it was, or a
    value that has been put where a target is. -/
def Ends (span : Span) (s : Session) (run : Run Value) : Except RuntimeError (Target × Value) → Prop
  | .error e => ∃ s', run = .error (e.located span) s' ∧ s'.store = s.store
  | .ok (target, v) => ∃ s', run = .ok v s' ∧ s.store.Puts (target.place s.store) v s'.store

theorem write_of_error {keys : List Key} {right : Action Value} {error : RuntimeError}
    (h : Target.resolve s.store keys false = .error error) :
    Assignment.write keys right false s = .error error s := by
  rw [Assignment.write, h]

theorem write_of_ok {keys : List Key} {right : Action Value} {target : Target} {old : Option Value}
    (h : Target.resolve s.store keys false = .ok (target, old)) :
    Assignment.write keys right false s =
      (right >>= fun value => target.commit s.writes.length value >>= fun _ =>
        pure (old.getD value)) s := by
  rw [Assignment.write, h]

/-- Where the right-hand side leaves the session as it is, an assignment ends as
    the checks of its target and the right-hand side tell. -/
theorem ends_assign (span : Span) {address : List Expr} {keys : Except RuntimeError (List Key)}
    {value : Except RuntimeError Value} (hlt : s.depth < s.limit)
    (hkeys : evaluateAll address s.entered = Action.ofExcept keys s.entered)
    (hright : evaluate right s.entered = Action.ofExcept value s.entered) :
    Ends span s (evaluate (.assign span address right false) s) (do
      let keys ← keys
      let target ← Target.resolve s.store keys false
      let value ← value
      return (target.1, value)) := by
  rw [Assignment.evaluate_assign]
  have hfails {e : RuntimeError} {body : Action Value} (h : body s.entered = .error e s.entered) :
      ∃ s', Action.nested span body s = .error (e.located span) s' ∧ s'.store = s.store :=
    ⟨_, Action.nested_eq_error_iff.2 (.inr ⟨hlt, e, _, h, rfl, rfl⟩), rfl⟩
  cases keys with
  | error e => exact hfails (Action.bind_of_error hkeys)
  | ok keys =>
    show Ends span s _ (Target.resolve s.store keys false >>= _)
    cases hres : Target.resolve s.store keys false with
    | error e => exact hfails ((Action.bind_of_ok hkeys).trans (write_of_error hres))
    | ok r =>
      obtain ⟨target, old⟩ := r
      cases Target.old_eq_none hres
      have hwrite (right : Action Value) :
          (evaluateAll address >>= fun keys => Assignment.write keys right false) s.entered =
            (right >>= fun value => target.commit s.entered.writes.length value >>= fun _ =>
              pure (Option.getD none value)) s.entered :=
        (Action.bind_of_ok hkeys).trans (write_of_ok hres)
      cases value with
      | error e => exact hfails ((hwrite _).trans (Action.bind_of_error hright))
      | ok v =>
        obtain ⟨-, s₁, hcommit⟩ := Assignment.exists_commit (s := s.entered) (Nat.succ_pos _)
          hres hright
        -- The right-hand side has written nothing, so the write is not dropped.
        have hopen : target.dropped s.entered.writes.length s.entered = false := by
          cases target with
          | name n => rfl
          | member frame root span path key =>
            rw [Target.dropped, Target.writesSince, Nat.sub_self, List.take_zero]
            rfl
        have hputs : s.entered.store.Puts (target.place s.entered.store) v s₁.store :=
          Target.puts_of_commit hcommit hopen
        refine ⟨s₁.left, Action.nested_eq_ok_iff.2 ⟨hlt, s₁, ?_, rfl⟩, hputs⟩
        rw [hwrite, Action.bind_of_ok hright, Action.bind_of_ok hcommit]
        rfl

/-- An assignment to an address ends in one way wherever the address is the same
    target. -/
theorem exists_ends (he : e.Inert) (t : Address) (span : Span) (s : Session) :
    ∃ r : Except RuntimeError (Target × Value),
      (∀ target v, r = .ok (target, v) →
        Target.resolve s.store t.keys false = .ok (target, none) ∧ s.depth + 1 < s.limit) ∧
      ∀ u, s.SameNesting u →
        Target.resolve u.store t.keys false = Target.resolve s.store t.keys false →
        Ends span u (evaluate (.assign span t.exprs e false) u) r := by
  by_cases hle : s.limit ≤ s.depth
  · refine ⟨.error ⟨.stackOverflow s.limit, some span⟩, nofun, fun u hu _ => ⟨u, ?_, rfl⟩⟩
    rw [Assignment.evaluate_assign, Action.nested_eq_error_iff, hu.depth_eq, hu.limit_eq]
    exact .inl ⟨hle, rfl, rfl⟩
  · have hlt : s.depth < s.limit := by omega
    -- What the segments and the right-hand side come to one level deeper.
    obtain ⟨_, hkeys⟩ := t.steady_exprs
    obtain ⟨keys, -, hkeys⟩ := hkeys (s.depth + 1) s.limit (Nat.succ_pos _)
    obtain ⟨_, hvalue⟩ := he.steady
    obtain ⟨value, -, hvalue⟩ := hvalue (s.depth + 1) s.limit (Nat.succ_pos _)
    have hs : evaluateAll t.exprs s.entered = Action.ofExcept keys s.entered :=
      hkeys s.entered rfl rfl trivial
    refine ⟨do
      let keys ← keys
      let target ← Target.resolve s.store keys false
      let value ← value
      return (target.1, value), fun target v hr => ?checks, fun u hu hres => ?ends⟩
    case checks =>
      obtain ⟨keys, rfl, hchecked⟩ := Value.exists_of_bind hr
      obtain ⟨⟨target', old⟩, hres, hdone⟩ := Value.exists_of_bind hchecked
      obtain ⟨value, -, hdone⟩ := Value.exists_of_bind hdone
      cases hdone
      cases Target.old_eq_none hres
      obtain ⟨rfl, -⟩ := Address.evaluateAll_exprs_eq (Nat.succ_pos _) hs
      refine ⟨hres, Address.lt_of_evaluateAll ?_ hs⟩
      rintro rfl
      cases hres
    case ends =>
      have hdepth : u.entered.depth = s.depth + 1 := congrArg (· + 1) hu.depth_eq
      have hends := ends_assign span (by rw [hu.depth_eq, hu.limit_eq]; exact hlt)
        (hkeys u.entered hdepth hu.limit_eq trivial) (hvalue u.entered hdepth hu.limit_eq trivial)
      cases keys with
      | error e => exact hends
      | ok keys =>
        obtain ⟨rfl, -⟩ := Address.evaluateAll_exprs_eq (Nat.succ_pos _) hs
        change Ends span u _ (Target.resolve u.store t.keys false >>= _) at hends
        rw [hres] at hends
        exact hends

/-! ## Laws -/

/-- An address that leads somewhere reads what stands there. -/
theorem evaluate_read {target : Target} (hlt : s.depth + 1 < s.limit) (span : Span)
    (hfound : Target.Found s.store t.keys target)
    (hv : s.store.at? (target.place s.store) = some v) :
    evaluate (.read span t.exprs) s = .ok v s.entered.left := by
  rw [evaluate, Action.nested_eq_ok_iff]
  refine ⟨by omega, s.entered, ?_, rfl⟩
  rw [Action.bind_of_ok (t.evaluateAll_exprs (s := s.entered) (Nat.succ_pos _) hlt)]
  exact Target.readAddress_of_found (s := s.entered) hfound hv

/-- An assignment that succeeds has put its value where its target is. -/
theorem exists_puts (he : e.Inert) (h : evaluate (.assign span t.exprs e false) s = .ok v s') :
    s.depth + 1 < s.limit ∧ ∃ target, Target.resolve s.store t.keys false = .ok (target, none) ∧
      s.store.Puts (target.place s.store) v s'.store := by
  obtain ⟨r, hr, hends⟩ := exists_ends he t span s
  have hs := hends s (.refl s) rfl
  rw [h] at hs
  cases r with
  | error e =>
    obtain ⟨_, herror, -⟩ := hs
    cases herror
  | ok r =>
    obtain ⟨_, heq, hputs⟩ := hs
    cases heq
    obtain ⟨hres, hlt⟩ := hr _ _ rfl
    exact ⟨hlt, r.1, hres, hputs⟩

/-- Behind an assignment to it an address is the target that it was. -/
theorem resolve_eq_of_puts {target : Target}
    (hres : Target.resolve s.store t.keys false = .ok (target, none))
    (hputs : s.store.Puts (target.place s.store) v s'.store) (hpath : t'.path = t.path) :
    Target.resolve s'.store t'.keys false = Target.resolve s.store t'.keys false := by
  have hway := hputs.keepsWay_self
  rw [(Target.found_of_resolve hres).keys_place, t.map_keys, ← hpath, ← t'.map_keys] at hway
  exact hway.resolve_eq

/-- What was put is got. -/
theorem assign_read (he : e.Inert) (hpath : t'.path = t.path)
    (h : evaluate (.assign span t.exprs e false) s = .ok v s') (span' : Span) :
    ∃ s'', evaluate (.read span' t'.exprs) s' = .ok v s'' := by
  have hnesting := (limits_evaluate _).keeps_of_ok h
  obtain ⟨hlt, target, hres, hputs⟩ := exists_puts he h
  have hfound : Target.Found s'.store t.keys target :=
    Target.found_of_resolve ((resolve_eq_of_puts hres hputs rfl).trans hres)
  have hkeys : t'.keys.map (·.value) = t.keys.map (·.value) := by
    rw [t'.map_keys, t.map_keys, hpath]
  obtain ⟨target', hfound'⟩ := hfound.exists_of_map_eq hkeys
  refine ⟨_, evaluate_read ?_ span' hfound' ?_⟩
  · rw [hnesting.depth_eq, hnesting.limit_eq]
    exact hlt
  · rw [hfound.place_eq hfound' hkeys, Target.place_eq hputs.depth_eq]
    exact hputs.put_get

/-- What an address of more than one segment reads stands where it leads. -/
theorem exists_found (ht : 2 ≤ t.length) (h : evaluate (.read span t.exprs) s = .ok v s') :
    ∃ target, Target.Found s.store t.keys target ∧
      s.store.at? (target.place s.store) = some v := by
  rw [evaluate, Action.nested_eq_ok_iff] at h
  obtain ⟨-, s₁, h, -⟩ := h
  obtain ⟨keys, s₂, hkeys, hread⟩ := Action.bind_eq_ok_iff.1 h
  obtain ⟨rfl, rfl⟩ := Address.evaluateAll_exprs_eq (Nat.succ_pos _) hkeys
  rcases t with - | ⟨head, rest⟩
  · cases ht
  · rcases List.eq_nil_or_concat rest with rfl | ⟨path, key, rfl⟩
    · exact absurd ht (by simp)
    · rw [List.concat_eq_append] at hread ⊢
      rw [Address.keys, List.map_cons, List.map_append] at hread ⊢
      rw [Session.readAddress] at hread
      split at hread
      · next hread' =>
        cases hread
        exact Target.found_of_read hread'
      · cases hread

/-- To put what is got changes nothing. -/
theorem assign_of_read (ht : 2 ≤ t'.length) (hroom : s.depth + 2 < s.limit)
    (hpath : t'.path = t.path) (h : evaluate (.read span' t'.exprs) s = .ok v s') (span : Span) :
    ∃ s'', evaluate (.assign span t.exprs (.read span' t'.exprs) false) s = .ok v s'' ∧
      s''.store = s.store := by
  have hkeys : t.keys.map (·.value) = t'.keys.map (·.value) := by
    rw [t'.map_keys, t.map_keys, hpath]
  obtain ⟨target', hfound', hv'⟩ := exists_found ht h
  obtain ⟨target, hfound⟩ := hfound'.exists_of_map_eq hkeys
  have hv : s.store.at? (target.place s.store) = some v := by
    rw [hfound'.place_eq hfound hkeys]
    exact hv'
  have hright : evaluate (.read span' t'.exprs) s.entered = Action.ofExcept (.ok v) s.entered := by
    have hread := evaluate_read (s := s.entered) hroom span' hfound' hv'
    rw [Steady.left_entered (Nat.succ_pos _)] at hread
    exact hread
  have hlt : s.depth + 1 < s.limit := by omega
  have hevaluated : evaluateAll t.exprs s.entered = Action.ofExcept (.ok t.keys) s.entered :=
    t.evaluateAll_exprs (Nat.succ_pos _) hlt
  have hends := ends_assign span (by omega) hevaluated hright
  change Ends span s _ (Target.resolve s.store t.keys false >>= _) at hends
  rw [Target.resolve_of_found hfound hv] at hends
  obtain ⟨s'', heq, hputs⟩ := hends
  exact ⟨s'', heq, hputs.get_put hv⟩

/-- What is put last counts. -/
theorem assign_assign {e₁ e₂ : Expr} {s₁ s₂ : Session} {v₁ v₂ : Value} (he₁ : e₁.Inert)
    (he₂ : e₂.Inert) (hpath : t'.path = t.path)
    (h₁ : evaluate (.assign span t.exprs e₁ false) s = .ok v₁ s₁)
    (h₂ : evaluate (.assign span' t'.exprs e₂ false) s₁ = .ok v₂ s₂) :
    ∃ s', evaluate (.assign span' t'.exprs e₂ false) s = .ok v₂ s' ∧ s'.store = s₂.store := by
  obtain ⟨-, target, hres, hputs⟩ := exists_puts he₁ h₁
  -- The first assignment has not moved the target of the second one.
  have hres_eq := resolve_eq_of_puts hres hputs hpath
  have hnesting := (limits_evaluate _).keeps_of_ok h₁
  -- Before and behind the first assignment the second one ends in the same way.
  obtain ⟨r, hr, hends⟩ := exists_ends he₂ t' span' s
  have hbehind := hends s₁ hnesting hres_eq
  have halone := hends s (.refl s) rfl
  rw [h₂] at hbehind
  cases r with
  | error e =>
    obtain ⟨_, herror, -⟩ := hbehind
    cases herror
  | ok r =>
    obtain ⟨target', v⟩ := r
    obtain ⟨_, heq, hputs₂⟩ := hbehind
    cases heq
    obtain ⟨s', halone, hputs'⟩ := halone
    refine ⟨s', halone, ?_⟩
    have hplace : target'.place s.store = target.place s.store := by
      refine (Target.found_of_resolve hres).place_eq
        (Target.found_of_resolve (hr target' v₂ rfl).1) ?_
      rw [t'.map_keys, t.map_keys, hpath]
    rw [Target.place_eq hputs.depth_eq, hplace] at hputs₂
    rw [hplace] at hputs'
    exact (hputs.put_put hputs₂).unique hputs'

/-- An address to which another one does not lead is the same target behind an
    assignment to that. -/
theorem Ends.resolve_eq {r : Except RuntimeError (Target × Value)} {run : Run Value}
    (h : Ends span s run r)
    (hr : ∀ target v, r = .ok (target, v) →
      Target.resolve s.store t.keys false = .ok (target, none) ∧ s.depth + 1 < s.limit)
    (hpath : Location.startsWith t'.path t.path = false) :
    Target.resolve (Run.session run).store t'.keys false =
      Target.resolve s.store t'.keys false := by
  cases r with
  | error e =>
    obtain ⟨s', rfl, hstore⟩ := h
    rw [Run.session, hstore]
  | ok r =>
    obtain ⟨s', rfl, hputs⟩ := h
    refine Store.KeepsWay.resolve_eq (hputs.keepsWay_of_apart ?_)
    rw [(Target.found_of_resolve (hr r.1 r.2 rfl).1).keys_place, t.map_keys, t'.map_keys]
    exact hpath

theorem Ends.outcome_eq {r : Except RuntimeError (Target × Value)} {run run' : Run Value}
    (h : Ends span s run r) (h' : Ends span u run' r) : Run.outcome run' = Run.outcome run := by
  cases r with
  | error e =>
    obtain ⟨_, rfl, -⟩ := h
    obtain ⟨_, rfl, -⟩ := h'
    rfl
  | ok r =>
    obtain ⟨_, rfl, -⟩ := h
    obtain ⟨_, rfl, -⟩ := h'
    rfl

theorem Ends.store {run : Run Value} {e : RuntimeError} (h : Ends span s run (.error e)) :
    (Run.session run).store = s.store := by
  obtain ⟨_, rfl, hstore⟩ := h
  exact hstore

theorem Ends.puts {run : Run Value} {target : Target} (h : Ends span s run (.ok (target, v))) :
    s.store.Puts (target.place s.store) v (Run.session run).store := by
  obtain ⟨_, rfl, hputs⟩ := h
  exact hputs

/-- Assignments to addresses that do not lead to one another may be made in either
    order. -/
theorem assign_comm {t₁ t₂ : Address} {e₁ e₂ : Expr} (he₁ : e₁.Inert) (he₂ : e₂.Inert)
    (h₁₂ : Location.startsWith t₂.path t₁.path = false)
    (h₂₁ : Location.startsWith t₁.path t₂.path = false) (span₁ span₂ : Span) (s : Session) :
    let first := evaluate (.assign span₁ t₁.exprs e₁ false)
    let second := evaluate (.assign span₂ t₂.exprs e₂ false)
    Run.outcome (first (Run.session (second s))) = Run.outcome (first s) ∧
    Run.outcome (second (Run.session (first s))) = Run.outcome (second s) ∧
    (Run.session (second (Run.session (first s)))).store.Alike
      (Run.session (first (Run.session (second s)))).store := by
  intro first second
  obtain ⟨r₁, hr₁, hends₁⟩ := exists_ends he₁ t₁ span₁ s
  obtain ⟨r₂, hr₂, hends₂⟩ := exists_ends he₂ t₂ span₂ s
  have hfirst : Ends span₁ s (first s) r₁ := hends₁ s (.refl s) rfl
  have hsecond : Ends span₂ s (second s) r₂ := hends₂ s (.refl s) rfl
  -- Neither moves the target of the other one, so behind it each ends as before it.
  have hfirst' : Ends span₁ _ (first (Run.session (second s))) r₁ :=
    hends₁ _ ((limits_evaluate _).keeps s) (hsecond.resolve_eq hr₂ h₂₁)
  have hsecond' : Ends span₂ _ (second (Run.session (first s))) r₂ :=
    hends₂ _ ((limits_evaluate _).keeps s) (hfirst.resolve_eq hr₁ h₁₂)
  refine ⟨hfirst.outcome_eq hfirst', hsecond.outcome_eq hsecond', ?_⟩
  -- If one of them fails, only the other one puts something, into the same store.
  cases r₁ with
  | error =>
    cases r₂ with
    | error =>
      rw [hsecond'.store, hfirst'.store, hfirst.store, hsecond.store]
      exact .refl _
    | ok r₂ =>
      have hputs := hsecond'.puts
      rw [hfirst.store] at hputs
      rw [hfirst'.store, hsecond.puts.unique hputs]
      exact .refl _
  | ok r₁ =>
    cases r₂ with
    | error =>
      have hputs := hfirst'.puts
      rw [hsecond.store] at hputs
      rw [hsecond'.store, hfirst.puts.unique hputs]
      exact .refl _
    | ok r₂ =>
      have hputs := hfirst'.puts
      have hputs' := hsecond'.puts
      rw [Target.place_eq hsecond.puts.depth_eq] at hputs
      rw [Target.place_eq hfirst.puts.depth_eq] at hputs'
      refine hfirst.puts.comm hsecond.puts hputs' hputs ?_ ?_
      all_goals
        rw [(Target.found_of_resolve (hr₁ _ _ rfl).1).keys_place,
          (Target.found_of_resolve (hr₂ _ _ rfl).1).keys_place, t₁.map_keys, t₂.map_keys]
      · exact h₁₂
      · exact h₂₁

/-- Addresses of literals are lawful, independent cells, in every session. What an
    assignment has put is read afterwards; to assign what is read, with room for
    the read, leaves all frames exactly as they were; and of two assignments to
    one address the second alone leaves the same frames. Assignments to two
    addresses neither of which leads to the other come to the same values or
    errors in either order, and leave frames that are the same maps. -/
theorem addresses_are_cells (s : Session) :
    (∀ (t t' : Address) (e : Expr) span span' v s', t'.path = t.path → e.Inert →
      evaluate (.assign span t.exprs e false) s = .ok v s' →
      ∃ s'', evaluate (.read span' t'.exprs) s' = .ok v s'') ∧
    (∀ (t t' : Address) span span' v s', t'.path = t.path → 2 ≤ t'.length →
      s.depth + 2 < s.limit → evaluate (.read span' t'.exprs) s = .ok v s' →
      ∃ s'', evaluate (.assign span t.exprs (.read span' t'.exprs) false) s = .ok v s'' ∧
        s''.store = s.store) ∧
    (∀ (t t' : Address) (e₁ e₂ : Expr) span span' v₁ v₂ s₁ s₂, t'.path = t.path →
      e₁.Inert → e₂.Inert → evaluate (.assign span t.exprs e₁ false) s = .ok v₁ s₁ →
      evaluate (.assign span' t'.exprs e₂ false) s₁ = .ok v₂ s₂ →
      ∃ s', evaluate (.assign span' t'.exprs e₂ false) s = .ok v₂ s' ∧ s'.store = s₂.store) ∧
    ∀ (t₁ t₂ : Address) (e₁ e₂ : Expr) span₁ span₂, e₁.Inert → e₂.Inert →
      Location.startsWith t₂.path t₁.path = false → Location.startsWith t₁.path t₂.path = false →
      let first := evaluate (.assign span₁ t₁.exprs e₁ false)
      let second := evaluate (.assign span₂ t₂.exprs e₂ false)
      Run.outcome (first (Run.session (second s))) = Run.outcome (first s) ∧
      Run.outcome (second (Run.session (first s))) = Run.outcome (second s) ∧
      (Run.session (second (Run.session (first s)))).store.Alike
        (Run.session (first (Run.session (second s)))).store :=
  ⟨fun _ _ _ _ span' _ _ hpath he h => assign_read he hpath h span',
    fun _ _ span _ _ _ hpath ht hroom h => assign_of_read ht hroom hpath h span,
    fun _ _ _ _ _ _ _ _ _ _ hpath he₁ he₂ h₁ h₂ => assign_assign he₁ he₂ hpath h₁ h₂,
    fun _ _ _ _ span₁ span₂ he₁ he₂ h₁₂ h₂₁ => assign_comm he₁ he₂ h₁₂ h₂₁ span₁ span₂ s⟩

/-- With `x` bound to `{'a': 1}`: `x.b = 2` is read afterwards, `x.a = x.a` leaves
    the frames as they are, after `x.b = 2` and `x.b = 3` they are as after the second
    alone, and `x.b = 2` and `y = 5` may be made in either order. -/
theorem addresses_are_cells_object :
    let at0 : Span := ⟨0, 0⟩
    let a : Address := [⟨at0, .string "x"⟩, ⟨at0, .string "a"⟩]
    let b : Address := [⟨at0, .string "x"⟩, ⟨at0, .string "b"⟩]
    let y : Address := [⟨at0, .string "y"⟩]
    let s : Session :=
      ⟨⟨[], [(.string "x", .object [(.string "a", .int 1)])], []⟩, 0, 10, []⟩
    let put (t : Address) (n : Int32) := evaluate (.assign at0 t.exprs (.int at0 n) false)
    (∃ s' s'', put b 2 s = .ok (.int 2) s' ∧ evaluate (.read at0 b.exprs) s' = .ok (.int 2) s'') ∧
    (∃ s', evaluate (.assign at0 a.exprs (.read at0 a.exprs) false) s = .ok (.int 1) s' ∧
      s'.store = s.store) ∧
    (∃ s₁ s₂ s', put b 2 s = .ok (.int 2) s₁ ∧ put b 3 s₁ = .ok (.int 3) s₂ ∧
      put b 3 s = .ok (.int 3) s' ∧ s'.store = s₂.store) ∧
    (Run.session (put y 5 (Run.session (put b 2 s)))).store.Alike
      (Run.session (put b 2 (Run.session (put y 5 s)))).store := by
  intro at0 a b y s put
  obtain ⟨hread, hsame, hlast, hcomm⟩ := addresses_are_cells s
  have hinert (n : Int32) : (Expr.int at0 n).Inert := ⟨rfl, rfl⟩
  obtain ⟨s'', hget⟩ := hread b b (.int at0 2) at0 at0 _ _ rfl (hinert 2) rfl
  obtain ⟨s₃, hsame⟩ := hsame a a at0 at0 _ _ rfl (by decide) (by decide) rfl
  obtain ⟨s₄, hlast⟩ :=
    hlast b b (.int at0 2) (.int at0 3) at0 at0 _ _ _ _ rfl (hinert 2) (hinert 3) rfl rfl
  obtain ⟨-, -, halike⟩ := hcomm b y (.int at0 2) (.int at0 5) at0 at0 (hinert 2) (hinert 5) rfl rfl
  exact ⟨⟨_, s'', rfl, hget⟩, ⟨s₃, hsame⟩, ⟨_, _, s₄, rfl, rfl, hlast⟩, halike⟩

end ScopeScript
