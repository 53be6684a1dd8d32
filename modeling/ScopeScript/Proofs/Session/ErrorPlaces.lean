/-
  ScopeScript.Proofs.Session.ErrorPlaces

  Where runtime errors stand. An error that a step of evaluation gives a range has
  that of a key at hand; one that has none yet gets the range of the tree that
  is evaluated. As the keys of an address have the ranges of its segments, no
  error of a tree that fits stands outside the tree.
-/
import ScopeScript.Proofs.Expr.Places
import ScopeScript.Proofs.Session.Assignment

namespace ScopeScript

/-! ## Errors at keys -/

namespace Value

theorem span_of_atKey {α : Type} {key : Key} {x : Except RuntimeFault α} {e : RuntimeError}
    (h : atKey key x = .error e) : e.span = some key.span := by
  cases x with
  | ok a => cases h
  | error f =>
    cases h
    rfl

theorem span_of_walk {v : Value} {path : List Key} {e : RuntimeError}
    (h : v.walk path = .error e) : ∃ key ∈ path, e.span = some key.span := by
  induction path generalizing v with
  | nil => cases h
  | cons key path ih =>
    rw [walk] at h
    cases hmember : atKey key (v.readMember key.value) with
    | error e' =>
      rw [hmember] at h
      cases h
      exact ⟨key, List.mem_cons_self, span_of_atKey hmember⟩
    | ok member =>
      -- The walk goes on from the member along the other keys.
      rw [hmember] at h
      obtain ⟨k, hk, hspan⟩ := ih h
      exact ⟨k, List.mem_cons_of_mem _ hk, hspan⟩

end Value

namespace Target

theorem span_of_read {store : Store} {head : Key} {path : List Key} {e : RuntimeError}
    (h : read store head path = .error e) : ∃ key ∈ head :: path, e.span = some key.span := by
  rw [read] at h
  split at h
  · obtain ⟨key, hkey, hspan⟩ := Value.span_of_walk h
    exact ⟨key, List.mem_cons_of_mem _ hkey, hspan⟩
  · cases h
    exact ⟨head, List.mem_cons_self, rfl⟩

theorem Faulty.span {store : Store} {keys : List Key} {wantsOld : Bool} {e : RuntimeError}
    (h : Faulty store keys wantsOld e) :
    e.span = none ∨ ∃ key ∈ keys, e.span = some key.span := by
  cases h with
  | empty => exact .inl rfl
  | oldName _ | key _ => exact .inr ⟨_, List.mem_singleton_self _, rfl⟩
  | root _ _ _ _ => exact .inr ⟨_, List.mem_cons_self, rfl⟩
  | path _ _ _ hwalk =>
    obtain ⟨key, hkey, hspan⟩ := Value.span_of_walk hwalk
    exact .inr ⟨key, List.mem_cons_of_mem _ (List.mem_append_left _ hkey), hspan⟩
  | oldMember _ _ _ | member _ _ _ =>
    exact .inr
      ⟨_, List.mem_cons_of_mem _ (List.mem_append_right _ (List.mem_singleton_self _)), rfl⟩

end Target

/-- The keys of an address stand where its segments do. -/
theorem spans_of_evaluateAll {es : List Expr} {s s' : Session} {keys : List Key}
    (h : evaluateAll es s = .ok keys s') : keys.map (·.span) = es.map Expr.span := by
  induction es generalizing s keys with
  | nil =>
    cases h
    rfl
  | cons e es ih =>
    rw [evaluateAll] at h
    obtain ⟨v, s₁, -, h⟩ := Action.bind_eq_ok_iff.1 h
    obtain ⟨rest, s₂, hrest, h⟩ := Action.bind_eq_ok_iff.1 h
    cases h
    rw [List.map_cons, List.map_cons, ih hrest]

/-! ## Actions -/

/-- Where the action fails in the session, the error stands in `outer`, or it has
    no range yet. -/
def Blames {α : Type} (outer : Span) (f : Action α) (s : Session) : Prop :=
  ∀ e s', f s = .error e s' → ∀ span, e.span = some span → span.Within outer

namespace Blames

variable {α β : Type} {outer : Span} {s : Session}

theorem mono {f : Action α} {inner : Span} (h : Blames inner f s) (hwithin : inner.Within outer) :
    Blames outer f s :=
  fun e s' he span hspan => (h e s' he span hspan).trans hwithin

theorem pure (a : α) : Blames outer (Pure.pure a) s := by
  intro e s' he
  cases he

theorem throw {e : RuntimeError} (h : ∀ span, e.span = some span → span.Within outer) :
    Blames outer (MonadExcept.throw e : Action α) s := by
  intro e' s' he
  cases he
  exact h

theorem ofExcept {x : Except RuntimeError α}
    (h : ∀ e, x = .error e → ∀ span, e.span = some span → span.Within outer) :
    Blames outer (Action.ofExcept x) s := by
  cases x with
  | ok a => exact .pure a
  | error e => exact .throw (h e rfl)

theorem ofFault (x : Except RuntimeFault α) : Blames outer (Action.ofFault x) s := by
  cases x with
  | ok a => exact .pure a
  | error f =>
    refine .throw fun span hspan => ?_
    cases hspan

theorem bind {f : Action α} {k : α → Action β} (hf : Blames outer f s)
    (hk : ∀ a s₁, f s = .ok a s₁ → Blames outer (k a) s₁) : Blames outer (f >>= k) s := by
  intro e s' he
  rcases Action.bind_eq_error_iff.1 he with he | ⟨a, s₁, ha, he⟩
  · exact hf e s' he
  · exact hk a s₁ ha e s' he

theorem nested {body : Action Value} (h : Blames outer body s.entered) :
    Blames outer (Action.nested outer body) s := by
  intro e s' he span hspan
  rcases Action.nested_eq_error_iff.1 he with ⟨-, rfl, -⟩ | ⟨-, e₁, s₁, he₁, rfl, -⟩
  · cases hspan
    exact .refl outer
  · -- The tree gives its own range to an error that has none.
    cases hnone : e₁.span with
    | none =>
      rw [RuntimeError.located, hnone] at hspan
      cases hspan
      exact .refl outer
    | some inner =>
      rw [RuntimeError.located, hnone] at hspan
      cases hspan
      exact h e₁ s₁ he₁ _ hnone

end Blames

theorem blames_readAddress {outer : Span} {keys : List Key}
    (h : ∀ key ∈ keys, key.span.Within outer) (s : Session) :
    Blames outer (Session.readAddress keys) s := by
  intro e s' he span hspan
  cases keys with
  | nil => cases he
  | cons head path =>
    rw [Session.readAddress] at he
    cases hread : Target.read s.store head path with
    | ok v =>
      rw [hread] at he
      cases he
    | error e' =>
      rw [hread] at he
      cases he
      obtain ⟨key, hkey, hkeyspan⟩ := Target.span_of_read hread
      rw [hkeyspan] at hspan
      cases hspan
      exact h key hkey

/-- Past its address an assignment fails at a key or in its right-hand side. -/
theorem blames_write {outer : Span} {keys : List Key} {right : Expr} {yieldsOld : Bool}
    {s : Session} (hd : 0 < s.depth) (hkeys : ∀ key ∈ keys, key.span.Within outer)
    (hright : Blames outer (evaluate right) s) :
    Blames outer (Assignment.write keys (evaluate right) yieldsOld) s := by
  intro e s' he span hspan
  rcases (Assignment.write_eq_error_iff hd).1 he with ⟨hfaulty, -⟩ | ⟨_, _, -, he⟩
  · rcases hfaulty.span with hnone | ⟨key, hkey, hkeyspan⟩
    · rw [hnone] at hspan
      cases hspan
    · rw [hkeyspan] at hspan
      cases hspan
      exact hkeys key hkey
  · exact hright e s' he span hspan

/-! ## Trees -/

theorem within_of_evaluateAll {outer : Span} {es : List Expr} {s s' : Session} {keys : List Key}
    (h : ∀ e ∈ es, e.FitsIn outer) (hkeys : evaluateAll es s = .ok keys s') :
    ∀ key ∈ keys, key.span.Within outer := by
  intro key hkey
  have hmem : key.span ∈ es.map Expr.span := by
    rw [← spans_of_evaluateAll hkeys]
    exact List.mem_map_of_mem hkey
  obtain ⟨e, he, hspan⟩ := List.mem_map.1 hmem
  rw [← hspan]
  exact (h e he).within

mutual

/-- An error of a tree that fits stands in the tree. -/
theorem blames_evaluate : ∀ (e : Expr) (s : Session), e.Fits → Blames e.span (evaluate e) s
  | .int _ _, _, _ => .nested (.pure _)
  | .double _ _, _, _ => .nested (.pure _)
  | .string _ _, _, _ => .nested (.pure _)
  | .read _ address, _, h =>
    have hparts : ∀ key ∈ address, key.FitsIn _ := fun _ hkey => h.part hkey
    .nested (.bind (blames_evaluateAll address _ hparts) fun _ s₁ hkeys =>
      blames_readAddress (within_of_evaluateAll hparts hkeys) s₁)
  | .assign span address right yieldsOld, s, h => by
    have hparts : ∀ key ∈ address, key.FitsIn span :=
      fun key hkey => h.part (List.mem_cons_of_mem _ hkey)
    have hright : right.FitsIn span := h.part List.mem_cons_self
    rw [Assignment.evaluate_assign]
    refine .nested (.bind (blames_evaluateAll address _ hparts) fun keys s₁ hkeys => ?_)
    -- The address leaves the depth as it was, so the write is under way in `s₁`.
    exact blames_write (Assignment.depth_pos_of_evaluateAll hkeys)
      (within_of_evaluateAll hparts hkeys)
      ((blames_evaluate right s₁ hright.fits).mono hright.within)
  | .binary span op left right, s, h => by
    have hleft : left.FitsIn span := h.part List.mem_cons_self
    have hright : right.FitsIn span := h.part (List.mem_cons_of_mem _ List.mem_cons_self)
    refine .nested (.bind ((blames_evaluate left _ hleft.fits).mono hleft.within) fun a s₁ _ => ?_)
    refine .bind ((blames_evaluate right s₁ hright.fits).mono hright.within) fun b s₂ _ => ?_
    exact .ofFault _
  | .list _ elements, _, h =>
    .nested (.bind (blames_evaluateAll elements _ fun _ he => h.part he) fun _ _ _ => .pure _)
  | .object span entries, s, h => by
    refine .nested (.bind (blames_evaluateEntries [] entries _ fun k v hmem => ?_) fun _ _ _ =>
      .pure _)
    have hk : k ∈ (Expr.object span entries).parts :=
      List.mem_flatMap.2 ⟨(k, v), hmem, List.mem_cons_self⟩
    have hv : v ∈ (Expr.object span entries).parts :=
      List.mem_flatMap.2 ⟨(k, v), hmem, List.mem_cons_of_mem _ List.mem_cons_self⟩
    exact ⟨h.part hk, h.part hv⟩
  | .call _ _ _, _, _ => .nested (.ofFault (.error _))

theorem blames_evaluateAll {outer : Span} : ∀ (es : List Expr) (s : Session),
    (∀ e ∈ es, e.FitsIn outer) → Blames outer (evaluateAll es) s
  | [], _, _ => .pure _
  | e :: es, s, h => by
    obtain ⟨he, hes⟩ := List.forall_mem_cons.1 h
    refine .bind ((blames_evaluate e s he.fits).mono he.within) fun v s₁ _ => ?_
    exact .bind (blames_evaluateAll es s₁ hes) fun _ _ _ => .pure _

theorem blames_evaluateEntries {outer : Span} :
    ∀ (o : Object) (ps : List (Expr × Expr)) (s : Session),
      (∀ k v, (k, v) ∈ ps → k.FitsIn outer ∧ v.FitsIn outer) → Blames outer (evaluateEntries o ps) s
  | _, [], _, _ => .pure _
  | o, (key, value) :: ps, s, h => by
    obtain ⟨hkey, hvalue⟩ := h key value List.mem_cons_self
    refine .bind ((blames_evaluate key s hkey.fits).mono hkey.within) fun k s₁ _ => ?_
    refine .bind (.ofExcept fun e he span hspan => ?_) fun k' s₂ _ => ?_
    -- A value that cannot be a key of an object fails where it is written.
    · rw [Value.span_of_atKey he] at hspan
      cases hspan
      exact hkey.within
    · refine .bind ((blames_evaluate value s₂ hvalue.fits).mono hvalue.within) fun v s₃ _ => ?_
      exact blames_evaluateEntries _ ps s₃ fun k v hmem => h k v (List.mem_cons_of_mem _ hmem)

end

/-- The error of a tree that fits has a range, which lies in that of the tree. -/
theorem place_of_evaluate {e : Expr} (h : e.Fits) {s s' : Session} {err : RuntimeError}
    (herr : evaluate e s = .error err s') : ∃ span, err.span = some span ∧ span.Within e.span := by
  cases hspan : err.span with
  | none =>
    -- A tree around this one would find no error without a range.
    have hlocated := congrArg RuntimeError.span (located_of_evaluate_eq_error herr e.span)
    rw [RuntimeError.located, hspan] at hlocated
    cases hlocated
  | some span => exact ⟨span, rfl, blames_evaluate e s h err s' herr span hspan⟩

end ScopeScript
