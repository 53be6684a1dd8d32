/-
  ScopeScript.Proofs.Session.Literal

  Evaluation of the tree of a printable value. It needs as many evaluations
  under way at once as the value is high, gives the value in written order, and
  leaves the scopes as they are. Keys that are not equal are bound one behind
  another.
-/
import ScopeScript.Proofs.Session.Actions
import ScopeScript.Proofs.Value.Literal

namespace ScopeScript

/-- The second session has the scopes, the depth and the limit of the first. -/
structure Session.Like (s s' : Session) : Prop where
  store : s'.store = s.store
  depth : s'.depth = s.depth
  limit : s'.limit = s.limit

theorem Session.Like.refl (s : Session) : s.Like s :=
  ⟨rfl, rfl, rfl⟩

theorem Session.Like.trans {s s' s'' : Session} (h : s.Like s') (h' : s'.Like s'') : s.Like s'' :=
  ⟨h'.store.trans h.store, h'.depth.trans h.depth, h'.limit.trans h.limit⟩

/-- An evaluation below the limit, whose body keeps the scopes and the depth. -/
theorem Action.exists_nested {span : Span} {body : Action Value} {s s₁ : Session} {v : Value}
    (hlt : s.depth < s.limit) (h : body s.entered = .ok v s₁) (hlike : s.entered.Like s₁) :
    ∃ s', Action.nested span body s = .ok v s' ∧ s.Like s' := by
  refine ⟨s₁.left, nested_eq_ok_iff.2 ⟨hlt, s₁, h, rfl⟩, hlike.store, ?_, hlike.limit⟩
  show s₁.depth - 1 = s.depth
  rw [hlike.depth]
  rfl

namespace Value

/-- Any tree that has the given bare form gives the value, with room for `n`
    evaluations. -/
def EvaluatedFrom (t : Expr) (v : Value) (n : Nat) : Prop :=
  ∀ e s, e.bare = t → s.depth + n ≤ s.limit → ∃ s', evaluate e s = .ok v s' ∧ s.Like s'

theorem EvaluatedFrom.mono {t : Expr} {v : Value} {m n : Nat} (h : EvaluatedFrom t v m)
    (hmn : m ≤ n) : EvaluatedFrom t v n :=
  fun e s he hs => h e s he (by omega)

/-! ## Primitives -/

theorem evaluated_primitive (p : Primitive) : EvaluatedFrom p.tree (.primitive p) 1 := by
  intro e s he hs
  have hlt : s.depth < s.limit := by omega
  cases p with
  | int n =>
    cases e with
    | int span m =>
      cases he
      exact Action.exists_nested hlt rfl (.refl _)
    | _ => cases he
  | double d =>
    cases e with
    | double span d' =>
      cases he
      exact Action.exists_nested hlt rfl (.refl _)
    | _ => cases he
  | string t =>
    cases e with
    | string span t' =>
      cases he
      exact Action.exists_nested hlt rfl (.refl _)
    | _ => cases he

/-! ## Lists -/

theorem evaluated_all {n : Nat} {vs : List Value} {es : List Expr} {s : Session}
    (h : ∀ v ∈ vs, EvaluatedFrom v.tree v.written n) (hes : Expr.bareAll es = vs.map tree)
    (hs : s.depth + n ≤ s.limit) :
    ∃ keys s', evaluateAll es s = .ok keys s' ∧ keys.map (·.value) = vs.map written ∧
      s.Like s' := by
  induction vs generalizing es s with
  | nil =>
    cases es with
    | nil => exact ⟨[], s, rfl, rfl, .refl s⟩
    | cons e es => cases hes
  | cons v vs ih =>
    cases es with
    | nil => cases hes
    | cons e es =>
      rw [Expr.bareAll, List.map_cons] at hes
      obtain ⟨he, hes⟩ := List.cons.inj hes
      obtain ⟨hv, hvs⟩ := List.forall_mem_cons.1 h
      obtain ⟨s₁, hfirst, hlike⟩ := hv e s he hs
      obtain ⟨keys, s₂, hothers, hkeys, hlike'⟩ := ih hvs hes
        (s := s₁) (by rw [hlike.depth, hlike.limit]; exact hs)
      refine ⟨⟨v.written, e.span⟩ :: keys, s₂, ?_, ?_, hlike.trans hlike'⟩
      · rw [evaluateAll, Action.bind_of_ok hfirst, Action.bind_of_ok hothers]
        rfl
      · rw [List.map_cons, List.map_cons, hkeys]

/-! ## Objects -/

theorem get?_append_eq_none {o : Object} {k l : Primitive} (h : Object.get? o l = none)
    (hne : k.same l = false) (v : Value) : Object.get? (o ++ [(k, v)]) l = none := by
  induction o with
  | nil =>
    rw [List.nil_append, Object.get?, if_neg (by simp [hne])]
    rfl
  | cons p o ih =>
    rw [Object.get?] at h
    rw [List.cons_append, Object.get?]
    split at h
    · cases h
    · next hne => rw [if_neg hne, ih h]

/-- Entries with keys that are not equal to one another, nor to those that are
    there, are added in their order. -/
theorem evaluated_entries {n : Nat} {qs o : Object} {es : List (Expr × Expr)} {s : Session}
    (h : ∀ p ∈ qs, 1 ≤ n ∧ EvaluatedFrom p.2.tree p.2.written n)
    (hnew : ∀ p ∈ qs, Object.get? o p.1 = none)
    (hne : qs.Pairwise fun p q => p.1.same q.1 = false)
    (hes : Expr.bareEntries es = qs.map fun p => (p.1.tree, p.2.tree))
    (hs : s.depth + n ≤ s.limit) :
    ∃ s', evaluateEntries o es s = .ok (o ++ Bindings.mapValues written qs) s' ∧ s.Like s' := by
  induction qs generalizing o es s with
  | nil =>
    cases es with
    | nil =>
      refine ⟨s, ?_, .refl s⟩
      rw [Bindings.mapValues, List.map_nil, List.append_nil]
      rfl
    | cons e es => cases hes
  | cons q qs ih =>
    cases es with
    | nil => cases hes
    | cons e es =>
      obtain ⟨key, value⟩ := e
      rw [Expr.bareEntries, List.map_cons] at hes
      obtain ⟨he, hes⟩ := List.cons.inj hes
      obtain ⟨hkey, hvalue⟩ := Prod.mk.inj he
      obtain ⟨⟨hn, hv⟩, hvs⟩ := List.forall_mem_cons.1 h
      obtain ⟨hget, hnew⟩ := List.forall_mem_cons.1 hnew
      obtain ⟨hq, hne⟩ := List.pairwise_cons.1 hne
      obtain ⟨s₁, hk, hlike⟩ := evaluated_primitive q.1 key s hkey (by omega)
      obtain ⟨s₂, hw, hlike'⟩ := hv value s₁ hvalue (by rw [hlike.depth, hlike.limit]; exact hs)
      have hlike₂ := hlike.trans hlike'
      have hnew' : ∀ p ∈ qs, Object.get? (o ++ [(q.1, q.2.written)]) p.1 = none :=
        fun p hp => get?_append_eq_none (hnew p hp) (hq p hp) _
      obtain ⟨s₃, hothers, hlike''⟩ := ih hvs hnew' hne hes (s := s₂)
        (by rw [hlike₂.depth, hlike₂.limit]; exact hs)
      refine ⟨s₃, ?_, hlike₂.trans hlike''⟩
      -- A primitive is its own key, so the check of the key passes.
      have hatKey :
          Action.ofExcept (atKey ⟨.primitive q.1, key.span⟩ (Value.primitive q.1).toKey) s₁ =
            .ok q.1 s₁ := rfl
      rw [Object.get?_eq_find?] at hget
      rw [evaluateEntries, Action.bind_of_ok hk]
      rw [Action.bind_of_ok hatKey, Action.bind_of_ok hw, Object.insert_of_find?_eq_none hget,
        hothers, List.append_assoc]
      rfl

/-! ## Values -/

/-- The tree of a printable value gives the value. -/
theorem Printable.evaluated {v : Value} (h : v.Printable) :
    EvaluatedFrom v.tree v.written v.height := by
  induction h with
  | primitive h => exact evaluated_primitive _
  | @list vs _ ih =>
    intro e s he hs
    rw [height, nesting] at hs
    have hall : ∀ v ∈ vs, EvaluatedFrom v.tree v.written (nestingAll (fun _ => 1) vs) :=
      fun v hv => (ih v hv).mono (nesting_le_of_mem hv)
    cases e with
    | list span es =>
      rw [Expr.bare, tree, trees_eq_map] at he
      obtain ⟨-, hes⟩ := Expr.list.inj he
      obtain ⟨keys, s₁, hkeys, hvalues, hlike⟩ := evaluated_all hall hes (s := s.entered)
        (by show s.depth + 1 + _ ≤ s.limit; omega)
      refine Action.exists_nested (by omega) ?_ hlike
      rw [Action.bind_of_ok hkeys, written, writtenAll_eq_map, ← hvalues]
      rfl
    | _ => cases he
  | @object ps hkeys _ hne ih =>
    intro e s he hs
    rw [height, nesting] at hs
    have hall : ∀ p ∈ Object.inOrder ps, 1 ≤ nestingEntries (fun _ => 1) ps ∧
        EvaluatedFrom p.2.tree p.2.written (nestingEntries (fun _ => 1) ps) := by
      intro p hp
      have hmem := Object.mem_inOrder.1 hp
      obtain ⟨hkey, hvalue⟩ := nesting_entry_le (fun _ => 1) hmem
      exact ⟨hkey, (ih p hmem).mono hvalue⟩
    -- No two keys are equal in any order of the entries.
    have hunequal : (Object.inOrder ps).Pairwise fun p q => p.1.same q.1 = false := by
      refine (Object.inOrder_perm ps).symm.pairwise hne fun {p q} h => ?_
      cases hs : q.1.same p.1 with
      | false => rfl
      | true => rw [Primitive.same_symm hs] at h; cases h
    cases e with
    | object span es =>
      rw [Expr.bare, tree_object] at he
      obtain ⟨-, hes⟩ := Expr.object.inj he
      obtain ⟨s₁, hentries, hlike⟩ := evaluated_entries hall (o := []) (fun _ _ => rfl) hunequal hes
        (s := s.entered) (by show s.depth + 1 + _ ≤ s.limit; omega)
      refine Action.exists_nested (by omega) ?_ hlike
      rw [Action.bind_of_ok hentries, written_object]
      rfl
    | _ => cases he

end Value
end ScopeScript
