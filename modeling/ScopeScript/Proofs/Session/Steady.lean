/-
  ScopeScript.Proofs.Session.Steady

  Trees that assign nothing come to the same again and again. In stores of which
  they can see no difference they have one outcome, which the limit can keep them
  from, and they leave the session as it is. A tree that reads nothing sees no
  store at all; any other sees the store that it reads. There is one rule for
  each way to compose actions.
-/
import ScopeScript.Proofs.Session.ReadOnly

namespace ScopeScript
namespace Expr

mutual

/-- Whether there is a read anywhere in a tree. -/
def hasRead : Expr → Bool
  | int _ _ | double _ _ | string _ _ => false
  | read _ _ => true
  | assign _ address right _ => anyRead address || right.hasRead
  | binary _ _ left right => left.hasRead || right.hasRead
  | list _ elements => anyRead elements
  | object _ entries => anyEntryRead entries
  | call _ callee arguments => anyRead callee || anyRead arguments

def anyRead : List Expr → Bool
  | [] => false
  | e :: es => e.hasRead || anyRead es

def anyEntryRead : List (Expr × Expr) → Bool
  | [] => false
  | (k, v) :: ps => k.hasRead || v.hasRead || anyEntryRead ps

end

end Expr

/-- While a statement is evaluated the action comes to `o` in every store of a
    kind, or does not succeed there for the limit. How it ends depends on the
    nesting of the session only, and the session stays as it is. -/
def Steady {α : Type} (kind : Store → Prop) (f : Action α) : Prop :=
  ∃ o : Except RuntimeError α, ∀ depth limit, 0 < depth →
    ∃ r : Except RuntimeError α, (∀ a, r = .ok a → o = .ok a) ∧
      ∀ s : Session, s.depth = depth → s.limit = limit → kind s.store →
        f s = Action.ofExcept r s

namespace Steady

variable {α β : Type} {kind : Store → Prop}

theorem ofExcept (x : Except RuntimeError α) : Steady kind (Action.ofExcept x) :=
  ⟨x, fun _ _ _ => ⟨x, fun _ h => h, fun _ _ _ _ => rfl⟩⟩

theorem pure (a : α) : Steady kind (Pure.pure a) :=
  ofExcept (.ok a)

theorem throw (e : RuntimeError) : Steady kind (MonadExcept.throw e : Action α) :=
  ofExcept (.error e)

theorem ofFault (x : Except RuntimeFault α) : Steady kind (Action.ofFault x) := by
  cases x with
  | ok a => exact .pure a
  | error f => exact .throw ⟨f, none⟩

theorem bind {f : Action α} {k : α → Action β} (hf : Steady kind f)
    (hk : ∀ a, Steady kind (k a)) : Steady kind (f >>= k) := by
  obtain ⟨o, hf⟩ := hf
  cases o with
  | error e =>
    -- The first part never succeeds, so the second is not reached.
    refine ⟨.error e, fun depth limit hdepth => ?_⟩
    obtain ⟨r, hr, hf⟩ := hf depth limit hdepth
    cases r with
    | ok a => cases hr a rfl
    | error e' => exact ⟨.error e', nofun, fun s hd hl hs => Action.bind_of_error (hf s hd hl hs)⟩
  | ok a =>
    obtain ⟨o', hk⟩ := hk a
    refine ⟨o', fun depth limit hdepth => ?_⟩
    obtain ⟨r, hr, hf⟩ := hf depth limit hdepth
    cases r with
    | error e => exact ⟨.error e, nofun, fun s hd hl hs => Action.bind_of_error (hf s hd hl hs)⟩
    | ok b =>
      cases hr b rfl
      obtain ⟨r', hr', hk⟩ := hk depth limit hdepth
      refine ⟨r', hr', fun s hd hl hs => ?_⟩
      rw [Action.bind_of_ok (hf s hd hl hs)]
      exact hk s hd hl hs

/-- Inside a statement an evaluation leaves the session that it was entered in. -/
theorem left_entered {s : Session} (h : 0 < s.depth) : s.entered.left = s := by
  rw [Session.entered, if_neg (Nat.ne_of_gt h)]
  rfl

theorem nested {body : Action Value} (h : Steady kind body) (span : Span) :
    Steady kind (Action.nested span body) := by
  obtain ⟨o, h⟩ := h
  refine ⟨o.mapError (·.located span), fun depth limit hdepth => ?_⟩
  by_cases hlt : limit ≤ depth
  · refine ⟨.error ⟨.stackOverflow limit, some span⟩, nofun, fun s hd hl _ => ?_⟩
    rw [Action.nested, hd, hl, if_pos hlt]
    rfl
  · obtain ⟨r, hr, h⟩ := h (depth + 1) limit (Nat.succ_pos depth)
    refine ⟨r.mapError (·.located span), fun v hv => ?_, fun s hd hl hs => ?_⟩
    · cases r with
      | error e => cases hv
      | ok a =>
        cases hv
        rw [hr v rfl]
        rfl
    · have hbody := h s.entered (congrArg (· + 1) hd) hl hs
      have hsame := left_entered (s := s) (by omega)
      rw [Action.nested, hd, hl, if_neg hlt, hbody]
      cases r with
      | ok v => exact congrArg (EStateM.Result.ok v) hsame
      | error e => exact congrArg (EStateM.Result.error (e.located span)) hsame

/-- A read comes to one thing in stores that are one. -/
theorem readAddress (hkind : ∃ store, ∀ t, kind t → t = store) (keys : List Key) :
    Steady kind (Session.readAddress keys) := by
  obtain ⟨store, hkind⟩ := hkind
  cases keys with
  | nil =>
    refine ⟨.ok (.object store.current), fun _ _ _ => ⟨_, fun _ h => h, fun s _ _ hs => ?_⟩⟩
    rw [Session.readAddress, hkind s.store hs]
    rfl
  | cons head path =>
    refine ⟨Target.read store head path, fun _ _ _ => ⟨_, fun _ h => h, fun s _ _ hs => ?_⟩⟩
    rw [Session.readAddress, hkind s.store hs]
    cases Target.read store head path <;> rfl

variable {f : Action α} {s t s' t' : Session} {a b : α}

/-- Wherever the action succeeds it gives the same and changes nothing. -/
theorem eq_of_ok (h : Steady kind f) (hs : 0 < s.depth) (ht : 0 < t.depth) (hks : kind s.store)
    (hkt : kind t.store) (hfs : f s = .ok a s') (hft : f t = .ok b t') :
    a = b ∧ s' = s ∧ t' = t := by
  obtain ⟨o, h⟩ := h
  obtain ⟨r, hr, hrs⟩ := h s.depth s.limit hs
  obtain ⟨q, hq, hqt⟩ := h t.depth t.limit ht
  rw [hrs s rfl rfl hks] at hfs
  rw [hqt t rfl rfl hkt] at hft
  cases r with
  | error e => cases hfs
  | ok a' =>
    cases q with
    | error e => cases hft
    | ok b' =>
      cases hfs
      cases hft
      have hab := (hr a rfl).symm.trans (hq b rfl)
      cases hab
      exact ⟨rfl, rfl, rfl⟩

end Steady

/-! ## Trees -/

section Trees

variable {kind : Store → Prop}

/-- What a tree must not do to see no difference between stores of a kind. -/
def Blind (kind : Store → Prop) (reads : Bool) : Prop :=
  reads = true → ∃ store, ∀ t, kind t → t = store

theorem Blind.or {a b : Bool} (h : Blind kind (a || b)) : Blind kind a ∧ Blind kind b :=
  ⟨fun ha => h (by rw [ha, Bool.true_or]), fun hb => h (by rw [hb, Bool.or_true])⟩

mutual

theorem steady_evaluate : ∀ e : Expr, e.hasAssignment = false → Blind kind e.hasRead →
    Steady kind (evaluate e)
  | .int span _, _, _ => .nested (.pure _) span
  | .double span _, _, _ => .nested (.pure _) span
  | .string span _, _, _ => .nested (.pure _) span
  | .read span address, h, hblind =>
    .nested (.bind (steady_evaluateAll address h fun _ => hblind rfl)
      (Steady.readAddress (hblind rfl))) span
  | .assign _ _ _ _, h, _ => nomatch h
  | .binary span _ left right, h, hblind => by
    rw [Expr.hasAssignment, Bool.or_eq_false_iff] at h
    have hleft := steady_evaluate left h.1 hblind.or.1
    have hright := steady_evaluate right h.2 hblind.or.2
    exact .nested (.bind hleft fun _ => .bind hright fun _ => .ofFault _) span
  | .list span elements, h, hblind =>
    .nested (.bind (steady_evaluateAll elements h hblind) fun _ => .pure _) span
  | .object span entries, h, hblind =>
    .nested (.bind (steady_evaluateEntries [] entries h hblind) fun _ => .pure _) span
  | .call span _ _, _, _ => .nested (.throw _) span

theorem steady_evaluateAll : ∀ es : List Expr, Expr.anyAssignment es = false →
    Blind kind (Expr.anyRead es) → Steady kind (evaluateAll es)
  | [], _, _ => .pure _
  | e :: es, h, hblind => by
    rw [Expr.anyAssignment, Bool.or_eq_false_iff] at h
    exact .bind (steady_evaluate e h.1 hblind.or.1) fun _ =>
      .bind (steady_evaluateAll es h.2 hblind.or.2) fun _ => .pure _

theorem steady_evaluateEntries : ∀ (o : Object) (ps : List (Expr × Expr)),
    Expr.anyEntryAssignment ps = false → Blind kind (Expr.anyEntryRead ps) →
    Steady kind (evaluateEntries o ps)
  | _, [], _, _ => .pure _
  | _, (key, value) :: ps, h, hblind => by
    rw [Expr.anyEntryAssignment, Bool.or_eq_false_iff, Bool.or_eq_false_iff] at h
    have hkey := steady_evaluate key h.1.1 hblind.or.1.or.1
    have hvalue := steady_evaluate value h.1.2 hblind.or.1.or.2
    exact .bind hkey fun _ => .bind (.ofExcept _) fun _ => .bind hvalue fun _ =>
      steady_evaluateEntries _ ps h.2 hblind.or.2

end

end Trees

end ScopeScript
