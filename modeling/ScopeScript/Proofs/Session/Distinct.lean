/-
  ScopeScript.Proofs.Session.Distinct

  Objects in sessions have unequal keys: those in the frames, at every depth, and
  those in every value that a tree comes to. An action that evaluates a tree finds
  such frames, leaves such frames, however it ends, and gives such values
  (`Tidy`). Its results are written in one way, however their entries have come to
  be stored.
-/
import ScopeScript.Proofs.Session.Cells
import ScopeScript.Proofs.Session.Steps
import ScopeScript.Proofs.Value.Rendering

namespace ScopeScript

/-! ## Stores -/

/-- What a path of keys reaches in a value with unequal keys is such a value. -/
theorem Value.Distinct.at? {v w : Value} {path : List Value} (h : v.Distinct)
    (hw : v.at? path = some w) : w.Distinct := by
  induction path generalizing v with
  | nil =>
    cases hw
    exact h
  | cons k path ih =>
    obtain ⟨m, hm, hw⟩ := Option.bind_eq_some_iff.1 hw
    exact ih (h.member? hm) hw

namespace Store

/-- No object in the frames has two equal keys, and neither has a frame. -/
def Distinct (s : Store) : Prop :=
  ∀ f ∈ s.frames, (Value.object f).Distinct

variable {s s' : Store}

theorem distinct_empty_object : (Value.object []).Distinct :=
  .object .nil fun _ hp => absurd hp List.not_mem_nil

theorem Distinct.at? (h : s.Distinct) {p : Location} {v : Value} (hv : s.at? p = some v) :
    v.Distinct := by
  obtain ⟨f, hf, hv⟩ := Option.bind_eq_some_iff.1 hv
  exact (h f (List.mem_of_getElem? hf)).at? hv

theorem Distinct.current (h : s.Distinct) : (Value.object s.current).Distinct :=
  h _ (List.mem_of_getElem? s.frames_current)

theorem Distinct.binding? (h : s.Distinct) {frame : Nat} {key : Primitive} {v : Value}
    (hv : s.binding? frame key = some v) : v.Distinct := by
  rw [binding?_eq] at hv
  obtain ⟨f, hf, hv⟩ := Option.bind_eq_some_iff.1 hv
  exact (h f (List.mem_of_getElem? hf)).find? hv

theorem Distinct.lookup? (h : s.Distinct) {key : Primitive} {v : Value}
    (hv : s.lookup? key = some v) : v.Distinct := by
  obtain ⟨frame, -, hv⟩ := Option.bind_eq_some_iff.1 hv
  exact h.binding? hv

theorem Distinct.bind (h : s.Distinct) (frame : Nat) (key : Primitive) {v : Value}
    (hv : v.Distinct) : (s.bind frame key v).Distinct := by
  intro f hf
  rw [frames_bind] at hf
  obtain ⟨i, hi⟩ := List.mem_iff_getElem?.1 hf
  rw [List.getElem?_modify] at hi
  obtain ⟨g, hg, rfl⟩ := Option.map_eq_some_iff.1 hi
  have hgd := h g (List.mem_of_getElem? hg)
  split
  · exact hgd.put key hv
  · exact hgd

theorem Distinct.descend (h : s.Distinct) : s.descend.Distinct := by
  intro f hf
  rw [frames_descend] at hf
  rcases List.mem_append.1 hf with hf | hf
  · exact h f hf
  · exact List.mem_singleton.1 hf ▸ distinct_empty_object

theorem Distinct.ascend (h : s.Distinct) (hs : s.ascend = .ok s') : s'.Distinct := by
  intro f hf
  rw [frames_ascend hs] at hf
  exact h f (List.dropLast_subset _ hf)

theorem Distinct.reset (h : s.Distinct) : s.reset.Distinct := by
  refine List.forall_mem_cons.2 ⟨h _ List.mem_cons_self, ?_⟩
  exact List.forall_mem_singleton.2 distinct_empty_object

theorem distinct_empty : Store.empty.Distinct := by
  refine List.forall_mem_cons.2 ⟨distinct_empty_object, ?_⟩
  exact List.forall_mem_singleton.2 distinct_empty_object

theorem Distinct.withBuiltins (h : s.Distinct) : (Session.withBuiltins s).Distinct := by
  refine h.bind 1 _ (.object (by decide) fun p hp => ?_)
  obtain ⟨name, -, rfl⟩ := List.mem_map.1 hp
  exact .primitive _

end Store

/-! ## Actions -/

/-- Where the frames have unequal keys, the action leaves such frames, also where it
    fails, and its results have a property. -/
structure Tidy {α : Type} (wanted : α → Prop) (f : Action α) : Prop where
  ok : ∀ {s a s'}, s.store.Distinct → f s = .ok a s' → s'.store.Distinct ∧ wanted a
  error : ∀ {s e s'}, s.store.Distinct → f s = .error e s' → s'.store.Distinct

namespace Tidy

variable {α β : Type} {wanted : α → Prop} {wanted' : β → Prop}

theorem pure {a : α} (h : wanted a) : Tidy wanted (Pure.pure a) where
  ok hs heq := by
    cases heq
    exact ⟨hs, h⟩
  error _ heq := nomatch heq

theorem throw (e : RuntimeError) : Tidy wanted (MonadExcept.throw e : Action α) where
  ok _ heq := nomatch heq
  error hs heq := by
    cases heq
    exact hs

theorem ofExcept {x : Except RuntimeError α} (h : ∀ a, x = .ok a → wanted a) :
    Tidy wanted (Action.ofExcept x) := by
  cases x with
  | ok a => exact .pure (h a rfl)
  | error e => exact .throw e

/-- Where the result is of no matter. -/
theorem attempt (x : Except RuntimeError α) : Tidy (fun _ => True) (Action.ofExcept x) :=
  ofExcept fun _ _ => trivial

theorem ofFault {x : Except RuntimeFault α} (h : ∀ a, x = .ok a → wanted a) :
    Tidy wanted (Action.ofFault x) := by
  cases x with
  | ok a => exact .pure (h a rfl)
  | error f => exact .throw ⟨f, none⟩

theorem bind {f : Action α} {k : α → Action β} (hf : Tidy wanted f)
    (hk : ∀ a, wanted a → Tidy wanted' (k a)) : Tidy wanted' (f >>= k) where
  ok hs heq := by
    obtain ⟨a, s₁, ha, heq⟩ := Action.bind_eq_ok_iff.1 heq
    obtain ⟨hs₁, hwanted⟩ := hf.ok hs ha
    exact (hk a hwanted).ok hs₁ heq
  error hs heq := by
    rcases Action.bind_eq_error_iff.1 heq with heq | ⟨a, s₁, ha, heq⟩
    · exact hf.error hs heq
    · obtain ⟨hs₁, hwanted⟩ := hf.ok hs ha
      exact (hk a hwanted).error hs₁ heq

theorem nested {body : Action Value} {wanted : Value → Prop} (h : Tidy wanted body)
    (span : Span) : Tidy wanted (Action.nested span body) where
  ok {s v s'} hs heq := by
    obtain ⟨-, s₁, hbody, rfl⟩ := Action.nested_eq_ok_iff.1 heq
    have hentered : s.entered.store.Distinct := hs
    obtain ⟨hs₁, hwanted⟩ := h.ok hentered hbody
    exact ⟨hs₁, hwanted⟩
  error {s e s'} hs heq := by
    rcases Action.nested_eq_error_iff.1 heq with ⟨-, -, rfl⟩ | ⟨-, e₁, s₁, hbody, -, rfl⟩
    · exact hs
    · have hentered : s.entered.store.Distinct := hs
      have hs₁ : s₁.store.Distinct := h.error hentered hbody
      exact hs₁

/-- An action that looks at the session first, and then does what is tidy. -/
theorem of_session {f : Action α}
    (h : ∀ s : Session, s.store.Distinct → ∃ g, Tidy wanted g ∧ f s = g s) : Tidy wanted f where
  ok {s a s'} hs heq := by
    obtain ⟨g, hg, hfg⟩ := h s hs
    exact hg.ok hs (hfg ▸ heq)
  error {s e s'} hs heq := by
    obtain ⟨g, hg, hfg⟩ := h s hs
    exact hg.error hs (hfg ▸ heq)

/-- An action that changes the store to another one with unequal keys. -/
theorem write {change : Store → Store} (h : ∀ s, s.Distinct → (change s).Distinct)
    (place : Location) :
    Tidy (fun _ => True) fun s => .ok () ({ s with store := change s.store }.wrote place) where
  ok hs heq := by
    cases heq
    exact ⟨h _ hs, trivial⟩
  error _ heq := nomatch heq

end Tidy

/-! ## Reading and writing -/

theorem tidy_readAddress (keys : List Key) :
    Tidy Value.Distinct (Session.readAddress keys) := by
  refine .of_session fun s hs => ?_
  cases keys with
  | nil => exact ⟨_, .pure hs.current, rfl⟩
  | cons head path =>
    refine ⟨_, .ofExcept (x := Target.read s.store head path) fun v hv => ?_, ?_⟩
    · rw [Target.read] at hv
      cases hroot : head.value.primitive?.bind s.store.lookup? with
      | none =>
        rw [hroot] at hv
        cases hv
      | some root =>
        rw [hroot] at hv
        obtain ⟨key, -, hlookup⟩ := Option.bind_eq_some_iff.1 hroot
        exact (hs.lookup? hlookup).walk hv
    · rw [Session.readAddress]
      cases Target.read s.store head path <;> rfl

theorem tidy_commit (target : Target) (mark : Nat) {value : Value} (hvalue : value.Distinct) :
    Tidy (fun _ => True) (target.commit mark value) := by
  refine .of_session fun s hs => ?_
  cases target with
  | name key =>
    have hdefine (t : Store) (ht : t.Distinct) : (t.define key value).Distinct :=
      ht.bind _ key hvalue
    exact ⟨_, .write hdefine _, rfl⟩
  | member frame root span path key =>
    rw [commit_member]
    split
    · exact ⟨_, .pure trivial, rfl⟩
    · cases hroot : s.store.binding? frame root with
      | none => exact ⟨_, .throw _, rfl⟩
      | some old =>
        simp only
        split
        · next e he => exact ⟨_, .throw e, rfl⟩
        · next changed hchanged =>
          have hnew : changed.Distinct := by
            refine (hs.binding? hroot).updateAt (fun u u' hu hu' => ?_) hchanged
            exact hu.writeMember hvalue (Value.ok_of_atKey hu')
          have hbind (t : Store) (ht : t.Distinct) : (t.bind frame root changed).Distinct :=
            ht.bind frame root hnew
          exact ⟨_, .write hbind _, rfl⟩

/-- The value of an assignment is the new one or the old one. -/
theorem tidy_write {right : Action Value} (h : Tidy Value.Distinct right) (keys : List Key)
    (yieldsOld : Bool) : Tidy Value.Distinct (Assignment.write keys right yieldsOld) := by
  refine .of_session fun s hs => ?_
  simp only [Assignment.write]
  cases hres : Target.resolve s.store keys yieldsOld with
  | error e => exact ⟨_, .throw e, rfl⟩
  | ok r =>
    obtain ⟨target, old⟩ := r
    have hold : ∀ v, old = some v → v.Distinct := by
      intro v hv
      cases yieldsOld with
      | false =>
        rw [Target.old_eq_none hres] at hv
        cases hv
      | true =>
        obtain ⟨w, hw, hat⟩ := Target.old_of_resolve hres
        rw [hw] at hv
        cases hv
        exact hs.at? hat
    refine ⟨_, .bind h fun value hvalue => .bind (tidy_commit target _ hvalue) fun _ _ => ?_, rfl⟩
    refine .pure ?_
    cases old with
    | none => exact hvalue
    | some v => exact hold v rfl

/-! ## Trees -/

/-- Operations give primitives. -/
theorem BinaryOp.distinct_of_apply {op : BinaryOp} {a b v : Value} (h : op.apply a b = .ok v) :
    v.Distinct := by
  rw [apply] at h
  split at h
  · cases h
  · next f _ =>
    split at h
    · next m n _ _ =>
      cases hf : f m n with
      | error x =>
        rw [hf] at h
        cases h
      | ok r =>
        rw [hf] at h
        cases h
        exact .primitive _
    · cases h

mutual

/-- In frames with unequal keys a tree comes to a value with unequal keys, and
    leaves such frames. -/
theorem tidy_evaluate : ∀ e : Expr, Tidy Value.Distinct (evaluate e)
  | .int span n => .nested (.pure (.primitive (.int n))) span
  | .double span d => .nested (.pure (.primitive (.double d))) span
  | .string span s => .nested (.pure (.primitive (.string s))) span
  | .read span address =>
    .nested (.bind (tidy_evaluateAll address) fun keys _ => tidy_readAddress keys) span
  | .assign span address right yieldsOld => by
    rw [Assignment.evaluate_assign]
    refine .nested (.bind (tidy_evaluateAll address) fun keys _ => ?_) span
    exact tidy_write (tidy_evaluate right) keys yieldsOld
  | .binary span op left right =>
    .nested (.bind (tidy_evaluate left) fun _ _ => .bind (tidy_evaluate right) fun _ _ =>
      .ofFault fun _ => BinaryOp.distinct_of_apply) span
  | .list span elements => by
    refine .nested (.bind (tidy_evaluateAll elements) fun keys hkeys => .pure (.list ?_)) span
    exact List.forall_mem_map.2 hkeys
  | .object span entries =>
    .nested (.bind (tidy_evaluateEntries Store.distinct_empty_object entries) fun _ ho => .pure ho)
      span
  | .call span _ _ => .nested (.throw _) span

theorem tidy_evaluateAll : ∀ es : List Expr,
    Tidy (fun keys => ∀ k ∈ keys, k.value.Distinct) (evaluateAll es)
  | [] => .pure fun _ hk => absurd hk List.not_mem_nil
  | e :: es =>
    .bind (tidy_evaluate e) fun _ hv => .bind (tidy_evaluateAll es) fun _ hkeys =>
      .pure (List.forall_mem_cons.2 ⟨hv, hkeys⟩)

theorem tidy_evaluateEntries {o : Object} (ho : (Value.object o).Distinct) :
    ∀ entries : List (Expr × Expr),
      Tidy (fun o => (Value.object o).Distinct) (evaluateEntries o entries)
  | [] => .pure ho
  | (key, value) :: entries =>
    .bind (tidy_evaluate key) fun _ _ => .bind (.attempt _) fun k _ =>
      .bind (tidy_evaluate value) fun _ hv => tidy_evaluateEntries (ho.insert k hv) entries

end

/-! ## Sessions -/

/-- The sessions that a host can come to: from a new one, by evaluations, however
    they end, by changes of the scopes, and by bindings of its own in any frame. -/
inductive Session.Reachable : Session → Prop where
  | new (limit : Nat) : Reachable (.new limit)
  | step {s : Session} (h : Reachable s) (step : Step Expr) :
    Reachable (Run.session (step.act evaluate s))
  | bind {s : Session} (h : Reachable s) (frame : Nat) (key : Primitive) {v : Value}
      (hv : v.Distinct) :
    Reachable { s with store := s.store.bind frame key v }

theorem Tidy.session {α : Type} {wanted : α → Prop} {f : Action α} (h : Tidy wanted f)
    {s : Session} (hs : s.store.Distinct) : (Run.session (f s)).store.Distinct := by
  cases hf : f s with
  | ok a s' => exact (h.ok hs hf).1
  | error e s' => exact h.error hs hf

theorem Step.distinct_act (step : Step Expr) {s : Session} (hs : s.store.Distinct) :
    (Run.session (step.act evaluate s)).store.Distinct := by
  cases step with
  | run t =>
    rw [session_act_run]
    exact (tidy_evaluate t).session hs
  | descend => exact hs.descend
  | ascend =>
    cases hascend : s.store.ascend with
    | ok store =>
      simp only [act, hascend]
      exact hs.ascend hascend
    | error f =>
      simp only [act, hascend]
      exact hs
  | reset => exact hs.reset.withBuiltins

/-- The frames of all sessions have unequal keys. -/
theorem Session.Reachable.distinct {s : Session} (h : s.Reachable) : s.store.Distinct := by
  induction h with
  | new limit => exact Store.distinct_empty.withBuiltins
  | step _ step ih => exact step.distinct_act ih
  | bind _ frame key hv ih => exact ih.bind frame key hv

/-! ## Keys and written forms -/

/-- Doubles are one key if they are one pattern, or both zeros, or both NaNs. -/
theorem Primitive.same_double_iff {a b : Double} :
    (double a).same (double b) = true ↔
      a = b ∨ a.isZero = true ∧ b.isZero = true ∨ a.isNaN = true ∧ b.isNaN = true := by
  show a.same b = true ↔ _
  constructor
  · intro h
    rw [Double.same] at h
    split at h
    · next ha => exact .inr (.inr ⟨ha, h⟩)
    · split at h
      · next ha => exact .inr (.inl ⟨ha, h⟩)
      · obtain ⟨x⟩ := a
        obtain ⟨y⟩ := b
        exact .inl (congrArg Double.mk (of_decide_eq_true h))
  · rintro (rfl | ⟨ha, hb⟩ | ⟨ha, hb⟩)
    · exact (Double.same_iff a a).2 rfl
    · rw [Double.same, Double.isNaN_eq_false_of_isZero ha, if_neg Bool.false_ne_true, if_pos ha, hb]
    · rw [Double.same, if_pos ha, hb]

/-- Objects have unequal keys, in all frames, at every depth and in every value of a
    tree; binding a key that is equal to another one keeps that one, in its place.
    Such an object is written with each of its entries once, in the order of the
    keys, so that neither the order in which entries are stored nor that in which
    they were bound shows. -/
theorem keys_unequal_and_ascending :
    (∀ s : Session, s.Reachable → s.store.Distinct ∧
      ∀ t v s', evaluate t s = .ok v s' → v.Distinct) ∧
    (∀ (o : Object) (key : Primitive) (old new : Value), o.get? key = some old →
      ∃ before first after, o = before ++ (first, old) :: after ∧ first.same key = true ∧
        o.insert key new = before ++ (first, new) :: after) ∧
    (∀ a b : Double, (Primitive.double a).same (.double b) = true ↔
      a = b ∨ a.isZero = true ∧ b.isZero = true ∨ a.isNaN = true ∧ b.isNaN = true) ∧
    (∀ (n : Int32) (d : Double), (Primitive.int n).same (.double d) = false) ∧
    (∀ o : Object, (Value.object o).Distinct → ∃ entries, entries.Perm o ∧
      Object.Ascending entries ∧ (Value.object o).text =
        "\x7b " ++ String.intercalate ", " (entries.map Value.entryText) ++ " \x7d") ∧
    (∀ v w : Value, v.Distinct → v.Rearranged w → v.text = w.text) ∧
    ∀ ps qs : List (Primitive × Value), Bindings.Unequal ps → ps.Perm qs →
      (Value.object (Object.insertAll [] ps)).text =
        (Value.object (Object.insertAll [] qs)).text := by
  refine ⟨fun s hs => ⟨hs.distinct, fun t v s' h => ?_⟩, ?_,
    fun a b => Primitive.same_double_iff, fun n d => rfl, ?_, fun v w => Value.text_of_rearranged,
    ?_⟩
  · exact ((tidy_evaluate t).ok hs.distinct h).2
  · intro o key old new h
    rw [Object.get?_eq_find?] at h
    obtain ⟨before, first, after, ho, hfirst, hput⟩ := Bindings.exists_of_find? h
    refine ⟨before, first, after, ho, hfirst, ?_⟩
    rw [Object.insert_eq_put, hput]
  · intro o ho
    cases ho with
    | object keys values => exact Value.exists_text_object keys
  · intro ps qs hps hperm
    have hqs : Bindings.Unequal qs := hps.perm hperm
    rw [Object.insertAll_eq (o := []) hps, Object.insertAll_eq (o := []) hqs]
    exact Value.text_object_of_entryTexts hps (hperm.map _)

/-- `{ 0.0: 1, -0.0: 2, 0: 3 }`, with both zeros for one key, the first one. -/
theorem keys_unequal_and_ascending_zeros :
    let zero := Primitive.double ⟨0⟩
    let entry (key : Expr) (n : Int32) := (key, Expr.int nowhere n)
    let t := Expr.object nowhere [entry (.double nowhere ⟨0⟩) 1,
      entry (.double nowhere ⟨0x8000000000000000⟩) 2, entry (.int nowhere 0) 3]
    let o : Object := [(zero, .int 2), (.int 0, .int 3)]
    (∃ s', evaluate t (Session.new 100) = .ok (.object o) s') ∧ (Value.object o).Distinct ∧
      (Value.object o).text = (Value.object o.reverse).text := by
  intro zero entry t o
  have h : evaluate t (Session.new 100) = .ok (.object o) { Session.new 100 with writes := [] } :=
    rfl
  obtain ⟨hreachable, -, -, -, -, -, hperm⟩ := keys_unequal_and_ascending
  obtain ⟨-, hvalues⟩ := hreachable _ (.new 100)
  exact ⟨⟨_, h⟩, hvalues t _ _ h, hperm o o.reverse (by decide) o.reverse_perm.symm⟩

end ScopeScript
