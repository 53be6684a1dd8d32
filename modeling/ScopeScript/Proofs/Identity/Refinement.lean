/-
  ScopeScript.Proofs.Identity.Refinement

  Evaluation on a session refines evaluation with identities. A target resolved
  as a path refers to the container at the path (`Target.Refers`). After the
  right-hand side the path is written exactly if the container is still there,
  and such a write succeeds (`commit_agrees`), so by induction on trees both
  sides give the same result or error and leave the same frames.
-/
import ScopeScript.Proofs.Identity.Simulation

namespace ScopeScript
namespace Identity

open Stored

/-! ## Targets -/

/-- Both targets are the same name, or the path of one leads to the container of
    the other. -/
inductive Target.Refers (r : State) : ScopeScript.Target → Target → Prop where
  | name (n : Primitive) : Refers r (.name n) (.name n)
  | member {frame : Nat} {f : Frame} {root : Primitive} {m d : Stored} {path : List Key} {key : Key}
      {i : Nat} (span : Span) (hf : r.frames[frame]? = some f)
      (hm : Bindings.find? root f = some m) (hd : m.at? (path.map (·.value)) = some d)
      (hw : d.writable key.value = .ok i) :
      Refers r (.member frame root span path key) (.member i key.value)

/-- Both sides resolve a target to the same place with the same old value, or
    fail with the same error. -/
inductive Target.Resolved (r : State) :
    Except RuntimeError (ScopeScript.Target × Option Value) →
      Except RuntimeError (Target × Option Value) → Prop where
  | ok {t : ScopeScript.Target} {u : Target} (old : Option Value) (h : Refers r t u) :
      Resolved r (.ok (t, old)) (.ok (u, old))
  | error (e : RuntimeError) : Resolved r (.error e) (.error e)

namespace State.Identifies

variable {r : State} {s : Session}

theorem map_mapValues (h : r.Identifies s) :
    r.frames.map (Bindings.mapValues copy) = s.store.frames := by
  rw [← h.frames_eq]
  exact congrArg (r.frames.map ·) (funext fun f => (copyEntries_eq f).symm)

theorem exists_of_find? (h : r.Identifies s) {key : Primitive} {frame : Nat}
    (hf : s.store.find? key = some frame) :
    ∃ m, r.frames[frame]?.bind (Bindings.find? key) = some m ∧ r.lookup? key = some m :=
  Store.exists_of_find? h.map_mapValues hf

theorem lookup?_of_find?_none (h : r.Identifies s) {key : Primitive}
    (hf : s.store.find? key = none) : r.lookup? key = none :=
  Store.findLast?_of_find?_none h.map_mapValues hf

theorem ofName_resolved (h : r.Identifies s) (key : Key) (wantsOld : Bool) :
    Target.Resolved r (ScopeScript.Target.ofName s.store key wantsOld)
      (Target.ofName r key wantsOld) := by
  rw [ScopeScript.Target.ofName, Target.ofName, h.current_eq]
  cases wantsOld with
  | false =>
    cases Value.atKey key key.value.toKey with
    | error e => exact .error e
    | ok name => exact .ok none (.name name)
  | true =>
    cases Value.atKey key (Value.readObject s.store.current key.value) with
    | error e => exact .error e
    | ok old =>
      cases Value.atKey key key.value.toKey with
      | error e => exact .error e
      | ok name => exact .ok (some old) (.name name)

theorem ofMember_resolved (h : r.Identifies s) (head : Key) (path : List Key) (key : Key)
    (wantsOld : Bool) :
    Target.Resolved r (ScopeScript.Target.ofMember s.store head path key wantsOld)
      (Target.ofMember r head path key wantsOld) := by
  rw [ScopeScript.Target.ofMember, Target.ofMember, State.root]
  cases hv : head.value with
  | list es => exact .error _
  | object ps => exact .error _
  | primitive root =>
    simp only [Value.primitive?, Option.bind_some]
    cases hfind : s.store.find? root with
    | none =>
      rw [h.lookup?_of_find?_none hfind]
      exact .error _
    | some frame =>
      obtain ⟨m, hm, hl⟩ := h.exists_of_find? hfind
      obtain ⟨f, hf, hmf⟩ := Option.bind_eq_some_iff.1 hm
      simp only [hl, h.binding?_eq, hm, Option.map_some, copy_walk, bind, Except.bind]
      cases hd : m.walk path with
      | error e => exact .error e
      | ok d =>
        have hcheck := copy_writable d key.value
        -- The old value is read before the check, and both see the container.
        cases hw : d.writable key.value with
        | error e =>
          rw [hw] at hcheck
          simp only [Except.map, Value.atKey, copy_readMember, hcheck, hw]
          cases wantsOld with
          | false => exact .error _
          | true => cases d.readMember key.value <;> exact .error _
        | ok i =>
          rw [hw] at hcheck
          simp only [Except.map, Value.atKey, copy_readMember, hcheck, hw]
          have hmember := Target.Refers.member head.span hf hmf (walk_eq_ok_iff.1 hd) hw
          cases wantsOld with
          | false => exact .ok none hmember
          | true =>
            cases d.readMember key.value with
            | error e => exact .error _
            | ok old => exact .ok (some old.copy) hmember

theorem resolved (h : r.Identifies s) (keys : List Key) (wantsOld : Bool) :
    Target.Resolved r (ScopeScript.Target.resolve s.store keys wantsOld)
      (Target.resolve r keys wantsOld) := by
  match keys with
  | [] => exact .error _
  | [key] => exact h.ofName_resolved key wantsOld
  | head :: next :: rest => exact h.ofMember_resolved head _ _ wantsOld

end State.Identifies

/-! ## Writing -/

theorem map_copyEntries_modify (fs : List Frame) (n : Nat) (key : Primitive) (x : Stored) :
    (fs.modify n (Bindings.put key x)).map copyEntries =
      (fs.map copyEntries).modify n (Bindings.put key x.copy) := by
  apply List.ext_getElem?
  intro j
  rw [List.getElem?_map, List.getElem?_modify, List.getElem?_modify, List.getElem?_map]
  by_cases h : n = j
  · simp [h, copyEntries_put, Function.comp_def]
  · simp [h]

/-- A definition is the same on both sides. -/
theorem follows_define {s : Session} {r : State} (hr : r.Identifies s) (name : Primitive)
    (value : Value) :
    Follows s r ({ s with store := s.store.define name value }.wrote
      ⟨s.store.depth - 1, [.primitive name]⟩) (r.define name value) := by
  have hlen : r.frames.length = s.store.frames.length := by
    rw [← hr.frames_eq, List.length_map]
  obtain ⟨f, hf⟩ : ∃ f, r.frames[r.frames.length - 1]? = some f := by
    refine ⟨_, List.getElem?_eq_getElem ?_⟩
    rw [hlen, Store.length_frames, Store.depth]
    omega
  have hrep := State.replaces_define hf name value
  refine ⟨⟨?_, hr.depth_eq, hr.limit_eq, hrep.distinct hr.distinct⟩, rfl, [_], rfl, ?_⟩
  · show _ = (s.store.define name value).frames
    rw [hrep.frames_eq, map_copyEntries_modify, hr.frames_eq, copy_fresh, Store.frames_define, hlen]
  · have ht := hrep.tracks hr.distinct
    rw [hlen] at ht
    exact ht

/-- A write to a container that is gone is not seen. -/
theorem follows_write_of_count_eq_zero {s : Session} {r : State} (hr : r.Identifies s) {i : Nat}
    (hi : r.count i = 0) (key value : Value) : Follows s r s (r.write i key value) := by
  have hframes : (r.write i key value).frames = r.frames :=
    State.map_writeEntries_of_count_eq_zero key _ r.frames hi
  have hle : r.next ≤ (r.write i key value).next := (between_fresh r.next value).le
  have hcount (id : Nat) : (r.write i key value).count id = r.count id := by
    rw [State.count, hframes, State.count]
  have hat (p : Location) : (r.write i key value).at? p = r.at? p := by
    rw [State.at?, hframes, State.at?]
  refine ⟨⟨?_, hr.depth_eq, hr.limit_eq, fun id => ?_, fun id h => ?_⟩, rfl, [], rfl, hle, ?_, ?_,
    ?_⟩
  · rw [hframes, hr.frames_eq]
  · rw [hcount]
    exact hr.distinct.once id
  · rw [hcount]
    exact hr.distinct.unused id (Nat.le_trans hle h)
  · intro id _ h
    rw [hcount, h]
  · intro p c j _ h
    cases h
  · intro p c hc _
    exact ⟨c, by rw [hat, hc], .refl c⟩

/-- A write to the container at a location is the same on both sides. -/
theorem follows_write {s : Session} {r : State} (hr : r.Identifies s) {frame : Nat} {f : Frame}
    {root : Primitive} {m d : Stored} {path : List Key} {key : Key} {i : Nat}
    (hf : r.frames[frame]? = some f) (hm : Bindings.find? root f = some m)
    (hd : m.at? (path.map (·.value)) = some d) (hw : d.writable key.value = .ok i)
    (value : Value) :
    ∃ changed, m.copy.updateAt
        (fun c => Value.atKey key (c.writeMember key.value value)) path = .ok changed ∧
      Follows s r ({ s with store := s.store.bind frame root changed }.wrote
        ⟨frame, (ScopeScript.Target.home frame root path).keys ++ [key.value]⟩)
        (r.write i key.value value) := by
  have hrep := State.replaces_write hr.distinct hf hm hd hw value
  have hupdate := copy_updateAt hd hw (fresh r.next value).1
  rw [copy_fresh] at hupdate
  refine ⟨_, hupdate, ⟨?_, hr.depth_eq, hr.limit_eq, hrep.distinct hr.distinct⟩, rfl, [_], rfl,
    hrep.tracks hr.distinct⟩
  show _ = (s.store.bind frame root _).frames
  rw [hrep.frames_eq, map_copyEntries_modify, hr.frames_eq, Store.frames_bind]

/-- After the right-hand side the write to a resolved target never fails, and it
    is the same on both sides. -/
theorem commit_agrees {s s' : Session} {r r' : State} {t : ScopeScript.Target} {u : Target}
    (hr : r.Identifies s) (ht : Target.Refers r t u) (hf : Follows s r s' r') (value : Value) :
    ∃ s'' r'', t.commit s.writes.length value s' = .ok () s'' ∧ u.commit value r' = .ok () r'' ∧
      Follows s r s'' r'' := by
  cases ht with
  | name n =>
    exact ⟨_, _, rfl, rfl, hf.trans hr (follows_define hf.identifies n value)⟩
  | @member frame f root m d path key i span hfr hm hd hw =>
    obtain ⟨log, hlog, htracks⟩ := hf.exists_log
    have hsince : ScopeScript.Target.writesSince s.writes.length s' = log := by
      rw [ScopeScript.Target.writesSince, hlog, List.length_append, Nat.add_sub_cancel,
        List.take_left]
    have hat : r.at? (ScopeScript.Target.home frame root path) = some d := by
      rw [State.at?, ScopeScript.Target.home, hfr, Option.bind_some, State.inFrame?]
      simp only [Value.primitive?, Option.bind_some, hm, hd]
    cases hany : log.any (·.covers (ScopeScript.Target.home frame root path)) with
    | true =>
      -- A write since then has covered the location: the container is gone, and
      -- the member is dropped on one side and written to nothing on the other.
      have hgone := htracks.lost _ d i hat hany (id?_of_writable hw)
      refine ⟨s', _, ?_, rfl, hf.trans hr
        (follows_write_of_count_eq_zero hf.identifies hgone key.value value)⟩
      show (if _ then _ else _ : Action Unit) s' = _
      rw [hsince, if_pos hany]
      rfl
    | false =>
      -- No write has covered it: the container is where it was, and it takes the
      -- member as it did when the target was resolved.
      obtain ⟨d', hat', hp⟩ := htracks.kept _ d hat hany
      rw [State.at?, ScopeScript.Target.home, Option.bind_eq_some_iff] at hat'
      obtain ⟨f', hfr', hat'⟩ := hat'
      rw [State.inFrame?, Value.primitive?, Option.bind_some, Option.bind_eq_some_iff] at hat'
      obtain ⟨m', hm', hd'⟩ := hat'
      obtain ⟨changed, hchanged, hf'⟩ :=
        follows_write hf.identifies hfr' hm' hd' ((hp.writable_eq key.value).trans hw) value
      have hbinding : s'.store.binding? frame root = some m'.copy := by
        rw [hf.identifies.binding?_eq, hfr', Option.bind_some, hm', Option.map_some]
      refine ⟨_, _, ?_, rfl, hf.trans hr hf'⟩
      show (if _ then _ else _ : Action Unit) s' = _
      rw [hsince, if_neg (by rw [hany]; decide), hbinding]
      simp only [hchanged]
      rfl

/-! ## Trees -/

/-- An assignment agrees where its right-hand side does, once the keys of its
    address are there. -/
theorem simulates_assign {right : Expr}
    (h : Simulates (ScopeScript.evaluate right) (evaluate right)) (keys : List Key)
    (yieldsOld : Bool) :
    Simulates
      (do
        let s ← get
        let (target, old) ← Action.ofExcept (ScopeScript.Target.resolve s.store keys yieldsOld)
        let value ← ScopeScript.evaluate right
        target.commit s.writes.length value
        return old.getD value)
      (do
        let s ← get
        let (target, old) ← Eval.ofExcept (Target.resolve s keys yieldsOld)
        let value ← evaluate right
        target.commit value
        return old.getD value) := by
  intro s r hd hr
  have hres := hr.resolved keys yieldsOld
  show Agree _ ((Action.ofExcept (ScopeScript.Target.resolve s.store keys yieldsOld) >>= _ :
    Action Value) s) ((Eval.ofExcept (Target.resolve r keys yieldsOld) >>= _ : Eval Value) r)
  generalize ScopeScript.Target.resolve s.store keys yieldsOld = x at hres ⊢
  generalize Target.resolve r keys yieldsOld = y at hres ⊢
  cases hres with
  | error e => exact .error e (.refl hr)
  | @ok t u old ht =>
    have hright := h s r hd hr
    show Agree _ ((ScopeScript.evaluate right >>= fun value => t.commit s.writes.length value >>=
      fun _ => pure (old.getD value) : Action Value) s)
      ((evaluate right >>= fun value => u.commit value >>= fun _ => pure (old.getD value) :
        Eval Value) r)
    show Agree _ (EStateM.bind _ _ s) (EStateM.bind _ _ r)
    rw [EStateM.bind, EStateM.bind]
    generalize ScopeScript.evaluate right s = x at hright ⊢
    generalize evaluate right r = y at hright ⊢
    cases hright with
    | error e hf => exact .error e hf
    | @ok value s' r' hf =>
      obtain ⟨s'', r'', hs'', hr'', hf''⟩ := commit_agrees hr ht hf value
      show Agree _ (EStateM.bind _ _ s') (EStateM.bind _ _ r')
      rw [EStateM.bind, EStateM.bind, hs'', hr'']
      exact .ok _ hf''

/-- Both sides evaluate a tree as a nested body, and the bodies agree. -/
def Nests (e : Expr) : Prop :=
  ∃ body body', ScopeScript.evaluate e = Action.nested e.span body ∧
    evaluate e = Eval.nested e.span body' ∧ Simulates body body'

theorem Nests.simulates {e : Expr} (h : Nests e) :
    Simulates (ScopeScript.evaluate e) (evaluate e) := by
  obtain ⟨body, body', hb, hb', hsim⟩ := h
  rw [hb, hb']
  exact hsim.nested e.span

mutual

/-- The body of a tree agrees, whatever the tree. -/
theorem nests : ∀ e : Expr, Nests e
  | .int _ _ => ⟨_, _, rfl, rfl, .pure _⟩
  | .double _ _ => ⟨_, _, rfl, rfl, .pure _⟩
  | .string _ _ => ⟨_, _, rfl, rfl, .pure _⟩
  | .read _ address =>
    ⟨_, _, rfl, rfl, (simulates_evaluateAll address).bind simulates_readAddress⟩
  | .assign _ address right yieldsOld =>
    ⟨_, _, rfl, rfl, (simulates_evaluateAll address).bind fun keys =>
      simulates_assign (nests right).simulates keys yieldsOld⟩
  | .binary _ _ left right =>
    ⟨_, _, rfl, rfl, (nests left).simulates.bind fun _ =>
      (nests right).simulates.bind fun _ => .ofFault _⟩
  | .list _ elements =>
    ⟨_, _, rfl, rfl, (simulates_evaluateAll elements).bind fun _ => .pure _⟩
  | .object _ entries =>
    ⟨_, _, rfl, rfl, (simulates_evaluateEntries [] entries).bind fun _ => .pure _⟩
  | .call _ _ _ => ⟨_, _, rfl, rfl, .throw _⟩

theorem simulates_evaluateAll : ∀ es : List Expr,
    Simulates (ScopeScript.evaluateAll es) (evaluateAll es)
  | [] => .pure _
  | e :: es =>
    (nests e).simulates.bind fun _ => (simulates_evaluateAll es).bind fun _ => .pure _

theorem simulates_evaluateEntries : ∀ (o : Object) (ps : List (Expr × Expr)),
    Simulates (ScopeScript.evaluateEntries o ps) (evaluateEntries o ps)
  | _, [] => .pure _
  | _, (key, value) :: ps =>
    (nests key).simulates.bind fun _ => (Simulates.ofExcept _).bind fun _ =>
      (nests value).simulates.bind fun _ => simulates_evaluateEntries _ ps

end

/-! ## Sessions -/

/-- Evaluation on any session, at any depth, is evaluation with identities: it
    gives the same value or the same error and leaves the same frames. Every
    session has such identities to begin with. -/
theorem evaluate_refines (e : Expr) (s : Session) :
    (State.ofSession s).Identifies s ∧ ∀ r : State, r.Identifies s →
      Agree (fun s' r' => r'.Identifies s') (ScopeScript.evaluate e s) (evaluate e r) := by
  refine ⟨State.identifies_ofSession s, fun r hr => ?_⟩
  obtain ⟨body, body', hb, hb', h⟩ := nests e
  rw [hb, hb']
  exact (agree_nested h e.span hr).mono fun _ _ hp => hp.1

/-- A session in which `a` is the list `[[1]]`, and the statement
    `a[0][0] = (a[0] = [2])`. -/
theorem evaluate_refines_replaced :
    let at0 : Span := ⟨0, 0⟩
    let a := Expr.string at0 "a"
    let zero := Expr.int at0 0
    let e := Expr.assign at0 [a, zero, zero]
      (.assign at0 [a, zero] (.list at0 [.int at0 2]) false) false
    let s := { Session.new 100 with
      store := Store.empty.define (.string "a") (.list [.list [.int 1]]) }
    Agree (fun s' r' => r'.Identifies s') (ScopeScript.evaluate e s)
      (evaluate e (State.ofSession s)) := by
  intro at0 a zero e s
  have h := evaluate_refines e s
  exact h.2 _ h.1

end Identity
end ScopeScript
