/-
  ScopeScript.Proofs.Session.WriteLog

  The log of writes tells all that evaluation has changed. Every assignment that
  writes notes where, and nothing else writes. While a statement is evaluated the
  log only grows; what has been added to it since tells of everything in the
  store that is different, also where the evaluation has failed
  (`Session.Logged`). One rule for each way to compose actions carries this from
  one write to whole trees.
-/
import ScopeScript.Proofs.Session.Limit
import ScopeScript.Proofs.Session.Putting

namespace ScopeScript

/-- From `s` to `s'` the log has become longer by the places of `log`, the last one
    first, which tell of all that has changed in the store. -/
structure Session.Logged (s : Session) (log : List Location) (s' : Session) : Prop where
  writes_eq : s'.writes = log ++ s.writes
  store : s.store.Logged log s'.store
  nesting : s.SameNesting s'

namespace Session.Logged

variable {s t u : Session} {log log' : List Location}

theorem refl (s : Session) : s.Logged [] s :=
  ⟨rfl, .refl s.store, .refl s⟩

theorem trans (h : s.Logged log t) (h' : t.Logged log' u) : s.Logged (log' ++ log) u := by
  refine ⟨?_, h.store.trans h'.store, h.nesting.trans h'.nesting⟩
  rw [h'.writes_eq, h.writes_eq, List.append_assoc]

/-- Where nothing is noted, nothing has changed. -/
theorem eq_of_nil (h : s.Logged [] t) : t = s := by
  have hstore := h.store.eq_of_nil
  have hwrites : t.writes = s.writes := h.writes_eq
  have hdepth := h.nesting.depth_eq
  have hlimit := h.nesting.limit_eq
  cases s
  cases t
  cases hstore
  cases hwrites
  cases hdepth
  cases hlimit
  rfl

end Session.Logged

/-! ## Actions -/

/-- While a statement is evaluated, what the action changes stands in what it adds
    to the log, however it ends. If it is `quiet` it adds nothing. -/
def Logs {α : Type} (quiet : Prop) (f : Action α) : Prop :=
  ∀ s : Session, 0 < s.depth →
    ∃ log, s.Logged log (Run.session (f s)) ∧ (quiet → log = [])

namespace Logs

variable {α β : Type} {quiet : Prop}

theorem of_session_eq {f : Action α} (h : ∀ s, Run.session (f s) = s) : Logs quiet f := by
  intro s _
  rw [h s]
  exact ⟨[], .refl s, fun _ => rfl⟩

theorem pure (a : α) : Logs quiet (Pure.pure a) :=
  of_session_eq fun _ => rfl

theorem throw (e : RuntimeError) : Logs quiet (MonadExcept.throw e : Action α) :=
  of_session_eq fun _ => rfl

theorem ofExcept (x : Except RuntimeError α) : Logs quiet (Action.ofExcept x) := by
  cases x with
  | ok a => exact .pure a
  | error e => exact .throw e

theorem ofFault (x : Except RuntimeFault α) : Logs quiet (Action.ofFault x) := by
  cases x with
  | ok a => exact .pure a
  | error f => exact .throw ⟨f, none⟩

theorem bind {f : Action α} {k : α → Action β} (hf : Logs quiet f) (hk : ∀ a, Logs quiet (k a)) :
    Logs quiet (f >>= k) := by
  intro s hd
  obtain ⟨log, hlog, hquiet⟩ := hf s hd
  cases hs : f s with
  | error e s₁ =>
    rw [hs] at hlog
    rw [Action.bind_of_error hs]
    exact ⟨log, hlog, hquiet⟩
  | ok a s₁ =>
    rw [hs] at hlog
    have hd₁ : 0 < s₁.depth := by
      rw [show s₁.depth = s.depth from hlog.nesting.depth_eq]
      exact hd
    obtain ⟨log', hlog', hquiet'⟩ := hk a s₁ hd₁
    rw [Action.bind_of_ok hs]
    refine ⟨log' ++ log, hlog.trans hlog', fun hq => ?_⟩
    rw [hquiet hq, hquiet' hq]
    rfl

/-- An evaluation inside another one does not begin a new log. -/
theorem nested {body : Action Value} (h : Logs quiet body) (span : Span) :
    Logs quiet (Action.nested span body) := by
  intro s hd
  rw [Action.nested]
  split
  · exact ⟨[], .refl s, fun _ => rfl⟩
  · have hentered : s.entered = { s with depth := s.depth + 1 } := by
      rw [Session.entered, if_neg (Nat.ne_of_gt hd)]
    obtain ⟨log, hlog, hquiet⟩ := h s.entered (Nat.succ_pos _)
    refine ⟨log, ?_, hquiet⟩
    have hleft {s' : Session} (h' : s.entered.Logged log s') : s.Logged log s'.left := by
      obtain ⟨hwrites, hstore, hnesting⟩ := h'
      rw [hentered] at hwrites hstore
      exact ⟨hwrites, hstore, hnesting.left⟩
    cases hs : body s.entered with
    | ok v s₁ => rw [hs] at hlog; exact hleft hlog
    | error e s₁ => rw [hs] at hlog; exact hleft hlog

theorem readAddress (keys : List Key) : Logs quiet (Session.readAddress keys) := by
  refine of_session_eq fun s => ?_
  cases keys with
  | nil => rfl
  | cons head path =>
    rw [Session.readAddress]
    cases Target.read s.store head path <;> rfl

/-- A write notes where it writes. -/
theorem commit (hquiet : ¬ quiet) (target : Target) (mark : Nat) (value : Value) :
    Logs quiet (target.commit mark value) := by
  intro s _
  have hsame : ∃ log, s.Logged log s ∧ (quiet → log = []) := ⟨[], .refl s, fun _ => rfl⟩
  cases target with
  | name key =>
    exact ⟨[⟨s.store.depth - 1, [.primitive key]⟩],
      ⟨rfl, (s.store.puts_define key value).logged, ⟨rfl, rfl⟩⟩, fun hq => absurd hq hquiet⟩
  | member frame root span path key =>
    rw [commit_member]
    split
    · exact hsame
    · cases hroot : s.store.binding? frame root with
      | none => exact hsame
      | some old =>
        simp only
        split
        · exact hsame
        · next changed hchanged =>
          have hstore := (Store.puts_bind hroot hchanged).logged
          exact ⟨[⟨frame, (Target.home frame root path).keys ++ [key.value]⟩],
            ⟨rfl, hstore, ⟨rfl, rfl⟩⟩, fun hq => absurd hq hquiet⟩

theorem write (hquiet : ¬ quiet) {right : Action Value} (hright : Logs quiet right)
    (keys : List Key) (yieldsOld : Bool) : Logs quiet (Assignment.write keys right yieldsOld) := by
  intro s hd
  rw [Assignment.write]
  cases hres : Target.resolve s.store keys yieldsOld with
  | error e => exact ⟨[], .refl s, fun _ => rfl⟩
  | ok r =>
    exact Logs.bind hright
      (fun value => .bind (.commit hquiet r.1 s.writes.length value) fun _ => .pure _) s hd

end Logs

/-! ## Trees -/

section Trees

variable {quiet : Prop}

mutual

/-- What the evaluation of a tree changes stands in the log, and a tree without
    assignments adds nothing to it. -/
theorem logs_evaluate : ∀ e : Expr, (quiet → e.hasAssignment = false) → Logs quiet (evaluate e)
  | .int span _, _ => .nested (.pure _) span
  | .double span _, _ => .nested (.pure _) span
  | .string span _, _ => .nested (.pure _) span
  | .read span address, h => .nested (.bind (logs_evaluateAll address h) .readAddress) span
  | .assign span address right yieldsOld, h => by
    have hquiet : ¬ quiet := fun hq => nomatch h hq
    rw [Assignment.evaluate_assign]
    refine .nested (.bind (logs_evaluateAll address fun hq => absurd hq hquiet) fun keys => ?_) span
    exact .write hquiet (logs_evaluate right fun hq => absurd hq hquiet) keys yieldsOld
  | .binary span _ left right, h =>
    .nested (.bind (logs_evaluate left fun hq => (Bool.or_eq_false_iff.1 (h hq)).1) fun _ =>
      .bind (logs_evaluate right fun hq => (Bool.or_eq_false_iff.1 (h hq)).2) fun _ =>
        .ofFault _) span
  | .list span elements, h => .nested (.bind (logs_evaluateAll elements h) fun _ => .pure _) span
  | .object span entries, h =>
    .nested (.bind (logs_evaluateEntries [] entries h) fun _ => .pure _) span
  | .call span _ _, _ => .nested (.throw _) span

theorem logs_evaluateAll : ∀ es : List Expr, (quiet → Expr.anyAssignment es = false) →
    Logs quiet (evaluateAll es)
  | [], _ => .pure _
  | e :: es, h =>
    .bind (logs_evaluate e fun hq => (Bool.or_eq_false_iff.1 (h hq)).1) fun _ =>
      .bind (logs_evaluateAll es fun hq => (Bool.or_eq_false_iff.1 (h hq)).2) fun _ => .pure _

theorem logs_evaluateEntries : ∀ (o : Object) (ps : List (Expr × Expr)),
    (quiet → Expr.anyEntryAssignment ps = false) → Logs quiet (evaluateEntries o ps)
  | _, [], _ => .pure _
  | _, (key, value) :: ps, h => by
    have hparts (hq : quiet) : (key.hasAssignment = false ∧ value.hasAssignment = false) ∧
        Expr.anyEntryAssignment ps = false := by
      rw [← Bool.or_eq_false_iff, ← Bool.or_eq_false_iff]
      exact h hq
    exact .bind (logs_evaluate key fun hq => (hparts hq).1.1) fun _ => .bind (.ofExcept _) fun _ =>
      .bind (logs_evaluate value fun hq => (hparts hq).1.2) fun _ =>
        logs_evaluateEntries _ ps fun hq => (hparts hq).2

end

end Trees

/-- While a statement is evaluated, the log of writes tells the whole truth about
    what evaluation changes, whether it succeeds or fails: the log becomes longer
    by some places, and whatever stands at a location that none of them covers
    persists, is the same if none of them is below it, and is not new. A tree
    without assignments changes nothing. -/
theorem log_tells_all (e : Expr) (s : Session) (hs : 0 < s.depth) :
    ∃ log, (Run.session (evaluate e s)).writes = log ++ s.writes ∧
      s.store.Logged log (Run.session (evaluate e s)).store ∧
      (e.hasAssignment = false → Run.session (evaluate e s) = s) := by
  have hlogs : Logs (e.hasAssignment = false) (evaluate e) := logs_evaluate e id
  obtain ⟨log, hlog, hquiet⟩ := hlogs s hs
  refine ⟨log, hlog.writes_eq, hlog.store, fun h => ?_⟩
  rw [hquiet h] at hlog
  exact hlog.eq_of_nil

/-- In `[o = {'n': 1}, o.n = 2, m]` the name `m` is not bound. What the two
    assignments before it have changed stands in the log. -/
theorem log_tells_all_before_error :
    let at0 : Span := ⟨0, 0⟩
    let o := Expr.string at0 "o"
    let n := Expr.string at0 "n"
    let e := Expr.list at0
      [.assign at0 [o] (.object at0 [(n, .int at0 1)]) false,
        .assign at0 [o, n] (.int at0 2) false, .read at0 [.string at0 "m"]]
    let s := (Session.new 10).entered
    0 < s.depth ∧ (∃ err s', evaluate e s = .error err s') ∧
      ∃ log, (Run.session (evaluate e s)).writes = log ++ s.writes ∧ log.length = 2 ∧
        s.store.Logged log (Run.session (evaluate e s)).store := by
  intro at0 o n e s
  have hs : 0 < s.depth := Nat.succ_pos 0
  obtain ⟨log, hwrites, hlogged, -⟩ := log_tells_all e s hs
  have hlength : log.length = 2 := by
    rw [show s.writes = [] from rfl, List.append_nil] at hwrites
    rw [← hwrites]
    rfl
  exact ⟨hs, ⟨_, _, rfl⟩, log, hwrites, hlength, hlogged⟩

end ScopeScript
