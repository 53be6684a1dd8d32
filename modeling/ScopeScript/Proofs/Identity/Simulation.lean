/-
  ScopeScript.Proofs.Identity.Simulation

  The steps of evaluation on a session and on a store with identities agree: the
  same result or error, and sessions that the stores again identify. The log of
  the session tells which containers persist (`Follows`), so that the test on
  the log decides rightly whether the container of a resolved target is still
  there.
-/
import ScopeScript.Proofs.Identity.Tracking

namespace ScopeScript
namespace Identity

open Stored

/-! ## Sessions and stores with identities -/

/-- The store is that of the session with an identity for each container. -/
structure State.Identifies (r : State) (s : Session) : Prop where
  frames_eq : r.frames.map copyEntries = s.store.frames
  depth_eq : r.depth = s.depth
  limit_eq : r.limit = s.limit
  distinct : r.Distinct

/-- Frames with identities from `next` on, and the next one left. -/
def freshFrames (next : Nat) : List Object → List Frame × Nat
  | [] => ([], next)
  | o :: os =>
    let first := freshEntries next o
    let others := freshFrames first.2 os
    (first.1 :: others.1, others.2)

/-- The store of a session with a new identity for each container. -/
def State.ofSession (s : Session) : State :=
  let frames := freshFrames 0 s.store.frames
  ⟨frames.1, frames.2, s.depth, s.limit⟩

theorem map_copyEntries_freshFrames (next : Nat) (os : List Object) :
    (freshFrames next os).1.map copyEntries = os := by
  induction os generalizing next with
  | nil => rfl
  | cons o os ih =>
    simp only [freshFrames, List.map_cons]
    rw [copyEntries_freshEntries, ih]

theorem between_freshFrames (next : Nat) (os : List Object) :
    Between next (freshFrames next os).2 fun id =>
      State.countFrames id (freshFrames next os).1 := by
  induction os generalizing next with
  | nil => exact .none next
  | cons o os ih =>
    simp only [freshFrames, State.countFrames]
    exact (between_freshEntries next o).append (ih _)

/-- Every session is identified by some store. -/
theorem State.identifies_ofSession (s : Session) : (State.ofSession s).Identifies s where
  frames_eq := map_copyEntries_freshFrames 0 s.store.frames
  depth_eq := rfl
  limit_eq := rfl
  distinct := by
    have h := between_freshFrames 0 s.store.frames
    refine ⟨h.once, fun id hid => ?_⟩
    have hwithin := h.within id
    show State.countFrames id (freshFrames 0 s.store.frames).1 = 0
    change (freshFrames 0 s.store.frames).2 ≤ id at hid
    omega

/-- What a run has done on both sides: the store identifies the session again,
    and what the session has written since tracks the containers. -/
structure Follows (s : Session) (r : State) (s' : Session) (r' : State) : Prop where
  identifies : r'.Identifies s'
  depth_eq : s'.depth = s.depth
  exists_log : ∃ log, s'.writes = log ++ s.writes ∧ r.Tracks log r'

/-- Equal results, or equal errors, in states for which `post` holds. -/
inductive Agree {α : Type} (post : Session → State → Prop) :
    EStateM.Result RuntimeError Session α → EStateM.Result RuntimeError State α → Prop where
  | ok (a : α) {s : Session} {r : State} (h : post s r) : Agree post (.ok a s) (.ok a r)
  | error (e : RuntimeError) {s : Session} {r : State} (h : post s r) :
      Agree post (.error e s) (.error e r)

/-- Inside a statement, from states that belong together, two computations
    agree. -/
def Simulates {α : Type} (f : Action α) (g : Eval α) : Prop :=
  ∀ s r, 0 < s.depth → r.Identifies s → Agree (Follows s r) (f s) (g r)

theorem Follows.refl {s : Session} {r : State} (h : r.Identifies s) : Follows s r s r :=
  ⟨h, rfl, [], rfl, .refl r⟩

theorem Follows.trans {s s' s'' : Session} {r r' r'' : State} (hr : r.Identifies s)
    (h : Follows s r s' r') (h' : Follows s' r' s'' r'') : Follows s r s'' r'' := by
  obtain ⟨log, hlog, ht⟩ := h.exists_log
  obtain ⟨log', hlog', ht'⟩ := h'.exists_log
  refine ⟨h'.identifies, h'.depth_eq.trans h.depth_eq, log' ++ log, ?_, ht.trans hr.distinct ht'⟩
  rw [hlog', hlog, List.append_assoc]

theorem Agree.mono {α : Type} {post post' : Session → State → Prop}
    {x : EStateM.Result RuntimeError Session α} {y : EStateM.Result RuntimeError State α}
    (h : Agree post x y) (hp : ∀ s r, post s r → post' s r) : Agree post' x y := by
  cases h with
  | ok a h => exact .ok a (hp _ _ h)
  | error e h => exact .error e (hp _ _ h)

namespace Simulates

variable {α β : Type}

theorem pure (a : α) : Simulates (Pure.pure a) (Pure.pure a) :=
  fun _ _ _ hr => .ok a (.refl hr)

theorem throw (e : RuntimeError) :
    Simulates (MonadExcept.throw e : Action α) (MonadExcept.throw e) :=
  fun _ _ _ hr => .error e (.refl hr)

theorem ofExcept (x : Except RuntimeError α) : Simulates (Action.ofExcept x) (Eval.ofExcept x) := by
  cases x with
  | ok a => exact pure a
  | error e => exact throw e

theorem ofFault (x : Except RuntimeFault α) : Simulates (Action.ofFault x) (Eval.ofFault x) := by
  cases x with
  | ok a => exact pure a
  | error f => exact throw ⟨f, none⟩

theorem bind {f : Action α} {g : Eval α} {k : α → Action β} {l : α → Eval β} (h : Simulates f g)
    (hk : ∀ a, Simulates (k a) (l a)) : Simulates (f >>= k) (g >>= l) := by
  intro s r hd hr
  have hfg := h s r hd hr
  show Agree _ (EStateM.bind f k s) (EStateM.bind g l r)
  rw [EStateM.bind, EStateM.bind]
  -- With the results as variables the agreement can be taken apart.
  generalize f s = x at hfg ⊢
  generalize g r = y at hfg ⊢
  cases hfg with
  | error e hf => exact .error e hf
  | @ok a s' r' hf =>
    refine (hk a s' r' ?_ hf.identifies).mono fun s'' r'' hf' => hf.trans hr hf'
    rw [hf.depth_eq]
    exact hd

end Simulates

/-- The evaluation of a tree agrees where that of its parts does; at the start
    of a statement the log begins anew. -/
theorem agree_nested {body : Action Value} {body' : Eval Value} (h : Simulates body body')
    (span : Span) {s : Session} {r : State} (hr : r.Identifies s) :
    Agree (fun s' r' => r'.Identifies s' ∧ (0 < s.depth → Follows s r s' r'))
      (Action.nested span body s) (Eval.nested span body' r) := by
  rw [Action.nested, Eval.nested]
  by_cases hl : s.limit ≤ s.depth
  · have hl' : r.limit ≤ r.depth := by rw [hr.limit_eq, hr.depth_eq]; exact hl
    rw [if_pos hl, if_pos hl', hr.limit_eq]
    exact .error _ ⟨hr, fun _ => .refl hr⟩
  · have hl' : ¬ r.limit ≤ r.depth := by rw [hr.limit_eq, hr.depth_eq]; exact hl
    rw [if_neg hl, if_neg hl']
    have hentered : ({ r with depth := r.depth + 1 } : State).Identifies s.entered :=
      ⟨hr.frames_eq, congrArg (· + 1) hr.depth_eq, hr.limit_eq, hr.distinct.once,
        hr.distinct.unused⟩
    have hbody := h s.entered _ (Nat.succ_pos _) hentered
    have hleft : ∀ s' r', Follows s.entered { r with depth := r.depth + 1 } s' r' →
        ({ r' with depth := r'.depth - 1 } : State).Identifies s'.left ∧
          (0 < s.depth → Follows s r s'.left { r' with depth := r'.depth - 1 }) := by
      intro s' r' hf
      have hid : ({ r' with depth := r'.depth - 1 } : State).Identifies s'.left := by
        refine ⟨hf.identifies.frames_eq, ?_, hf.identifies.limit_eq,
          hf.identifies.distinct.once, hf.identifies.distinct.unused⟩
        show r'.depth - 1 = s'.depth - 1
        rw [hf.identifies.depth_eq]
      refine ⟨hid, fun hpos => ⟨hid, ?_, ?_⟩⟩
      · show s'.depth - 1 = s.depth
        rw [hf.depth_eq]
        rfl
      · -- The log goes on: it begins anew at depth zero only.
        obtain ⟨log, hlog, ht⟩ := hf.exists_log
        rw [Session.entered, if_neg (Nat.ne_of_gt hpos)] at hlog
        exact ⟨log, hlog, ht.next_le, ht.gone, ht.lost, ht.kept⟩
    generalize body s.entered = x at hbody ⊢
    generalize body' { r with depth := r.depth + 1 } = y at hbody ⊢
    cases hbody with
    | ok v hf =>
      refine .ok v ?_
      exact hleft _ _ hf
    | error e hf =>
      refine .error _ ?_
      exact hleft _ _ hf

theorem Simulates.nested {body : Action Value} {body' : Eval Value} (h : Simulates body body')
    (span : Span) : Simulates (Action.nested span body) (Eval.nested span body') :=
  fun _ _ hd hr => (agree_nested h span hr).mono fun _ _ hp => hp.2 hd

/-! ## Reading -/

theorem copyEntries_put (key : Primitive) (x : Stored) (f : Frame) :
    copyEntries (Bindings.put key x f) = Bindings.put key x.copy (copyEntries f) := by
  rw [copyEntries_eq, copyEntries_eq, Bindings.put_mapValues]

theorem find?_copyEntries (key : Primitive) (f : Frame) :
    Bindings.find? key (copyEntries f) = (Bindings.find? key f).map copy := by
  rw [copyEntries_eq, Bindings.find?_mapValues]

theorem findLast?_copyEntries (key : Primitive) (fs : List Frame) :
    Store.findLast? key (fs.map copyEntries) = (Store.findLast? key fs).map copy := by
  induction fs with
  | nil => rfl
  | cons f fs ih =>
    rw [List.map_cons, Store.findLast?_cons, Store.findLast?_cons, ih, find?_copyEntries,
      Option.map_or]

namespace State.Identifies

variable {r : State} {s : Session}

theorem current_eq (h : r.Identifies s) : copyEntries r.current = s.store.current := by
  rw [Store.current_eq, ← h.frames_eq, State.current, List.getLastD_eq_getLast?,
    List.getLastD_eq_getLast?, List.getLast?_map]
  cases r.frames.getLast? <;> rfl

theorem lookup?_eq (h : r.Identifies s) (key : Primitive) :
    s.store.lookup? key = (r.lookup? key).map copy := by
  rw [Store.lookup?_eq, ← h.frames_eq, ← List.map_tail, findLast?_copyEntries]
  rfl

/-- Both sides read the same at an address. -/
theorem read_eq (h : r.Identifies s) (head : Key) (path : List Key) :
    ScopeScript.Target.read s.store head path = r.read (head :: path) := by
  rw [ScopeScript.Target.read, State.read, State.root]
  cases hp : head.value.primitive? with
  | none => rfl
  | some key =>
    rw [Option.bind_some, Option.bind_some, h.lookup?_eq]
    cases r.lookup? key with
    | none => rfl
    | some c =>
      show c.copy.walk path = (c.walk path).map copy
      exact copy_walk c path

theorem binding?_eq (h : r.Identifies s) (frame : Nat) (key : Primitive) :
    s.store.binding? frame key =
      (r.frames[frame]?.bind (Bindings.find? key)).map copy := by
  rw [Store.binding?_eq, ← h.frames_eq, List.getElem?_map, Option.map_bind, Option.bind_map]
  congr 1
  exact funext fun f => find?_copyEntries key f

end State.Identifies

theorem simulates_readAddress (keys : List Key) :
    Simulates (Session.readAddress keys) (do Eval.ofExcept ((← get).read keys)) := by
  intro s r _ hr
  show Agree _ (Session.readAddress keys s) (Eval.ofExcept (r.read keys) r)
  cases keys with
  | nil =>
    rw [Session.readAddress, State.read, hr.current_eq]
    exact .ok _ (.refl hr)
  | cons head path =>
    rw [Session.readAddress, hr.read_eq]
    cases r.read (head :: path) with
    | ok v => exact .ok v (.refl hr)
    | error e => exact .error e (.refl hr)

end Identity
end ScopeScript
