/-
  ScopeScript.Proofs.Session.Scopes

  What a nested scope can do to the names outside it. A name is bound in the
  newest frame; a member is written wherever its root is bound, but into a
  container that is there. So evaluation leaves every older frame its keys, and
  what these are bound to keeps its form: a primitive stays the same, a list as
  long, an object has its keys and perhaps more. Behind the scope the names
  outside resolve as they did before.
-/
import Mathlib.Data.List.Forall2
import Mathlib.Data.Option.Basic
import ScopeScript.Proofs.Session.Effects
import ScopeScript.Proofs.Session.Steps
import ScopeScript.Proofs.Store.Frames

namespace ScopeScript

/-! ## Values and frames that persist -/

/-- A value that has only been written into: a primitive is the same, a list is
    as long as it was, an object has the keys that it had. -/
def Value.Persists : Value → Value → Prop
  | primitive p, w => w = primitive p
  | list es, w => ∃ fs, w = list fs ∧ fs.length = es.length
  | object ps, w =>
    ∃ qs, w = object qs ∧ ∀ key, Object.contains ps key = true → Object.contains qs key = true

/-- A frame that has its keys still, each bound to what persists. -/
structure Object.Persists (f f' : Object) : Prop where
  keys : f'.map (·.1) = f.map (·.1)
  bound : ∀ key, Option.Rel Value.Persists (f.get? key) (f'.get? key)

namespace Value

theorem Persists.refl (v : Value) : v.Persists v := by
  cases v with
  | primitive p => rfl
  | list es => exact ⟨es, rfl, rfl⟩
  | object ps => exact ⟨ps, rfl, fun _ h => h⟩

theorem Persists.trans {u v w : Value} (h : u.Persists v) (h' : v.Persists w) : u.Persists w := by
  cases u with
  | primitive p =>
    cases h
    exact h'
  | list es =>
    obtain ⟨fs, rfl, hlength⟩ := h
    obtain ⟨gs, rfl, hlength'⟩ := h'
    exact ⟨gs, rfl, hlength'.trans hlength⟩
  | object ps =>
    obtain ⟨qs, rfl, hkeys⟩ := h
    obtain ⟨rs, rfl, hkeys'⟩ := h'
    exact ⟨rs, rfl, fun key hkey => hkeys' key (hkeys key hkey)⟩

end Value

namespace Object

/-- Binding a key leaves all keys bound. -/
theorem contains_put {f : Object} {key : Primitive} (k : Primitive) (v : Value)
    (h : f.contains key = true) : Object.contains (Bindings.put k v f) key = true := by
  rw [contains_eq_isSome] at h ⊢
  rw [Bindings.find?_put]
  split
  · rfl
  · exact h

/-- Binding a key that is bound adds none. -/
theorem keys_put {f : Object} {k : Primitive} (v : Value) (h : f.contains k = true) :
    (Bindings.put k v f).map (·.1) = f.map (·.1) := by
  rw [contains_eq_isSome] at h
  induction f with
  | nil => cases h
  | cons p f ih =>
    rw [Bindings.put]
    rw [Bindings.find?] at h
    split
    · rfl
    · next hne =>
      rw [if_neg hne] at h
      rw [List.map_cons, List.map_cons, ih h]

theorem Persists.refl (f : Object) : Persists f f := by
  refine ⟨rfl, fun key => ?_⟩
  cases f.get? key with
  | none => exact .none
  | some v => exact .some (Value.Persists.refl v)

theorem Persists.trans {f g h : Object} (hfg : Persists f g) (hgh : Persists g h) :
    Persists f h := by
  refine ⟨hgh.keys.trans hfg.keys, fun key => ?_⟩
  have hbound := hfg.bound key
  have hbound' := hgh.bound key
  generalize f.get? key = u, g.get? key = v, h.get? key = w at hbound hbound'
  cases hbound with
  | none =>
    cases hbound'
    exact .none
  | some huv =>
    cases hbound' with
    | some hvw => exact .some (huv.trans hvw)

/-- A frame persists where a key is bound to what persists in place of what it
    was bound to. -/
theorem persists_put {f : Object} {root : Primitive} {old changed : Value}
    (hroot : Bindings.find? root f = some old) (h : old.Persists changed) :
    Persists f (Bindings.put root changed f) := by
  have hcontains : f.contains root = true := by
    rw [contains_eq_isSome, hroot]
    rfl
  refine ⟨keys_put changed hcontains, fun key => ?_⟩
  rw [get?_eq_find?, get?_eq_find?, Bindings.find?_put]
  split
  · next hsame =>
    rw [← Bindings.find?_of_same hsame, hroot]
    exact .some h
  · rw [← get?_eq_find?]
    exact (Persists.refl f).bound key

theorem Persists.contains_eq {f f' : Object} (h : Persists f f') (key : Primitive) :
    f'.contains key = f.contains key := by
  have hbound := h.bound key
  rw [contains, contains]
  generalize f.get? key = u, f'.get? key = v at hbound
  cases hbound <;> rfl

end Object

/-! ## Writes -/

namespace Value

/-- A container persists where a member of it is written. -/
theorem persists_writeMember {container key value changed : Value}
    (h : container.writeMember key value = .ok changed) : container.Persists changed := by
  rw [writeMember_eq] at h
  cases hcheck : container.checkWrite key with
  | error f => rw [hcheck] at h; cases h
  | ok _ =>
    rw [hcheck] at h
    cases h
    cases container with
    | primitive p => cases hcheck
    | list es =>
      rw [setMember]
      split
      · exact ⟨_, rfl, List.length_set⟩
      · exact .refl _
    | object ps =>
      rw [setMember]
      split
      · exact ⟨_, rfl, fun _ hkey => Object.contains_put _ _ hkey⟩
      · exact .refl _

/-- A value persists where something on a path in it is changed to what persists. -/
theorem persists_updateAt {change : Value → Except RuntimeError Value} {v w : Value}
    {path : List Key} (hchange : ∀ u u', change u = .ok u' → u.Persists u')
    (h : v.updateAt change path = .ok w) : v.Persists w := by
  cases path with
  | nil =>
    rw [updateAt_nil] at h
    exact hchange v w h
  | cons k path =>
    -- Whatever is changed further in, the member is written into this container.
    rw [updateAt_key] at h
    obtain ⟨m, -, h⟩ := exists_of_bind h
    obtain ⟨u, -, h⟩ := exists_of_bind h
    exact persists_writeMember (ok_of_atKey h)

end Value

/-! ## Stores -/

namespace Store

/-- All frames persist. -/
structure Persists (s s' : Store) : Prop where
  depth_eq : s'.depth = s.depth
  frame : ∀ (i : Nat) (f : Object), s.frames[i]? = some f →
    ∃ f', s'.frames[i]? = some f' ∧ Object.Persists f f'

/-- The frames older than the newest persist, and the newest has its keys. -/
structure Inherits (s s' : Store) : Prop where
  depth_eq : s'.depth = s.depth
  older : ∀ (i : Nat) (f : Object), i + 1 < s.depth → s.frames[i]? = some f →
    ∃ f', s'.frames[i]? = some f' ∧ Object.Persists f f'
  newest : ∀ key, s.current.contains key = true → s'.current.contains key = true

theorem frames_current (s : Store) : s.frames[s.depth - 1]? = some s.current := by
  have hne : s.frames ≠ [] := List.cons_ne_nil _ _
  rw [← length_frames, current_eq, List.getLastD_eq_getLast?, List.getLast?_eq_getElem?]
  cases h : s.frames[s.frames.length - 1]? with
  | some f => rfl
  | none =>
    rw [List.getElem?_eq_none_iff] at h
    have := List.length_pos_iff.2 hne
    omega

instance : IsPreorder Store Inherits where
  refl s := ⟨rfl, fun _ f _ hf => ⟨f, hf, .refl f⟩, fun _ h => h⟩
  trans s t u hst htu := by
    refine ⟨htu.depth_eq.trans hst.depth_eq, fun i f hi hf => ?_, fun key h =>
      htu.newest key (hst.newest key h)⟩
    obtain ⟨g, hg, hfg⟩ := hst.older i f hi hf
    obtain ⟨h, hh, hgh⟩ := htu.older i g (hst.depth_eq ▸ hi) hg
    exact ⟨h, hh, hfg.trans hgh⟩

theorem Persists.inherits {s s' : Store} (h : Persists s s') : Inherits s s' := by
  refine ⟨h.depth_eq, fun i f _ hf => h.frame i f hf, fun key hkey => ?_⟩
  obtain ⟨f', hf', hpersists⟩ := h.frame _ _ s.frames_current
  rw [← h.depth_eq, frames_current] at hf'
  cases hf'
  rw [hpersists.contains_eq]
  exact hkey

/-- A definition changes the newest frame only. -/
theorem inherits_define (s : Store) (key : Primitive) (value : Value) :
    Inherits s (s.define key value) := by
  refine ⟨depth_define s key value, fun i f hi hf => ⟨f, ?_, .refl f⟩, fun k hk => ?_⟩
  · have hi' : ¬ s.depth - 1 = i := by omega
    rw [frames_define, List.getElem?_modify, length_frames, hf]
    simp only [hi', if_false, Option.map_eq_map, Option.map_some]
  · have hcurrent := (s.define key value).frames_current
    rw [depth_define, frames_define, length_frames, List.getElem?_modify,
      frames_current] at hcurrent
    simp only [if_true, Option.map_eq_map, Option.map_some, Option.some.injEq] at hcurrent
    rw [← hcurrent]
    exact Object.contains_put key value hk

/-- A frame that binds a root to what persists persists, and the others stay. -/
theorem persists_bind {s : Store} {frame : Nat} {root : Primitive} {old changed : Value}
    (hroot : s.binding? frame root = some old) (h : old.Persists changed) :
    Persists s (s.bind frame root changed) := by
  refine ⟨depth_bind s frame root changed, fun i f hf => ?_⟩
  rw [frames_bind, List.getElem?_modify, hf]
  by_cases hi : frame = i
  · subst hi
    rw [binding?_eq, hf, Option.bind_some] at hroot
    exact ⟨_, by simp, Object.persists_put hroot h⟩
  · exact ⟨f, by simp [hi], .refl f⟩

/-! ### Opening and leaving a scope -/

theorem depth_descend (s : Store) : s.descend.depth = s.depth + 1 := by
  simp [descend, depth]

/-- A scope that has been opened can be left, and what it has kept outside it
    persists then. -/
theorem Inherits.ascend {s t : Store} (h : Inherits s.descend t) :
    ∃ u, t.ascend = .ok u ∧ Persists s u := by
  have hdepth : t.depth = s.depth + 1 := h.depth_eq.trans s.depth_descend
  have hne : t.nested ≠ [] := by
    intro hnil
    rw [depth, depth, hnil] at hdepth
    exact absurd hdepth (by simp)
  obtain ⟨u, hu⟩ : ∃ u, t.ascend = .ok u := ⟨_, by rw [Store.ascend, if_neg (by simpa using hne)]⟩
  have hframes := frames_ascend hu
  refine ⟨u, hu, ?_, fun i f hf => ?_⟩
  · rw [← length_frames, hframes, List.length_dropLast, length_frames, hdepth, Nat.add_sub_cancel]
  · have hi : i < s.depth := (List.getElem?_eq_some_iff.1 hf).1
    obtain ⟨f', hf', hpersists⟩ := h.older i f (by rw [depth_descend]; omega)
      (by rw [frames_descend, List.getElem?_append_left hi, hf])
    refine ⟨f', ?_, hpersists⟩
    rw [hframes, List.getElem?_dropLast, length_frames, hdepth, if_pos (by omega), hf']

/-! ### Names -/

/-- What the last frame binds a key to persists where all frames do. -/
theorem findLast?_persists {key : Primitive} {fs gs : List Object}
    (h : List.Forall₂ Object.Persists fs gs) :
    Option.Rel Value.Persists (findLast? key fs) (findLast? key gs) := by
  induction h with
  | nil => exact .none
  | @cons f g fs gs hfg _ ih =>
    rw [findLast?_cons, findLast?_cons]
    generalize findLast? key fs = u, findLast? key gs = v at ih
    cases ih with
    | some h => exact .some h
    | none =>
      rw [Option.none_or, Option.none_or, ← Object.get?_eq_find?, ← Object.get?_eq_find?]
      exact hfg.bound key

theorem Persists.forall₂_frames {s s' : Store} (h : Persists s s') :
    List.Forall₂ Object.Persists s.frames s'.frames := by
  refine List.forall₂_iff_get.2 ⟨h.depth_eq.symm, fun i hi hi' => ?_⟩
  obtain ⟨f', hf', hpersists⟩ := h.frame i (s.frames.get ⟨i, hi⟩) (List.getElem?_eq_getElem hi)
  rw [List.getElem?_eq_getElem hi', Option.some.injEq] at hf'
  rw [List.get_eq_getElem, List.get_eq_getElem, hf']
  exact hpersists

/-- A name is bound to what persists where all frames do, and to nothing where it
    was bound to nothing. -/
theorem Persists.lookup? {s s' : Store} (h : Persists s s') (key : Primitive) :
    Option.Rel Value.Persists (s.lookup? key) (s'.lookup? key) := by
  rw [lookup?_eq, lookup?_eq]
  refine findLast?_persists ?_
  have hframes := h.forall₂_frames
  cases hframes with
  | cons _ htail => exact htail

end Store

/-! ## Evaluation -/

/-- Every write keeps the names outside the newest scope, whatever its target. -/
theorem inherits_commit (target : Target) (mark : Nat) (value : Value) (s : Session) :
    Moves Store.Inherits (target.commit mark value) s := by
  cases target with
  | name key => exact Store.inherits_define s.store key value
  | member frame root span path key =>
    rw [Moves, commit_member]
    split
    · exact refl _
    · cases hroot : s.store.binding? frame root with
      | none => exact refl _
      | some old =>
        simp only
        split
        · exact refl _
        · next changed hchanged =>
          refine (Store.persists_bind hroot ?_).inherits
          exact Value.persists_updateAt
            (fun _ _ hwrite => Value.persists_writeMember (Value.ok_of_atKey hwrite)) hchanged

theorem inherits_evaluate (e : Expr) (s : Session) : Moves Store.Inherits (evaluate e) s :=
  moves_evaluate e s <| Expr.assignsTo_of_forall
    (fun _ _ _ _ _ _ target _ _ mark value s₂ => inherits_commit target mark value s₂) e

theorem inherits_run (p : Program) (s : Session) : Moves Store.Inherits p.run s :=
  moves_evaluateStatements (fun e _ s => inherits_evaluate e s) s

/-! ## Steps -/

namespace Step

/-- Leaving a scope in which the names outside have been kept. -/
theorem persists_ascend {α β : Type} (run : α → Action β) {s : Store} {t : Session}
    (h : Store.Inherits s.descend t.store) :
    Store.Persists s (Run.session ((Step.ascend : Step α).act run t)).store := by
  obtain ⟨u, hu, hpersists⟩ := h.ascend
  simp only [act, hu]
  exact hpersists

/-- Steps that leave the scopes that they open keep the names outside the scope
    that they begin in. -/
theorem inherits_after {steps : List (Step Program)} (h : Balanced steps) (s : Session) :
    Store.Inherits s.store (after Program.run steps s).store := by
  induction h generalizing s with
  | nil => exact refl _
  | run p _ ih =>
    rw [after, session_act_run]
    exact IsTrans.trans _ _ _ (inherits_run p s) (ih _)
  | scope _ _ ihInner ih =>
    rw [after, after_append]
    have hinner := ihInner { s with store := s.store.descend }
    exact IsTrans.trans _ _ _ (persists_ascend Program.run hinner).inherits (ih _)

/-- What goes on in a scope leaves every frame outside it in place. -/
theorem persists_scope {steps : List (Step Program)} (h : Balanced steps) (s : Session) :
    Store.Persists s.store (after Program.run (.descend :: (steps ++ [.ascend])) s).store := by
  rw [after, after_append]
  exact persists_ascend Program.run (inherits_after h { s with store := s.store.descend })

end Step

/-- Evaluation keeps the names outside the newest scope, whether it succeeds or
    fails. So programs that run in a scope of their own leave all frames outside
    it in place: every name resolves as it did, and one that is bound to a
    primitive is bound to the same one. -/
theorem scope_contains_effects :
    (∀ (e : Expr) (s : Session), Store.Inherits s.store (Run.session (evaluate e s)).store) ∧
    ∀ steps : List (Step Program), Step.Balanced steps → ∀ s : Session,
      let s' := Step.after Program.run (.descend :: (steps ++ [.ascend])) s
      Store.Persists s.store s'.store ∧
      ∀ key, (s'.store.lookup? key).isSome = (s.store.lookup? key).isSome ∧
        ∀ p, s.store.lookup? key = some (.primitive p) →
          s'.store.lookup? key = some (.primitive p) := by
  refine ⟨inherits_evaluate, fun steps hsteps s => ?_⟩
  have hpersists := Step.persists_scope hsteps s
  refine ⟨hpersists, fun key => ?_⟩
  have hlookup := hpersists.lookup? key
  generalize s.store.lookup? key = u at hlookup
  generalize (Step.after Program.run (.descend :: (steps ++ [.ascend])) s).store.lookup? key = v
    at hlookup
  cases hlookup with
  | none => exact ⟨rfl, fun _ h => h⟩
  | some h =>
    refine ⟨rfl, fun p hp => ?_⟩
    cases hp
    rw [h]

/-- A name that is bound again in a scope has its old value behind it. -/
theorem scope_contains_shadowing :
    let shadow : Program := ⟨[.assign ⟨0, 5⟩ [.string ⟨0, 1⟩ "x"] (.int ⟨4, 5⟩ 2) false]⟩
    let s : Session := ⟨⟨[], [(.string "x", .int 1)], []⟩, 0, 10, []⟩
    Step.Balanced [.run shadow] ∧ s.store.lookup? (.string "x") = some (.int 1) ∧
    (Step.after Program.run [.descend, .run shadow, .ascend] s).store.lookup? (.string "x") =
      some (.int 1) := by
  intro shadow s
  have hbalanced : Step.Balanced [.run shadow] := .run shadow .nil
  have hx : s.store.lookup? (.string "x") = some (.int 1) := rfl
  exact ⟨hbalanced, hx, ((scope_contains_effects.2 [.run shadow] hbalanced s).2 _).2 _ hx⟩

end ScopeScript
