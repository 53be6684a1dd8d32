/-
  ScopeScript.Proofs.Session.Putting

  Putting a value somewhere, as a relation between what is there before and what
  is there behind it: at a path of a value (`Value.Put`), and at a location of a
  store (`Store.Puts`). It is a lawful cell: what was put is got, to put what is
  there changes nothing, and what is put last counts. What is put at two places
  neither of which leads to the other may be put in either order; only the order
  of the entries of an object may tell (`Alike`).
-/
import ScopeScript.Proofs.Session.Rewriting

namespace ScopeScript

/-! ## Setting members -/

namespace Bindings

variable {α : Type} {k l : Primitive}

theorem put_put_of_same (h : k.same l = true) (a b : α) (ps : List (Primitive × α)) :
    put l b (put k a ps) = put k b ps := by
  induction ps with
  | nil => simp only [put, h, if_true]
  | cons p ps ih =>
    by_cases hp : p.1.same k = true
    · rw [put, if_pos hp, put, if_pos (Primitive.same_trans hp h), put, if_pos hp]
    · have hl : ¬ p.1.same l = true := by
        rw [← Primitive.same_right h]
        exact hp
      rw [put, if_neg hp, put, if_neg hl, ih, put, if_neg hp]

theorem put_of_find? {a : α} {ps : List (Primitive × α)} (h : find? k ps = some a) :
    put k a ps = ps := by
  obtain ⟨before, l, after, rfl, -, hput⟩ := exists_of_find? h
  exact hput a

end Bindings

namespace Value

variable {v w x y a b c d : Value} {k l : Primitive}

/-- What is set last at equal keys counts. -/
theorem setMember_setMember (h : k.same l = true) (v a b : Value) :
    (v.setMember (.primitive k) a).setMember (.primitive l) b = v.setMember (.primitive k) b := by
  cases v with
  | primitive p => rfl
  | list es =>
    cases hi : slot? es.length (.primitive k) with
    | none => simp only [setMember, hi, (slot?_of_same h es.length).symm.trans hi]
    | some i =>
      simp only [setMember, hi, List.length_set, (slot?_of_same h es.length).symm.trans hi,
        List.set_set]
  | object ps => exact congrArg object (Bindings.put_put_of_same h a b ps)

/-- To set a member to what it is changes nothing. -/
theorem setMember_of_member? {key : Value} (h : v.member? key = some a) :
    v.setMember key a = v := by
  cases v with
  | primitive p => rfl
  | list es =>
    rw [member?] at h
    rw [setMember]
    cases hi : slot? es.length key with
    | none => rfl
    | some i =>
      rw [hi, Option.bind_some] at h
      obtain ⟨hlt, rfl⟩ := List.getElem?_eq_some_iff.1 h
      exact congrArg list (List.set_getElem_self hlt)
  | object ps =>
    cases key with
    | primitive k => exact congrArg object (Bindings.put_of_find? h)
    | list es => rfl
    | object qs => rfl

/-! ## Values up to the order of entries -/

/-- Values that only the order of entries can tell apart: an object is taken as
    the map from its keys to what they are bound to. -/
inductive Alike : Value → Value → Prop where
  | primitive (p : Primitive) : Alike (.primitive p) (.primitive p)
  | list {es fs : List Value} (h : List.Forall₂ Alike es fs) : Alike (.list es) (.list fs)
  | object {ps qs : Object}
    (h : ∀ k, Option.Rel Alike (Bindings.find? k ps) (Bindings.find? k qs)) :
    Alike (.object ps) (.object qs)

namespace Alike

theorem refl (v : Value) : v.Alike v := by
  cases v with
  | primitive p => exact .primitive p
  | list es => exact .list (List.forall₂_same.2 fun e he => refl e)
  | object ps =>
    refine .object fun k => ?_
    cases hk : Bindings.find? k ps with
    | none => exact .none
    | some w =>
      obtain ⟨key, hmem, -⟩ := Bindings.exists_mem_of_find? hk
      exact .some (refl w)
termination_by v
decreasing_by
  · have hlt := List.sizeOf_lt_of_mem he
    simp only [Value.list.sizeOf_spec]
    omega
  · have hlt := List.sizeOf_lt_of_mem hmem
    simp only [Prod.mk.sizeOf_spec] at hlt
    simp only [Value.object.sizeOf_spec]
    omega

/-- Lists that differ at one place. -/
theorem forall₂_set {α : Type} {f : α → Value} {a b : α} (h : (f a).Alike (f b)) (l : List α)
    (i : Nat) : List.Forall₂ (fun a b => (f a).Alike (f b)) (l.set i a) (l.set i b) := by
  induction l generalizing i with
  | nil => exact .nil
  | cons e l ih =>
    cases i with
    | zero => exact .cons h (List.forall₂_same.2 fun e _ => refl (f e))
    | succ i => exact .cons (refl (f e)) (ih i)

/-- To set like members at equal keys. -/
theorem setMember (hkl : k.same l = true) (h : Alike a b) (v : Value) :
    (v.setMember (.primitive k) a).Alike (v.setMember (.primitive l) b) := by
  cases v with
  | primitive p => exact .primitive p
  | list es =>
    simp only [Value.setMember, ← slot?_of_same hkl]
    cases slot? es.length (.primitive k) with
    | none => exact refl _
    | some i => exact .list (forall₂_set (f := id) h es i)
  | object ps =>
    refine .object fun key => ?_
    rw [Bindings.find?_put, Bindings.find?_put, Primitive.same_left hkl]
    split
    · exact .some h
    · cases Bindings.find? key ps with
      | none => exact .none
      | some w => exact .some (refl w)

/-- Members at different keys may be set in either order. -/
theorem setMember_comm (hkl : ¬ k.same l = true) (v a b : Value) :
    ((v.setMember (.primitive k) a).setMember (.primitive l) b).Alike
      ((v.setMember (.primitive l) b).setMember (.primitive k) a) := by
  cases v with
  | primitive p => exact .primitive p
  | list es =>
    cases hi : slot? es.length (.primitive k) with
    | none =>
      cases hj : slot? es.length (.primitive l) <;>
        simp only [Value.setMember, hi, hj, List.length_set] <;> exact refl _
    | some i =>
      cases hj : slot? es.length (.primitive l) with
      | none => simp only [Value.setMember, hi, hj, List.length_set]; exact refl _
      | some j =>
        have hij : i ≠ j := by
          rintro rfl
          exact hkl (same_of_slot? hi hj)
        simp only [Value.setMember, hi, hj, List.length_set]
        rw [List.set_comm _ _ hij]
        exact refl _
  | object ps =>
    refine .object fun key => ?_
    rw [Bindings.find?_put, Bindings.find?_put, Bindings.find?_put, Bindings.find?_put]
    by_cases hl : l.same key = true
    · have hk : ¬ k.same key = true := fun hk =>
        hkl (Primitive.same_trans hk (Primitive.same_symm hl))
      rw [if_pos hl, if_neg hk, if_pos hl]
      exact .some (refl b)
    · rw [if_neg hl, if_neg hl]
      split
      · exact .some (refl a)
      · cases Bindings.find? key ps with
        | none => exact .none
        | some w => exact .some (refl w)

end Alike

/-! ## Putting at a path -/

theorem at?_append (v : Value) (p q : List Value) : v.at? (p ++ q) = (v.at? p).bind (·.at? q) := by
  induction p generalizing v with
  | nil => rfl
  | cons k p ih =>
    rw [List.cons_append, at?, at?, Option.bind_assoc]
    exact congrArg _ (funext ih)

/-- A value `x` is put at a path of what is there, if there is anything: the
    containers on the way are there, and each can take the member. -/
inductive Put (x : Value) : List Value → Option Value → Value → Prop where
  | here (before : Option Value) : Put x [] before x
  | inside {v w key : Value} {path : List Value} (hcheck : v.checkWrite key = .ok ())
    (h : Put x path (v.member? key) w) : Put x (key :: path) (some v) (v.setMember key w)

namespace Put

variable {p q : List Value} {before after : Option Value}

theorem unique (h : Put x p before v) (h' : Put x p before w) : v = w := by
  induction h generalizing w with
  | here => cases h'; rfl
  | inside _ _ ih =>
    cases h' with
    | inside _ h' => rw [ih h']

/-- What was put is got. -/
theorem put_get (h : Put x p before v) : v.at? p = some x := by
  induction h with
  | here => rfl
  | inside hcheck _ ih =>
    obtain ⟨k, rfl⟩ := exists_primitive_of_checkWrite hcheck
    rw [at?, member?_setMember_of_same hcheck (Primitive.same_self k), Option.bind_some, ih]

/-- To put what is there changes nothing. -/
theorem get_put (h : Put x p before v) (hx : before.bind (·.at? p) = some x) :
    before = some v := by
  induction h with
  | here before => rw [← hx]; cases before <;> rfl
  | inside _ _ ih =>
    rw [Option.bind_some, at?] at hx
    rw [setMember_of_member? (ih hx)]

/-- What is put last counts. -/
theorem put_put (h : Put x p before v) (h' : Put y p (some v) w) : Put y p before w := by
  induction h generalizing w with
  | here => cases h'; exact .here _
  | inside hcheck _ ih =>
    cases h' with
    | inside _ h' =>
      obtain ⟨k, rfl⟩ := exists_primitive_of_checkWrite hcheck
      rw [member?_setMember_of_same hcheck (Primitive.same_self k)] at h'
      rw [setMember_setMember (Primitive.same_self k)]
      exact .inside hcheck (ih h')

/-- At two paths that do not lead to one another it may be put in either order. -/
theorem comm (hp : Put x p before a) (hq : Put y q before b) (hpq : Put y q (some a) c)
    (hqp : Put x p (some b) d) (hqp' : Location.startsWith q p = false)
    (hpq' : Location.startsWith p q = false) : c.Alike d := by
  induction hp generalizing q b c d with
  | here => cases q <;> cases hqp'
  | @inside v w k p hcheck hp ih =>
    cases hq with
    | here => cases hpq'
    | @inside _ m l q hcheckl hq =>
      cases hpq with
      | @inside _ m' _ _ _ hpq =>
      cases hqp with
      | @inside _ w' _ _ _ hqp =>
      obtain ⟨k, rfl⟩ := exists_primitive_of_checkWrite hcheck
      obtain ⟨l, rfl⟩ := exists_primitive_of_checkWrite hcheckl
      by_cases hkl : k.same l = true
      · -- Both paths lead into one member, and what is set there last counts.
        have hlk := Primitive.same_symm hkl
        rw [member?_setMember_of_same hcheck hkl] at hpq
        rw [member?_setMember_of_same hcheckl hlk] at hqp
        rw [← member?_of_same hkl] at hq
        rw [Location.startsWith, same, hlk, Bool.true_and] at hqp'
        rw [Location.startsWith, same, hkl, Bool.true_and] at hpq'
        rw [setMember_setMember hkl, setMember_setMember hlk]
        exact .setMember hkl (ih hq hpq hqp hqp' hpq') v
      · -- Each leaves the member that the other one leads into.
        have hlk : ¬ l.same k = true := fun h => hkl (Primitive.same_symm h)
        rw [member?_setMember_of_ne (by rw [same]; exact Bool.eq_false_iff.2 hlk)] at hpq
        rw [member?_setMember_of_ne (by rw [same]; exact Bool.eq_false_iff.2 hkl)] at hqp
        rw [hpq.unique hq, hqp.unique hp]
        exact .setMember_comm hkl v w m

/-- What is put at a path is a write there. -/
theorem rewrites (h : Put x p before w) (hv : before = some v) : v.Rewrites p w := by
  induction h generalizing v with
  | here =>
    -- Every path begins with the empty one.
    have hnone {q : List Value} (hq : Location.startsWith q [] = false) : False := by
      cases q <;> cases hq
    exact ⟨fun _ hq => (hnone hq).elim, fun _ hq => (hnone hq).elim⟩
  | @inside v' _ key path hcheck h ih =>
    cases hv
    cases hm : v'.member? key with
    | some m => exact (ih hm).within hm
    | none =>
      rw [hm] at h
      cases h with
      | here => exact rewrites_setMember hcheck x

/-- To write a member of what a path reaches is to put at the path and its key. -/
theorem of_updateAt {key : Key} {path : List Key}
    (h : v.updateAt (fun c => atKey key (c.writeMember key.value x)) path = .ok w) :
    Put x (path.map (·.value) ++ [key.value]) (some v) w := by
  induction path generalizing v w with
  | nil =>
    rw [updateAt_nil] at h
    have hwrite := ok_of_atKey h
    rw [writeMember_eq] at hwrite
    cases hcheck : v.checkWrite key.value with
    | error f => rw [hcheck] at hwrite; cases hwrite
    | ok _ =>
      rw [hcheck] at hwrite
      cases hwrite
      exact .inside hcheck (.here _)
  | cons k path ih =>
    rw [updateAt_key] at h
    obtain ⟨m, hm, h⟩ := exists_of_bind h
    obtain ⟨u, hu, h⟩ := exists_of_bind h
    have hread := ok_of_atKey hm
    have hwrite := ok_of_atKey h
    rw [readMember_eq] at hread
    cases hmember : v.member? k.value with
    | none => rw [hmember] at hread; cases hread
    | some m' =>
      rw [hmember] at hread
      cases hread
      have hcheck := checkWrite_of_member? hmember
      rw [writeMember_eq, hcheck] at hwrite
      cases hwrite
      exact .inside hcheck (hmember ▸ ih hu)

end Put

end Value

/-! ## Putting at a location -/

namespace Store

theorem eq_of_frames {s t : Store} (h : t.frames = s.frames) : t = s := by
  cases s
  cases t
  cases h
  rfl

/-- Stores that only the order of entries can tell apart. -/
def Alike (s t : Store) : Prop :=
  List.Forall₂ (fun f g => (Value.object f).Alike (.object g)) s.frames t.frames

theorem Alike.refl (s : Store) : s.Alike s :=
  List.forall₂_same.2 fun f _ => Value.Alike.refl (.object f)

/-- From `s` to `t` the value `x` has been put at a location. -/
def Puts (s : Store) (p : Location) (x : Value) (t : Store) : Prop :=
  ∃ f g, s.frames[p.frame]? = some f ∧
    Value.Put x p.keys (some (.object f)) (.object g) ∧ t.frames = s.frames.set p.frame g

namespace Puts

variable {s t u a b c d : Store} {p q : Location} {x y : Value}

theorem unique (h : s.Puts p x t) (h' : s.Puts p x u) : u = t := by
  obtain ⟨f, g, hf, hput, hframes⟩ := h
  obtain ⟨f', g', hf', hput', hframes'⟩ := h'
  rw [hf] at hf'
  cases hf'
  cases hput.unique hput'
  exact eq_of_frames (hframes'.trans hframes.symm)

theorem depth_eq (h : s.Puts p x t) : t.depth = s.depth := by
  obtain ⟨f, g, -, -, hframes⟩ := h
  rw [← length_frames, hframes, List.length_set, length_frames]

/-- What was put is got. -/
theorem put_get (h : s.Puts p x t) : t.at? p = some x := by
  obtain ⟨f, g, hf, hput, hframes⟩ := h
  have hlt := (List.getElem?_eq_some_iff.1 hf).1
  rw [at?, hframes, List.getElem?_set_self hlt]
  exact hput.put_get

/-- To put what is there changes nothing. -/
theorem get_put (h : s.Puts p x t) (hx : s.at? p = some x) : t = s := by
  obtain ⟨f, g, hf, hput, hframes⟩ := h
  rw [at?, hf] at hx
  have hfg := hput.get_put hx
  rw [Option.some.injEq, Value.object.injEq] at hfg
  obtain ⟨hlt, heq⟩ := List.getElem?_eq_some_iff.1 hf
  rw [← hfg, ← heq, List.set_getElem_self hlt] at hframes
  exact eq_of_frames hframes

/-- What is put last counts. -/
theorem put_put (h : s.Puts p x t) (h' : t.Puts p y u) : s.Puts p y u := by
  obtain ⟨f, g, hf, hput, hframes⟩ := h
  obtain ⟨f', g', hf', hput', hframes'⟩ := h'
  rw [hframes, List.getElem?_set_self (List.getElem?_eq_some_iff.1 hf).1] at hf'
  cases hf'
  rw [hframes, List.set_set] at hframes'
  exact ⟨f, g', hf, hput.put_put hput', hframes'⟩

/-- At locations that do not lead to one another it may be put in either order. -/
theorem comm (hp : s.Puts p x a) (hq : s.Puts q y b) (hpq : a.Puts q y c) (hqp : b.Puts p x d)
    (hqp' : Location.startsWith q.keys p.keys = false)
    (hpq' : Location.startsWith p.keys q.keys = false) : c.Alike d := by
  obtain ⟨i, path⟩ := p
  obtain ⟨j, path'⟩ := q
  obtain ⟨f, fa, hf, hfa, ha⟩ := hp
  obtain ⟨f', fb, hf', hfb, hb⟩ := hq
  obtain ⟨ga, fc, hga, hfc, hc⟩ := hpq
  obtain ⟨gb, fd, hgb, hfd, hd⟩ := hqp
  have hi := (List.getElem?_eq_some_iff.1 hf).1
  by_cases hij : i = j
  · subst hij
    rw [hf] at hf'
    rw [ha, List.getElem?_set_self hi] at hga
    rw [hb, List.getElem?_set_self hi] at hgb
    cases hf'
    cases hga
    cases hgb
    rw [Alike, hc, hd, ha, hb, List.set_set, List.set_set]
    exact Value.Alike.forall₂_set (hfa.comm hfb hfc hfd hqp' hpq') _ _
  · -- The locations are in two frames, and each leaves the other one's.
    rw [ha, List.getElem?_set_ne hij, hf'] at hga
    rw [hb, List.getElem?_set_ne (Ne.symm hij), hf] at hgb
    cases hga
    cases hgb
    cases hfa.unique hfd
    cases hfb.unique hfc
    have hcd : c = d := eq_of_frames (by rw [hc, hd, ha, hb, List.set_comm _ _ hij])
    rw [hcd]
    exact .refl d

/-- The location tells of all that has changed. -/
theorem logged (h : s.Puts p x t) : s.Logged [p] t := by
  obtain ⟨f, g, hf, hput, hframes⟩ := h
  rw [List.set_eq_modify] at hframes
  exact logged_modify hf hframes (hput.rewrites rfl)

end Puts

theorem puts_define (s : Store) (name : Primitive) (x : Value) :
    s.Puts ⟨s.depth - 1, [.primitive name]⟩ x (s.define name x) := by
  refine ⟨s.current, Bindings.put name x s.current, s.frames_current, .inside rfl (.here _), ?_⟩
  rw [frames_define, List.modify_eq_set_getElem?, length_frames, frames_current]
  rfl

theorem puts_bind {s : Store} {frame : Nat} {root : Primitive} {old changed x : Value}
    {path : List Key} {key : Key} (hroot : s.binding? frame root = some old)
    (h : old.updateAt (fun c => Value.atKey key (c.writeMember key.value x)) path = .ok changed) :
    s.Puts ⟨frame, .primitive root :: (path.map (·.value) ++ [key.value])⟩ x
      (s.bind frame root changed) := by
  rw [binding?_eq, Option.bind_eq_some_iff] at hroot
  obtain ⟨f, hf, hold⟩ := hroot
  have hput := Value.Put.of_updateAt h
  rw [← hold] at hput
  refine ⟨f, Bindings.put root changed f, hf, .inside rfl hput, ?_⟩
  rw [frames_bind, List.modify_eq_set_getElem?, hf]
  rfl

end Store
end ScopeScript
