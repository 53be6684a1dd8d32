/-
  ScopeScript.Proofs.Session.Rewriting

  Where things stand in a store, and what one write changes of it. A location is
  a frame and a path of keys in it; the frame itself stands at the empty path. A
  write at a path puts something else there. What stands around it persists, what
  stands beside it is as it was, and nothing is new but at the path or below it
  (`Value.Rewrites`). So the location of the write tells all that it has changed
  of a store, and the locations of several writes tell what they have changed one
  after another (`Store.Logged`).
-/
import ScopeScript.Proofs.Session.Scopes
import ScopeScript.Proofs.Value.Member

namespace ScopeScript

/-! ## Paths in values -/

namespace Value

/-- What a path of keys reaches. -/
def at? (v : Value) : List Value → Option Value
  | [] => some v
  | k :: path => (v.member? k).bind (·.at? path)

/-- Something else stands in `w` at a path of `v`: what the path leads through
    persists, and what it does not lead to is as it was. -/
structure Rewrites (v : Value) (path : List Value) (w : Value) : Prop where
  persists : ∀ q, Location.startsWith q path = false →
    Option.Rel Persists (v.at? q) (w.at? q)
  apart : ∀ q, Location.startsWith q path = false → Location.startsWith path q = false →
    w.at? q = v.at? q

variable {v w m x container : Value} {key k l : Value}

theorem rel_persists_refl (o : Option Value) : Option.Rel Persists o o := by
  cases o with
  | none => exact .none
  | some v => exact .some (.refl v)

/-! ### Members -/

/-- A key that something can be written at is a primitive. -/
theorem exists_primitive_of_checkWrite (h : container.checkWrite key = .ok ()) :
    ∃ p, key = .primitive p := by
  cases key with
  | primitive p => exact ⟨p, rfl⟩
  | list es => cases container <;> cases h
  | object ps => cases container <;> cases h

/-- Only a primitive is equal to a primitive. -/
theorem exists_primitive_of_same {p : Primitive} (h : k.same (.primitive p) = true) :
    ∃ q, k = .primitive q ∧ q.same p = true := by
  rcases primitives_of_same h with ⟨q, p', rfl, hp, hqp⟩ | ⟨-, hp⟩
  · cases hp
    exact ⟨q, rfl, hqp⟩
  · cases hp

theorem same_symm_primitive {p : Primitive} (h : k.same (.primitive p) = true) :
    (Value.primitive p).same k = true := by
  obtain ⟨q, rfl, hq⟩ := exists_primitive_of_same h
  rw [Value.same]
  exact Primitive.same_symm hq

/-- A member that was set is read at every equal key. -/
theorem member?_setMember_of_same {p q : Primitive}
    (h : container.checkWrite (.primitive p) = .ok ()) (hpq : p.same q = true) (x : Value) :
    (container.setMember (.primitive p) x).member? (.primitive q) = some x := by
  rw [← member?_of_same hpq]
  cases container with
  | primitive _ => cases h
  | list es =>
    rw [checkWrite_list] at h
    cases hslot : slot? es.length (.primitive p) with
    | none => rw [hslot] at h; cases h
    | some i =>
      rw [setMember, hslot, member?, List.length_set, hslot, Option.bind_some,
        List.getElem?_set_self (lt_of_slot? hslot)]
  | object ps =>
    simp only [setMember, primitive?, member?, Option.bind_some]
    exact Bindings.find?_put_of_same (Primitive.same_self p) x ps

/-- To set a member leaves those at all other keys. -/
theorem member?_setMember_of_ne {p : Primitive} (h : k.same (.primitive p) = false) (x : Value) :
    (container.setMember (.primitive p) x).member? k = container.member? k := by
  cases k with
  | list es => cases container with
    | primitive _ => rfl
    | list fs => rw [setMember]; split <;> rfl
    | object ps => rfl
  | object ps => cases container with
    | primitive _ => rfl
    | list fs => rw [setMember]; split <;> rfl
    | object qs => rfl
  | primitive q =>
    rw [Value.same] at h
    have hne : ¬ p.same q = true := fun hpq => by
      rw [Primitive.same_symm hpq] at h
      cases h
    cases container with
    | primitive _ => rfl
    | list es =>
      rw [setMember]
      cases hp : slot? es.length (.primitive p) with
      | none => rfl
      | some i =>
        simp only [member?, List.length_set]
        cases hq : slot? es.length (.primitive q) with
        | none => rfl
        | some j =>
          have hij : i ≠ j := by
            rintro rfl
            exact hne (same_of_slot? hp hq)
          rw [Option.bind_some, Option.bind_some, List.getElem?_set_ne hij]
    | object ps =>
      simp only [setMember, primitive?, member?, Option.bind_some]
      exact Bindings.find?_put_of_ne hne x ps

/-- A container persists where a member of it is set. -/
theorem persists_setMember (h : container.checkWrite key = .ok ()) (x : Value) :
    container.Persists (container.setMember key x) := by
  have hwrite : container.writeMember key x = .ok (container.setMember key x) := by
    rw [writeMember_eq, h]
    rfl
  exact persists_writeMember hwrite

/-! ### Writes -/

/-- To set a member is a write at its key. -/
theorem rewrites_setMember (h : container.checkWrite key = .ok ()) (x : Value) :
    container.Rewrites [key] (container.setMember key x) := by
  obtain ⟨p, rfl⟩ := exists_primitive_of_checkWrite h
  have hbeside {k : Value} {path : List Value}
      (hk : Location.startsWith (k :: path) [.primitive p] = false) :
      (container.setMember (.primitive p) x).at? (k :: path) = container.at? (k :: path) := by
    rw [Location.startsWith, Location.startsWith, Bool.and_true] at hk
    rw [at?, at?, member?_setMember_of_ne hk]
  refine ⟨fun q hq => ?_, fun q hq hpath => ?_⟩
  · cases q with
    | nil => exact .some (persists_setMember h x)
    | cons k q =>
      rw [hbeside hq]
      exact rel_persists_refl _
  · cases q with
    | nil => cases hpath
    | cons k q => exact hbeside hq

/-- A write within a member is one within its container. -/
theorem Rewrites.within {path : List Value} (h : m.Rewrites path w)
    (hm : container.member? key = some m) :
    container.Rewrites (key :: path) (container.setMember key w) := by
  have hcheck := checkWrite_of_member? hm
  obtain ⟨p, rfl⟩ := exists_primitive_of_checkWrite hcheck
  -- Another path leads into the member at an equal key, or to what is beside it.
  have hinside {k : Value} (hk : k.same (.primitive p) = true) (q : List Value) :
      container.at? (k :: q) = m.at? q ∧
        (container.setMember (.primitive p) w).at? (k :: q) = w.at? q := by
    obtain ⟨p', rfl, hp'⟩ := exists_primitive_of_same hk
    rw [at?, at?, member?_of_same hp', hm,
      member?_setMember_of_same hcheck (Primitive.same_symm hp')]
    exact ⟨rfl, rfl⟩
  have hbeside {k : Value} (hk : k.same (.primitive p) = false) (q : List Value) :
      (container.setMember (.primitive p) w).at? (k :: q) = container.at? (k :: q) := by
    rw [at?, at?, member?_setMember_of_ne hk]
  refine ⟨fun q hq => ?_, fun q hq hpath => ?_⟩
  · cases q with
    | nil => exact .some (persists_setMember hcheck w)
    | cons k q =>
      rw [Location.startsWith] at hq
      cases hk : k.same (.primitive p) with
      | true =>
        rw [hk, Bool.true_and] at hq
        rw [(hinside hk q).1, (hinside hk q).2]
        exact h.persists q hq
      | false =>
        rw [hbeside hk]
        exact rel_persists_refl _
  · cases q with
    | nil => cases hpath
    | cons k q =>
      rw [Location.startsWith] at hq hpath
      cases hk : k.same (.primitive p) with
      | true =>
        rw [hk, Bool.true_and] at hq
        rw [same_symm_primitive hk, Bool.true_and] at hpath
        rw [(hinside hk q).1, (hinside hk q).2]
        exact h.apart q hq hpath
      | false => exact hbeside hk q

end Value

/-! ## Locations in stores -/

namespace Store

/-- What stands at a location. -/
def at? (s : Store) (p : Location) : Option Value :=
  s.frames[p.frame]?.bind fun f => (Value.object f).at? p.keys

/-- Whatever has changed from `s` to `s'` is told by the places of a log: what
    stands at a location that none of them covers persists; if none of them is
    below it either it is the same; and what is new stands where one covers it. -/
structure Logged (s : Store) (log : List Location) (s' : Store) : Prop where
  kept : ∀ p v, s.at? p = some v → log.any (·.covers p) = false →
    ∃ v', s'.at? p = some v' ∧ v.Persists v'
  same : ∀ p, log.any (·.covers p) = false → log.any (p.covers ·) = false → s'.at? p = s.at? p
  covered : ∀ p v, s'.at? p = some v → s.at? p = none → log.any (·.covers p) = true

namespace Logged

theorem refl (s : Store) : s.Logged [] s where
  kept _ v hv _ := ⟨v, hv, .refl v⟩
  same _ _ _ := rfl
  covered p v hv hnone := by
    rw [hv] at hnone
    cases hnone

/-- After one change and then another the logs are one log. -/
theorem trans {s t u : Store} {log log' : List Location} (h : s.Logged log t)
    (h' : t.Logged log' u) : s.Logged (log' ++ log) u where
  kept p v hv hany := by
    rw [List.any_append, Bool.or_eq_false_iff] at hany
    obtain ⟨w, hw, hvw⟩ := h.kept p v hv hany.2
    obtain ⟨x, hx, hwx⟩ := h'.kept p w hw hany.1
    exact ⟨x, hx, hvw.trans hwx⟩
  same p hany hbelow := by
    rw [List.any_append, Bool.or_eq_false_iff] at hany hbelow
    rw [h'.same p hany.1 hbelow.1, h.same p hany.2 hbelow.2]
  covered p v hv hnone := by
    rw [List.any_append, Bool.or_eq_true]
    cases ht : t.at? p with
    | none => exact .inl (h'.covered p v hv ht)
    | some w => exact .inr (h.covered p w ht hnone)

/-- What an empty log tells of is the same store. -/
theorem eq_of_nil {s s' : Store} (h : s.Logged [] s') : s' = s := by
  have hframes : s'.frames = s.frames := by
    refine List.ext_getElem? fun i => ?_
    have hi := h.same ⟨i, []⟩ rfl rfl
    rw [at?, at?] at hi
    cases hs : s.frames[i]? <;> cases hs' : s'.frames[i]? <;> rw [hs, hs'] at hi
    · cases hi
    · cases hi
    · cases hi
      rfl
  cases s
  cases s'
  cases hframes
  rfl

end Logged

theorem covers_eq_startsWith (frame : Nat) (a b : List Value) :
    Location.covers ⟨frame, a⟩ ⟨frame, b⟩ = Location.startsWith b a := by
  rw [Location.covers, decide_eq_true rfl, Bool.true_and]

/-- One frame in which something is written at a path, in a store that is as it
    was otherwise. -/
theorem logged_modify {s s' : Store} {frame : Nat} {f : Object} {change : Object → Object}
    {path : List Value} (hf : s.frames[frame]? = some f)
    (hframes : s'.frames = s.frames.modify frame change)
    (h : (Value.object f).Rewrites path (.object (change f))) : s.Logged [⟨frame, path⟩] s' := by
  have hbefore (keys : List Value) : s.at? ⟨frame, keys⟩ = (Value.object f).at? keys := by
    rw [at?, hf, Option.bind_some]
  have hafter (keys : List Value) :
      s'.at? ⟨frame, keys⟩ = (Value.object (change f)).at? keys := by
    rw [at?, hframes, List.getElem?_modify_eq, hf]
    rfl
  have helsewhere {i : Nat} (keys : List Value) (hi : frame ≠ i) :
      s'.at? ⟨i, keys⟩ = s.at? ⟨i, keys⟩ := by
    rw [at?, at?, hframes, List.getElem?_modify_ne _ _ hi]
  -- What is not covered persists, and is nowhere if it was nowhere.
  have hrel (p : Location) (hp : Location.covers ⟨frame, path⟩ p = false) :
      Option.Rel Value.Persists (s.at? p) (s'.at? p) := by
    obtain ⟨i, keys⟩ := p
    by_cases hi : frame = i
    · subst hi
      rw [covers_eq_startsWith] at hp
      rw [hbefore, hafter]
      exact h.persists keys hp
    · rw [helsewhere keys hi]
      exact Value.rel_persists_refl _
  refine ⟨fun p v hv hany => ?kept, fun p hany hbelow => ?same, fun p v hv hnone => ?covered⟩
  case kept =>
    rw [List.any_cons, List.any_nil, Bool.or_false] at hany
    have hp := hrel p hany
    rw [hv] at hp
    generalize s'.at? p = o at hp
    cases hp with
    | some hvw => exact ⟨_, rfl, hvw⟩
  case same =>
    rw [List.any_cons, List.any_nil, Bool.or_false] at hany hbelow
    obtain ⟨i, keys⟩ := p
    by_cases hi : frame = i
    · subst hi
      rw [covers_eq_startsWith] at hany hbelow
      rw [hbefore, hafter]
      exact h.apart keys hany hbelow
    · exact helsewhere keys hi
  case covered =>
    rw [List.any_cons, List.any_nil, Bool.or_false]
    cases hany : Location.covers ⟨frame, path⟩ p with
    | true => rfl
    | false =>
      have hp := hrel p hany
      rw [hv, hnone] at hp
      cases hp

end Store
end ScopeScript
