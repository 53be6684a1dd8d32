/-
  ScopeScript.Proofs.Value.Distinct

  Values whose objects have unequal keys, at every depth. What is read from such
  values is such a value, and so is what writing makes of them, since a binding
  keeps keys unequal.
-/
import ScopeScript.Proofs.Value.Member

namespace ScopeScript
namespace Value

/-! ## Members -/

/-- No object in the value, at whatever depth, has two equal keys. -/
inductive Distinct : Value → Prop where
  | primitive (p : Primitive) : Distinct (.primitive p)
  | list {vs : List Value} (elements : ∀ v ∈ vs, Distinct v) : Distinct (.list vs)
  | object {o : Object} (keys : Bindings.Unequal o) (values : ∀ p ∈ o, Distinct p.2) :
    Distinct (.object o)

variable {v w key value container : Value} {o : Object}

/-- A binding with a key that is there takes its place, and any other key is a new one. -/
theorem Distinct.put (h : (Value.object o).Distinct) (k : Primitive) (hvalue : value.Distinct) :
    (Value.object (Bindings.put k value o)).Distinct := by
  cases h with
  | object keys values =>
    refine .object (keys.put k value) fun p hp => ?_
    -- A binding is the new one or was there before.
    rcases Bindings.mem_put hp with heq | hp
    · exact heq ▸ hvalue
    · exact values p hp

theorem Distinct.insert (h : (Value.object o).Distinct) (k : Primitive) (hvalue : value.Distinct) :
    (Value.object (Object.insert o k value)).Distinct := by
  rw [Object.insert_eq_put]
  exact h.put k hvalue

/-- What a key is bound to is a value in the object. -/
theorem Distinct.find? (h : (Value.object o).Distinct) {k : Primitive}
    (hv : Bindings.find? k o = some v) : v.Distinct := by
  cases h with
  | object keys values =>
    obtain ⟨l, hmem, -⟩ := Bindings.exists_mem_of_find? hv
    exact values _ hmem

/-- A member is a value in its container, whatever the key. -/
theorem Distinct.member? (h : container.Distinct) (hv : container.member? key = some v) :
    v.Distinct := by
  cases h with
  | primitive p => cases hv
  | list elements =>
    obtain ⟨i, -, hi⟩ := Option.bind_eq_some_iff.1 hv
    exact elements v (List.mem_of_getElem? hi)
  | object keys values =>
    obtain ⟨k, -, hk⟩ := Option.bind_eq_some_iff.1 hv
    exact (Distinct.object keys values).find? hk

/-- What is read is a member. -/
theorem Distinct.readMember (h : container.Distinct) (hv : container.readMember key = .ok v) :
    v.Distinct := by
  rw [readMember_eq] at hv
  cases hm : container.member? key with
  | none =>
    rw [hm] at hv
    cases hv
  | some m =>
    rw [hm] at hv
    cases hv
    exact h.member? hm

/-- A container with another member in a place has the rest as it was. -/
theorem Distinct.setMember (h : container.Distinct) (key : Value) (hvalue : value.Distinct) :
    (container.setMember key value).Distinct := by
  cases h with
  | primitive p => exact .primitive p
  | @list vs elements =>
    rw [Value.setMember]
    cases slot? vs.length key with
    -- A key that is no index of the list changes nothing.
    | none => exact .list elements
    | some i =>
      refine .list fun v hv => ?_
      rcases List.mem_or_eq_of_mem_set hv with hv | rfl
      · exact elements v hv
      · exact hvalue
  | object keys values =>
    rw [Value.setMember]
    cases key.primitive? with
    | none => exact .object keys values
    | some k => exact (Distinct.object keys values).put k hvalue

/-- What is written is a container with another member, if the write is allowed. -/
theorem Distinct.writeMember (h : container.Distinct) (hvalue : value.Distinct)
    (hw : container.writeMember key value = .ok w) : w.Distinct := by
  rw [writeMember_eq] at hw
  cases hc : container.checkWrite key with
  | error f =>
    rw [hc] at hw
    cases hw
  | ok _ =>
    rw [hc] at hw
    cases hw
    exact h.setMember key hvalue

/-! ## Paths -/

/-- What is read along a path is a value in the one that it starts from. -/
theorem Distinct.walk {path : List Key} (h : v.Distinct) (hw : v.walk path = .ok w) :
    w.Distinct := by
  induction path generalizing v with
  | nil =>
    cases hw
    exact h
  | cons k path ih =>
    rw [Value.walk] at hw
    obtain ⟨m, hm, hw⟩ := exists_of_bind hw
    exact ih (h.readMember (ok_of_atKey hm)) hw

/-- A change at the end of a path, which keeps keys unequal, keeps them so in the whole: each
    container on the path is written with what the change made of its member. -/
theorem Distinct.updateAt {change : Value → Except RuntimeError Value} {path : List Key}
    (hchange : ∀ u u', u.Distinct → change u = .ok u' → u'.Distinct) (h : v.Distinct)
    (hw : v.updateAt change path = .ok w) : w.Distinct := by
  induction path generalizing v w with
  | nil =>
    rw [Value.updateAt_nil] at hw
    exact hchange v w h hw
  | cons k path ih =>
    rw [Value.updateAt_key] at hw
    obtain ⟨m, hm, hw⟩ := exists_of_bind hw
    obtain ⟨u, hu, hw⟩ := exists_of_bind hw
    have hmember := h.readMember (ok_of_atKey hm)
    exact h.writeMember (ih hmember hu) (ok_of_atKey hw)

end Value
end ScopeScript
