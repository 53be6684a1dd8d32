/-
  ScopeScript.Proofs.Value.Member

  Reading, checking and writing members as one partial view of a container.
  `member?` is the member a key has, `setMember` the container with a member
  replaced or, in an object, added. Reading succeeds where there is a member;
  writing succeeds exactly where the check does, with the same fault otherwise.
-/
import ScopeScript.Value.Member
import ScopeScript.Proofs.Bindings

namespace ScopeScript
namespace Value

/-! ## Members -/

/-- The index that a key is in a list of the given length, as a number. -/
def slot? (length : Nat) : Value → Option Nat
  | primitive (.int n) =>
    if 0 ≤ n.toInt ∧ n.toInt.toNat < length then some n.toInt.toNat else none
  | _ => none

/-- The member of a container at a key. -/
def member? : Value → Value → Option Value
  | list elements, key => (slot? elements.length key).bind (elements[·]?)
  | object entries, key => key.primitive?.bind (Bindings.find? · entries)
  | primitive _, _ => none

/-- Why a container has no member at a key. -/
def missing : Value → Value → RuntimeFault
  | list elements, key => .indexOutOfRange key.text elements.length
  | object _, key => .keyNotFound key.text
  | primitive p, _ => .unsupportedMemberAccess p.typeName

/-- The container with a member set; a place that cannot be written stays. -/
def setMember : Value → Value → Value → Value
  | list elements, key, value =>
    match slot? elements.length key with
    | some i => list (elements.set i value)
    | none => list elements
  | object entries, key, value =>
    match key.primitive? with
    | some k => object (Bindings.put k value entries)
    | none => object entries
  | primitive p, _, _ => primitive p

/-! ## Indices -/

theorem slot?_eq (length : Nat) (key : Value) :
    slot? length key = (index? length key).map (·.val) := by
  cases key with
  | primitive p =>
    cases p with
    | int n =>
      simp only [slot?, index?]
      split <;> rfl
    | double d => rfl
    | string s => rfl
  | list es => rfl
  | object ps => rfl

/-- An index is below the length. -/
theorem lt_of_slot? {length i : Nat} {key : Value} (h : slot? length key = some i) :
    i < length := by
  rw [slot?_eq, Option.map_eq_some_iff] at h
  obtain ⟨j, -, rfl⟩ := h
  exact j.isLt

/-- Equal keys are the same index. -/
theorem slot?_of_same {k l : Primitive} (h : k.same l = true) (length : Nat) :
    slot? length (.primitive k) = slot? length (.primitive l) := by
  cases k <;> cases l <;> simp_all [Primitive.same, slot?]

/-- The same index comes from equal keys only. -/
theorem same_of_slot? {length i : Nat} {k l : Primitive}
    (hk : slot? length (.primitive k) = some i) (hl : slot? length (.primitive l) = some i) :
    k.same l = true := by
  cases k with
  | int m =>
    cases l with
    | int n =>
      -- Both numbers are the index, which is not negative.
      simp only [slot?, Option.ite_none_right_eq_some, Option.some.injEq] at hk hl
      have h : m.toInt = n.toInt := by omega
      simpa [Primitive.same] using Int32.toInt_inj.1 h
    | double d => simp [slot?] at hl
    | string s => simp [slot?] at hl
  | double d => simp [slot?] at hk
  | string s => simp [slot?] at hk

/-- A member has a primitive as its key. -/
theorem exists_primitive_of_slot? {length i : Nat} {key : Value} (h : slot? length key = some i) :
    ∃ k, key = .primitive k := by
  cases key with
  | primitive p => exact ⟨p, rfl⟩
  | list es => simp [slot?] at h
  | object ps => simp [slot?] at h

/-! ## Equal keys -/

/-- Equal values are equal primitives, or neither is a primitive. -/
theorem primitives_of_same {k l : Value} (h : k.same l = true) :
    (∃ p q, k = .primitive p ∧ l = .primitive q ∧ p.same q = true) ∨
      k.primitive? = none ∧ l.primitive? = none := by
  cases k with
  | primitive p =>
    cases l with
    | primitive q =>
      rw [same] at h
      exact .inl ⟨p, q, rfl, rfl, h⟩
    | list fs => cases h
    | object qs => cases h
  | list es =>
    cases l with
    | primitive q => cases h
    | list fs => exact .inr ⟨rfl, rfl⟩
    | object qs => cases h
  | object ps =>
    cases l with
    | primitive q => cases h
    | list fs => cases h
    | object qs => exact .inr ⟨rfl, rfl⟩

/-- What is no primitive is no index. -/
theorem slot?_eq_none {key : Value} (h : key.primitive? = none) (length : Nat) :
    slot? length key = none := by
  cases key with
  | primitive p => cases h
  | list es => rfl
  | object ps => rfl

/-- Equal keys are the same index, if they are any. -/
theorem slot?_congr {k l : Value} (h : k.same l = true) (length : Nat) :
    slot? length k = slot? length l := by
  rcases primitives_of_same h with ⟨p, q, rfl, rfl, hpq⟩ | ⟨hk, hl⟩
  · exact slot?_of_same hpq length
  · rw [slot?_eq_none hk, slot?_eq_none hl]

/-- What is no primitive is no key of anything. -/
theorem member?_eq_none {key : Value} (h : key.primitive? = none) (v : Value) :
    v.member? key = none := by
  cases v with
  | primitive p => rfl
  | list es => rw [member?, slot?_eq_none h, Option.bind_none]
  | object ps => rw [member?, h, Option.bind_none]

/-- Equal primitives are keys of the same member. -/
theorem member?_of_same {k l : Primitive} (h : k.same l = true) (v : Value) :
    v.member? (.primitive k) = v.member? (.primitive l) := by
  cases v with
  | primitive _ => rfl
  | list es => rw [member?, member?, slot?_of_same h]
  | object ps =>
    simp only [member?, primitive?, Option.bind_some]
    exact Bindings.find?_of_same h ps

/-- Equal keys have the same member. -/
theorem member?_congr {k l : Value} (h : k = l ∨ k.same l = true) (v : Value) :
    v.member? k = v.member? l := by
  rcases h with rfl | h
  · rfl
  · rcases primitives_of_same h with ⟨p, q, rfl, rfl, hpq⟩ | ⟨hk, hl⟩
    · exact member?_of_same hpq v
    · rw [member?_eq_none hk, member?_eq_none hl]

/-! ## Checks -/

/-- Checks that are made one after another have all succeeded. -/
theorem exists_of_bind {α β : Type} {x : Except RuntimeError α} {k : α → Except RuntimeError β}
    {b : β} (h : x >>= k = .ok b) : ∃ a, x = .ok a ∧ k a = .ok b := by
  cases x with
  | ok a => exact ⟨a, rfl, h⟩
  | error e => cases h

theorem ok_of_atKey {α : Type} {k : Key} {x : Except RuntimeFault α} {a : α}
    (h : atKey k x = .ok a) : x = .ok a := by
  cases x with
  | ok b => cases h; rfl
  | error f => cases h

/-! ## Reading and writing -/

theorem readMember_eq (container key : Value) :
    container.readMember key =
      match container.member? key with
      | some m => .ok m
      | none => .error (container.missing key) := by
  cases container with
  | primitive p => rfl
  | list es =>
    simp only [readMember, member?, missing, slot?_eq]
    cases index? es.length key with
    | none => rfl
    | some i => simp
  | object ps =>
    have h : (Object.get? ps) = fun k => Bindings.find? k ps :=
      funext fun k => Object.get?_eq_find? ps k
    rw [readMember, readObject, member?, ← h]
    cases key.primitive?.bind (Object.get? ps) with
    | none => rfl
    | some m => rfl

theorem checkWrite_list (es : List Value) (key : Value) :
    (list es).checkWrite key =
      match slot? es.length key with
      | some _ => .ok ()
      | none => .error (.indexOutOfRange key.text es.length) := by
  rw [checkWrite, slot?_eq]
  cases index? es.length key with
  | none => rfl
  | some i => rfl

/-- Writing is setting, where the check allows it. -/
theorem writeMember_eq (container key value : Value) :
    container.writeMember key value =
      (container.checkWrite key).map fun _ => container.setMember key value := by
  cases container with
  | primitive p => rfl
  | list es =>
    simp only [writeMember, checkWrite, setMember, slot?_eq]
    cases index? es.length key with
    | none => rfl
    | some i => rfl
  | object ps =>
    cases key with
    | primitive k => simp [writeMember, checkWrite, setMember, toKey, primitive?, Except.map,
        Object.insert_eq_put]
    | list es => rfl
    | object qs => rfl

/-- What has a member there can be written there. -/
theorem checkWrite_of_member? {container key m : Value} (h : container.member? key = some m) :
    container.checkWrite key = .ok () := by
  cases container with
  | primitive p => simp [member?] at h
  | list es =>
    simp only [member?, slot?_eq] at h
    cases hi : index? es.length key with
    | none => simp [hi] at h
    | some i => simp [checkWrite, hi]
  | object ps =>
    cases key with
    | primitive k => rfl
    | list es => simp [member?, primitive?] at h
    | object qs => simp [member?, primitive?] at h

/-! ## Opening -/

/-- A member that is opened is the one that is read, and replacing it is setting. -/
theorem cell_eq (container key : Value) :
    container.cell key =
      match container.member? key with
      | some m => .ok ⟨m, container.setMember key⟩
      | none => .error (container.missing key) := by
  cases container with
  | primitive p => rfl
  | list es =>
    simp only [cell, member?, missing, slot?_eq]
    cases hi : index? es.length key with
    | none => rfl
    | some i =>
      have hset : (list es).setMember key = fun w => list (es.set i w) := by
        funext w
        rw [setMember, slot?_eq, hi]
        rfl
      simp [hset]
  | object ps =>
    cases key with
    | primitive k =>
      simp only [cell, member?, missing, primitive?, Option.bind_some, Object.get?_eq_find?]
      cases Bindings.find? k ps with
      | none => rfl
      | some m =>
        have hset : (object ps).setMember (.primitive k) =
            fun w => object (Object.insert ps k w) := by
          funext w
          rw [Object.insert_eq_put]
          rfl
        simp [hset]
    | list es => rfl
    | object qs => rfl

/-- A change of the value itself. -/
theorem updateAt_nil (change : Value → Except RuntimeError Value) (v : Value) :
    v.updateAt change [] = change v := by
  show (change v >>= fun w => pure w) = change v
  rw [bind_pure]

/-- A change along a path, one key at a time: the changed member is written into the
    container that it was read from. -/
theorem updateAt_key (change : Value → Except RuntimeError Value) (v : Value) (k : Key)
    (path : List Key) :
    v.updateAt change (k :: path) = (do
      let member ← atKey k (v.readMember k.value)
      let changed ← member.updateAt change path
      atKey k (v.writeMember k.value changed)) := by
  rw [updateAt, cellAt, cell_eq, readMember_eq]
  cases hm : v.member? k.value with
  | none => rfl
  | some m =>
    -- There is a member, so it can be written too.
    simp only [writeMember_eq, checkWrite_of_member? hm]
    show ((m.cellAt path >>= _) >>= _) = (m.updateAt change path >>= _)
    rw [updateAt]
    cases m.cellAt path with
    | error e => rfl
    | ok inner =>
      show (change inner.value >>= _) = ((change inner.value >>= _) >>= _)
      cases change inner.value with
      | error e => rfl
      | ok w => rfl

/-- One step of a change along a path: the changed member takes the place of the
    old one. -/
theorem updateAt_cons {change : Value → Except RuntimeError Value} {v m u w : Value} {k : Key}
    {path : List Key} (hread : v.readMember k.value = .ok m)
    (hrest : m.updateAt change path = .ok u) (hwrite : v.writeMember k.value u = .ok w) :
    v.updateAt change (k :: path) = .ok w := by
  rw [updateAt_key, hread]
  show (m.updateAt change path >>= fun u => atKey k (v.writeMember k.value u)) = _
  rw [hrest]
  show atKey k (v.writeMember k.value u) = _
  rw [hwrite]
  rfl

end Value
end ScopeScript
