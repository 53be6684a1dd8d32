/-
  ScopeScript.Proofs.Session.TargetFaults

  The faults that a target can have, one rule for each, and that resolving a
  target reports exactly these. Each is seen in the store and the keys alone. The
  old value is read before the place is checked, and a place that has a value
  can be written, so the check of the place speaks only where no old value is
  wanted. A target without a fault is what the address names (`Found`).
-/
import ScopeScript.Session.Target
import ScopeScript.Proofs.Value.Member

namespace ScopeScript
namespace Value

/-- What can be read can be written. -/
theorem checkWrite_of_readMember {container key v : Value}
    (h : container.readMember key = .ok v) : container.checkWrite key = .ok () := by
  rw [readMember_eq] at h
  cases hm : container.member? key with
  | none => rw [hm] at h; cases h
  | some m => exact checkWrite_of_member? hm

/-- What an object binds has a key. -/
theorem exists_toKey_of_readObject {o : Object} {key v : Value} (h : readObject o key = .ok v) :
    ∃ k, key.toKey = .ok k := by
  cases key with
  | primitive k => exact ⟨k, rfl⟩
  | list es => cases h
  | object ps => cases h

end Value

namespace Target

/-- What is wrong with the target that an address names. -/
inductive Faulty (store : Store) : List Key → Bool → RuntimeError → Prop where
  /-- The empty address is no target. -/
  | empty (wantsOld : Bool) :
    Faulty store [] wantsOld ⟨.invalidState "assignment to an empty address", none⟩
  /-- A name whose old value is wanted has none. -/
  | oldName {key : Key} {f : RuntimeFault}
    (h : Value.readObject store.current key.value = .error f) :
    Faulty store [key] true ⟨f, some key.span⟩
  /-- What is to be bound is not a key. -/
  | key {key : Key} {f : RuntimeFault} (h : key.value.toKey = .error f) :
    Faulty store [key] false ⟨f, some key.span⟩
  /-- No scope binds the first key. -/
  | root {head : Key} (path : List Key) (key : Key) (wantsOld : Bool)
    (h : head.value.primitive?.bind store.lookup? = none) :
    Faulty store (head :: (path ++ [key])) wantsOld (unknown head)
  /-- The path does not lead to a container. -/
  | path {head : Key} {path : List Key} {value : Value} {e : RuntimeError} (key : Key)
    (wantsOld : Bool) (hroot : head.value.primitive?.bind store.lookup? = some value)
    (h : value.walk path = .error e) : Faulty store (head :: (path ++ [key])) wantsOld e
  /-- A member whose old value is wanted has none. -/
  | oldMember {head : Key} {path : List Key} {key : Key} {value container : Value}
    {f : RuntimeFault} (hroot : head.value.primitive?.bind store.lookup? = some value)
    (hwalk : value.walk path = .ok container) (h : container.readMember key.value = .error f) :
    Faulty store (head :: (path ++ [key])) true ⟨f, some key.span⟩
  /-- The container cannot have the member. -/
  | member {head : Key} {path : List Key} {key : Key} {value container : Value}
    {f : RuntimeFault} (hroot : head.value.primitive?.bind store.lookup? = some value)
    (hwalk : value.walk path = .ok container) (h : container.checkWrite key.value = .error f) :
    Faulty store (head :: (path ++ [key])) false ⟨f, some key.span⟩

variable {store : Store} {keys path : List Key} {head key : Key} {wantsOld : Bool}
  {e : RuntimeError}

/-! ## Members -/

/-- An address of more than one key names a member. -/
theorem resolve_member (store : Store) (head : Key) (path : List Key) (key : Key)
    (wantsOld : Bool) :
    resolve store (head :: (path ++ [key])) wantsOld = ofMember store head path key wantsOld := by
  cases path with
  | nil => rfl
  | cons next path =>
    have hlast : (next :: (path ++ [key])).getLastD next = key := by
      rw [← List.cons_append, List.getLastD_eq_getLast?, List.getLast?_concat]
      rfl
    have hinit : (next :: (path ++ [key])).dropLast = next :: path := by
      rw [← List.cons_append, List.dropLast_concat]
    rw [List.cons_append, resolve, hlast, hinit]

/-- The checks of a member whose root no scope binds. -/
theorem ofMember_of_unknown (h : head.value.primitive?.bind store.lookup? = none) :
    ofMember store head path key wantsOld = .error (unknown head) := by
  rw [ofMember]
  cases hv : head.value with
  | list es => rfl
  | object ps => rfl
  | primitive root =>
    rw [hv, Value.primitive?, Option.bind_some, Store.lookup?] at h
    cases hf : store.find? root with
    | none => simp only [hf]
    | some frame =>
      rw [hf, Option.bind_some] at h
      simp only [hf, h]

/-- The checks of a member, once the value of its root is known. -/
theorem ofMember_of_lookup {value : Value} (path : List Key) (key : Key) (wantsOld : Bool)
    (h : head.value.primitive?.bind store.lookup? = some value) :
    ∃ frame root, ofMember store head path key wantsOld =
      value.walk path >>= fun container =>
        (if wantsOld then (Value.atKey key (container.readMember key.value)).map some
          else .ok none) >>= fun old =>
        Value.atKey key (container.checkWrite key.value) >>= fun _ =>
        .ok (.member frame root head.span path key, old) := by
  rw [ofMember]
  cases hv : head.value with
  | list es => rw [hv] at h; cases h
  | object ps => rw [hv] at h; cases h
  | primitive root =>
    rw [hv, Value.primitive?, Option.bind_some, Store.lookup?] at h
    cases hf : store.find? root with
    | none => rw [hf] at h; cases h
    | some frame =>
      rw [hf, Option.bind_some] at h
      refine ⟨frame, root, ?_⟩
      simp only [hf, h]
      cases wantsOld <;> rfl

/-! ## Resolving -/

/-- A faulty target is reported. -/
theorem Faulty.resolve_eq_error (h : Faulty store keys wantsOld e) :
    resolve store keys wantsOld = .error e := by
  cases h with
  | empty => rfl
  | oldName h => simp only [resolve, ofName, if_true, h]; rfl
  | key h => simp only [resolve, ofName, h]; rfl
  | root path key _ h => rw [resolve_member, ofMember_of_unknown h]
  | path key _ hroot h =>
    obtain ⟨frame, root, heq⟩ := ofMember_of_lookup _ _ _ hroot
    rw [resolve_member, heq, h]
    rfl
  | oldMember hroot hwalk h =>
    obtain ⟨frame, root, heq⟩ := ofMember_of_lookup _ _ _ hroot
    rw [resolve_member, heq, hwalk]
    show (Value.atKey _ (_ : Except _ Value)).map some >>= _ = _
    rw [h]
    rfl
  | member hroot hwalk h =>
    obtain ⟨frame, root, heq⟩ := ofMember_of_lookup _ _ _ hroot
    rw [resolve_member, heq, hwalk]
    show Value.atKey _ (_ : Except _ Unit) >>= _ = _
    rw [h]
    rfl

theorem faulty_of_ofName (h : ofName store key wantsOld = .error e) :
    Faulty store [key] wantsOld e := by
  rw [ofName] at h
  cases wantsOld with
  | false =>
    cases hk : key.value.toKey with
    | ok k => rw [hk] at h; cases h
    | error f =>
      rw [hk] at h
      cases h
      exact .key hk
  | true =>
    cases hr : Value.readObject store.current key.value with
    | error f =>
      rw [hr] at h
      cases h
      exact .oldName hr
    | ok old =>
      -- A name with an old value is a key already.
      obtain ⟨k, hk⟩ := Value.exists_toKey_of_readObject hr
      rw [hr, hk] at h
      cases h

theorem faulty_of_ofMember (h : ofMember store head path key wantsOld = .error e) :
    Faulty store (head :: (path ++ [key])) wantsOld e := by
  cases hroot : head.value.primitive?.bind store.lookup? with
  | none =>
    rw [ofMember_of_unknown hroot] at h
    cases h
    exact .root path key wantsOld hroot
  | some value =>
    obtain ⟨frame, root, heq⟩ := ofMember_of_lookup path key wantsOld hroot
    rw [heq] at h
    cases hwalk : value.walk path with
    | error e' =>
      rw [hwalk] at h
      cases h
      exact .path key wantsOld hroot hwalk
    | ok container =>
      rw [hwalk] at h
      simp only [bind, Except.bind] at h
      cases hread : container.readMember key.value with
      | ok old =>
        -- What has an old value can be written, so nothing is wrong.
        rw [Value.checkWrite_of_readMember hread] at h
        cases wantsOld with
        | false => cases h
        | true => rw [hread] at h; cases h
      | error f =>
        cases wantsOld with
        | true =>
          rw [hread] at h
          cases h
          exact .oldMember hroot hwalk hread
        | false =>
          cases hcheck : container.checkWrite key.value with
          | ok _ => rw [hcheck] at h; cases h
          | error f' =>
            rw [hcheck] at h
            cases h
            exact .member hroot hwalk hcheck

/-- Resolving a target fails exactly with what is wrong with the target. -/
theorem resolve_eq_error_iff :
    resolve store keys wantsOld = .error e ↔ Faulty store keys wantsOld e := by
  constructor
  · intro h
    rcases keys with - | ⟨head, rest⟩
    · cases h
      exact .empty wantsOld
    · rcases List.eq_nil_or_concat rest with rfl | ⟨path, key, rfl⟩
      · exact faulty_of_ofName h
      · rw [List.concat_eq_append, resolve_member] at h
        rw [List.concat_eq_append]
        exact faulty_of_ofMember h
  · exact Faulty.resolve_eq_error

/-! ## Targets without a fault -/

/-- What an address can name: a key in the newest frame, or a member of what the
    newest frame that binds the root binds it to. -/
inductive Found (store : Store) : List Key → Target → Prop where
  | name (n : Primitive) (span : Span) : Found store [⟨.primitive n, span⟩] (.name n)
  | member {frame : Nat} {root : Primitive} (h : store.find? root = some frame) (span : Span)
      (path : List Key) (key : Key) :
    Found store (⟨.primitive root, span⟩ :: (path ++ [key])) (.member frame root span path key)

variable {target : Target} {old : Option Value}

theorem found_of_ofName (h : ofName store key wantsOld = .ok (target, old)) :
    Found store [key] target := by
  obtain ⟨v, span⟩ := key
  have hname : ∃ n, Value.atKey ⟨v, span⟩ v.toKey = .ok n ∧ target = .name n := by
    rw [ofName] at h
    cases wantsOld with
    | false | true =>
      obtain ⟨_, -, h⟩ := Value.exists_of_bind h
      obtain ⟨n, hn, h⟩ := Value.exists_of_bind h
      cases h
      exact ⟨n, hn, rfl⟩
  obtain ⟨n, hn, rfl⟩ := hname
  cases v <;> cases hn
  exact .name n span

theorem found_of_ofMember (h : ofMember store head path key wantsOld = .ok (target, old)) :
    Found store (head :: (path ++ [key])) target := by
  obtain ⟨v, span⟩ := head
  rw [ofMember] at h
  cases v with
  | list es => cases h
  | object ps => cases h
  | primitive root =>
    cases hfind : store.find? root with
    | none => simp only [hfind] at h; cases h
    | some frame =>
      simp only [hfind] at h
      cases hbound : store.binding? frame root with
      | none => simp only [hbound] at h; cases h
      | some value =>
        simp only [hbound] at h
        obtain ⟨_, -, h⟩ := Value.exists_of_bind h
        cases wantsOld with
        | false | true =>
          obtain ⟨_, -, h⟩ := Value.exists_of_bind h
          obtain ⟨_, -, h⟩ := Value.exists_of_bind h
          cases h
          exact .member hfind span path key

/-- A target that is resolved is what the address names. -/
theorem found_of_resolve (h : resolve store keys wantsOld = .ok (target, old)) :
    Found store keys target := by
  rcases keys with - | ⟨head, rest⟩
  · cases h
  · rcases List.eq_nil_or_concat rest with rfl | ⟨path, key, rfl⟩
    · exact found_of_ofName h
    · rw [List.concat_eq_append] at h ⊢
      rw [resolve_member] at h
      exact found_of_ofMember h

end Target
end ScopeScript
