/-
  ScopeScript.Proofs.Identity.Stored

  Values as a store holds them when every list and every object in it has an
  identity, a number that no other container of the store has. A value read from
  the store is a copy without identities. A value that is stored gets new
  identities for all containers in it. A member is written into the container
  with a given identity, wherever that is.

  `count` tells how many containers in a stored value have an identity, so that
  an identity is unique when its count is at most one and gone when it is zero.
-/
import ScopeScript.Proofs.Value.Member

namespace ScopeScript
namespace Identity

/-- A value in the store. Each container has an identity. -/
inductive Stored where
  | primitive (value : Primitive)
  | list (id : Nat) (elements : List Stored)
  | object (id : Nat) (entries : List (Primitive × Stored))
deriving Inhabited

namespace Stored

/-! ## Reading -/

mutual

/-- What a read of a stored value gives. -/
def copy : Stored → Value
  | primitive p => .primitive p
  | list _ es => .list (copyAll es)
  | object _ ps => .object (copyEntries ps)

def copyAll : List Stored → List Value
  | [] => []
  | e :: es => copy e :: copyAll es

def copyEntries : List (Primitive × Stored) → Object
  | [] => []
  | (k, v) :: ps => (k, copy v) :: copyEntries ps

end

/-- The identity of a container. -/
def id? : Stored → Option Nat
  | primitive _ => none
  | list id _ | object id _ => some id

/-- The member of a container at a key. -/
def member? : Stored → Value → Option Stored
  | list _ es, key => (Value.slot? es.length key).bind (es[·]?)
  | object _ ps, key => key.primitive?.bind (Bindings.find? · ps)
  | primitive _, _ => none

/-- The member of a container, or why there is none. -/
def readMember (c : Stored) (key : Value) : Except RuntimeFault Stored :=
  match c.member? key with
  | some m => .ok m
  | none => .error (c.copy.missing key)

/-- The stored value that a path of keys reaches. -/
def walk (c : Stored) : List Key → Except RuntimeError Stored
  | [] => .ok c
  | k :: path => do
    let member ← Value.atKey k (c.readMember k.value)
    member.walk path

/-- The identity of the container, if a member can be written at the key. -/
def writable (c : Stored) (key : Value) : Except RuntimeFault Nat :=
  match c with
  | primitive p => .error (.unsupportedMemberAccess p.typeName)
  | list id es =>
    match Value.slot? es.length key with
    | some _ => .ok id
    | none => .error (.indexOutOfRange key.text es.length)
  | object id _ => key.toKey.map fun _ => id

/-! ## Storing -/

mutual

/-- A value to be stored, with identities from `next` on; the next one left. -/
def fresh (next : Nat) : Value → Stored × Nat
  | .primitive p => (primitive p, next)
  | .list vs =>
    let stored := freshAll (next + 1) vs
    (list next stored.1, stored.2)
  | .object ps =>
    let stored := freshEntries (next + 1) ps
    (object next stored.1, stored.2)

def freshAll (next : Nat) : List Value → List Stored × Nat
  | [] => ([], next)
  | v :: vs =>
    let first := fresh next v
    let others := freshAll first.2 vs
    (first.1 :: others.1, others.2)

def freshEntries (next : Nat) : List (Primitive × Value) → List (Primitive × Stored) × Nat
  | [] => ([], next)
  | (k, v) :: ps =>
    let first := fresh next v
    let others := freshEntries first.2 ps
    ((k, first.1) :: others.1, others.2)

end

/-- The container with a member set; it stays the same container. -/
def setMember : Stored → Value → Stored → Stored
  | list id es, key, new =>
    match Value.slot? es.length key with
    | some i => list id (es.set i new)
    | none => list id es
  | object id ps, key, new =>
    match key.primitive? with
    | some k => object id (Bindings.put k new ps)
    | none => object id ps
  | primitive p, _, _ => primitive p

mutual

/-- Set a member of the container with a given identity. Where there is no such
    container nothing changes. -/
def write (id : Nat) (key : Value) (new : Stored) : Stored → Stored
  | primitive p => primitive p
  | list i es =>
    if i = id then (list i es).setMember key new else list i (writeAll id key new es)
  | object i ps =>
    if i = id then (object i ps).setMember key new else object i (writeEntries id key new ps)

def writeAll (id : Nat) (key : Value) (new : Stored) : List Stored → List Stored
  | [] => []
  | e :: es => write id key new e :: writeAll id key new es

def writeEntries (id : Nat) (key : Value) (new : Stored) :
    List (Primitive × Stored) → List (Primitive × Stored)
  | [] => []
  | (k, v) :: ps => (k, write id key new v) :: writeEntries id key new ps

end

mutual

/-- How many containers have an identity. -/
def count (id : Nat) : Stored → Nat
  | primitive _ => 0
  | list i es => (if i = id then 1 else 0) + countAll id es
  | object i ps => (if i = id then 1 else 0) + countEntries id ps

def countAll (id : Nat) : List Stored → Nat
  | [] => 0
  | e :: es => count id e + countAll id es

def countEntries (id : Nat) : List (Primitive × Stored) → Nat
  | [] => 0
  | (_, v) :: ps => count id v + countEntries id ps

end

/-! ## Copies -/

theorem copyAll_eq_map (es : List Stored) : copyAll es = es.map copy := by
  induction es with
  | nil => rfl
  | cons e es ih => rw [copyAll, ih, List.map_cons]

theorem copyEntries_eq (ps : List (Primitive × Stored)) :
    copyEntries ps = Bindings.mapValues copy ps := by
  induction ps with
  | nil => rfl
  | cons p ps ih =>
    rw [copyEntries, ih]
    rfl

theorem copy_member? (c : Stored) (key : Value) :
    c.copy.member? key = (c.member? key).map copy := by
  cases c with
  | primitive p => rfl
  | list i es =>
    rw [copy, copyAll_eq_map, Value.member?, member?, List.length_map, Option.map_bind]
    congr 1
    funext j
    rw [List.getElem?_map]
    rfl
  | object i ps =>
    rw [copy, copyEntries_eq, Value.member?, member?, Option.map_bind]
    congr 1
    funext k
    exact Bindings.find?_mapValues copy k ps

/-- A member of the copy is a copy of the member. -/
theorem copy_readMember (c : Stored) (key : Value) :
    c.copy.readMember key = (c.readMember key).map copy := by
  rw [Value.readMember_eq, copy_member?, readMember]
  cases c.member? key with
  | none => rfl
  | some m => rfl

theorem copy_walk (c : Stored) (path : List Key) :
    c.copy.walk path = (c.walk path).map copy := by
  induction path generalizing c with
  | nil => rfl
  | cons k path ih =>
    rw [Value.walk, walk, copy_readMember]
    cases c.readMember k.value with
    | error f => rfl
    | ok m => exact ih m

theorem copy_writable (c : Stored) (key : Value) :
    c.copy.checkWrite key = (c.writable key).map fun _ => () := by
  cases c with
  | primitive p => rfl
  | list i es =>
    rw [copy, copyAll_eq_map, Value.checkWrite_list, writable, List.length_map]
    cases Value.slot? es.length key with
    | none => rfl
    | some j => rfl
  | object i ps =>
    rw [copy, Value.checkWrite, writable]
    cases key.toKey with
    | error f => rfl
    | ok k => rfl

/-- Setting a member of a container sets it in the copy. -/
theorem copy_setMember (c : Stored) (key : Value) (new : Stored) :
    (c.setMember key new).copy = c.copy.setMember key new.copy := by
  cases c with
  | primitive p => rfl
  | list i es =>
    -- A copy has the length of the list, so the key is the same index in both.
    rw [setMember, copy, copyAll_eq_map, Value.setMember, List.length_map]
    cases Value.slot? es.length key with
    | none => simp only [copy, copyAll_eq_map]
    | some j => simp only [copy, copyAll_eq_map, List.map_set]
  | object i ps =>
    rw [setMember, copy, copyEntries_eq, Value.setMember]
    cases key.primitive? with
    | none => simp only [copy, copyEntries_eq]
    | some k => simp only [copy, copyEntries_eq, Bindings.put_mapValues]

/-! ## New identities -/

mutual

/-- A stored value is read as what was stored. -/
theorem copy_fresh (next : Nat) : ∀ v : Value, (fresh next v).1.copy = v
  | .primitive p => rfl
  | .list vs => by
    simp only [fresh, copy]
    rw [copyAll_freshAll]
  | .object ps => by
    simp only [fresh, copy]
    rw [copyEntries_freshEntries]

theorem copyAll_freshAll (next : Nat) : ∀ vs : List Value, copyAll (freshAll next vs).1 = vs
  | [] => rfl
  | v :: vs => by
    simp only [freshAll, copyAll]
    rw [copy_fresh, copyAll_freshAll]

theorem copyEntries_freshEntries (next : Nat) :
    ∀ ps : List (Primitive × Value), copyEntries (freshEntries next ps).1 = ps
  | [] => rfl
  | (k, v) :: ps => by
    simp only [freshEntries, copyEntries]
    rw [copy_fresh, copyEntries_freshEntries]

end

/-- From `next` up to `stop` each identity occurs at most once, and no other
    one does. -/
structure Between (next stop : Nat) (count : Nat → Nat) : Prop where
  le : next ≤ stop
  once : ∀ id, count id ≤ 1
  within : ∀ id, count id ≠ 0 → next ≤ id ∧ id < stop

theorem Between.none (next : Nat) : Between next next fun _ => 0 :=
  ⟨Nat.le_refl _, fun _ => Nat.zero_le _, fun _ h => absurd rfl h⟩

theorem Between.append {a b c : Nat} {f g : Nat → Nat} (hf : Between a b f) (hg : Between b c g) :
    Between a c fun id => f id + g id := by
  have hle := hf.le
  have hle' := hg.le
  refine ⟨Nat.le_trans hle hle', fun id => ?_, fun id h => ?_⟩
  · -- The two ranges do not meet, so one of the counts is zero.
    have hfirst := hf.once id
    have hsecond := hg.once id
    have hbelow := hf.within id
    have habove := hg.within id
    omega
  · have hbelow := hf.within id
    have habove := hg.within id
    omega

theorem Between.cons {a b : Nat} {f : Nat → Nat} (hf : Between (a + 1) b f) :
    Between a b fun id => (if a = id then 1 else 0) + f id := by
  have one : Between a (a + 1) fun id => if a = id then 1 else 0 := by
    refine ⟨Nat.le_succ a, fun id => ?_, fun id h => ?_⟩
    · split <;> omega
    · split at h <;> omega
  exact one.append hf

mutual

/-- The identities of a stored value are new ones, each of them used once. -/
theorem between_fresh (next : Nat) :
    ∀ v : Value, Between next (fresh next v).2 fun id => (fresh next v).1.count id
  | .primitive p => .none next
  | .list vs => by
    simp only [fresh, count]
    exact (between_freshAll (next + 1) vs).cons
  | .object ps => by
    simp only [fresh, count]
    exact (between_freshEntries (next + 1) ps).cons

theorem between_freshAll (next : Nat) :
    ∀ vs : List Value, Between next (freshAll next vs).2 fun id => countAll id (freshAll next vs).1
  | [] => .none next
  | v :: vs => by
    simp only [freshAll, countAll]
    exact (between_fresh next v).append (between_freshAll _ vs)

theorem between_freshEntries (next : Nat) :
    ∀ ps : List (Primitive × Value),
      Between next (freshEntries next ps).2 fun id => countEntries id (freshEntries next ps).1
  | [] => .none next
  | (_, v) :: ps => by
    simp only [freshEntries, countEntries]
    exact (between_fresh next v).append (between_freshEntries _ ps)

end

end Stored
end Identity
end ScopeScript
