/-
  ScopeScript.Proofs.Identity.Path

  Paths of keys in stored values. The container with a given identity is where
  its path leads, so a write to the container is a write at the path (`setAt`),
  and of what other paths reach only that below the written member changes.
-/
import ScopeScript.Session
import ScopeScript.Proofs.Identity.Stored

namespace ScopeScript
namespace Identity
namespace Stored

/-- What a path of keys reaches. -/
def at? (c : Stored) : List Value → Option Stored
  | [] => some c
  | k :: path => (c.member? k).bind (·.at? path)

/-- Set a member of the container that a path reaches. -/
def setAt (c : Stored) (key : Value) (new : Stored) : List Value → Stored
  | [] => c.setMember key new
  | k :: path =>
    match c.member? k with
    | some m => c.setMember k (m.setAt key new path)
    | none => c

/-- Two states of one container, of one kind and, for a list, one length; or one
    primitive. -/
inductive Persists : Stored → Stored → Prop where
  | primitive (p : Primitive) : Persists (.primitive p) (.primitive p)
  | list (id : Nat) {es fs : List Stored} (length : fs.length = es.length) :
      Persists (.list id es) (.list id fs)
  | object (id : Nat) (ps qs : List (Primitive × Stored)) :
      Persists (.object id ps) (.object id qs)

variable {c d m : Stored} {i j : Nat} {key k : Value}

/-! ## Containers that persist -/

namespace Persists

theorem refl (c : Stored) : c.Persists c := by
  cases c with
  | primitive p => exact .primitive p
  | list i es => exact .list i rfl
  | object i ps => exact .object i ps ps

theorem trans {e : Stored} (h : c.Persists d) (h' : d.Persists e) : c.Persists e := by
  cases h with
  | primitive p => exact h'
  | list i hl =>
    cases h' with
    | list _ hl' => exact .list i (hl'.trans hl)
  | object i ps qs =>
    cases h' with
    | object _ _ rs => exact .object i ps rs

theorem id?_eq (h : c.Persists d) : d.id? = c.id? := by
  cases h <;> rfl

/-- What could be written to a container still can. -/
theorem writable_eq (h : c.Persists d) (key : Value) : d.writable key = c.writable key := by
  cases h with
  | primitive p => rfl
  | list i hl => rw [writable, writable, hl]
  | object i ps qs => rfl

theorem setMember (c : Stored) (key : Value) (new : Stored) : c.Persists (c.setMember key new) := by
  cases c with
  | primitive p => exact .primitive p
  | list i es =>
    rw [Stored.setMember]
    cases Value.slot? es.length key with
    | none => exact .refl _
    | some n => exact .list i List.length_set
  | object i ps =>
    rw [Stored.setMember]
    cases key.primitive? with
    | none => exact .refl _
    | some k => exact .object i ps _

end Persists

/-! ## Members -/

theorem id?_of_writable (h : c.writable key = .ok i) : c.id? = some i := by
  cases c with
  | primitive p => simp [writable] at h
  | list n es =>
    rw [writable] at h
    split at h
    · simpa [id?] using h
    · cases h
  | object n ps =>
    cases key with
    | primitive k => simpa [writable, Value.toKey, Except.map, id?] using h
    | list es => simp [writable, Value.toKey, Except.map] at h
    | object qs => simp [writable, Value.toKey, Except.map] at h

/-- The key of a place that can be written is a primitive. -/
theorem exists_primitive_of_writable (h : c.writable key = .ok i) : ∃ k, key = .primitive k := by
  cases c with
  | primitive p => simp [writable] at h
  | list n es =>
    rw [writable] at h
    split at h
    · next hs => exact Value.exists_primitive_of_slot? hs
    · cases h
  | object n ps =>
    cases key with
    | primitive k => exact ⟨k, rfl⟩
    | list es => simp [writable, Value.toKey, Except.map] at h
    | object qs => simp [writable, Value.toKey, Except.map] at h

/-- A member that is there can be written. -/
theorem writable_of_member? (h : c.member? key = some m) : ∃ i, c.writable key = .ok i := by
  cases c with
  | primitive p => simp [member?] at h
  | list n es =>
    rw [member?, Option.bind_eq_some_iff] at h
    obtain ⟨j, hj, -⟩ := h
    exact ⟨n, by rw [writable, hj]⟩
  | object n ps =>
    rw [member?, Option.bind_eq_some_iff] at h
    obtain ⟨k, hk, -⟩ := h
    cases key with
    | primitive k => exact ⟨n, rfl⟩
    | list es => simp [Value.primitive?] at hk
    | object qs => simp [Value.primitive?] at hk

/-- A member that was written is read at every equal key. -/
theorem member?_setMember_of_same {k l : Primitive} (h : c.writable (.primitive k) = .ok i)
    (hkl : k.same l = true) (new : Stored) :
    (c.setMember (.primitive k) new).member? (.primitive l) = some new := by
  cases c with
  | primitive p => simp [writable] at h
  | list n es =>
    rw [writable] at h
    cases hs : Value.slot? es.length (.primitive k) with
    | none => rw [hs] at h; cases h
    | some j =>
      rw [setMember, hs, member?, List.length_set, ← Value.slot?_of_same hkl, hs, Option.bind_some,
        List.getElem?_set_self (Value.lt_of_slot? hs)]
  | object n ps =>
    simp only [setMember, Value.primitive?, member?, Option.bind_some]
    exact Bindings.find?_put_of_same hkl new ps

/-- A write leaves the members at all other keys. -/
theorem member?_setMember_of_ne {k l : Primitive} (hkl : ¬ k.same l = true) (new : Stored) :
    (c.setMember (.primitive k) new).member? (.primitive l) = c.member? (.primitive l) := by
  cases c with
  | primitive p => rfl
  | list n es =>
    rw [setMember]
    cases hs : Value.slot? es.length (.primitive k) with
    | none => rfl
    | some j =>
      rw [member?, member?, List.length_set]
      cases hl : Value.slot? es.length (.primitive l) with
      | none => rfl
      | some j' =>
        have hne : j ≠ j' := by
          rintro rfl
          exact hkl (Value.same_of_slot? hs hl)
        rw [Option.bind_some, Option.bind_some, List.getElem?_set_ne hne]
  | object n ps =>
    simp only [setMember, Value.primitive?, member?, Option.bind_some]
    exact Bindings.find?_put_of_ne hkl new ps

/-! ## Identities of members -/

theorem count_getElem_le {es : List Stored} {n : Nat} (h : es[n]? = some m) (id : Nat) :
    m.count id ≤ countAll id es := by
  induction es generalizing n with
  | nil => simp at h
  | cons e es ih =>
    rw [countAll]
    cases n with
    | zero =>
      obtain rfl : e = m := by simpa using h
      exact Nat.le_add_right _ _
    | succ n =>
      exact Nat.le_trans (ih (by simpa using h)) (Nat.le_add_left _ _)

theorem count_find?_le {ps : List (Primitive × Stored)} {k : Primitive}
    (h : Bindings.find? k ps = some m) (id : Nat) : m.count id ≤ countEntries id ps := by
  induction ps with
  | nil => simp [Bindings.find?] at h
  | cons p ps ih =>
    rw [Bindings.find?] at h
    rw [countEntries]
    split at h
    · obtain rfl : p.2 = m := by simpa using h
      exact Nat.le_add_right _ _
    · exact Nat.le_trans (ih h) (Nat.le_add_left _ _)

/-- The identities in a member are among those of the container, apart from its
    own. -/
theorem count_member?_le (h : c.member? key = some m) (id : Nat) :
    (if c.id? = some id then 1 else 0) + m.count id ≤ c.count id := by
  cases c with
  | primitive p => simp [member?] at h
  | list n es =>
    rw [member?, Option.bind_eq_some_iff] at h
    obtain ⟨j, -, hj⟩ := h
    have := count_getElem_le hj id
    simp only [id?, Option.some.injEq, count]
    omega
  | object n ps =>
    rw [member?, Option.bind_eq_some_iff] at h
    obtain ⟨k, -, hk⟩ := h
    have := count_find?_le hk id
    simp only [id?, Option.some.injEq, count]
    omega

theorem count_at?_le {path : List Value} (h : c.at? path = some d) (id : Nat) :
    d.count id ≤ c.count id := by
  induction path generalizing c with
  | nil =>
    obtain rfl : c = d := by simpa [at?] using h
    exact Nat.le_refl _
  | cons k path ih =>
    rw [at?, Option.bind_eq_some_iff] at h
    obtain ⟨m, hm, hd⟩ := h
    have h1 := ih hd
    have h2 := count_member?_le hm id
    omega

/-- A container has its own identity. -/
theorem count_pos_of_id? (h : c.id? = some i) : 0 < c.count i := by
  cases c with
  | primitive p => cases h
  | list n es =>
    obtain rfl : n = i := by simpa [id?] using h
    rw [count, if_pos rfl]
    omega
  | object n ps =>
    obtain rfl : n = i := by simpa [id?] using h
    rw [count, if_pos rfl]
    omega

/-- How often an identity occurs in what may be there. -/
def held (id : Nat) : Option Stored → Nat
  | some c => c.count id
  | none => 0

theorem countAll_set {es : List Stored} {n : Nat} (h : n < es.length) (new : Stored) (id : Nat) :
    countAll id (es.set n new) + held id es[n]? = countAll id es + new.count id := by
  induction es generalizing n with
  | nil => simp at h
  | cons e es ih =>
    cases n with
    | zero =>
      simp only [List.set_cons_zero, countAll, List.getElem?_cons_zero, held]
      omega
    | succ n =>
      have := ih (Nat.lt_of_succ_lt_succ h)
      simp only [List.set_cons_succ, countAll, List.getElem?_cons_succ]
      omega

theorem countEntries_put (k : Primitive) (new : Stored) (ps : List (Primitive × Stored))
    (id : Nat) :
    countEntries id (Bindings.put k new ps) + held id (Bindings.find? k ps) =
      countEntries id ps + new.count id := by
  induction ps with
  | nil => simp [Bindings.put, Bindings.find?, countEntries, held]
  | cons p ps ih =>
    rw [Bindings.put, Bindings.find?]
    split
    · simp only [countEntries, held]
      omega
    · simp only [countEntries]
      omega

/-- Setting a member takes the identities of the old one away and adds those of
    the new one. -/
theorem count_setMember (h : c.writable key = .ok i) (new : Stored) (id : Nat) :
    (c.setMember key new).count id + held id (c.member? key) = c.count id + new.count id := by
  cases c with
  | primitive p => simp [writable] at h
  | list n es =>
    rw [writable] at h
    cases hs : Value.slot? es.length key with
    | none => rw [hs] at h; cases h
    | some j =>
      have := countAll_set (Value.lt_of_slot? hs) new id
      simp only [setMember, hs, member?, Option.bind_some, count]
      omega
  | object n ps =>
    obtain ⟨k, rfl⟩ := exists_primitive_of_writable h
    have := countEntries_put k new ps id
    simp only [setMember, Value.primitive?, member?, Option.bind_some, count]
    omega

/-! ## Paths -/

theorem at?_singleton (c : Stored) (k : Value) : c.at? [k] = c.member? k := by
  simp only [at?, Option.bind_fun_some]

/-- A walk reaches what stands at its keys. -/
theorem walk_eq_ok_iff {path : List Key} :
    c.walk path = .ok d ↔ c.at? (path.map (·.value)) = some d := by
  induction path generalizing c with
  | nil => simp [walk, at?]
  | cons k path ih =>
    rw [walk, readMember, List.map_cons, at?]
    cases c.member? k.value with
    | none => simp [Value.atKey, bind, Except.bind]
    | some m => exact ih

/-- The first key of a path that reaches anything is a primitive. -/
theorem exists_primitive_of_member? (h : c.member? key = some m) : ∃ k, key = .primitive k :=
  exists_primitive_of_writable (writable_of_member? h).choose_spec

theorem member?_of_same {k l : Primitive} (h : k.same l = true) (c : Stored) :
    c.member? (.primitive k) = c.member? (.primitive l) := by
  cases c with
  | primitive p => rfl
  | list n es => rw [member?, member?, Value.slot?_of_same h]
  | object n ps =>
    simp only [member?, Value.primitive?, Option.bind_some]
    exact Bindings.find?_of_same h ps

/-- What a path reaches is inside what its beginning reaches. -/
theorem at?_of_startsWith {w q : List Value} (h : c.at? q = some d)
    (hw : Location.startsWith q w = true) : ∃ x r, c.at? w = some x ∧ x.at? r = some d := by
  induction w generalizing c q with
  | nil => exact ⟨c, q, rfl, h⟩
  | cons l w ih =>
    cases q with
    | nil => cases hw
    | cons k q =>
      rw [at?, Option.bind_eq_some_iff] at h
      obtain ⟨m, hm, hd⟩ := h
      rw [Location.startsWith, Bool.and_eq_true] at hw
      obtain ⟨x, r, hx, hr⟩ := ih hd hw.2
      refine ⟨x, r, ?_, hr⟩
      obtain ⟨k, rfl⟩ := exists_primitive_of_member? hm
      cases l with
      | primitive l =>
        rw [at?, ← member?_of_same hw.1, hm]
        exact hx
      | list es => cases hw.1
      | object ps => cases hw.1

/-! ## Writing at a path -/

variable {path : List Value}

/-- A write at a path takes the identities of what it replaces away and adds
    those of the new value. -/
theorem count_setAt (hd : c.at? path = some d) (hw : d.writable key = .ok i) (new : Stored)
    (id : Nat) :
    (c.setAt key new path).count id + held id (c.at? (path ++ [key])) =
      c.count id + new.count id := by
  induction path generalizing c with
  | nil =>
    obtain rfl : c = d := by simpa [at?] using hd
    rw [List.nil_append, at?_singleton]
    exact count_setMember hw new id
  | cons k path ih =>
    rw [at?, Option.bind_eq_some_iff] at hd
    obtain ⟨m, hm, hd⟩ := hd
    obtain ⟨n, hn⟩ := writable_of_member? hm
    have h1 := ih hd
    have h2 := count_setMember hn (m.setAt key new path) id
    simp only [hm, held] at h2
    simp only [setAt, hm, List.cons_append, at?, Option.bind_some]
    omega

/-- Any other path than one through the written member reaches what it reached
    before, or the same container in its new state. -/
theorem at?_setAt {q : List Value} {e : Stored} (hd : c.at? path = some d)
    (hw : d.writable key = .ok i) (new : Stored) (he : c.at? q = some e)
    (hq : ¬ Location.startsWith q (path ++ [key]) = true) :
    ∃ e', (c.setAt key new path).at? q = some e' ∧ e.Persists e' := by
  induction path generalizing c q with
  | nil =>
    cases q with
    | nil =>
      obtain rfl : c = e := by simpa [at?] using he
      exact ⟨_, rfl, .setMember c key new⟩
    | cons l q =>
      obtain rfl : c = d := by simpa [at?] using hd
      rw [at?, Option.bind_eq_some_iff] at he
      obtain ⟨m, hm, he⟩ := he
      obtain ⟨l, rfl⟩ := exists_primitive_of_member? hm
      obtain ⟨k, rfl⟩ := exists_primitive_of_writable hw
      -- A path whose first key is the written one goes through the written member.
      have hne : ¬ k.same l = true := by
        intro hs
        refine hq ?_
        rw [List.nil_append, Location.startsWith, Bool.and_eq_true]
        refine ⟨Primitive.same_symm hs, ?_⟩
        cases q <;> rfl
      refine ⟨e, ?_, .refl e⟩
      rw [setAt, at?, member?_setMember_of_ne hne, hm]
      exact he
  | cons k path ih =>
    rw [at?, Option.bind_eq_some_iff] at hd
    obtain ⟨m, hm, hd⟩ := hd
    obtain ⟨n, hn⟩ := writable_of_member? hm
    simp only [setAt, hm]
    cases q with
    | nil =>
      obtain rfl : c = e := by simpa [at?] using he
      exact ⟨_, rfl, .setMember c k _⟩
    | cons l q =>
      rw [at?, Option.bind_eq_some_iff] at he
      obtain ⟨m', hm', he⟩ := he
      obtain ⟨l, rfl⟩ := exists_primitive_of_member? hm'
      obtain ⟨k, rfl⟩ := exists_primitive_of_member? hm
      -- Both paths go on in the same member, or they part here.
      by_cases hs : k.same l = true
      · obtain rfl : m = m' := by
          rw [member?_of_same hs, hm'] at hm
          exact (Option.some.inj hm).symm
        have hq' : ¬ Location.startsWith q (path ++ [key]) = true := by
          intro h
          refine hq ?_
          rw [List.cons_append, Location.startsWith, Bool.and_eq_true]
          exact ⟨Primitive.same_symm hs, h⟩
        obtain ⟨e', he', hp⟩ := ih hd he hq'
        refine ⟨e', ?_, hp⟩
        rw [at?, member?_setMember_of_same hn hs]
        exact he'
      · refine ⟨e, ?_, .refl e⟩
        rw [at?, member?_setMember_of_ne hs, hm']
        exact he

/-- A write along a path changes the copy as the same write on values does. -/
theorem copy_updateAt {path : List Key} {key : Key} (hd : c.at? (path.map (·.value)) = some d)
    (hw : d.writable key.value = .ok i) (new : Stored) :
    c.copy.updateAt (fun v => Value.atKey key (v.writeMember key.value new.copy)) path =
      .ok (c.setAt key.value new (path.map (·.value))).copy := by
  induction path generalizing c with
  | nil =>
    obtain rfl : c = d := by simpa [at?] using hd
    rw [Value.updateAt_nil, Value.writeMember_eq, copy_writable, hw, List.map_nil, setAt,
      copy_setMember]
    rfl
  | cons k path ih =>
    rw [List.map_cons, at?, Option.bind_eq_some_iff] at hd
    obtain ⟨m, hm, hd⟩ := hd
    have hread : c.copy.readMember k.value = .ok m.copy := by
      rw [copy_readMember, readMember, hm]
      rfl
    have hcheck : c.copy.checkWrite k.value = .ok () := by
      apply Value.checkWrite_of_member? (m := m.copy)
      rw [copy_member?, hm]
      rfl
    refine Value.updateAt_cons hread (ih hd) ?_
    rw [Value.writeMember_eq, hcheck, List.map_cons, setAt, hm, copy_setMember]
    rfl

/-! ## Writing to a container -/

mutual

/-- A write to a container that is not there changes nothing. -/
theorem write_of_count_eq_zero (new : Stored) :
    ∀ c : Stored, c.count i = 0 → write i key new c = c
  | .primitive p, _ => rfl
  | .list n es, h => by
    rw [count] at h
    have hn : ¬ n = i := fun hn => by rw [if_pos hn] at h; omega
    rw [write, if_neg hn, writeAll_of_count_eq_zero new es (by omega)]
  | .object n ps, h => by
    rw [count] at h
    have hn : ¬ n = i := fun hn => by rw [if_pos hn] at h; omega
    rw [write, if_neg hn, writeEntries_of_count_eq_zero new ps (by omega)]

theorem writeAll_of_count_eq_zero (new : Stored) :
    ∀ es : List Stored, countAll i es = 0 → writeAll i key new es = es
  | [], _ => rfl
  | e :: es, h => by
    rw [countAll] at h
    rw [writeAll, write_of_count_eq_zero new e (by omega),
      writeAll_of_count_eq_zero new es (by omega)]

theorem writeEntries_of_count_eq_zero (new : Stored) :
    ∀ ps : List (Primitive × Stored), countEntries i ps = 0 → writeEntries i key new ps = ps
  | [], _ => rfl
  | (k, v) :: ps, h => by
    rw [countEntries] at h
    rw [writeEntries, write_of_count_eq_zero new v (by omega),
      writeEntries_of_count_eq_zero new ps (by omega)]

end

/-- A write to a container that is in one element of a list changes only that. -/
theorem writeAll_eq_set {es : List Stored} {n : Nat} (hm : es[n]? = some m) (hpos : 0 < m.count i)
    (hone : countAll i es ≤ 1) (new : Stored) :
    writeAll i key new es = es.set n (write i key new m) := by
  induction es generalizing n with
  | nil => simp at hm
  | cons e es ih =>
    rw [countAll] at hone
    cases n with
    | zero =>
      obtain rfl : e = m := by simpa using hm
      rw [writeAll, writeAll_of_count_eq_zero new es (by omega), List.set_cons_zero]
    | succ n =>
      rw [List.getElem?_cons_succ] at hm
      have := count_getElem_le hm i
      rw [writeAll, write_of_count_eq_zero new e (by omega), ih hm (by omega), List.set_cons_succ]

/-- A write to a container that is in what one key is bound to changes only
    that. -/
theorem writeEntries_eq_put {ps : List (Primitive × Stored)} {k : Primitive}
    (hm : Bindings.find? k ps = some m) (hpos : 0 < m.count i) (hone : countEntries i ps ≤ 1)
    (new : Stored) : writeEntries i key new ps = Bindings.put k (write i key new m) ps := by
  induction ps with
  | nil => simp [Bindings.find?] at hm
  | cons p ps ih =>
    rw [countEntries] at hone
    rw [Bindings.find?] at hm
    rw [writeEntries, Bindings.put]
    split at hm
    · next hk =>
      obtain rfl : p.2 = m := by simpa using hm
      rw [if_pos hk, writeEntries_of_count_eq_zero new ps (by omega)]
    · next hk =>
      have := count_find?_le hm i
      rw [if_neg hk, write_of_count_eq_zero new p.2 (by omega), ih hm (by omega)]

/-- A write to the one container that a path reaches is a write at the path. -/
theorem write_eq_setAt (hd : c.at? path = some d) (hi : d.id? = some i) (hone : c.count i ≤ 1)
    (key : Value) (new : Stored) : write i key new c = c.setAt key new path := by
  induction path generalizing c with
  | nil =>
    obtain rfl : c = d := by simpa [at?] using hd
    cases c with
    | primitive p => cases hi
    | list n es =>
      rw [write, if_pos (by simpa [id?] using hi)]
      rfl
    | object n ps =>
      rw [write, if_pos (by simpa [id?] using hi)]
      rfl
  | cons k path ih =>
    rw [at?, Option.bind_eq_some_iff] at hd
    obtain ⟨m, hm, hd⟩ := hd
    have hpos : 0 < m.count i := Nat.lt_of_lt_of_le (count_pos_of_id? hi) (count_at?_le hd i)
    have hle := count_member?_le hm i
    have hrec := ih hd (by omega)
    -- The container is inside the member and is there once, so it is not `c`.
    have hne : ¬ c.id? = some i := fun h => by rw [if_pos h] at hle; omega
    simp only [setAt, hm, ← hrec]
    cases c with
    | primitive p => simp [member?] at hm
    | list n es =>
      rw [count] at hone
      rw [member?, Option.bind_eq_some_iff] at hm
      obtain ⟨j, hj, hm⟩ := hm
      rw [write, if_neg (by simpa [id?] using hne), setMember, hj,
        writeAll_eq_set hm hpos (by omega)]
    | object n ps =>
      rw [count] at hone
      rw [member?, Option.bind_eq_some_iff] at hm
      obtain ⟨j, hj, hm⟩ := hm
      rw [write, if_neg (by simpa [id?] using hne), setMember, hj,
        writeEntries_eq_put hm hpos (by omega)]

end Stored
end Identity
end ScopeScript
