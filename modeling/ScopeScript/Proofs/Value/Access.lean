/-
  ScopeScript.Proofs.Value.Access

  The ways to a member agree. A member is there to be read exactly if it is there to
  be opened, and it is written exactly if the check allows it; where either cannot be
  done the fault is the same. So are the two ways to follow a path: to read what it
  reaches and to open it. What is put there is found there by every path of equal
  keys, and by no path that does not lead there or past it.
-/
import ScopeScript.Proofs.Session.FirstFailure
import ScopeScript.Proofs.Session.Rewriting

namespace ScopeScript

/-! ## Mapped results -/

section Results

variable {ε α β : Type} {x : Except ε α} {f : α → β}

theorem exists_of_map_eq_ok {b : β} (h : x.map f = .ok b) : ∃ a, x = .ok a ∧ f a = b := by
  cases x with
  | error e => cases h
  | ok a =>
    cases h
    exact ⟨a, rfl, rfl⟩

theorem eq_error_of_map {e : ε} (h : x.map f = .error e) : x = .error e := by
  cases x with
  | error e' =>
    cases h
    rfl
  | ok a => cases h

end Results

namespace Value

variable {v c x : Value} {k l : Value}

/-! ## Members -/

/-- The check says whether writing succeeds, and if not, with which fault. -/
theorem map_writeMember (c k x : Value) :
    (c.writeMember k x).map (fun _ => ()) = c.checkWrite k := by
  rw [writeMember_eq]
  cases c.checkWrite k <;> rfl

theorem map_cell (c k : Value) : (c.cell k).map Cell.value = c.readMember k := by
  rw [cell_eq, readMember_eq]
  cases c.member? k <;> rfl

/-- To set a member leaves what the container says of keys that it does not have. -/
theorem missing_setMember (c k x l : Value) : (c.setMember k x).missing l = c.missing l := by
  cases c with
  | primitive p => rfl
  | list es =>
    rw [setMember]
    split
    · next i _ =>
      rw [missing, missing, List.length_set]
    · rfl
  | object ps =>
    rw [setMember]
    split <;> rfl

/-- What was set is read at equal keys, and nothing else at any other. -/
theorem readMember_setMember (h : c.checkWrite k = .ok ()) (x l : Value) :
    (c.setMember k x).readMember l = if l.same k then .ok x else c.readMember l := by
  obtain ⟨p, rfl⟩ := exists_primitive_of_checkWrite h
  rw [readMember_eq, readMember_eq, missing_setMember]
  by_cases hsame : l.same (.primitive p) = true
  · rw [if_pos hsame]
    obtain ⟨q, rfl, hq⟩ := exists_primitive_of_same hsame
    rw [member?_setMember_of_same h (Primitive.same_symm hq)]
  · rw [if_neg hsame, member?_setMember_of_ne (Bool.eq_false_iff.2 hsame)]

/-- What was written is read at equal keys, and nothing else at any other. -/
theorem readMember_of_writeMember {c' : Value} (h : c.writeMember k x = .ok c') (l : Value) :
    c'.readMember l = if l.same k then .ok x else c.readMember l := by
  rw [writeMember_eq] at h
  cases hcheck : c.checkWrite k with
  | error f =>
    rw [hcheck] at h
    cases h
  | ok _ =>
    rw [hcheck] at h
    cases h
    exact readMember_setMember hcheck x l

theorem readMember_self_of_writeMember {c' : Value} (h : c.writeMember k x = .ok c') :
    c'.readMember k = .ok x := by
  have hcheck : c.checkWrite k = .ok () := by rw [← map_writeMember c k x, h]; rfl
  obtain ⟨p, rfl⟩ := exists_primitive_of_checkWrite hcheck
  have hself : same (.primitive p) (.primitive p) = true := by
    rw [same]
    exact Primitive.same_self p
  rw [readMember_of_writeMember h, if_pos hself]

/-- To put something in the place of an opened member is to write the member. -/
theorem writeMember_of_cell {opened : Cell} (h : c.cell k = .ok opened) (x : Value) :
    c.writeMember k x = .ok (opened.replace x) := by
  rw [cell_eq] at h
  cases hm : c.member? k with
  | none => rw [hm] at h; cases h
  | some m =>
    rw [hm] at h
    cases h
    rw [writeMember_eq, checkWrite_of_member? hm]
    rfl

/-- A list that is written is a list of the same length. -/
theorem length_of_writeMember {es : List Value} {c' : Value}
    (h : (list es).writeMember k x = .ok c') : ∃ fs, c' = list fs ∧ fs.length = es.length := by
  rw [writeMember] at h
  split at h
  · cases h
    exact ⟨_, rfl, List.length_set⟩
  · cases h

/-! ## Paths -/

theorem map_cellAt (v : Value) (path : List Key) :
    (v.cellAt path).map Cell.value = v.walk path := by
  induction path generalizing v with
  | nil => rfl
  | cons k path ih =>
    rw [cellAt, walk, ← map_cell]
    cases v.cell k.value with
    | error f => rfl
    | ok outer =>
      show (outer.value.cellAt path >>= _).map Cell.value = outer.value.walk path
      rw [← ih]
      cases outer.value.cellAt path <;> rfl

/-- Reading and opening lead alike along a path: both reach the same value, or both
    fail with the same fault at the same key, where both have come as far. -/
inductive LeadsAlike (v : Value) (path : List Key) : Prop where
  | reached {cell : Cell} (hcell : v.cellAt path = .ok cell) (hwalk : v.walk path = .ok cell.value)
  | broken (before : List Key) (key : Key) (after : List Key) {cell : Cell} {f : RuntimeFault}
    (hpath : path = before ++ key :: after)
    (hbefore : v.cellAt before = .ok cell) (hbefore' : v.walk before = .ok cell.value)
    (hkey : cell.value.cell key.value = .error f)
    (hkey' : cell.value.readMember key.value = .error f)
    (hcell : v.cellAt path = .error ⟨f, some key.span⟩)
    (hwalk : v.walk path = .error ⟨f, some key.span⟩)

theorem exists_cellAt {path : List Key} {m : Value} (h : v.walk path = .ok m) :
    ∃ cell, v.cellAt path = .ok cell ∧ cell.value = m := by
  rw [← map_cellAt] at h
  exact exists_of_map_eq_ok h

theorem leadsAlike (v : Value) (path : List Key) : v.LeadsAlike path := by
  cases hwalk : v.walk path with
  | ok m =>
    obtain ⟨cell, hcell, rfl⟩ := exists_cellAt hwalk
    exact .reached hcell hwalk
  | error e =>
    obtain ⟨before, key, after, m, f, hpath, hbefore, hkey, rfl⟩ :=
      exists_of_walk_eq_error hwalk
    obtain ⟨cell, hcell, rfl⟩ := exists_cellAt hbefore
    refine .broken before key after hpath hcell hbefore ?_ hkey ?_ hwalk
    · rw [← map_cell] at hkey
      exact eq_error_of_map hkey
    · rw [← map_cellAt] at hwalk
      exact eq_error_of_map hwalk

/-! ## Replacing -/

/-- A path is opened key by key. -/
theorem exists_of_cellAt {k : Key} {path : List Key} {cell : Cell}
    (h : v.cellAt (k :: path) = .ok cell) : ∃ m inner, v.member? k.value = some m ∧
      m.cellAt path = .ok inner ∧
      cell = ⟨inner.value, fun w => v.setMember k.value (inner.replace w)⟩ := by
  rw [cellAt, cell_eq] at h
  cases hm : v.member? k.value with
  | none => rw [hm] at h; cases h
  | some m =>
    rw [hm] at h
    change (m.cellAt path >>= _) = _ at h
    obtain ⟨inner, hinner, h⟩ := exists_of_bind h
    cases h
    exact ⟨m, inner, rfl, hinner, rfl⟩

theorem walk_cons_of_readMember {m : Value} {k : Key} (path : List Key)
    (h : v.readMember k.value = .ok m) : v.walk (k :: path) = m.walk path := by
  rw [walk, h]
  rfl

/-- Paths that lead to the place, or past it, go on in what was put there. -/
theorem walk_replace {path other : List Key} {cell : Cell} (h : v.cellAt path = .ok cell)
    (w : Value)
    (hother : Location.startsWith (other.map (·.value)) (path.map (·.value)) = true) :
    (cell.replace w).walk other = w.walk (other.drop path.length) := by
  induction path generalizing v cell other with
  | nil =>
    cases h
    rfl
  | cons k path ih =>
    obtain ⟨m, inner, hm, hinner, rfl⟩ := exists_of_cellAt h
    cases other with
    | nil => cases hother
    | cons l other =>
      rw [List.map_cons, List.map_cons, Location.startsWith, Bool.and_eq_true] at hother
      -- The equal key leads into the member that was replaced.
      have hread := readMember_setMember (checkWrite_of_member? hm) (inner.replace w) l.value
      rw [if_pos hother.1] at hread
      rw [walk_cons_of_readMember other hread, ih hinner hother.2]
      rfl

/-- Paths that neither lead to the place nor are led on by it find what they found. -/
theorem walk_replace_of_apart {path other : List Key} {cell : Cell} (h : v.cellAt path = .ok cell)
    (w : Value)
    (hother : Location.startsWith (other.map (·.value)) (path.map (·.value)) = false)
    (hpath : Location.startsWith (path.map (·.value)) (other.map (·.value)) = false) :
    (cell.replace w).walk other = v.walk other := by
  induction path generalizing v cell other with
  | nil => cases other <;> cases hother
  | cons k path ih =>
    obtain ⟨m, inner, hm, hinner, rfl⟩ := exists_of_cellAt h
    cases other with
    | nil => cases hpath
    | cons l other =>
      have hcheck := checkWrite_of_member? hm
      have hread := readMember_setMember hcheck (inner.replace w) l.value
      by_cases hsame : l.value.same k.value = true
      · -- Both paths lead into the same member, where they part.
        rw [if_pos hsame] at hread
        have hm' : v.readMember l.value = .ok m := by
          rw [readMember_eq, member?_congr (.inr hsame), hm]
        have hsame' : k.value.same l.value = true := by
          obtain ⟨p, hp⟩ := exists_primitive_of_checkWrite hcheck
          rw [hp] at hsame ⊢
          exact same_symm_primitive hsame
        rw [List.map_cons, List.map_cons, Location.startsWith, hsame, Bool.true_and] at hother
        rw [List.map_cons, List.map_cons, Location.startsWith, hsame', Bool.true_and] at hpath
        rw [walk_cons_of_readMember other hread, walk_cons_of_readMember other hm']
        exact ih hinner hother hpath
      · -- They part here, and the other member is as it was.
        rw [if_neg hsame] at hread
        rw [walk, walk, hread]

end Value

/-! ## Writing in a session -/

/-- A write that fails changes nothing. -/
theorem Target.session_of_commit_eq_error {target : Target} {mark : Nat} {value : Value}
    {s s' : Session} {e : RuntimeError} (h : target.commit mark value s = .error e s') :
    s' = s := by
  cases target with
  | name key => cases h
  | member frame root span path key =>
    rw [commit_member] at h
    split at h
    · cases h
    · split at h
      · cases h
        rfl
      · split at h
        · cases h
          rfl
        · cases h

/-! ## The ways to a member agree -/

/-- Members and paths of them are read, opened, checked and written alike. A member is
    written exactly if the check allows it, and opened exactly if it is read, with the
    same fault otherwise; to replace an opened member is to write it. A member that was
    written is read at its key, all members at unequal keys are as they were, and a list
    keeps its length. A write that fails leaves the session as it was. Along every path,
    opening and reading reach the same value or fail at the same key. What is put there
    is found by the paths that begin with this one; the paths that neither begin with it
    nor are an initial part of it find what they found. -/
theorem access_agrees :
    (∀ c k : Value, (c.cell k).map Value.Cell.value = c.readMember k ∧
      (∀ x, (c.writeMember k x).map (fun _ => ()) = c.checkWrite k) ∧
      ∀ opened, c.cell k = .ok opened → ∀ x, c.writeMember k x = .ok (opened.replace x)) ∧
    (∀ c k x c' : Value, c.writeMember k x = .ok c' →
      c'.readMember k = .ok x ∧
      (∀ l, l.same k = true → c'.readMember l = .ok x) ∧
      (∀ l, l.same k = false → c'.readMember l = c.readMember l) ∧
      ∀ es, c = .list es → ∃ fs, c' = .list fs ∧ fs.length = es.length) ∧
    (∀ (target : Target) mark x s e s', target.commit mark x s = .error e s' → s' = s) ∧
    (∀ (v : Value) path, v.LeadsAlike path) ∧
    ∀ (v : Value) path opened, v.cellAt path = .ok opened → ∀ (w : Value) (other : List Key),
      let begins := Location.startsWith (other.map (·.value)) (path.map (·.value))
      let ends := Location.startsWith (path.map (·.value)) (other.map (·.value))
      (begins = true → (opened.replace w).walk other = w.walk (other.drop path.length)) ∧
        (begins = false → ends = false → (opened.replace w).walk other = v.walk other) := by
  refine ⟨fun c k => ⟨Value.map_cell c k, Value.map_writeMember c k,
    fun _ => Value.writeMember_of_cell⟩, ?_, fun _ _ _ _ _ _ =>
    Target.session_of_commit_eq_error, Value.leadsAlike, fun v path opened h w other =>
    ⟨Value.walk_replace h w, Value.walk_replace_of_apart h w⟩⟩
  intro c k x c' h
  have hread := Value.readMember_of_writeMember h
  refine ⟨Value.readMember_self_of_writeMember h, fun l hl => ?_, fun l hl => ?_, ?_⟩
  · rw [hread, if_pos hl]
  · rw [hread, if_neg (Bool.eq_false_iff.1 hl)]
  · rintro es rfl
    exact Value.length_of_writeMember h

/-- `[{ 0.0: [1, 2], 1: 3 }]`, where `-0.0` leads to the list as `0.0` does. -/
theorem access_agrees_zeros :
    let key (v : Value) : Key := ⟨v, default⟩
    let zero := Value.double ⟨0⟩
    let negativeZero := Value.double ⟨0x8000000000000000⟩
    let two (member : Value) :=
      Value.list [.object [(.double ⟨0⟩, .list [.int 1, member]), (.int 1, .int 3)]]
    let v := two (.int 2)
    let path := [key (.int 0), key negativeZero, key (.int 1)]
    ∃ opened, v.cellAt path = .ok opened ∧ opened.value = .int 2 ∧
      opened.replace (.int 7) = two (.int 7) ∧
      (two (.int 7)).walk [key (.int 0), key zero, key (.int 1)] = (Value.int 7).walk [] ∧
      (two (.int 7)).walk [key (.int 0), key (.int 1)] =
        v.walk [key (.int 0), key (.int 1)] ∧
      (Value.list [.int 1, .int 7]).readMember (.int 0) =
        (Value.list [.int 1, .int 2]).readMember (.int 0) := by
  intro key zero negativeZero two v path
  obtain ⟨-, hwrite, -, -, hreplace⟩ := access_agrees
  obtain ⟨hbegins, -⟩ := hreplace v path _ rfl (.int 7)
    [key (.int 0), key zero, key (.int 1)]
  obtain ⟨-, hapart⟩ := hreplace v path _ rfl (.int 7) [key (.int 0), key (.int 1)]
  obtain ⟨-, -, hother, -⟩ := hwrite (.list [.int 1, .int 2]) (.int 1) (.int 7) _ rfl
  exact ⟨_, rfl, rfl, rfl, hbegins rfl, hapart rfl rfl, hother (.int 0) rfl⟩

end ScopeScript
