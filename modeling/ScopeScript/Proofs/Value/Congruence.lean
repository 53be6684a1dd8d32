/-
  ScopeScript.Proofs.Value.Congruence

  Equality is respected: of primitives by what a hash function is fed, of
  containers and keys by the access to members. Containers are equal exactly when
  they are of one kind, lists of one length, and have members with one normal form
  at all keys (`Value.normal_object_eq_iff_find?` for objects). So a key that is
  equal to another reads, checks and writes in equal containers what the other one
  does, and where it fails it fails in the same way. Only the texts in faults tell
  equal keys apart, since the two zeros are written differently.
-/
import ScopeScript.Proofs.Value.Equality

namespace ScopeScript

/-- How two attempts end alike: both succeed, with things that are related, or both
    fail, with faults of one kind. -/
inductive EndsAlike {α : Type} (R : α → α → Prop) :
    Except RuntimeFault α → Except RuntimeFault α → Prop where
  | ok {a b : α} (h : R a b) : EndsAlike R (.ok a) (.ok b)
  | error {f g : RuntimeFault} (h : f.kind = g.kind) : EndsAlike R (.error f) (.error g)

namespace Value

variable {c c' k l v w : Value} {o o' : Object}

/-! ## Members -/

theorem mem_normalEntries_iff_find? (h : Bindings.Unequal o) {key : Primitive} {n : Value} :
    (key.canonical, n) ∈ normalEntries o ↔ (Bindings.find? key o).map normal = some n := by
  rw [mem_normalEntries_iff h, Option.map_eq_some_iff]

/-- The keys in a normal form are canonical. -/
theorem canonical_of_mem_normalEntries {p : Primitive × Value} (h : p ∈ normalEntries o) :
    p.1.canonical = p.1 := by
  rw [normalEntries_eq_map] at h
  obtain ⟨q, -, rfl⟩ := List.mem_map.1 h
  exact Primitive.canonical_canonical q.1

/-- Objects have one normal form exactly when each key finds values with one normal
    form in them, or nothing in either. -/
theorem normal_object_eq_iff_find? (h : Bindings.Unequal o) (h' : Bindings.Unequal o') :
    (object o).normal = (object o').normal ↔
      ∀ key, (Bindings.find? key o).map normal = (Bindings.find? key o').map normal := by
  rw [normal_object_eq_iff h, List.perm_ext_iff_of_nodup
    (nodup_of_unequal (unequal_normalEntries h)) (nodup_of_unequal (unequal_normalEntries h'))]
  constructor
  · intro hmem key
    refine Option.ext fun n => ?_
    rw [← mem_normalEntries_iff_find? h, ← mem_normalEntries_iff_find? h']
    exact hmem _
  · rintro hfind ⟨key, n⟩
    -- What is in either is there at a canonical key.
    have hiff : (key.canonical, n) ∈ normalEntries o ↔ (key.canonical, n) ∈ normalEntries o' := by
      rw [mem_normalEntries_iff_find? h, mem_normalEntries_iff_find? h', hfind]
    by_cases hkey : key.canonical = key
    · rwa [hkey] at hiff
    · exact ⟨fun hmem => absurd (canonical_of_mem_normalEntries hmem) hkey,
        fun hmem => absurd (canonical_of_mem_normalEntries hmem) hkey⟩

theorem normalAll_eq_map (vs : List Value) : normalAll vs = vs.map normal := by
  induction vs with
  | nil => rfl
  | cons v vs ih => rw [normalAll, ih, List.map_cons]

theorem length_eq_of_normal {vs ws : List Value} (h : vs.map normal = ws.map normal) :
    vs.length = ws.length := by
  have hlength := congrArg List.length h
  rwa [List.length_map, List.length_map] at hlength

/-- Two values have members alike: at each key the members have one normal form, or
    there is none in either. -/
inductive SameMembers : Value → Value → Prop where
  | primitive {p q : Primitive} (h : p.same q = true) : SameMembers (.primitive p) (.primitive q)
  | list {vs ws : List Value} (h : vs.map normal = ws.map normal) :
    SameMembers (.list vs) (.list ws)
  | object {o o' : Object}
    (h : ∀ key, (Bindings.find? key o).map normal = (Bindings.find? key o').map normal) :
    SameMembers (.object o) (.object o')

/-- Values with unequal keys are equal exactly when they have members alike. -/
theorem same_iff_sameMembers (hv : v.Distinct) (hw : w.Distinct) :
    v.same w = true ↔ SameMembers v w := by
  constructor
  · intro h
    rw [same_iff_normal hv hw] at h
    cases hv with
    | primitive p =>
      cases hw with
      | primitive q =>
        rw [normal, normal, primitive.injEq] at h
        exact .primitive (Primitive.same_iff.2 h)
      | list _ | object _ _ => simp only [normal, reduceCtorEq] at h
    | list _ =>
      cases hw with
      | list _ =>
        rw [normal, normal, list.injEq, normalAll_eq_map, normalAll_eq_map] at h
        exact .list h
      | primitive _ | object _ _ => simp only [normal, reduceCtorEq] at h
    | object keys _ =>
      cases hw with
      | object keys' _ => exact .object ((normal_object_eq_iff_find? keys keys').1 h)
      | primitive _ | list _ => simp only [normal, reduceCtorEq] at h
  · intro h
    rw [same_iff_normal hv hw]
    cases h with
    | primitive h => rw [normal, normal, Primitive.same_iff.1 h]
    | list h => rw [normal, normal, normalAll_eq_map, normalAll_eq_map, h]
    | object h =>
      cases hv with
      | object keys _ =>
        cases hw with
        | object keys' _ => exact (normal_object_eq_iff_find? keys keys').2 h

namespace SameMembers

theorem member? (h : SameMembers c c') (hkl : k.same l = true) :
    (c.member? k).map normal = (c'.member? l).map normal := by
  rw [Value.member?_congr (.inr hkl)]
  cases h with
  | primitive _ => rfl
  | @list vs ws h =>
    have hlength := length_eq_of_normal h
    rw [Value.member?, Value.member?, hlength]
    cases slot? ws.length l with
    | none => rfl
    | some i =>
      show vs[i]?.map normal = ws[i]?.map normal
      rw [← List.getElem?_map, ← List.getElem?_map, h]
  | object h =>
    rw [Value.member?, Value.member?]
    cases l.primitive? with
    | none => rfl
    | some key => exact h key

theorem kind_missing (h : SameMembers c c') (k l : Value) :
    (c.missing k).kind = (c'.missing l).kind := by
  cases h <;> rfl

theorem checkWrite (h : SameMembers c c') (hkl : k.same l = true) :
    EndsAlike (fun _ _ => True) (c.checkWrite k) (c'.checkWrite l) := by
  cases h with
  | primitive _ => exact .error rfl
  | @list vs ws h =>
    have hlength := length_eq_of_normal h
    rw [checkWrite_list, checkWrite_list, slot?_congr hkl, hlength]
    cases slot? ws.length l with
    | none => exact .error rfl
    | some i => exact .ok trivial
  | object _ =>
    rcases primitives_of_same hkl with ⟨p, q, rfl, rfl, -⟩ | ⟨hk, hl⟩
    · exact .ok trivial
    · -- Neither can be bound, whatever they are.
      cases k with
      | primitive _ => cases hk
      | list _ | object _ =>
        cases l with
        | primitive _ => cases hl
        | list _ | object _ => exact .error rfl

/-- Equal values written at equal keys leave members alike. -/
theorem setMember (h : SameMembers c c') (hkl : k.same l = true) (hvw : v.normal = w.normal) :
    SameMembers (c.setMember k v) (c'.setMember l w) := by
  cases h with
  | primitive h => exact .primitive h
  | @list vs ws h =>
    have hlength := length_eq_of_normal h
    rw [Value.setMember, Value.setMember, slot?_congr hkl, hlength]
    cases slot? ws.length l with
    | none => exact .list h
    | some i =>
      refine .list ?_
      rw [List.map_set, List.map_set, h, hvw]
  | @object o o' h =>
    rw [Value.setMember, Value.setMember]
    rcases primitives_of_same hkl with ⟨p, q, rfl, rfl, hpq⟩ | ⟨hk, hl⟩
    · refine .object fun key => ?_
      rw [Bindings.find?_put, Bindings.find?_put, Primitive.same_left hpq]
      by_cases hq : q.same key = true
      · rw [if_pos hq, if_pos hq, Option.map_some, Option.map_some, hvw]
      · rw [if_neg hq, if_neg hq]
        exact h key
    · rw [hk, hl]
      exact .object h

end SameMembers

/-! ## Access -/

/-- Reading equal containers at equal keys. -/
theorem readMember_congr (hc : c.Distinct) (hc' : c'.Distinct) (h : c.same c' = true)
    (hkl : k.same l = true) :
    EndsAlike (fun m m' => m.same m' = true) (c.readMember k) (c'.readMember l) := by
  have hmembers := (same_iff_sameMembers hc hc').1 h
  have hmaps := hmembers.member? hkl
  rw [readMember_eq, readMember_eq]
  cases hm : c.member? k with
  | none =>
    rw [hm, Option.map_none, eq_comm, Option.map_eq_none_iff] at hmaps
    rw [hmaps]
    exact .error (hmembers.kind_missing k l)
  | some m =>
    rw [hm, Option.map_some, eq_comm, Option.map_eq_some_iff] at hmaps
    obtain ⟨m', hm', heq⟩ := hmaps
    rw [hm']
    exact .ok ((same_iff_normal (hc.member? hm) (hc'.member? hm')).2 heq.symm)

/-- Checking writes to equal containers at equal keys. -/
theorem checkWrite_congr (hc : c.Distinct) (hc' : c'.Distinct) (h : c.same c' = true)
    (hkl : k.same l = true) :
    EndsAlike (fun _ _ => True) (c.checkWrite k) (c'.checkWrite l) :=
  ((same_iff_sameMembers hc hc').1 h).checkWrite hkl

/-- Writing equal values to equal containers at equal keys. -/
theorem writeMember_congr (hc : c.Distinct) (hc' : c'.Distinct) (h : c.same c' = true)
    (hkl : k.same l = true) (hv : v.Distinct) (hw : w.Distinct) (hvw : v.same w = true) :
    EndsAlike (fun d d' => d.same d' = true) (c.writeMember k v) (c'.writeMember l w) := by
  have hmembers := (same_iff_sameMembers hc hc').1 h
  have hnormal := (same_iff_normal hv hw).1 hvw
  have hcheck := hmembers.checkWrite hkl
  rw [writeMember_eq, writeMember_eq]
  generalize c.checkWrite k = check at hcheck
  generalize c'.checkWrite l = check' at hcheck
  cases hcheck with
  | error hkind => exact .error hkind
  | ok _ =>
    have hset := hmembers.setMember hkl hnormal
    exact .ok ((same_iff_sameMembers (hc.setMember k hv) (hc'.setMember l hw)).2 hset)

end Value

/-- Equality is an equivalence, of primitives and of values with unequal keys at
    every depth. Primitives are equal exactly when a hash function is fed the same
    of them, and the order in which entries are stored does not show. In equal
    containers, reading at equal keys ends alike and finds equal values; checks for
    writing end alike; and writing equal values ends alike, with equal containers. -/
theorem equality_respected :
    (Equivalence fun a b : Primitive => a.same b = true) ∧
      (∀ a b : Primitive, a.hashInputs = b.hashInputs ↔ a.same b = true) ∧
      (Equivalence fun v w : {v : Value // v.Distinct} => v.1.same w.1 = true) ∧
      (∀ v v' w w' : Value, v.Distinct → w.Distinct → v.Rearranged v' → w.Rearranged w' →
        v'.same w' = v.same w) ∧
      ∀ c c' k l : Value, c.Distinct → c'.Distinct → c.same c' = true → k.same l = true →
        EndsAlike (fun m m' => m.same m' = true) (c.readMember k) (c'.readMember l) ∧
          EndsAlike (fun _ _ => True) (c.checkWrite k) (c'.checkWrite l) ∧
          ∀ v w : Value, v.Distinct → w.Distinct → v.same w = true →
            EndsAlike (fun d d' => d.same d' = true) (c.writeMember k v) (c'.writeMember l w) := by
  refine ⟨⟨Primitive.same_self, Primitive.same_symm, Primitive.same_trans⟩,
    fun _ _ => Primitive.hashInputs_eq_iff, Value.equivalence_same,
    fun _ _ _ _ => Value.same_of_rearranged, ?_⟩
  intro c c' k l hc hc' h hkl
  refine ⟨Value.readMember_congr hc hc' h hkl, Value.checkWrite_congr hc hc' h hkl, ?_⟩
  intro v w hv hw hvw
  exact Value.writeMember_congr hc hc' h hkl hv hw hvw

/-- The two zeros are one key, and all NaNs are one value there. -/
theorem equality_respected_zeros :
    let zero := Value.double ⟨0⟩
    let negativeZero := Value.double ⟨0x8000000000000000⟩
    let nans := (Primitive.double ⟨0⟩, Value.double ⟨0x7ff8000000000000⟩)
    let nans' := (Primitive.double ⟨0x8000000000000000⟩, Value.double ⟨0xfff8000000000001⟩)
    let ones := (Primitive.int 1, Value.list [.int 1])
    let c := Value.object [nans, ones]
    let c' := Value.object [ones, nans']
    c.Distinct ∧ c'.Distinct ∧ c.same c' = true ∧ zero.same negativeZero = true ∧
      c.Rearranged (.object [ones, nans]) ∧ (Value.object [ones, nans]).same c' = c.same c' ∧
      EndsAlike (fun m m' => m.same m' = true) (c.readMember zero) (c'.readMember negativeZero) ∧
      EndsAlike (fun _ _ => True) (c.checkWrite zero) (c'.checkWrite negativeZero) ∧
      EndsAlike (fun d d' => d.same d' = true) (c.writeMember zero negativeZero)
        (c'.writeMember negativeZero zero) := by
  intro zero negativeZero nans nans' ones c c'
  have hnumber (p : Primitive) : (Value.primitive p).Distinct := .primitive p
  have hones : ones.2.Distinct := .list fun _ hv => List.mem_singleton.1 hv ▸ hnumber _
  have hc : c.Distinct := .object (by decide) fun p hp => by
    simp only [List.mem_cons, List.not_mem_nil, or_false] at hp
    rcases hp with rfl | rfl
    · exact hnumber _
    · exact hones
  have hc' : c'.Distinct := .object (by decide) fun p hp => by
    simp only [List.mem_cons, List.not_mem_nil, or_false] at hp
    rcases hp with rfl | rfl
    · exact hones
    · exact hnumber _
  have hzeros : zero.same negativeZero = true := rfl
  have hsame : c.same c' = true := rfl
  have hrefl : ones.2.Rearranged ones.2 := .list (.cons (.primitive _) .nil)
  have hordered : c.Rearranged (.object [ones, nans]) :=
    .object (.cons (.primitive _) (.cons hrefl .nil)) (List.Perm.swap _ _ _)
  have hordered' : c'.Rearranged c' :=
    .object (.cons hrefl (.cons (.primitive _) .nil)) (List.Perm.refl _)
  obtain ⟨-, -, -, horder, haccess⟩ := equality_respected
  obtain ⟨hread, hcheck, hwrite⟩ := haccess c c' zero negativeZero hc hc' hsame hzeros
  have hsame' := horder c _ c' c' hc hc' hordered hordered'
  have hwritten := hwrite negativeZero zero (hnumber _) (hnumber _) rfl
  exact ⟨hc, hc', hsame, hzeros, hordered, hsame', hread, hcheck, hwritten⟩

end ScopeScript
