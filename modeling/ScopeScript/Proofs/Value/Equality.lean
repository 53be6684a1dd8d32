/-
  ScopeScript.Proofs.Value.Equality

  Equality of values. A normal form stands for all values equal to it: its
  primitives are canonical and its entries are in the order of their keys
  (`Value.normal`). Values with unequal keys are equal exactly when they have one
  normal form, so equality is an equivalence there, and the order of entries does
  not show in it. The counting is in the equality of objects: as many entries as
  there are, each of them found among the others, are all of the others.
-/
import Mathlib.Data.List.Perm.Subperm
import ScopeScript.Value.Hash
import ScopeScript.Proofs.Value.Rendering

namespace ScopeScript

/-! ## Primitives -/

namespace Primitive

variable {a b : Primitive}

/-- What is canonical stands for itself. -/
theorem canonical_canonical (a : Primitive) : a.canonical.canonical = a.canonical := by
  cases a with
  | int n | string s => rfl
  | double d =>
    show double d.canonical.canonical = double d.canonical
    rw [Double.canonical, Double.isZero_canonical, Double.isNaN_canonical, Double.canonical]
    by_cases hz : d.isZero = true
    · rw [if_pos hz, if_pos hz]
    · rw [if_neg hz, if_neg hz]
      split <;> rfl

theorem same_canonical (a b : Primitive) : a.canonical.same b.canonical = a.same b := by
  rw [Bool.eq_iff_iff, same_iff, same_iff, canonical_canonical, canonical_canonical]

/-- A hash function is fed the same of two primitives exactly when they are equal. -/
theorem hashInputs_eq_iff : a.hashInputs = b.hashInputs ↔ a.same b = true := by
  have hdoubles {c d : Double} : c.bits = d.bits ↔ c = d := by
    cases c
    cases d
    rw [Double.mk.injEq]
  rw [same_iff]
  -- What is fed first tells the kinds apart.
  cases a <;> cases b <;>
    simp [hashInputs, kindIndex, canonical, hdoubles, String.toByteArray_inj]

end Primitive

/-! ## Normal forms -/

namespace Value

mutual

/-- The value that stands for all values equal to this one. -/
def normal : Value → Value
  | primitive p => primitive p.canonical
  | list vs => list (normalAll vs)
  | object o => object (Object.inOrder (normalEntries o))

def normalAll : List Value → List Value
  | [] => []
  | v :: vs => normal v :: normalAll vs

def normalEntries : List (Primitive × Value) → List (Primitive × Value)
  | [] => []
  | (k, v) :: o => (k.canonical, normal v) :: normalEntries o

end

variable {v w : Value} {o o' : Object}

theorem normalEntries_eq_map (o : Object) :
    normalEntries o = o.map fun p => (p.1.canonical, p.2.normal) := by
  induction o with
  | nil => rfl
  | cons p o ih => rw [normalEntries, ih, List.map_cons]

theorem length_normalEntries (o : Object) : (normalEntries o).length = o.length := by
  rw [normalEntries_eq_map, List.length_map]

theorem unequal_normalEntries (h : Bindings.Unequal o) : Bindings.Unequal (normalEntries o) := by
  rw [normalEntries_eq_map, Bindings.Unequal, List.pairwise_map]
  exact h.imp fun hne => (Primitive.same_canonical _ _).trans hne

/-- Objects have one normal form exactly when their entries have the same ones. -/
theorem normal_object_eq_iff (h : Bindings.Unequal o) :
    (object o).normal = (object o').normal ↔ (normalEntries o).Perm (normalEntries o') := by
  rw [normal, normal, object.injEq]
  exact Object.inOrder_eq_iff (unequal_normalEntries h)

/-- No entry stands twice among entries with unequal keys. -/
theorem nodup_of_unequal (h : Bindings.Unequal o) : o.Nodup := by
  refine h.imp ?_
  rintro p q hne rfl
  rw [Primitive.same_self] at hne
  cases hne

/-- A key is bound to a value with a normal form exactly if that entry is there in
    the normal form. -/
theorem mem_normalEntries_iff (h : Bindings.Unequal o) {k : Primitive} {n : Value} :
    (k.canonical, n) ∈ normalEntries o ↔ ∃ v, Bindings.find? k o = some v ∧ v.normal = n := by
  rw [normalEntries_eq_map, List.mem_map]
  constructor
  · rintro ⟨⟨l, v⟩, hmem, heq⟩
    obtain ⟨hkey, rfl⟩ := Prod.mk.inj heq
    have hfind := get?_of_mem h hmem
    rw [Object.get?_eq_find?] at hfind
    refine ⟨v, ?_, rfl⟩
    rw [← hfind]
    exact Bindings.find?_of_same (Primitive.same_symm (Primitive.same_iff.2 hkey)) o
  · rintro ⟨v, hfind, rfl⟩
    obtain ⟨l, hmem, hsame⟩ := Bindings.exists_mem_of_find? hfind
    exact ⟨(l, v), hmem, Prod.ext (Primitive.same_iff.1 hsame) rfl⟩

/-- Entries that are as many as others and all among them are those others. -/
theorem perm_of_subset {ps qs : Object} (hps : Bindings.Unequal ps)
    (hlength : ps.length = qs.length) (hsub : ∀ p ∈ ps, p ∈ qs) : ps.Perm qs :=
  (List.subperm_of_subset (nodup_of_unequal hps) hsub).perm_of_length_le (Nat.le_of_eq hlength.symm)

mutual

/-- Values with unequal keys are equal exactly when they have one normal form. -/
theorem same_iff_normal : ∀ {v w : Value}, v.Distinct → w.Distinct →
    (v.same w = true ↔ v.normal = w.normal)
  | .primitive a, .primitive b, _, _ => by
    rw [same, normal, normal, Primitive.same_iff, primitive.injEq]
  | .list vs, .list ws, .list hvs, .list hws => by
    rw [same, normal, normal, list.injEq]
    exact sameAll_iff_normal hvs hws
  | .object o, .object o', .object keys values, .object keys' values' => by
    have hbound := boundAlike_iff_normal values (.object keys' values')
    rw [same, Bool.and_eq_true, decide_eq_true_eq, hbound, normal_object_eq_iff keys]
    constructor
    · rintro ⟨hlength, hsub⟩
      refine perm_of_subset (unequal_normalEntries keys) ?_ hsub
      rw [length_normalEntries, length_normalEntries, hlength]
    · intro hperm
      have hlength := hperm.length_eq
      rw [length_normalEntries, length_normalEntries] at hlength
      exact ⟨hlength, fun p hp => hperm.subset hp⟩
  | .primitive _, .list _, _, _ | .primitive _, .object _, _, _ | .list _, .primitive _, _, _
  | .list _, .object _, _, _ | .object _, .primitive _, _, _ | .object _, .list _, _, _ => by
    simp only [same, normal, reduceCtorEq]

theorem sameAll_iff_normal : ∀ {vs ws : List Value}, (∀ v ∈ vs, v.Distinct) →
    (∀ w ∈ ws, w.Distinct) → (sameAll vs ws = true ↔ normalAll vs = normalAll ws)
  | [], [], _, _ => by
    rw [sameAll, normalAll]
    exact ⟨fun _ => rfl, fun _ => rfl⟩
  | v :: vs, w :: ws, hvs, hws => by
    obtain ⟨hv, hvs⟩ := List.forall_mem_cons.1 hvs
    obtain ⟨hw, hws⟩ := List.forall_mem_cons.1 hws
    rw [sameAll, Bool.and_eq_true, same_iff_normal hv hw, sameAll_iff_normal hvs hws, normalAll,
      normalAll, List.cons.injEq]
  | [], _ :: _, _, _ | _ :: _, [], _, _ => by
    simp only [sameAll, normalAll, reduceCtorEq]

theorem boundAlike_iff_normal : ∀ {ps o : Object}, (∀ p ∈ ps, p.2.Distinct) →
    (Value.object o).Distinct →
    (boundAlike ps o = true ↔ ∀ e ∈ normalEntries ps, e ∈ normalEntries o)
  | [], _, _, _ => by
    rw [boundAlike, normalEntries]
    exact ⟨fun _ e he => absurd he List.not_mem_nil, fun _ => rfl⟩
  | (k, v) :: ps, o, hps, ho => by
    obtain ⟨hv, hps⟩ := List.forall_mem_cons.1 hps
    have hkeys : Bindings.Unequal o := by
      cases ho with
      | object keys values => exact keys
    rw [boundAlike, Object.get?_eq_find?, normalEntries, List.forall_mem_cons,
      mem_normalEntries_iff hkeys, ← boundAlike_iff_normal hps ho]
    cases hfind : Bindings.find? k o with
    | none =>
      constructor
      · intro h
        cases h
      · rintro ⟨⟨w, hw, -⟩, -⟩
        cases hw
    | some w =>
      have hw : w.Distinct := ho.find? hfind
      show (v.same w && boundAlike ps o) = true ↔ _
      rw [Bool.and_eq_true, same_iff_normal hv hw]
      constructor
      · rintro ⟨heq, hps⟩
        exact ⟨⟨w, rfl, heq.symm⟩, hps⟩
      · rintro ⟨⟨_, hw', heq⟩, hps⟩
        cases hw'
        exact ⟨heq.symm, hps⟩

end

/-! ## Equivalence -/

theorem same_self (h : v.Distinct) : v.same v = true :=
  (same_iff_normal h h).2 rfl

/-- Equality is an equivalence of values with unequal keys. -/
theorem equivalence_same :
    Equivalence fun v w : {v : Value // v.Distinct} => v.1.same w.1 = true where
  refl v := same_self v.2
  symm {v w} h := (same_iff_normal w.2 v.2).2 ((same_iff_normal v.2 w.2).1 h).symm
  trans {u v w} huv hvw := by
    have huv := (same_iff_normal u.2 v.2).1 huv
    have hvw := (same_iff_normal v.2 w.2).1 hvw
    exact (same_iff_normal u.2 w.2).2 (huv.trans hvw)

/-! ## Orders of entries -/

theorem keys_of_rearranged {ps qs : Object} (h : EntriesRearranged ps qs) :
    Bindings.mapValues (fun _ => ()) ps = Bindings.mapValues (fun _ => ()) qs := by
  induction ps generalizing qs with
  | nil =>
    cases h
    rfl
  | cons p ps ih =>
    cases h with
    | cons hv hs => exact congrArg (List.cons (_, ())) (ih hs)

mutual

/-- Keys are unequal in whatever order they are stored. -/
theorem distinct_of_rearranged : ∀ {v w : Value}, v.Distinct → v.Rearranged w → w.Distinct
  | _, _, _, .primitive p => .primitive p
  | _, _, .list elements, .list h => .list (allDistinct_of_rearranged elements h)
  | _, _, .object keys values, .object h hperm => by
    have hkeys := (Bindings.unequal_mapValues fun _ => ()).2 keys
    rw [keys_of_rearranged h, Bindings.unequal_mapValues] at hkeys
    have hvalues := valuesDistinct_of_rearranged values h
    exact .object (hkeys.perm hperm) fun p hp => hvalues p (hperm.symm.subset hp)

theorem allDistinct_of_rearranged : ∀ {vs ws : List Value}, (∀ v ∈ vs, v.Distinct) →
    AllRearranged vs ws → ∀ w ∈ ws, w.Distinct
  | _, _, _, .nil => fun _ hw => absurd hw List.not_mem_nil
  | _, _, hvs, .cons h hs => by
    obtain ⟨hv, hvs⟩ := List.forall_mem_cons.1 hvs
    exact List.forall_mem_cons.2 ⟨distinct_of_rearranged hv h, allDistinct_of_rearranged hvs hs⟩

theorem valuesDistinct_of_rearranged : ∀ {ps qs : Object}, (∀ p ∈ ps, p.2.Distinct) →
    EntriesRearranged ps qs → ∀ q ∈ qs, q.2.Distinct
  | _, _, _, .nil => fun _ hq => absurd hq List.not_mem_nil
  | _, _, hps, .cons h hs => by
    obtain ⟨hv, hps⟩ := List.forall_mem_cons.1 hps
    exact List.forall_mem_cons.2 ⟨distinct_of_rearranged hv h, valuesDistinct_of_rearranged hps hs⟩

end

mutual

/-- Nor does the order of entries show in the normal form. -/
theorem normal_of_rearranged : ∀ {v w : Value}, v.Distinct → v.Rearranged w → v.normal = w.normal
  | _, _, _, .primitive _ => rfl
  | _, _, .list elements, .list h => by
    rw [normal, normal, normalAll_of_rearranged elements h]
  | _, _, .object keys values, .object h hperm => by
    rw [normal_object_eq_iff keys, normalEntries_of_rearranged values h, normalEntries_eq_map,
      normalEntries_eq_map]
    exact hperm.map _

theorem normalAll_of_rearranged : ∀ {vs ws : List Value}, (∀ v ∈ vs, v.Distinct) →
    AllRearranged vs ws → normalAll vs = normalAll ws
  | _, _, _, .nil => rfl
  | _, _, hvs, .cons h hs => by
    obtain ⟨hv, hvs⟩ := List.forall_mem_cons.1 hvs
    rw [normalAll, normalAll, normal_of_rearranged hv h, normalAll_of_rearranged hvs hs]

theorem normalEntries_of_rearranged : ∀ {ps qs : Object}, (∀ p ∈ ps, p.2.Distinct) →
    EntriesRearranged ps qs → normalEntries ps = normalEntries qs
  | _, _, _, .nil => rfl
  | _, _, hps, .cons h hs => by
    obtain ⟨hv, hps⟩ := List.forall_mem_cons.1 hps
    rw [normalEntries, normalEntries, normal_of_rearranged hv h, normalEntries_of_rearranged hps hs]

end

/-- Equality does not tell apart orders of entries, in either of two values. -/
theorem same_of_rearranged {v' w' : Value} (hv : v.Distinct) (hw : w.Distinct)
    (hvv' : v.Rearranged v') (hww' : w.Rearranged w') : v'.same w' = v.same w := by
  rw [Bool.eq_iff_iff, same_iff_normal hv hw, normal_of_rearranged hv hvv',
    normal_of_rearranged hw hww']
  exact same_iff_normal (distinct_of_rearranged hv hvv') (distinct_of_rearranged hw hww')

end Value
end ScopeScript
