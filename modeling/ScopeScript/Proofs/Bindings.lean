/-
  ScopeScript.Proofs.Bindings

  Lists of bindings of keys to anything. A key is bound to what stands beside
  the first key equal to it, and binding it again changes that place only; a key
  that is not bound is bound at the end. So keys stay unequal (`Unequal`).
  Objects are such lists; so are the frames and objects of other stores of the
  same language, which is why the laws are stated for any bound thing.
-/
import ScopeScript.Proofs.KeyEquality

namespace ScopeScript
namespace Bindings

variable {α β : Type} {key k l : Primitive} {ps qs : List (Primitive × α)}

/-- What a key is bound to. -/
def find? (key : Primitive) : List (Primitive × α) → Option α
  | [] => none
  | (k, a) :: rest => if k.same key then some a else find? key rest

/-- Bind a key. One that is equal to it keeps its place and its own form. -/
def put (key : Primitive) (a : α) : List (Primitive × α) → List (Primitive × α)
  | [] => [(key, a)]
  | (k, b) :: rest => if k.same key then (k, a) :: rest else (k, b) :: put key a rest

/-- Change what is bound; the keys stay. -/
def mapValues (f : α → β) (ps : List (Primitive × α)) : List (Primitive × β) :=
  ps.map fun p => (p.1, f p.2)

theorem mapValues_id (ps : List (Primitive × α)) : mapValues id ps = ps := by
  rw [mapValues]
  exact List.map_id ps

/-! ## Finding -/

/-- Equal keys find the same. -/
theorem find?_of_same (h : k.same l = true) (ps : List (Primitive × α)) :
    find? k ps = find? l ps := by
  induction ps with
  | nil => rfl
  | cons p ps ih => simp only [find?, Primitive.same_right h, ih]

theorem find?_mapValues (f : α → β) (key : Primitive) (ps : List (Primitive × α)) :
    find? key (mapValues f ps) = (find? key ps).map f := by
  induction ps with
  | nil => rfl
  | cons p ps ih =>
    simp only [mapValues, List.map_cons, find?]
    split
    · rfl
    · exact ih

/-! ## Binding -/

/-- After a binding the key finds the new thing and any other key what it found
    before. -/
theorem find?_put (key : Primitive) (a : α) (k : Primitive) (ps : List (Primitive × α)) :
    find? k (put key a ps) = if key.same k then some a else find? k ps := by
  induction ps with
  | nil => rfl
  | cons p ps ih =>
    unfold put
    by_cases h : p.1.same key = true
    · rw [if_pos h]
      simp only [find?, Primitive.same_left h]
      split <;> rfl
    · rw [if_neg h]
      simp only [find?]
      by_cases hk : p.1.same k = true
      · -- The first key is not the bound one, so a key equal to it is not either.
        have hn : ¬ key.same k = true := fun h' =>
          h (Primitive.same_trans hk (Primitive.same_symm h'))
        rw [if_pos hk, if_neg hn, if_pos hk]
      · rw [if_neg hk, if_neg hk, ih]

theorem find?_put_of_same (h : k.same l = true) (a : α) (ps : List (Primitive × α)) :
    find? l (put k a ps) = some a := by
  rw [find?_put, if_pos h]

theorem find?_put_of_ne (h : ¬ k.same l = true) (a : α) (ps : List (Primitive × α)) :
    find? l (put k a ps) = find? l ps := by
  rw [find?_put, if_neg h]

theorem put_mapValues (f : α → β) (key : Primitive) (a : α) (ps : List (Primitive × α)) :
    put key (f a) (mapValues f ps) = mapValues f (put key a ps) := by
  induction ps with
  | nil => rfl
  | cons p ps ih =>
    simp only [mapValues, List.map_cons, put]
    split
    · rfl
    · rw [List.map_cons]
      exact congrArg _ ih

/-- A key that is bound has an equal one, and binding it again changes what stands
    beside that and nothing else. -/
theorem exists_of_find? {a : α} (h : find? key ps = some a) : ∃ before k after,
    ps = before ++ (k, a) :: after ∧ k.same key = true ∧
      ∀ b, put key b ps = before ++ (k, b) :: after := by
  induction ps with
  | nil => cases h
  | cons p ps ih =>
    obtain ⟨k, c⟩ := p
    rw [find?] at h
    by_cases hk : k.same key = true
    · rw [if_pos hk] at h
      cases h
      refine ⟨[], k, ps, rfl, hk, fun b => ?_⟩
      rw [put, if_pos hk]
      rfl
    · rw [if_neg hk] at h
      obtain ⟨before, l, after, rfl, hl, hput⟩ := ih h
      refine ⟨(k, c) :: before, l, after, rfl, hl, fun b => ?_⟩
      rw [put, if_neg hk, hput]
      rfl

theorem exists_mem_of_find? {a : α} (h : find? key ps = some a) :
    ∃ k, (k, a) ∈ ps ∧ k.same key = true := by
  obtain ⟨before, k, after, rfl, hk, -⟩ := exists_of_find? h
  exact ⟨k, List.mem_append_right _ List.mem_cons_self, hk⟩

/-- A key is not bound exactly if none is equal to it. -/
theorem find?_eq_none_iff : find? key ps = none ↔ ∀ p ∈ ps, p.1.same key = false := by
  induction ps with
  | nil => exact ⟨fun _ p hp => absurd hp List.not_mem_nil, fun _ => rfl⟩
  | cons p ps ih =>
    rw [find?, List.forall_mem_cons, ← ih]
    by_cases hp : p.1.same key = true
    · rw [if_pos hp, hp]
      simp only [reduceCtorEq, false_and]
    · rw [if_neg hp]
      exact ⟨fun h => ⟨Bool.eq_false_iff.2 hp, h⟩, fun h => h.2⟩

/-- A key that is not bound is bound at the end. -/
theorem put_of_find?_eq_none (h : find? key ps = none) (a : α) :
    put key a ps = ps ++ [(key, a)] := by
  induction ps with
  | nil => rfl
  | cons p ps ih =>
    rw [find?] at h
    by_cases hp : p.1.same key = true
    · rw [if_pos hp] at h
      cases h
    · rw [if_neg hp] at h
      rw [put, if_neg hp, ih h, List.cons_append]

/-- What is bound after a binding is what was bound before it, or the new thing. -/
theorem mem_put {p : Primitive × α} {a : α} (h : p ∈ put key a ps) : p.2 = a ∨ p ∈ ps := by
  cases hfind : find? key ps with
  | some b =>
    obtain ⟨before, k, after, rfl, -, hput⟩ := exists_of_find? hfind
    rw [hput] at h
    rcases List.mem_append.1 h with h | h
    · exact .inr (List.mem_append_left _ h)
    · rcases List.mem_cons.1 h with rfl | h
      · exact .inl rfl
      · exact .inr (List.mem_append_right _ (List.mem_cons_of_mem _ h))
  | none =>
    rw [put_of_find?_eq_none hfind a] at h
    rcases List.mem_append.1 h with h | h
    · exact .inr h
    · obtain rfl := List.mem_singleton.1 h
      exact .inl rfl

/-! ## Unequal keys -/

/-- No two keys are equal. -/
def Unequal {α : Type} (ps : List (Primitive × α)) : Prop :=
  ps.Pairwise fun p q => p.1.same q.1 = false

instance {α : Type} (ps : List (Primitive × α)) : Decidable (Unequal ps) :=
  inferInstanceAs (Decidable (ps.Pairwise fun p q => p.1.same q.1 = false))

theorem Unequal.perm (h : Unequal ps) (hperm : ps.Perm qs) : Unequal qs :=
  hperm.pairwise h Primitive.same_eq_false_symm

theorem unequal_mapValues (f : α → β) : Unequal (mapValues f ps) ↔ Unequal ps := by
  rw [Unequal, mapValues, List.pairwise_map]
  rfl

/-- A binding keeps the keys there, or adds one that is equal to none. -/
theorem Unequal.put (h : Unequal ps) (key : Primitive) (a : α) : Unequal (put key a ps) := by
  cases hfind : find? key ps with
  | some b =>
    obtain ⟨before, k, after, rfl, -, hput⟩ := exists_of_find? hfind
    rw [hput]
    have hkeys : Unequal (mapValues (fun _ => ()) (before ++ (k, b) :: after)) :=
      (unequal_mapValues _).2 h
    rw [← unequal_mapValues (fun _ => ())]
    rw [mapValues, List.map_append, List.map_cons] at hkeys ⊢
    exact hkeys
  | none =>
    have hne := find?_eq_none_iff.1 hfind
    rw [put_of_find?_eq_none hfind]
    refine List.pairwise_append.2 ⟨h, List.pairwise_singleton _ _, ?_⟩
    intro p hp q hq
    obtain rfl := List.mem_singleton.1 hq
    exact hne p hp

end Bindings

/-! ## Objects -/

namespace Object

theorem get?_eq_find? (o : Object) (key : Primitive) : o.get? key = Bindings.find? key o := by
  induction o with
  | nil => rfl
  | cons p o ih => simp only [get?, Bindings.find?, ih]

theorem insert_eq_put (o : Object) (key : Primitive) (v : Value) :
    o.insert key v = Bindings.put key v o := by
  induction o with
  | nil => rfl
  | cons p o ih => simp only [insert, Bindings.put, ih]

theorem insert_of_find?_eq_none {o : Object} {key : Primitive} (h : Bindings.find? key o = none)
    (v : Value) : o.insert key v = o ++ [(key, v)] := by
  rw [insert_eq_put]
  exact Bindings.put_of_find?_eq_none h v

theorem contains_eq_isSome (o : Object) (key : Primitive) :
    o.contains key = (Bindings.find? key o).isSome := by
  rw [contains, get?_eq_find?]

end Object

end ScopeScript
