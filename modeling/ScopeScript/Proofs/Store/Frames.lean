/-
  ScopeScript.Proofs.Store.Frames

  A store as the list of its frames, oldest first. Each operation of the store
  is one on that list: changing a frame changes one place of it, a definition
  the last place, and a name is looked up from the last frame to the second.
-/
import ScopeScript.Store
import ScopeScript.Proofs.Bindings

namespace ScopeScript
namespace Store

theorem current_eq (s : Store) : s.current = s.frames.getLastD [] := by
  rw [current, frames, List.getLastD_cons, List.getLastD_cons]

theorem frames_modifyFrame (s : Store) (frame : Nat) (change : Object → Object) :
    (s.modifyFrame frame change).frames = s.frames.modify frame change := by
  unfold modifyFrame frames
  split <;> simp [List.modify_succ_cons, List.modify_zero_cons]

theorem frames_bind (s : Store) (frame : Nat) (key : Primitive) (value : Value) :
    (s.bind frame key value).frames = s.frames.modify frame (Bindings.put key value) := by
  have h : (fun f => Object.insert f key value) = Bindings.put key value :=
    funext fun f => Object.insert_eq_put f key value
  rw [bind, frames_modifyFrame, h]

theorem frames_define (s : Store) (key : Primitive) (value : Value) :
    (s.define key value).frames =
      s.frames.modify (s.frames.length - 1) (Bindings.put key value) :=
  frames_bind s (s.depth - 1) key value

theorem binding?_eq (s : Store) (frame : Nat) (key : Primitive) :
    s.binding? frame key = s.frames[frame]?.bind (Bindings.find? key) := by
  unfold binding?
  congr 1
  exact funext fun f => Object.get?_eq_find? f key

theorem frames_descend (s : Store) : s.descend.frames = s.frames ++ [[]] := rfl

theorem frames_ascend {s s' : Store} (h : s.ascend = .ok s') : s'.frames = s.frames.dropLast := by
  rw [ascend] at h
  split at h
  · cases h
  · next hnested =>
    cases h
    have hne : s.nested ≠ [] := by simpa using hnested
    simp only [frames, List.dropLast_cons_of_ne_nil hne, List.dropLast_cons_of_ne_nil
      (List.cons_ne_nil _ s.nested)]

/-! ## Lookup -/

/-- What the last frame of a list that binds a key binds it to. -/
def findLast? {α : Type} (key : Primitive) (fs : List (List (Primitive × α))) : Option α :=
  fs.reverse.findSome? (Bindings.find? key)

theorem findLast?_cons {α : Type} (key : Primitive) (f : List (Primitive × α))
    (fs : List (List (Primitive × α))) :
    findLast? key (f :: fs) = (findLast? key fs).or (Bindings.find? key f) := by
  rw [findLast?, List.reverse_cons, List.findSome?_append]
  cases h : Bindings.find? key f <;> simp [findLast?, h]

section

variable {α : Type} {view : α → Value} {key : Primitive}

/-- If no frame is found, none binds the key, whatever a store shows of what it
    binds. -/
theorem findLast?_of_lastBinding?_none {fs : List (List (Primitive × α))} {first : Nat}
    (h : lastBinding? key (fs.map (Bindings.mapValues view)) first = none) :
    findLast? key fs = none := by
  induction fs generalizing first with
  | nil => rfl
  | cons f fs ih =>
    rw [List.map_cons, lastBinding?, Option.or_eq_none_iff, Object.contains_eq_isSome,
      Bindings.find?_mapValues, Option.isSome_map] at h
    cases hf : Bindings.find? key f with
    | none => rw [findLast?_cons, ih h.1, hf, Option.or_none]
    | some v => simp [hf] at h

/-- The frame that is found binds the key, and to what is found last. -/
theorem findLast?_of_lastBinding? {fs : List (List (Primitive × α))} {first i : Nat}
    (h : lastBinding? key (fs.map (Bindings.mapValues view)) first = some i) :
    ∃ j v, i = first + j ∧ fs[j]?.bind (Bindings.find? key) = some v ∧
      findLast? key fs = some v := by
  induction fs generalizing first with
  | nil => simp [lastBinding?] at h
  | cons f fs ih =>
    rw [List.map_cons, lastBinding?] at h
    cases hr : lastBinding? key (fs.map (Bindings.mapValues view)) (first + 1) with
    | some n =>
      -- A later frame binds the key, and the last one counts.
      rw [hr] at h
      obtain rfl : n = i := by simpa using h
      obtain ⟨j, v, hj, hv, hl⟩ := ih hr
      refine ⟨j + 1, v, by omega, by simpa using hv, ?_⟩
      rw [findLast?_cons, hl]
      rfl
    | none =>
      rw [hr, Object.contains_eq_isSome, Bindings.find?_mapValues, Option.isSome_map] at h
      cases hf : Bindings.find? key f with
      | none => simp [hf] at h
      | some v =>
        rw [hf] at h
        obtain rfl : first = i := by simpa using h
        refine ⟨0, v, rfl, by simpa using hf, ?_⟩
        rw [findLast?_cons, findLast?_of_lastBinding?_none hr, hf]
        rfl

/-- A key that is found nowhere is bound in no frame above the host's. -/
theorem findLast?_of_find?_none {s : Store} {fs : List (List (Primitive × α))}
    (hs : fs.map (Bindings.mapValues view) = s.frames) (h : s.find? key = none) :
    findLast? key fs.tail = none := by
  apply findLast?_of_lastBinding?_none
  rw [List.map_tail, hs]
  exact h

/-- The frame in which a key is found binds it to what is looked up. -/
theorem exists_of_find? {s : Store} {fs : List (List (Primitive × α))} {frame : Nat}
    (hs : fs.map (Bindings.mapValues view) = s.frames) (h : s.find? key = some frame) :
    ∃ v, fs[frame]?.bind (Bindings.find? key) = some v ∧ findLast? key fs.tail = some v := by
  have h' : lastBinding? key (fs.tail.map (Bindings.mapValues view)) 1 = some frame := by
    rw [List.map_tail, hs]
    exact h
  obtain ⟨j, v, rfl, hv, hl⟩ := findLast?_of_lastBinding? h'
  refine ⟨v, ?_, hl⟩
  rw [Nat.add_comm 1 j, ← List.getElem?_tail]
  exact hv

end

/-- A store shows all of what it binds. -/
theorem map_mapValues_id (fs : List Object) : fs.map (Bindings.mapValues id) = fs := by
  rw [show (Bindings.mapValues id : Object → Object) = id from funext Bindings.mapValues_id,
    List.map_id]

/-- A name is never found in the host's frame. -/
theorem find?_ne_zero {s : Store} {key : Primitive} {frame : Nat}
    (h : s.find? key = some frame) : frame ≠ 0 := by
  rw [find?, ← map_mapValues_id (s.global :: s.nested)] at h
  obtain ⟨j, -, rfl, -, -⟩ := findLast?_of_lastBinding? h
  omega

theorem lookup?_eq (s : Store) (key : Primitive) :
    s.lookup? key = findLast? key s.frames.tail := by
  unfold lookup?
  cases h : s.find? key with
  | none => exact (findLast?_of_find?_none (map_mapValues_id s.frames) h).symm
  | some frame =>
    obtain ⟨v, hv, hl⟩ := exists_of_find? (map_mapValues_id s.frames) h
    rw [Option.bind_some, binding?_eq, hv, hl]

end Store
end ScopeScript
