/-
  ScopeScript.Proofs.Session.Cells

  Targets as cells of the store. An assignment resolves its address to a location
  (`Target.place`). What the address reads and what an assignment takes for the
  old value is what stands there, and a write that is not dropped puts its value
  there.
-/
import ScopeScript.Proofs.Session.WriteLog

namespace ScopeScript

/-- A path is walked to what it reaches. -/
theorem Value.walk_eq_ok_iff {v w : Value} {path : List Key} :
    v.walk path = .ok w ↔ v.at? (path.map (·.value)) = some w := by
  induction path generalizing v with
  | nil =>
    rw [walk, List.map_nil, at?, Except.ok.injEq, Option.some.injEq]
  | cons k path ih =>
    rw [walk, List.map_cons, at?, readMember_eq]
    cases v.member? k.value with
    | none => constructor <;> intro h <;> cases h
    | some m => exact ih

/-! ## Locations in stores -/

namespace Store

/-- What stands below a root that a frame binds. -/
theorem at?_root (s : Store) (frame : Nat) (root : Primitive) (keys : List Value) :
    s.at? ⟨frame, .primitive root :: keys⟩ = (s.binding? frame root).bind (·.at? keys) := by
  rw [at?, binding?_eq]
  cases s.frames[frame]? <;> rfl

/-- What stands under a name in the newest frame. -/
theorem at?_name (s : Store) (name : Primitive) :
    s.at? ⟨s.depth - 1, [.primitive name]⟩ = Bindings.find? name s.current := by
  rw [at?_root, binding?_eq, frames_current, Option.bind_some]
  cases Bindings.find? name s.current <;> rfl

/-- A name that the newest frame binds is looked up there. -/
theorem lookup?_of_current {s : Store} {name : Primitive} {v : Value}
    (h : Bindings.find? name s.current = some v) : s.lookup? name = some v := by
  rw [lookup?_eq, frames, List.tail_cons]
  rw [current] at h
  rcases List.eq_nil_or_concat s.nested with hnil | ⟨older, newest, hconcat⟩
  · rw [hnil] at h ⊢
    exact (findLast?_cons name s.global []).trans h
  · rw [List.concat_eq_append] at hconcat
    rw [hconcat, List.getLastD_concat] at h
    rw [hconcat, findLast?, ← List.cons_append, List.reverse_append, List.reverse_singleton,
      List.singleton_append, List.findSome?_cons, h]

end Store

/-! ## Targets -/

namespace Target

/-- The location that a target names. -/
def place (store : Store) : Target → Location
  | name n => ⟨store.depth - 1, [.primitive n]⟩
  | member frame root _ path key =>
    ⟨frame, .primitive root :: (path.map (·.value) ++ [key.value])⟩

/-- A write to a target is dropped if the container that was resolved, when there
    were `mark` writes, has been replaced since then. -/
def dropped (target : Target) (mark : Nat) (s : Session) : Bool :=
  match target with
  | name _ => false
  | member frame root _ path _ => (writesSince mark s).any (·.covers (home frame root path))

theorem place_eq {store store' : Store} (h : store'.depth = store.depth) (target : Target) :
    target.place store' = target.place store := by
  cases target with
  | name n => rw [place, place, h]
  | member => rfl

/-- A write that is not dropped puts its value at the location of the target. -/
theorem puts_of_commit {target : Target} {mark : Nat} {value : Value} {s s' : Session}
    (h : target.commit mark value s = .ok () s') (hopen : target.dropped mark s = false) :
    s.store.Puts (target.place s.store) value s'.store := by
  cases target with
  | name n =>
    cases h
    exact s.store.puts_define n value
  | member frame root span path key =>
    rw [commit_member, if_neg (by rw [← dropped, hopen]; decide)] at h
    cases hroot : s.store.binding? frame root with
    | none => rw [hroot] at h; cases h
    | some old =>
      rw [hroot] at h
      simp only at h
      split at h
      · cases h
      · next changed hchanged =>
        cases h
        exact Store.puts_bind hroot hchanged

variable {s : Session} {store : Store} {keys : List Key} {target : Target} {old : Option Value}
  {v : Value}

/-- An address reads what stands where its target is. -/
theorem readAddress_of_found (h : target.Found s.store keys)
    (hv : s.store.at? (target.place s.store) = some v) :
    Session.readAddress keys s = .ok v s := by
  cases h with
  | name n span =>
    rw [place, Store.at?_name] at hv
    rw [Session.readAddress, read, Value.primitive?, Option.bind_some,
      Store.lookup?_of_current hv]
    rfl
  | @member frame root hfind span path key =>
    rw [place, Store.at?_root, Option.bind_eq_some_iff] at hv
    obtain ⟨bound, hbound, hv⟩ := hv
    have hlookup : s.store.lookup? root = some bound := by
      rw [Store.lookup?, hfind]
      exact hbound
    have hwalk : bound.walk (path ++ [key]) = .ok v := by
      rw [Value.walk_eq_ok_iff, List.map_append]
      exact hv
    simp only [Session.readAddress, read, Value.primitive?, Option.bind_some, hlookup, hwalk]

/-- What an address of more than one key reads is what stands where its target is. -/
theorem found_of_read {head key : Key} {path : List Key}
    (h : read store head (path ++ [key]) = .ok v) :
    ∃ target, Found store (head :: (path ++ [key])) target ∧
      store.at? (place store target) = some v := by
  obtain ⟨w, span⟩ := head
  rw [read] at h
  cases w with
  | list es => cases h
  | object ps => cases h
  | primitive root =>
    rw [Value.primitive?, Option.bind_some, Store.lookup?] at h
    cases hfind : store.find? root with
    | none => rw [hfind] at h; cases h
    | some frame =>
      rw [hfind, Option.bind_some] at h
      cases hbound : store.binding? frame root with
      | none => rw [hbound] at h; cases h
      | some bound =>
        rw [hbound] at h
        have hv := Value.walk_eq_ok_iff.1 h
        rw [List.map_append] at hv
        refine ⟨_, .member hfind span path key, ?_⟩
        rw [place, Store.at?_root, hbound]
        exact hv

/-- What an address names is a target of it if something stands there. -/
theorem resolve_of_found (h : Found store keys target)
    (hv : store.at? (target.place store) = some v) :
    resolve store keys false = .ok (target, none) := by
  cases h with
  | name n span => rfl
  | @member frame root hfind span path key =>
    rw [place, Store.at?_root, Option.bind_eq_some_iff] at hv
    obtain ⟨bound, hbound, hv⟩ := hv
    rw [Value.at?_append, Option.bind_eq_some_iff] at hv
    obtain ⟨container, hcontainer, hv⟩ := hv
    rw [Value.at?, Option.bind_eq_some_iff] at hv
    obtain ⟨m, hm, -⟩ := hv
    rw [resolve_member, ofMember]
    simp only [hfind, hbound, Value.walk_eq_ok_iff.2 hcontainer]
    show Value.atKey key (container.checkWrite key.value) >>= _ = _
    rw [Value.checkWrite_of_member? hm]
    rfl

theorem Found.keys_place (h : Found store keys target) :
    (target.place store).keys = keys.map (·.value) := by
  cases h with
  | name n span => rfl
  | member hfind span path key =>
    rw [place, List.map_cons, List.map_append]
    rfl

/-- Addresses of the same keys name something in the same stores. -/
theorem Found.exists_of_map_eq {keys' : List Key} (h : Found store keys target)
    (hkeys : keys'.map (·.value) = keys.map (·.value)) : ∃ target', Found store keys' target' := by
  rcases keys' with - | ⟨⟨w, span'⟩, rest⟩
  · cases h <;> cases hkeys
  · cases h with
    | name n span =>
      rw [List.map_cons, List.map_cons, List.map_nil] at hkeys
      obtain ⟨rfl, hrest⟩ := List.cons.inj hkeys
      rw [List.map_eq_nil_iff.1 hrest]
      exact ⟨_, .name n span'⟩
    | @member frame root hfind span path key =>
      obtain ⟨rfl, hrest⟩ := List.cons.inj hkeys
      rcases List.eq_nil_or_concat rest with rfl | ⟨path', key', rfl⟩
      · simp at hrest
      · rw [List.concat_eq_append]
        exact ⟨_, .member hfind span' path' key'⟩

/-- What addresses of the same keys name is one place. -/
theorem Found.place_eq {keys' : List Key} {target' : Target} (h : Found store keys target)
    (h' : Found store keys' target') (hkeys : keys'.map (·.value) = keys.map (·.value)) :
    target'.place store = target.place store := by
  cases h with
  | name n span =>
    cases h' with
    | name n' span' => cases hkeys; rfl
    | member hfind' span' path' key' => simp at hkeys
  | @member frame root hfind span path key =>
    cases h' with
    | name n' span' => simp at hkeys
    | member hfind' span' path' key' =>
      obtain ⟨hroot, hrest⟩ := List.cons.inj hkeys
      cases hroot
      rw [hfind] at hfind'
      cases hfind'
      rw [List.map_append, List.map_append] at hrest
      exact congrArg (fun keys => Location.mk frame (.primitive root :: keys)) hrest

/-- The old value of a target is what stands where the target is. -/
theorem old_of_resolve (h : resolve store keys true = .ok (target, old)) :
    ∃ v, old = some v ∧ store.at? (target.place store) = some v := by
  rcases keys with - | ⟨head, rest⟩
  · cases h
  · rcases List.eq_nil_or_concat rest with rfl | ⟨path, key, rfl⟩
    · obtain ⟨u, hu, h⟩ := Value.exists_of_bind h
      obtain ⟨n, hn, h⟩ := Value.exists_of_bind h
      cases h
      obtain ⟨w, span⟩ := head
      cases w <;> cases hn
      rw [Value.readObject, Value.primitive?, Option.bind_some] at hu
      cases hget : Object.get? store.current n with
      | none => rw [hget] at hu; cases hu
      | some w =>
        rw [hget] at hu
        cases hu
        rw [Object.get?_eq_find?] at hget
        exact ⟨w, rfl, (store.at?_name n).trans hget⟩
    · rw [List.concat_eq_append, resolve_member] at h
      obtain ⟨w, span⟩ := head
      rw [ofMember] at h
      cases w with
      | list es => cases h
      | object ps => cases h
      | primitive root =>
        cases hfind : store.find? root with
        | none => simp only [hfind] at h; cases h
        | some frame =>
          simp only [hfind] at h
          cases hbound : store.binding? frame root with
          | none => simp only [hbound] at h; cases h
          | some value =>
            simp only [hbound] at h
            obtain ⟨container, hwalk, h⟩ := Value.exists_of_bind h
            obtain ⟨u, hu, h⟩ := Value.exists_of_bind h
            obtain ⟨_, -, h⟩ := Value.exists_of_bind h
            cases h
            rw [Value.readMember_eq] at hu
            cases hm : container.member? key.value with
            | none => rw [hm] at hu; cases hu
            | some m =>
              rw [hm] at hu
              cases hu
              refine ⟨m, rfl, ?_⟩
              rw [place, Store.at?_root, hbound, Option.bind_some, Value.at?_append,
                Value.walk_eq_ok_iff.1 hwalk, Option.bind_some, Value.at?, hm]
              rfl

theorem old_eq_none (h : resolve store keys false = .ok (target, old)) : old = none := by
  rcases keys with - | ⟨head, rest⟩
  · cases h
  · rcases List.eq_nil_or_concat rest with rfl | ⟨path, key, rfl⟩
    · obtain ⟨o, ho, h⟩ := Value.exists_of_bind h
      obtain ⟨n, -, h⟩ := Value.exists_of_bind h
      cases h
      cases ho
      rfl
    · rw [List.concat_eq_append, resolve_member] at h
      cases hroot : head.value.primitive?.bind store.lookup? with
      | none => rw [ofMember_of_unknown hroot] at h; cases h
      | some value =>
        obtain ⟨frame, root, heq⟩ := ofMember_of_lookup path key false hroot
        rw [heq] at h
        obtain ⟨container, -, h⟩ := Value.exists_of_bind h
        obtain ⟨o, ho, h⟩ := Value.exists_of_bind h
        obtain ⟨_, -, h⟩ := Value.exists_of_bind h
        cases h
        cases ho
        rfl

end Target
end ScopeScript
