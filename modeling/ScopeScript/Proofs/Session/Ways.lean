/-
  ScopeScript.Proofs.Session.Ways

  The way to a target: the containers that all proper beginnings of its keys lead
  to. Whether an address is a target, and which one, is told by the way alone, and
  so are the errors where it is none. What is put elsewhere, but not on the way,
  leaves the address what it is.
-/
import ScopeScript.Proofs.Session.Cells

namespace ScopeScript

/-! ## Beginnings of keys -/

namespace Location

theorem length_le_of_startsWith {path initial : List Value}
    (h : startsWith path initial = true) : initial.length ≤ path.length := by
  induction initial generalizing path with
  | nil => exact Nat.zero_le _
  | cons l initial ih =>
    cases path with
    | nil => cases h
    | cons k path =>
      rw [startsWith, Bool.and_eq_true] at h
      exact Nat.succ_le_succ (ih h.2)

theorem startsWith_append {before initial : List Value} (after : List Value)
    (h : startsWith before initial = true) : startsWith (before ++ after) initial = true := by
  induction initial generalizing before with
  | nil => cases before ++ after <;> rfl
  | cons l initial ih =>
    cases before with
    | nil => cases h
    | cons k before =>
      rw [startsWith, Bool.and_eq_true] at h
      rw [List.cons_append, startsWith, h.1, ih h.2]
      rfl

end Location

/-! ## The way to a target -/

/-- What proper beginnings of some keys lead to in `s` persists in `t`, in all
    frames. -/
structure Store.KeepsWay (keys : List Value) (s t : Store) : Prop where
  depth_eq : t.depth = s.depth
  persists : ∀ frame before after, keys = before ++ after → after ≠ [] →
    Option.Rel Value.Persists (s.at? ⟨frame, before⟩) (t.at? ⟨frame, before⟩)

namespace Value

variable {v w : Value}

/-- Containers of one form are missing a member in the same way. -/
theorem missing_of_persists (h : v.Persists w) (key : Value) : w.missing key = v.missing key := by
  cases v with
  | primitive p => cases h; rfl
  | list es =>
    obtain ⟨fs, rfl, hlength⟩ := h
    rw [missing, missing, hlength]
  | object ps =>
    obtain ⟨qs, rfl, -⟩ := h
    rfl

theorem checkWrite_of_persists (h : v.Persists w) (key : Value) :
    w.checkWrite key = v.checkWrite key := by
  cases v with
  | primitive p => cases h; rfl
  | list es =>
    obtain ⟨fs, rfl, hlength⟩ := h
    rw [checkWrite_list, checkWrite_list, hlength]
  | object ps =>
    obtain ⟨qs, rfl, -⟩ := h
    rfl

/-- A path on which everything persists ends in the same way. -/
theorem walk_of_persists {path : List Key}
    (h : ∀ before after, path.map (·.value) = before ++ after →
      Option.Rel Persists (v.at? before) (w.at? before)) :
    (∃ c d, v.walk path = .ok c ∧ w.walk path = .ok d ∧ c.Persists d) ∨
      ∃ e, v.walk path = .error e ∧ w.walk path = .error e := by
  have hvw : v.Persists w := by
    have hroot := h [] _ rfl
    cases hroot with
    | some hroot => exact hroot
  induction path generalizing v w with
  | nil => exact .inl ⟨v, w, rfl, rfl, hvw⟩
  | cons k path ih =>
    rw [walk, walk, readMember_eq, readMember_eq, missing_of_persists hvw]
    have hmember := h [k.value] (path.map (·.value)) rfl
    simp only [at?] at hmember
    cases hm : v.member? k.value with
    | none =>
      rw [hm] at hmember
      cases hm' : w.member? k.value with
      | none => exact .inr ⟨_, rfl, rfl⟩
      | some m' => rw [hm'] at hmember; cases hmember
    | some m =>
      rw [hm] at hmember
      cases hm' : w.member? k.value with
      | none => rw [hm'] at hmember; cases hmember
      | some m' =>
        rw [hm'] at hmember
        cases hmember with
        | some hmm' =>
          refine ih (fun before after hpath => ?_) hmm'
          have hbelow := h (k.value :: before) after (congrArg (k.value :: ·) hpath)
          rw [at?, at?, hm, hm'] at hbelow
          exact hbelow

end Value

namespace Store

variable {s t : Store}

theorem Logged.rel_persists {log : List Location} (h : s.Logged log t) {p : Location}
    (hp : log.any (·.covers p) = false) : Option.Rel Value.Persists (s.at? p) (t.at? p) := by
  cases hs : s.at? p with
  | some v =>
    obtain ⟨w, hw, hvw⟩ := h.kept p v hs hp
    rw [hw]
    exact .some hvw
  | none =>
    cases ht : t.at? p with
    | none => exact .none
    | some w =>
      rw [h.covered p w ht hs] at hp
      cases hp

/-- What is put at a location to which no proper beginning of the keys leads keeps
    their way. -/
theorem Puts.keepsWay {p : Location} {x : Value} (h : s.Puts p x t) {keys : List Value}
    (hp : ∀ before after, keys = before ++ after → after ≠ [] →
      Location.startsWith before p.keys = false) : KeepsWay keys s t where
  depth_eq := h.depth_eq
  persists frame before after hkeys hafter := by
    refine h.logged.rel_persists ?_
    rw [List.any_cons, List.any_nil, Bool.or_false, Location.covers, hp before after hkeys hafter,
      Bool.and_false]

/-- What is put at the keys themselves keeps their way. -/
theorem Puts.keepsWay_self {p : Location} {x : Value} (h : s.Puts p x t) : KeepsWay p.keys s t := by
  refine h.keepsWay fun before after hkeys hafter => Bool.eq_false_iff.2 fun hstart => ?_
  have hle := Location.length_le_of_startsWith hstart
  have hpos := List.length_pos_iff.2 hafter
  rw [hkeys, List.length_append] at hle
  omega

/-- What is put at a location that does not lead to the keys keeps their way. -/
theorem Puts.keepsWay_of_apart {p : Location} {x : Value} (h : s.Puts p x t) {keys : List Value}
    (hkeys : Location.startsWith keys p.keys = false) : KeepsWay keys s t := by
  refine h.keepsWay fun before after hsplit _ => Bool.eq_false_iff.2 fun hstart => ?_
  rw [hsplit, Location.startsWith_append after hstart] at hkeys
  cases hkeys

/-- The last frame that binds a key is one that is told by the keys of the frames. -/
theorem lastBinding?_congr {key : Primitive} {fs gs : List Object}
    (h : List.Forall₂ (fun f g => f.contains key = g.contains key) fs gs) (first : Nat) :
    lastBinding? key fs first = lastBinding? key gs first := by
  induction h generalizing first with
  | nil => rfl
  | cons hfg _ ih => rw [lastBinding?, lastBinding?, ih, hfg]

section

variable {root : Primitive} {rest : List Value}

/-- In each frame the root is bound to what persists, or to nothing in both stores. -/
theorem KeepsWay.rel_binding? (h : KeepsWay (.primitive root :: rest) s t) (hrest : rest ≠ [])
    (frame : Nat) :
    Option.Rel Value.Persists (s.binding? frame root) (t.binding? frame root) := by
  have hroot := h.persists frame [.primitive root] rest rfl hrest
  rw [at?_root, at?_root] at hroot
  cases hs : s.binding? frame root <;> cases ht : t.binding? frame root <;>
    rw [hs, ht] at hroot <;> exact hroot

theorem KeepsWay.find?_eq (h : KeepsWay (.primitive root :: rest) s t) (hrest : rest ≠ []) :
    t.find? root = s.find? root := by
  have hframes : List.Forall₂ (fun f g => f.contains root = g.contains root) t.frames s.frames := by
    refine List.forall₂_iff_get.2 ⟨h.depth_eq, fun i hi hi' => ?_⟩
    have hbound := h.rel_binding? hrest i
    rw [binding?_eq, binding?_eq, List.getElem?_eq_getElem hi, List.getElem?_eq_getElem hi',
      Option.bind_some, Option.bind_some] at hbound
    rw [List.get_eq_getElem, List.get_eq_getElem, Object.contains_eq_isSome,
      Object.contains_eq_isSome]
    generalize Bindings.find? root s.frames[i] = v, Bindings.find? root t.frames[i] = w at hbound
    cases hbound <;> rfl
  cases hframes with
  | cons _ htail => exact lastBinding?_congr htail 1

/-- From what the root is bound to, the rest of the way is kept too. -/
theorem KeepsWay.rel_at? {keys : List Value} {key v w : Value} {frame : Nat}
    (h : KeepsWay (.primitive root :: (keys ++ [key])) s t)
    (hv : s.binding? frame root = some v) (hw : t.binding? frame root = some w)
    {before after : List Value} (hkeys : keys = before ++ after) :
    Option.Rel Value.Persists (v.at? before) (w.at? before) := by
  have hbelow := h.persists frame (.primitive root :: before) (after ++ [key])
    (by rw [hkeys, List.append_assoc]; rfl) (by simp)
  rw [at?_root, at?_root, hv, hw] at hbelow
  exact hbelow

end

/-- Where its way is kept, an address resolves to the same target or fails in the
    same way. -/
theorem KeepsWay.resolve_eq {keys : List Key} (h : KeepsWay (keys.map (·.value)) s t) :
    Target.resolve t keys false = Target.resolve s keys false := by
  rcases keys with - | ⟨⟨v, span⟩, rest⟩
  · rfl
  · rcases List.eq_nil_or_concat rest with rfl | ⟨path, key, rfl⟩
    · -- A name is bound in the newest frame, whatever the store.
      rfl
    · rw [List.concat_eq_append] at h ⊢
      rw [Target.resolve_member, Target.resolve_member, Target.ofMember, Target.ofMember]
      cases v with
      | list es => rfl
      | object ps => rfl
      | primitive root =>
        rw [List.map_cons, List.map_append, List.map_cons, List.map_nil] at h
        have hrest : path.map (·.value) ++ [key.value] ≠ [] := by simp
        simp only [h.find?_eq hrest]
        cases s.find? root with
        | none => rfl
        | some frame =>
          have hbound := h.rel_binding? hrest frame
          cases hs : s.binding? frame root with
          | none =>
            rw [hs] at hbound
            cases ht : t.binding? frame root with
            | none => simp only [hs, ht]
            | some w => rw [ht] at hbound; cases hbound
          | some v =>
            rw [hs] at hbound
            cases ht : t.binding? frame root with
            | none => rw [ht] at hbound; cases hbound
            | some w =>
              simp only [hs, ht]
              rcases Value.walk_of_persists fun _ _ hpath => h.rel_at? hs ht hpath with
                ⟨c, d, hc, hd, hcd⟩ | ⟨e, hv, hw⟩
              · -- The containers at the end of the path take the same members.
                rw [hc, hd]
                show Value.atKey key (d.checkWrite key.value) >>= _ =
                  Value.atKey key (c.checkWrite key.value) >>= _
                rw [Value.checkWrite_of_persists hcd]
              · rw [hv, hw]

end Store
end ScopeScript
