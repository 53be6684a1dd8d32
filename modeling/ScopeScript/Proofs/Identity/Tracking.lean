/-
  ScopeScript.Proofs.Identity.Tracking

  What a log of written locations tells about containers. Along any run whose
  writes are in the log, the container at a location is still there, of the same
  kind and length, if no write covers the location; otherwise its identity is
  gone, and an identity that is gone does not come back (`State.Tracks`). One
  write is tracked by the location that was written, and tracked runs compose.
-/
import ScopeScript.Proofs.Identity.Path
import ScopeScript.Proofs.Identity.Semantics

namespace ScopeScript
namespace Identity
namespace State

open Stored

/-! ## Locations -/

/-- How many containers in a list of frames have an identity. -/
def countFrames (id : Nat) : List Frame → Nat
  | [] => 0
  | f :: frames => countEntries id f + countFrames id frames

/-- How many containers in the store have an identity. -/
def count (s : State) (id : Nat) : Nat :=
  countFrames id s.frames

/-- What stands at a path of keys from a frame. -/
def inFrame? (f : Frame) : List Value → Option Stored
  | [] => none
  | k :: path => (k.primitive?.bind (Bindings.find? · f)).bind (·.at? path)

/-- What stands at a location. -/
def at? (s : State) (p : Location) : Option Stored :=
  s.frames[p.frame]?.bind (inFrame? · p.keys)

/-- Identities are unique, and new ones are not in use. -/
structure Distinct (s : State) : Prop where
  once : ∀ id, s.count id ≤ 1
  unused : ∀ id, s.next ≤ id → s.count id = 0

/-- What has happened to the containers of `s` in `s'` after the writes of a
    log. -/
structure Tracks (s : State) (log : List Location) (s' : State) : Prop where
  next_le : s.next ≤ s'.next
  gone : ∀ id, id < s.next → s.count id = 0 → s'.count id = 0
  lost : ∀ p c i, s.at? p = some c → log.any (·.covers p) = true → c.id? = some i →
    s'.count i = 0
  kept : ∀ p c, s.at? p = some c → log.any (·.covers p) = false →
    ∃ c', s'.at? p = some c' ∧ c.Persists c'

/-! ## Counting -/

theorem countEntries_le_of_getElem? {frames : List Frame} {n : Nat} {f : Frame}
    (h : frames[n]? = some f) (id : Nat) :
    countEntries id f ≤ countFrames id frames := by
  induction frames generalizing n with
  | nil => simp at h
  | cons g frames ih =>
    rw [countFrames]
    cases n with
    | zero =>
      obtain rfl : g = f := by simpa using h
      exact Nat.le_add_right _ _
    | succ n => exact Nat.le_trans (ih (by simpa using h)) (Nat.le_add_left _ _)

theorem countFrames_modify {frames : List Frame} {n : Nat} {f : Frame}
    (h : frames[n]? = some f) (change : Frame → Frame) (id : Nat) :
    countFrames id (frames.modify n change) + countEntries id f =
      countFrames id frames + countEntries id (change f) := by
  induction frames generalizing n with
  | nil => simp at h
  | cons g frames ih =>
    cases n with
    | zero =>
      obtain rfl : g = f := by simpa using h
      rw [List.modify_zero_cons, countFrames, countFrames]
      omega
    | succ n =>
      have := ih (n := n) (by simpa using h)
      rw [List.modify_succ_cons, countFrames, countFrames]
      omega

/-- The identities at a location are identities of the store. -/
theorem count_at?_le {s : State} {p : Location} {c : Stored} (h : s.at? p = some c) (id : Nat) :
    c.count id ≤ s.count id := by
  rw [at?, Option.bind_eq_some_iff] at h
  obtain ⟨f, hf, hc⟩ := h
  refine Nat.le_trans ?_ (countEntries_le_of_getElem? hf id)
  cases hk : p.keys with
  | nil => rw [hk] at hc; cases hc
  | cons k path =>
    rw [hk, inFrame?, Option.bind_eq_some_iff] at hc
    obtain ⟨m, hm, hc⟩ := hc
    rw [Option.bind_eq_some_iff] at hm
    obtain ⟨root, -, hm⟩ := hm
    exact Nat.le_trans (Stored.count_at?_le hc id) (count_find?_le hm id)

/-- A container at a location has an identity below the next one. -/
theorem Distinct.lt_next {s : State} (h : s.Distinct) {p : Location} {c : Stored} {i : Nat}
    (hc : s.at? p = some c) (hi : c.id? = some i) : i < s.next := by
  have h1 := count_at?_le hc i
  have h2 := count_pos_of_id? hi
  have h3 := h.unused i
  omega

/-! ## Runs -/

namespace Tracks

theorem refl (s : State) : s.Tracks [] s where
  next_le := Nat.le_refl _
  gone _ _ h := h
  lost _ _ _ _ h := by cases h
  kept _ c h _ := ⟨c, h, .refl c⟩

/-- After one run and then another the logs are one log. -/
theorem trans {s t u : State} {log log' : List Location} (hs : s.Distinct)
    (h : s.Tracks log t) (h' : t.Tracks log' u) : s.Tracks (log' ++ log) u where
  next_le := Nat.le_trans h.next_le h'.next_le
  gone id hid hz := h'.gone id (Nat.lt_of_lt_of_le hid h.next_le) (h.gone id hid hz)
  lost p c i hc hany hi := by
    rw [List.any_append, Bool.or_eq_true] at hany
    cases hl : log.any (·.covers p) with
    | true =>
      -- Lost in the first run: the second one does not use the identity again.
      have hlt := Nat.lt_of_lt_of_le (hs.lt_next hc hi) h.next_le
      exact h'.gone i hlt (h.lost p c i hc hl hi)
    | false =>
      obtain ⟨c', hc', hp⟩ := h.kept p c hc hl
      refine h'.lost p c' i hc' ?_ (hp.id?_eq.trans hi)
      exact hany.resolve_right (by rw [hl]; decide)
  kept p c hc hany := by
    rw [List.any_append, Bool.or_eq_false_iff] at hany
    obtain ⟨c', hc', hp⟩ := h.kept p c hc hany.2
    obtain ⟨c'', hc'', hp'⟩ := h'.kept p c' hc' hany.1
    exact ⟨c'', hc'', hp.trans hp'⟩

end Tracks

/-! ## One write -/

/-- A write that binds `root` in the frame `f` to `x`: it changes what is bound
    there at the keys `rest` and below only, where it takes the identities of what
    it replaces away and adds those of `new`. -/
structure Replaces (s : State) (frame : Nat) (root : Primitive) (rest : List Value) (f : Frame)
    (x new : Stored) (s' : State) : Prop where
  frame_eq : s.frames[frame]? = some f
  frames_eq : s'.frames = s.frames.modify frame (Bindings.put root x)
  between : Between s.next s'.next fun id => Stored.count id new
  count_eq : ∀ id, x.count id + held id (s.at? ⟨frame, .primitive root :: rest⟩) =
    held id (Bindings.find? root f) + new.count id
  persists : ∀ m q e, Bindings.find? root f = some m → m.at? q = some e →
    ¬ Location.startsWith q rest = true → ∃ e', x.at? q = some e' ∧ e.Persists e'

namespace Replaces

variable {s s' : State} {frame : Nat} {root : Primitive} {rest : List Value} {f : Frame}
  {x new : Stored}

/-- The identities of the store before and after a write. -/
theorem balance (h : s.Replaces frame root rest f x new s') (id : Nat) :
    s'.count id + held id (s.at? ⟨frame, .primitive root :: rest⟩) = s.count id + new.count id := by
  have h1 := countFrames_modify h.frame_eq (Bindings.put root x) id
  have h2 := countEntries_put root x f id
  have h3 := h.count_eq id
  rw [count, h.frames_eq, count]
  omega

theorem distinct (hs : s.Distinct) (h : s.Replaces frame root rest f x new s') : s'.Distinct := by
  constructor
  · intro id
    -- An identity of the new value is not in use, and any other one is not in it.
    have hbalance := h.balance id
    have hnew := h.between.once id
    have hwithin := h.between.within id
    have hold := hs.once id
    have hunused := hs.unused id
    omega
  · intro id hid
    have hbalance := h.balance id
    have hwithin := h.between.within id
    have hle := h.between.le
    have hunused := hs.unused id
    omega

/-- What is at a location that the write covers loses its identity. -/
theorem lost (hs : s.Distinct) (h : s.Replaces frame root rest f x new s')
    {p : Location} {c : Stored} {i : Nat} (hc : s.at? p = some c)
    (hp : Location.covers ⟨frame, .primitive root :: rest⟩ p = true) (hi : c.id? = some i) :
    s'.count i = 0 := by
  have hlt := hs.lt_next hc hi
  rw [Location.covers, Bool.and_eq_true, decide_eq_true_eq] at hp
  obtain ⟨rfl, hp⟩ := hp
  -- What the location holds is inside what the write replaces.
  have hin : c.count i ≤ held i (s.at? ⟨p.frame, .primitive root :: rest⟩) := by
    rw [at?, Option.bind_eq_some_iff] at hc
    obtain ⟨g, hg, hc⟩ := hc
    cases hk : p.keys with
    | nil => rw [hk] at hc; cases hc
    | cons k q =>
      rw [hk, Location.startsWith, Bool.and_eq_true] at hp
      rw [hk, inFrame?, Option.bind_eq_some_iff] at hc
      obtain ⟨m, hm, hc⟩ := hc
      cases k with
      | primitive k =>
        obtain ⟨y, r, hy, hr⟩ := Stored.at?_of_startsWith hc hp.2
        have hfind : Bindings.find? root g = some m := by
          rw [← Bindings.find?_of_same (show k.same root = true from hp.1)]
          exact hm
        rw [at?, hg, Option.bind_some, inFrame?]
        simp only [Value.primitive?, Option.bind_some, hfind, hy, held]
        exact Stored.count_at?_le hr i
      | list es => cases hp.1
      | object ps => cases hp.1
  have hbalance := h.balance i
  have hwithin := h.between.within i
  have hone := hs.once i
  have hpos := count_pos_of_id? hi
  omega

/-- What is at any other location persists. -/
theorem kept (h : s.Replaces frame root rest f x new s') {p : Location} {c : Stored}
    (hc : s.at? p = some c)
    (hp : Location.covers ⟨frame, .primitive root :: rest⟩ p = false) :
    ∃ c', s'.at? p = some c' ∧ c.Persists c' := by
  rw [at?, Option.bind_eq_some_iff] at hc
  obtain ⟨g, hg, hc⟩ := hc
  by_cases hframe : frame = p.frame
  · subst hframe
    obtain rfl : f = g := by
      rw [h.frame_eq] at hg
      exact Option.some.inj hg
    have hg' : s'.frames[p.frame]? = some (Bindings.put root x f) := by
      rw [h.frames_eq, List.getElem?_modify_eq, hg]
      rfl
    rw [at?, hg', Option.bind_some]
    cases hk : p.keys with
    | nil => rw [hk] at hc; cases hc
    | cons k q =>
      rw [hk, inFrame?, Option.bind_eq_some_iff] at hc
      obtain ⟨m, hm, hc⟩ := hc
      rw [Option.bind_eq_some_iff] at hm
      obtain ⟨k', hk', hm⟩ := hm
      rw [inFrame?, hk', Option.bind_some]
      by_cases hs : root.same k' = true
      · rw [Bindings.find?_put_of_same hs, Option.bind_some]
        rw [← Bindings.find?_of_same hs] at hm
        -- A location below the written member would be covered.
        refine h.persists m q c hm hc fun hstart => ?_
        rw [Location.covers, hk, Location.startsWith, hstart] at hp
        cases k with
        | primitive k =>
          obtain rfl : k = k' := by simpa [Value.primitive?] using hk'
          simp [Value.same, Primitive.same_symm hs] at hp
        | list es => cases hk'
        | object ps => cases hk'
      · refine ⟨c, ?_, .refl c⟩
        rw [Bindings.find?_put_of_ne hs, hm]
        exact hc
  · refine ⟨c, ?_, .refl c⟩
    rw [at?, h.frames_eq, List.getElem?_modify_ne _ _ hframe, hg]
    exact hc

/-- One write is tracked by where it wrote. -/
theorem tracks (hs : s.Distinct) (h : s.Replaces frame root rest f x new s') :
    s.Tracks [⟨frame, .primitive root :: rest⟩] s' where
  next_le := h.between.le
  gone id hid hz := by
    have hbalance := h.balance id
    have hwithin := h.between.within id
    omega
  lost p c i hc hany hi := h.lost hs hc (by simpa using hany) hi
  kept p c hc hany := h.kept hc (by simpa using hany)

end Replaces

/-! ## The two ways of writing -/

/-- A definition replaces what the name was bound to in the newest frame. -/
theorem replaces_define {s : State} {f : Frame}
    (hf : s.frames[s.frames.length - 1]? = some f) (name : Primitive) (value : Value) :
    s.Replaces (s.frames.length - 1) name [] f (fresh s.next value).1 (fresh s.next value).1
      (s.define name value) where
  frame_eq := hf
  frames_eq := rfl
  between := between_fresh s.next value
  count_eq id := by
    rw [at?, hf, Option.bind_some, inFrame?]
    simp only [Value.primitive?, Option.bind_some, Stored.at?, Option.bind_fun_some]
    omega
  persists m q e _ _ hq := absurd (by cases q <;> rfl) hq

/-- A write to a container that is in no frame changes none. -/
theorem map_writeEntries_of_count_eq_zero {i : Nat} (key : Value) (new : Stored) (fs : List Frame)
    (h : countFrames i fs = 0) : fs.map (writeEntries i key new) = fs := by
  induction fs with
  | nil => rfl
  | cons g fs ih =>
    rw [countFrames] at h
    rw [List.map_cons, writeEntries_of_count_eq_zero new g (by omega), ih (by omega)]

/-- A write to a container that is in one frame changes only that. -/
theorem map_writeEntries_eq_modify {fs : List Frame} {frame i : Nat} {f : Frame}
    (hf : fs[frame]? = some f) (hpos : 0 < countEntries i f)
    (hone : countFrames i fs ≤ 1) (key : Value) (new : Stored) :
    fs.map (writeEntries i key new) = fs.modify frame (writeEntries i key new) := by
  induction fs generalizing frame with
  | nil => simp at hf
  | cons g fs ih =>
    rw [countFrames] at hone
    cases frame with
    | zero =>
      obtain rfl : g = f := by simpa using hf
      have hfs : countFrames i fs = 0 := by omega
      rw [List.modify_zero_cons, List.map_cons, map_writeEntries_of_count_eq_zero key new fs hfs]
    | succ n =>
      rw [List.getElem?_cons_succ] at hf
      have := countEntries_le_of_getElem? hf i
      rw [List.modify_succ_cons, List.map_cons, writeEntries_of_count_eq_zero new g (by omega),
        ih hf (by omega)]

/-- A write to the container at a location changes its frame at the path to the
    member. -/
theorem frames_write {s : State} (hs : s.Distinct) {frame : Nat} {f : Frame} {root : Primitive}
    {m d : Stored} {path : List Value} {i : Nat} (hf : s.frames[frame]? = some f)
    (hm : Bindings.find? root f = some m) (hd : m.at? path = some d) (hi : d.id? = some i)
    (key value : Value) :
    (s.write i key value).frames = s.frames.modify frame
      (Bindings.put root (m.setAt key (fresh s.next value).1 path)) := by
  have hpos : 0 < m.count i := Nat.lt_of_lt_of_le (count_pos_of_id? hi) (Stored.count_at?_le hd i)
  have hone : countFrames i s.frames ≤ 1 := hs.once i
  have hfm := count_find?_le hm i
  have hframe : countEntries i f ≤ 1 := Nat.le_trans (countEntries_le_of_getElem? hf i) hone
  have hput : writeEntries i key (fresh s.next value).1 f = _ :=
    writeEntries_eq_put hm hpos hframe _
  rw [write_eq_setAt hd hi (by omega)] at hput
  show s.frames.map (writeEntries i key (fresh s.next value).1) = _
  rw [map_writeEntries_eq_modify hf (by omega) hone]
  apply List.ext_getElem?
  intro n
  rw [List.getElem?_modify, List.getElem?_modify]
  by_cases hn : frame = n
  · subst hn
    simp [hf, hput]
  · simp [hn]

/-- A write to the container at a location replaces its member. -/
theorem replaces_write {s : State} (hs : s.Distinct) {frame : Nat} {f : Frame} {root : Primitive}
    {m d : Stored} {path : List Value} {key : Value} {i : Nat} (hf : s.frames[frame]? = some f)
    (hm : Bindings.find? root f = some m) (hd : m.at? path = some d)
    (hw : d.writable key = .ok i) (value : Value) :
    s.Replaces frame root (path ++ [key]) f (m.setAt key (fresh s.next value).1 path)
      (fresh s.next value).1 (s.write i key value) where
  frame_eq := hf
  frames_eq := frames_write hs hf hm hd (id?_of_writable hw) key value
  between := between_fresh s.next value
  count_eq id := by
    have := count_setAt hd hw (fresh s.next value).1 id
    rw [at?, hf, Option.bind_some, inFrame?]
    simp only [Value.primitive?, Option.bind_some, hm, held] at this ⊢
    exact this
  persists m' q e hm' he hq := by
    obtain rfl : m = m' := by
      rw [hm] at hm'
      exact Option.some.inj hm'
    exact at?_setAt hd hw _ he hq

end State
end Identity
end ScopeScript
