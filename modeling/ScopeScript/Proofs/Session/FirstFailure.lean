/-
  ScopeScript.Proofs.Session.FirstFailure

  Where an error comes from. Each form of tree has its own ways to fail
  (`Raises`), each with the range that its error has: that of the tree, or that of
  a key that cannot be used. In the course of an evaluation that fails there is
  one node that fails in such a way; what has ended before it has succeeded, and
  the nodes around it, which end behind it, fail with the same error.
-/
import ScopeScript.Proofs.Session.Course
import ScopeScript.Proofs.Session.ErrorPlaces

namespace ScopeScript

/-! ## Addresses that lead nowhere -/

namespace Value

/-- A walk fails at the first key that the container found so far does not have. -/
theorem exists_of_walk_eq_error {v : Value} {path : List Key} {e : RuntimeError}
    (h : v.walk path = .error e) : ∃ before key after container f,
      path = before ++ key :: after ∧ v.walk before = .ok container ∧
      container.readMember key.value = .error f ∧ e = ⟨f, some key.span⟩ := by
  induction path generalizing v with
  | nil => cases h
  | cons k path ih =>
    rw [walk] at h
    cases hread : v.readMember k.value with
    | error f =>
      rw [hread] at h
      cases h
      exact ⟨[], k, path, v, f, rfl, rfl, hread, rfl⟩
    | ok member =>
      rw [hread] at h
      obtain ⟨before, key, after, container, f, rfl, hwalk, hkey, rfl⟩ := ih h
      refine ⟨k :: before, key, after, container, f, rfl, ?_, hkey, rfl⟩
      rw [walk, hread]
      exact hwalk

end Value

namespace Target

/-- An address leads to a value only up to a key: that is the first one and bound
    nowhere, or what is found before it has no such member. -/
inductive BreaksAt (store : Store) : List Key → Key → RuntimeFault → Prop where
  | root {head : Key} (path : List Key) (h : head.value.primitive?.bind store.lookup? = none) :
    BreaksAt store (head :: path) head (.unknownIdentifier head.value.text)
  | member {head key : Key} {before : List Key} {container : Value} {f : RuntimeFault}
      (after : List Key) (hread : read store head before = .ok container)
      (h : container.readMember key.value = .error f) :
    BreaksAt store (head :: (before ++ key :: after)) key f

variable {store : Store} {head : Key} {path : List Key} {e : RuntimeError}

theorem read_of_lookup {value : Value} (h : head.value.primitive?.bind store.lookup? = some value)
    (path : List Key) : read store head path = value.walk path := by
  rw [read, h]

theorem read_of_unknown (h : head.value.primitive?.bind store.lookup? = none) (path : List Key) :
    read store head path = .error (unknown head) := by
  rw [read, h]

theorem breaksAt_of_walk {value : Value}
    (hroot : head.value.primitive?.bind store.lookup? = some value)
    (h : value.walk path = .error e) :
    ∃ key f, e = ⟨f, some key.span⟩ ∧ BreaksAt store (head :: path) key f := by
  obtain ⟨before, key, after, container, f, rfl, hwalk, hkey, rfl⟩ :=
    Value.exists_of_walk_eq_error h
  have hread : read store head before = .ok container := by
    rw [read_of_lookup hroot, hwalk]
  exact ⟨key, f, rfl, .member after hread hkey⟩

theorem breaksAt_of_read (h : read store head path = .error e) :
    ∃ key f, e = ⟨f, some key.span⟩ ∧ BreaksAt store (head :: path) key f := by
  cases hroot : head.value.primitive?.bind store.lookup? with
  | none =>
    rw [read_of_unknown hroot] at h
    cases h
    exact ⟨head, _, rfl, .root path hroot⟩
  | some value =>
    rw [read_of_lookup hroot] at h
    exact breaksAt_of_walk hroot h

theorem BreaksAt.mem {keys : List Key} {key : Key} {f : RuntimeFault}
    (h : BreaksAt store keys key f) : key ∈ keys := by
  cases h with
  | root => exact List.mem_cons_self
  | member => exact List.mem_cons_of_mem _ (List.mem_append_right _ List.mem_cons_self)

end Target

/-! ## Ways to fail -/

/-- The keys of a tree: those of its address, or those of an object's entries. -/
def Expr.keys : Expr → List Expr
  | read _ address | assign _ address _ _ => address
  | object _ entries => entries.map Prod.fst
  | _ => []

/-- All keys of an address have values in the session; the last one leaves the
    session `s'`. -/
structure Keyed (s : Session) (address : List Expr) (keys : List Key) (s' : Session) : Prop where
  below_limit : s.depth < s.limit
  evaluated : evaluateAll address s.entered = .ok keys s'

/-- In the session the tree itself fails, while all of its parts that are evaluated
    have values: with which fault, and at which range. -/
inductive Raises : Expr → Session → RuntimeFault → Span → Prop where
  /-- There is no room for one more evaluation. -/
  | limit {t : Expr} {s : Session} (h : s.limit ≤ s.depth) :
    Raises t s (.stackOverflow s.limit) t.span
  /-- What is read is not there. -/
  | read {span : Span} {address : List Expr} {s s' : Session} {keys : List Key} {key : Key}
      {f : RuntimeFault} (h : Keyed s address keys s')
      (hkey : Target.BreaksAt s'.store keys key f) :
    Raises (.read span address) s f key.span
  /-- The empty address is assigned to. -/
  | noTarget {span : Span} {right : Expr} {yieldsOld : Bool} {s : Session}
      (h : s.depth < s.limit) :
    Raises (.assign span [] right yieldsOld) s
      (.invalidState "assignment to an empty address") span
  /-- The container of a member that is assigned to is not there. -/
  | container {span : Span} {address : List Expr} {right : Expr} {yieldsOld : Bool}
      {s s' : Session} {keys : List Key} {last key : Key} {f : RuntimeFault}
      (h : Keyed s address (keys ++ [last]) s') (hkey : Target.BreaksAt s'.store keys key f) :
    Raises (.assign span address right yieldsOld) s f key.span
  /-- The old value of a name is wanted, and the newest frame has none. -/
  | oldName {span : Span} {address : List Expr} {right : Expr} {s s' : Session} {key : Key}
      {f : RuntimeFault} (h : Keyed s address [key] s')
      (hkey : Value.readObject s'.store.current key.value = .error f) :
    Raises (.assign span address right true) s f key.span
  /-- What is to be bound is not a key. -/
  | name {span : Span} {address : List Expr} {right : Expr} {s s' : Session} {key : Key}
      {f : RuntimeFault} (h : Keyed s address [key] s') (hkey : key.value.toKey = .error f) :
    Raises (.assign span address right false) s f key.span
  /-- The old value of a member is wanted, and there is none. -/
  | oldMember {span : Span} {address : List Expr} {right : Expr} {s s' : Session}
      {head key : Key} {path : List Key} {container : Value} {f : RuntimeFault}
      (h : Keyed s address (head :: (path ++ [key])) s')
      (hread : Target.read s'.store head path = .ok container)
      (hkey : container.readMember key.value = .error f) :
    Raises (.assign span address right true) s f key.span
  /-- The container cannot have the member. -/
  | member {span : Span} {address : List Expr} {right : Expr} {s s' : Session}
      {head key : Key} {path : List Key} {container : Value} {f : RuntimeFault}
      (h : Keyed s address (head :: (path ++ [key])) s')
      (hread : Target.read s'.store head path = .ok container)
      (hkey : container.checkWrite key.value = .error f) :
    Raises (.assign span address right false) s f key.span
  /-- The operator has no value for the operands. -/
  | operation {span : Span} {op : BinaryOp} {left right : Expr} {s s₁ s₂ : Session} {a b : Value}
      {f : RuntimeFault} (h : s.depth < s.limit) (hleft : evaluate left s.entered = .ok a s₁)
      (hright : evaluate right s₁ = .ok b s₂) (hop : op.apply a b = .error f) :
    Raises (.binary span op left right) s f span
  /-- The key of an entry is not a primitive. -/
  | key {span : Span} {before after : List (Expr × Expr)} {key value : Expr} {s s₁ s₂ : Session}
      {o : Object} {k : Value} {f : RuntimeFault} (h : s.depth < s.limit)
      (hbefore : evaluateEntries [] before s.entered = .ok o s₁)
      (hkey : evaluate key s₁ = .ok k s₂) (hfault : k.toKey = .error f) :
    Raises (.object span (before ++ (key, value) :: after)) s f key.span
  /-- Calls are not evaluated. -/
  | call {span : Span} {callee arguments : List Expr} {s : Session} (h : s.depth < s.limit) :
    Raises (.call span callee arguments) s (.unsupportedNodeKind "function call") span

/-- The segment that the key of an address is the value of. -/
theorem Keyed.exists_segment {s s' : Session} {address : List Expr} {keys : List Key} {key : Key}
    (h : Keyed s address keys s') (hkey : key ∈ keys) : ∃ e ∈ address, key.span = e.span := by
  have hmem : key.span ∈ address.map Expr.span := by
    rw [← spans_of_evaluateAll h.evaluated]
    exact List.mem_map_of_mem hkey
  obtain ⟨e, he, hspan⟩ := List.mem_map.1 hmem
  exact ⟨e, he, hspan.symm⟩

/-- A tree fails at its own range or at that of a key of it. -/
theorem Raises.place {t : Expr} {s : Session} {f : RuntimeFault} {place : Span}
    (h : Raises t s f place) : place = t.span ∨ ∃ key ∈ t.keys, place = key.span := by
  cases h with
  | limit | noTarget | operation | call => exact .inl rfl
  | read h hkey => exact .inr (h.exists_segment hkey.mem)
  | container h hkey => exact .inr (h.exists_segment (List.mem_append_left _ hkey.mem))
  | oldName h | name h => exact .inr (h.exists_segment (List.mem_singleton_self _))
  | oldMember h | member h =>
    refine .inr (h.exists_segment (List.mem_cons_of_mem _ ?_))
    exact List.mem_append_right _ (List.mem_singleton_self _)
  | key =>
    refine .inr ⟨_, ?_, rfl⟩
    rw [Expr.keys, List.map_append]
    exact List.mem_append_right _ List.mem_cons_self

/-- The tree fails in the session with this error, and none of its parts does. -/
def OwnError (t : Expr) (s : Session) (e : RuntimeError) : Prop :=
  ∃ f place, e = ⟨f, some place⟩ ∧ Raises t s f place

section OwnErrors

variable {s s' : Session} {span : Span} {address : List Expr} {keys : List Key}

/-- What is read fails at a key, if it fails. -/
theorem ownError_readAddress (h : Keyed s address keys s') {e : RuntimeError} {s₁ : Session}
    (herr : Session.readAddress keys s' = .error e s₁) :
    OwnError (.read span address) s (e.located span) := by
  cases keys with
  | nil => cases herr
  | cons head path =>
    rw [Session.readAddress] at herr
    cases hread : Target.read s'.store head path with
    | ok v =>
      rw [hread] at herr
      cases herr
    | error e' =>
      rw [hread] at herr
      cases herr
      obtain ⟨key, f, rfl, hkey⟩ := Target.breaksAt_of_read hread
      exact ⟨f, key.span, rfl, .read h hkey⟩

/-- A target fails at a key, or at the assignment if it has no key. -/
theorem ownError_target {right : Expr} {yieldsOld : Bool} (h : Keyed s address keys s')
    {e : RuntimeError} (hfaulty : Target.Faulty s'.store keys yieldsOld e) :
    OwnError (.assign span address right yieldsOld) s (e.located span) := by
  cases hfaulty with
  | empty =>
    have hspans := spans_of_evaluateAll h.evaluated
    obtain rfl : address = [] := List.map_eq_nil_iff.1 hspans.symm
    exact ⟨_, span, rfl, .noTarget h.below_limit⟩
  | oldName hkey => exact ⟨_, _, rfl, .oldName h hkey⟩
  | key hkey => exact ⟨_, _, rfl, .name h hkey⟩
  | @root head path key _ hroot =>
    have hkeys : Keyed s address ((head :: path) ++ [key]) s' := h
    exact ⟨_, _, rfl, .container hkeys (.root path hroot)⟩
  | @path head path value e key _ hroot hwalk =>
    have hkeys : Keyed s address ((head :: path) ++ [key]) s' := h
    obtain ⟨broken, f, rfl, hbreaks⟩ := Target.breaksAt_of_walk hroot hwalk
    exact ⟨f, broken.span, rfl, .container hkeys hbreaks⟩
  | oldMember hroot hwalk hkey =>
    have hread := (Target.read_of_lookup hroot _).trans hwalk
    exact ⟨_, _, rfl, .oldMember h hread hkey⟩
  | member hroot hwalk hkey =>
    have hread := (Target.read_of_lookup hroot _).trans hwalk
    exact ⟨_, _, rfl, .member h hread hkey⟩

end OwnErrors

/-! ## Turns of trees -/

section Parts

variable {t : Expr} {own : RuntimeError → Prop}

theorem takesTurns_courseAll {first : Nat} {es : List Expr}
    (hparts : ∀ i e, es[i]? = some e → t.parts[first + i]? = some e) (s : Session) :
    TakesTurns t own (courseAll first es) s := by
  induction es generalizing first s with
  | nil => exact .pure _
  | cons e es ih =>
    rw [courseAll]
    refine .bind (.part (hparts 0 e rfl)) fun v s₁ _ => ?_
    refine .bind (ih (fun i e' he' => ?_) s₁) fun keys s₂ _ => .pure _
    have hpart := hparts (i + 1) e' he'
    rwa [show first + (i + 1) = first + 1 + i by omega] at hpart

/-- The keys and values of entries, one pair after another. -/
def entryParts (entries : List (Expr × Expr)) : List Expr :=
  entries.flatMap fun (k, v) => [k, v]

theorem takesTurns_courseEntries {first : Nat} {o : Object} {entries : List (Expr × Expr)}
    {s : Session} (hparts : ∀ i e, (entryParts entries)[i]? = some e → t.parts[first + i]? = some e)
    (hown : ∀ before key value after o₁ s₁ k s₂ f, entries = before ++ (key, value) :: after →
      evaluateEntries o before s = .ok o₁ s₁ → evaluate key s₁ = .ok k s₂ → k.toKey = .error f →
      own ⟨f, some key.span⟩) :
    TakesTurns t own (courseEntries first o entries) s := by
  induction entries generalizing first o s with
  | nil => exact .pure _
  | cons entry entries ih =>
    obtain ⟨key, value⟩ := entry
    rw [courseEntries]
    refine .bind (.part (hparts 0 key rfl)) fun k s₁ hk => ?_
    rw [Course.run_part, run_course] at hk
    refine .bind (.step fun e s₂ he => ?_) fun name s₂ hname => ?_
    · -- The key is not a primitive, and this is its first use.
      cases hkey : k.toKey with
      | ok name =>
        rw [hkey] at he
        cases he
      | error f =>
        rw [hkey] at he
        cases he
        exact hown [] key value entries o s k s₁ f rfl rfl hk hkey
    · refine .bind (.part (hparts 1 value rfl)) fun v s₃ hv => ?_
      rw [Course.run_step] at hname
      rw [Course.run_part, run_course] at hv
      refine ih (fun i e he => ?_) ?_
      · have hpart := hparts (i + 2) e he
        rwa [show first + (i + 2) = first + 2 + i by omega] at hpart
      · intro before key' value' after o₁ s₄ k' s₅ f hentries hbefore hkey' hfault
        refine hown ((key, value) :: before) key' value' after o₁ s₄ k' s₅ f ?_ ?_ hkey' hfault
        · rw [hentries, List.cons_append]
        · rw [evaluateEntries, Action.bind_of_ok hk, Action.bind_of_ok hname,
            Action.bind_of_ok hv]
          exact hbefore

end Parts

/-- A tree evaluates its parts one after another, up to one that fails, and fails
    with the error of that part or with its own. -/
theorem exists_turns (t : Expr) (s : Session) : ∃ turns,
    (course t).ended s = turns.flatMap Turn.ended ++ [⟨[], t, s⟩] ∧
    (∀ turn ∈ turns, t.parts[turn.number]? = some turn.part) ∧
    Fate (OwnError t s) (evaluate t s) turns := by
  rw [← run_course]
  have hlimit : s.limit ≤ s.depth → OwnError t s ⟨.stackOverflow s.limit, some t.span⟩ :=
    fun hle => ⟨_, _, rfl, .limit hle⟩
  cases t with
  | int span n | double span d | string span text =>
    rw [course]
    exact TakesTurns.whole hlimit fun _ => .pure _
  | read span address =>
    rw [course]
    refine TakesTurns.whole hlimit fun hlt => ?_
    refine .bind (takesTurns_courseAll (fun i e he => ?_) _) fun keys s₁ hkeys => ?_
    · rwa [Nat.zero_add]
    · rw [run_courseAll] at hkeys
      exact .step fun e s₂ he => ownError_readAddress ⟨hlt, hkeys⟩ he
  | assign span address right yieldsOld =>
    rw [course]
    refine TakesTurns.whole hlimit fun hlt => ?_
    refine .bind (takesTurns_courseAll (fun i e he => ?_) _) fun keys s₁ hkeys => ?_
    · rwa [Nat.add_comm]
    rw [run_courseAll] at hkeys
    have hdepth := Assignment.depth_pos_of_evaluateAll hkeys
    refine .bind (.step fun e s₂ he => nomatch he) fun s₂ s₃ hs => ?_
    cases hs
    refine .bind (.step fun e s₂ he => ?_) fun r s₂ hr => ?_
    · obtain ⟨hres, -⟩ := Action.error_of_ofExcept he
      exact ownError_target ⟨hlt, hkeys⟩ (Target.resolve_eq_error_iff.1 hres)
    · rw [Course.run_step] at hr
      obtain ⟨hres, rfl⟩ := Action.ok_of_ofExcept hr
      refine .bind (.part rfl) fun value s₄ hvalue => ?_
      rw [Course.run_part, run_course] at hvalue
      -- Behind the right-hand side nothing fails.
      obtain ⟨-, s₅, hcommit⟩ := Assignment.exists_commit hdepth hres hvalue
      refine .bind (.step fun e s₆ he => ?_) fun _ _ _ => .pure _
      rw [hcommit] at he
      cases he
  | binary span op left right =>
    rw [course]
    refine TakesTurns.whole hlimit fun hlt => ?_
    refine .bind (.part rfl) fun a s₁ ha => ?_
    refine .bind (.part rfl) fun b s₂ hb => ?_
    rw [Course.run_part, run_course] at ha hb
    refine .step fun e s₃ he => ?_
    obtain ⟨f, hop, rfl, rfl⟩ := Action.exists_fault_of_ofFault he
    exact ⟨f, span, rfl, .operation hlt ha hb hop⟩
  | list span elements =>
    rw [course]
    refine TakesTurns.whole hlimit fun hlt => ?_
    refine .bind (takesTurns_courseAll (fun i e he => ?_) _) fun _ _ _ => .pure _
    rwa [Nat.zero_add]
  | object span entries =>
    rw [course]
    refine TakesTurns.whole hlimit fun hlt => ?_
    refine .bind (takesTurns_courseEntries (fun i e he => ?_) ?_) fun _ _ _ => .pure _
    · rwa [Nat.zero_add]
    · intro before key value after o₁ s₁ k s₂ f hentries hbefore hkey hfault
      subst hentries
      exact ⟨f, key.span, rfl, .key hlt hbefore hkey hfault⟩
  | call span callee arguments =>
    rw [course]
    refine TakesTurns.whole hlimit fun hlt => .step fun e s₁ he => ?_
    cases he
    exact ⟨_, span, rfl, .call hlt⟩

/-! ## The whole course -/

theorem Turn.mem_ended {turn : Turn} {v : Ended} (h : v ∈ turn.ended) :
    ∃ w ∈ (course turn.part).ended turn.session, v = w.below turn.number := by
  obtain ⟨w, hw, rfl⟩ := List.mem_map.1 h
  exact ⟨w, hw, rfl⟩

/-- What has ended is a node of the tree, at its place. -/
theorem node_of_mem_ended {t : Expr} {s : Session} {v : Ended} (h : v ∈ (course t).ended s) :
    t.node? v.place = some v.node := by
  induction t using Expr.parts_induction generalizing s v with
  | step t ih =>
    obtain ⟨turns, hended, hparts, -⟩ := exists_turns t s
    rw [hended] at h
    rcases List.mem_append.1 h with h | h
    · obtain ⟨turn, hturn, hv⟩ := List.mem_flatMap.1 h
      obtain ⟨w, hw, rfl⟩ := Turn.mem_ended hv
      have hpart := hparts turn hturn
      have hnode := ih turn.part (List.mem_of_getElem? hpart) hw
      show (t.parts[turn.number]?.bind fun part => part.node? w.place) = some w.node
      rw [hpart]
      exact hnode
    · obtain rfl := List.mem_singleton.1 h
      rfl

/-- Where a tree has a value, everything in its course has. -/
theorem succeeds_of_evaluate_eq_ok {t : Expr} {s s' : Session} {a : Value}
    (h : evaluate t s = .ok a s') {v : Ended} (hv : v ∈ (course t).ended s) : v.Succeeds := by
  induction t using Expr.parts_induction generalizing s s' a v with
  | step t ih =>
    obtain ⟨turns, hended, hparts, hfate⟩ := exists_turns t s
    rw [h] at hfate
    cases hfate with
    | ok hturns =>
      rw [hended] at hv
      rcases List.mem_append.1 hv with hv | hv
      · obtain ⟨turn, hturn, hv⟩ := List.mem_flatMap.1 hv
        obtain ⟨w, hw, rfl⟩ := Turn.mem_ended hv
        obtain ⟨b, s₁, hrun⟩ := hturns turn hturn
        have hpart := hparts turn hturn
        have hsucceeds : w.Succeeds := ih turn.part (List.mem_of_getElem? hpart) hrun hw
        exact hsucceeds
      · obtain rfl := List.mem_singleton.1 hv
        exact ⟨a, s', h⟩

/-- What ends before the turn of a part has succeeded, if the turns before it have. -/
theorem succeeds_of_turns {turns : List Turn} (h : ∀ turn ∈ turns, turn.Succeeds) :
    ∀ v ∈ turns.flatMap Turn.ended, v.Succeeds := by
  intro v hv
  obtain ⟨turn, hturn, hv⟩ := List.mem_flatMap.1 hv
  obtain ⟨w, hw, rfl⟩ := Turn.mem_ended hv
  obtain ⟨a, s', hrun⟩ := h turn hturn
  have hsucceeds : w.Succeeds := succeeds_of_evaluate_eq_ok hrun hw
  exact hsucceeds

/-- The evaluation of a tree fails first at `origin`: with the error of that node
    itself, after everything before it has succeeded; and the nodes around it fail
    with the same error, and nothing else is evaluated any more. -/
structure FirstFailure (t : Expr) (s : Session) (e : RuntimeError) (before : List Ended)
    (origin : Ended) (around : List Ended) : Prop where
  ended_eq : (course t).ended s = before ++ origin :: around
  before_succeeds : ∀ v ∈ before, v.Succeeds
  own : OwnError origin.node origin.session e
  fails : origin.FailsWith e
  around_fails : ∀ v ∈ around, v.FailsWith e
  around_eq : around.map Ended.place = enclosing origin.place

namespace FirstFailure

variable {t part : Expr} {s : Session} {e : RuntimeError} {before around : List Ended}
  {origin : Ended} {turns : List Turn}

/-- A tree that fails with an error of its own. -/
theorem root (hended : (course t).ended s = turns.flatMap Turn.ended ++ [⟨[], t, s⟩])
    (hturns : ∀ turn ∈ turns, turn.Succeeds) (hown : OwnError t s e)
    (hfails : Ended.FailsWith ⟨[], t, s⟩ e) :
    FirstFailure t s e (turns.flatMap Turn.ended) ⟨[], t, s⟩ [] where
  ended_eq := hended
  before_succeeds := succeeds_of_turns hturns
  own := hown
  fails := hfails
  around_fails _ hv := absurd hv List.not_mem_nil
  around_eq := rfl

/-- A tree that fails because of a part: that is one more node around the first
    failure. -/
theorem inPart {last : Turn}
    (h : FirstFailure last.part last.session e before origin around)
    (hended : (course t).ended s = (turns ++ [last]).flatMap Turn.ended ++ [⟨[], t, s⟩])
    (hturns : ∀ turn ∈ turns, turn.Succeeds) (hfails : Ended.FailsWith ⟨[], t, s⟩ e) :
    FirstFailure t s e (turns.flatMap Turn.ended ++ before.map (Ended.below last.number))
      (origin.below last.number) (around.map (Ended.below last.number) ++ [⟨[], t, s⟩]) where
  ended_eq := by
    have hlast : last.ended = before.map (Ended.below last.number) ++
        origin.below last.number :: around.map (Ended.below last.number) := by
      rw [Turn.ended, h.ended_eq, List.map_append, List.map_cons]
    rw [hended, List.flatMap_append, List.flatMap_singleton, hlast]
    simp only [List.append_assoc, List.cons_append]
  before_succeeds := by
    intro v hv
    rcases List.mem_append.1 hv with hv | hv
    · exact succeeds_of_turns hturns v hv
    · obtain ⟨w, hw, rfl⟩ := List.mem_map.1 hv
      exact h.before_succeeds w hw
  own := h.own
  fails := h.fails
  around_fails := by
    intro v hv
    rcases List.mem_append.1 hv with hv | hv
    · obtain ⟨w, hw, rfl⟩ := List.mem_map.1 hv
      exact h.around_fails w hw
    · obtain rfl := List.mem_singleton.1 hv
      exact hfails
  around_eq := by
    have hbelow : Ended.place ∘ Ended.below last.number = (last.number :: ·) ∘ Ended.place := rfl
    show _ = enclosing (last.number :: origin.place)
    rw [enclosing, ← h.around_eq, List.map_append, List.map_map, List.map_map, hbelow,
      List.map_singleton]

end FirstFailure

/-- In an evaluation that fails there is a first failure. -/
theorem exists_firstFailure {t : Expr} {s s' : Session} {e : RuntimeError}
    (h : evaluate t s = .error e s') :
    ∃ before origin around, FirstFailure t s e before origin around := by
  induction t using Expr.parts_induction generalizing s s' e with
  | step t ih =>
    obtain ⟨turns, hended, hparts, hfate⟩ := exists_turns t s
    have hfails : Ended.FailsWith ⟨[], t, s⟩ e := ⟨s', h⟩
    rw [h] at hfate
    cases hfate with
    | own hturns hown => exact ⟨_, _, _, .root hended hturns hown hfails⟩
    | @part turns last e hturns hlast =>
      have hpart := hparts last (List.mem_append_right _ (List.mem_singleton_self _))
      obtain ⟨s₁, hlast⟩ := hlast
      obtain ⟨before, origin, around, hfirst⟩ := ih last.part (List.mem_of_getElem? hpart) hlast
      exact ⟨_, _, _, hfirst.inPart hended hturns hfails⟩

/-- A place encloses another one if the other one lies below it. -/
theorem mem_enclosing {place p : List Nat} (h : p ∈ enclosing place) :
    ∃ i rest, place = p ++ i :: rest := by
  induction place generalizing p with
  | nil => exact absurd h List.not_mem_nil
  | cons i place ih =>
    rcases List.mem_append.1 h with h | h
    · obtain ⟨q, hq, rfl⟩ := List.mem_map.1 h
      obtain ⟨j, rest, rfl⟩ := ih hq
      exact ⟨j, rest, rfl⟩
    · obtain rfl := List.mem_singleton.1 h
      exact ⟨i, place, rfl⟩

namespace FirstFailure

variable {t : Expr} {s : Session} {e : RuntimeError} {before around : List Ended}
  {origin v : Ended}

/-- All that has ended has succeeded but for the node of the first failure and those
    around it, and all that has failed has failed with the same error. -/
theorem succeeds_or_fails (h : FirstFailure t s e before origin around)
    (hv : v ∈ (course t).ended s) : v.Succeeds ∨ v.place <+: origin.place ∧ v.FailsWith e := by
  rw [h.ended_eq] at hv
  rcases List.mem_append.1 hv with hv | hv
  · exact .inl (h.before_succeeds v hv)
  rcases List.mem_cons.1 hv with rfl | hv
  · exact .inr ⟨List.prefix_rfl, h.fails⟩
  · have hplace : v.place ∈ enclosing origin.place := by
      rw [← h.around_eq]
      exact List.mem_map_of_mem hv
    obtain ⟨i, rest, heq⟩ := mem_enclosing hplace
    exact .inr ⟨⟨i :: rest, heq.symm⟩, h.around_fails v hv⟩

/-- The parts of the node of the first failure have succeeded. -/
theorem part_succeeds (h : FirstFailure t s e before origin around)
    (hv : v ∈ (course t).ended s) {i : Nat} (hplace : v.place = origin.place ++ [i]) :
    v.Succeeds := by
  rcases h.succeeds_or_fails hv with hv | ⟨hle, -⟩
  · exact hv
  · have hlength := hle.length_le
    rw [hplace, List.length_append, List.length_singleton] at hlength
    omega

end FirstFailure

/-! ## The error of an evaluation -/

/-- An error is that of the first node that fails, unchanged on its way up. What is
    evaluated before that node and in it, which the course of the evaluation tells,
    has a value; the node fails in one of the ways of its form, at its range or at
    that of a key of it; and every node around it fails with this very error. -/
theorem error_of_first_failure {t : Expr} {s s' : Session} {e : RuntimeError}
    (h : evaluate t s = .error e s') :
    (course t).run = evaluate t ∧
    (∀ v ∈ (course t).ended s, t.node? v.place = some v.node) ∧
    ∃ before origin around, FirstFailure t s e before origin around ∧
      (∀ v ∈ (course t).ended s, ∀ i, v.place = origin.place ++ [i] → v.Succeeds) ∧
      (∀ v ∈ (course t).ended s, v.Succeeds ∨ v.place <+: origin.place ∧ v.FailsWith e) ∧
      ∃ span, e.span = some span ∧
        (span = origin.node.span ∨ ∃ key ∈ origin.node.keys, span = key.span) := by
  refine ⟨run_course t, fun v hv => node_of_mem_ended hv, ?_⟩
  obtain ⟨before, origin, around, hfirst⟩ := exists_firstFailure h
  refine ⟨before, origin, around, hfirst, fun v hv i hplace => hfirst.part_succeeds hv hplace,
    fun v hv => hfirst.succeeds_or_fails hv, ?_⟩
  obtain ⟨f, place, rfl, hraises⟩ := hfirst.own
  exact ⟨place, rfl, hraises.place⟩

/-- `[1, 2 + x]` with no `x` bound: the error is that of the operand. -/
theorem error_of_first_failure_operand :
    let x := Expr.string ⟨8, 9⟩ "x"
    let sum := Expr.binary ⟨4, 9⟩ .add (.int ⟨4, 5⟩ 2) (.read ⟨8, 9⟩ [x])
    let t := Expr.list ⟨0, 10⟩ [.int ⟨1, 2⟩ 1, sum]
    let s := Session.new 100
    let e : RuntimeError := ⟨.unknownIdentifier "'x'", some ⟨8, 9⟩⟩
    (∃ s', evaluate t s = .error e s') ∧
      ∃ before origin around, FirstFailure t s e before origin around := by
  intro x sum t s e
  have h : evaluate t s = .error e { s with writes := [] } := rfl
  obtain ⟨-, -, before, origin, around, hfirst, -⟩ := error_of_first_failure h
  exact ⟨⟨_, h⟩, before, origin, around, hfirst⟩

end ScopeScript
