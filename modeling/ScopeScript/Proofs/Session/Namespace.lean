/-
  ScopeScript.Proofs.Session.Namespace

  The built-in namespace is out of reach. Its key is no name, while source texts
  bind names only, wherever they write. So whatever texts are run in a session,
  the namespace stays bound in the global scope and nowhere else, what else is
  bound are names, and nothing is bound in the host's frame.
-/
import ScopeScript.Proofs.Grammar.Names
import ScopeScript.Proofs.Session.Relocation
import ScopeScript.Proofs.Session.Steps

namespace ScopeScript

/-- The key of the namespace is not made like a name. -/
theorem not_isName_root : ¬ IsName Builtin.root := by
  rintro ⟨hmade, -⟩
  obtain ⟨c, v, hroot, hc, -⟩ := mem_letter_mul_star.1 hmade
  have hseven : '7' = c := (List.cons.inj hroot).1
  subst hseven
  exact absurd hc (by decide)

/-- The key of the namespace, and the names that it does not hide behind. -/
theorem not_same_root {n : String} (hn : IsName n) :
    ¬ (Primitive.string n).same (.string Builtin.root) = true := by
  intro h
  rw [of_decide_eq_true h] at hn
  exact not_isName_root hn

/-! ## Frames -/

/-- Every key of the frame is a name, but for that of the namespace. -/
def Object.Named (f : Object) : Prop :=
  ∀ entry ∈ f, entry.1 = .string Builtin.root ∨ ∃ n, entry.1 = .string n ∧ IsName n

theorem Object.Named.put {f : Object} (h : f.Named) {n : String} (hn : IsName n) (v : Value) :
    Object.Named (Bindings.put (.string n) v f) := by
  induction f with
  | nil => exact List.forall_mem_singleton.2 (.inr ⟨n, rfl, hn⟩)
  | cons p f ih =>
    obtain ⟨hp, hf⟩ := List.forall_mem_cons.1 h
    rw [Bindings.put]
    split
    · exact List.forall_mem_cons.2 ⟨hp, hf⟩
    · exact List.forall_mem_cons.2 ⟨hp, ih hf⟩

/-- What all members have, and the change keeps, they have after one is changed. -/
theorem forall_mem_modify {α : Type} {P : α → Prop} {g : α → α} {l : List α} (i : Nat)
    (h : ∀ a ∈ l, P a) (hg : ∀ a, P a → P (g a)) : ∀ a ∈ l.modify i g, P a := by
  induction l generalizing i with
  | nil => rwa [List.modify_nil]
  | cons a l ih =>
    obtain ⟨ha, hl⟩ := List.forall_mem_cons.1 h
    cases i with
    | zero => exact List.forall_mem_cons.2 ⟨hg a ha, hl⟩
    | succ i => exact List.forall_mem_cons.2 ⟨ha, ih i hl⟩

/-! ## Stores -/

namespace Store

/-- The host has bound nothing, the global scope binds the namespace as it is, no
    other scope binds its key, and the other keys are names. -/
structure Namespaced (s : Store) : Prop where
  host : s.host = []
  builtins : s.global.get? (.string Builtin.root) =
    some (.object [(.string "print", .string "print")])
  nested_free : ∀ f ∈ s.nested, f.contains (.string Builtin.root) = false
  keys : ∀ f ∈ s.frames, f.Named

variable {s : Store}

/-- To bind a name above the host's frame leaves the namespace alone. -/
theorem Namespaced.bind (h : s.Namespaced) {frame : Nat} (hframe : frame ≠ 0) {n : String}
    (hn : IsName n) (v : Value) : (s.bind frame (.string n) v).Namespaced := by
  have hroot := not_same_root hn
  obtain ⟨hhost, hbuiltins, hfree, hkeys⟩ := h
  obtain ⟨hhostKeys, hglobalKeys, hnestedKeys⟩ : s.host.Named ∧ s.global.Named ∧
      ∀ f ∈ s.nested, f.Named := by
    rwa [frames, List.forall_mem_cons, List.forall_mem_cons] at hkeys
  obtain ⟨i, rfl⟩ := Nat.exists_eq_succ_of_ne_zero hframe
  cases i with
  | zero =>
    refine ⟨hhost, ?_, hfree, ?_⟩
    · show Object.get? (s.global.insert (.string n) v) _ = _
      rw [Object.insert_eq_put, Object.get?_eq_find?, Bindings.find?_put_of_ne hroot,
        ← Object.get?_eq_find?, hbuiltins]
    · refine List.forall_mem_cons.2 ⟨hhostKeys, List.forall_mem_cons.2 ⟨?_, hnestedKeys⟩⟩
      show Object.Named (s.global.insert (.string n) v)
      rw [Object.insert_eq_put]
      exact hglobalKeys.put hn v
  | succ i =>
    refine ⟨hhost, hbuiltins, forall_mem_modify i hfree fun f hf => ?_, ?_⟩
    · rw [Object.contains, Object.insert_eq_put, Object.get?_eq_find?,
        Bindings.find?_put_of_ne hroot, ← Object.get?_eq_find?]
      exact hf
    · refine List.forall_mem_cons.2 ⟨hhostKeys, List.forall_mem_cons.2 ⟨hglobalKeys, ?_⟩⟩
      refine forall_mem_modify i hnestedKeys fun f hf => ?_
      rw [Object.insert_eq_put]
      exact hf.put hn v

/-- What is done to a store leaves the namespace alone. -/
def SparesNamespace (s s' : Store) : Prop :=
  s.Namespaced → s'.Namespaced

instance : IsPreorder Store SparesNamespace where
  refl _ h := h
  trans _ _ _ h h' hs := h' (h hs)

theorem Namespaced.descend (h : s.Namespaced) : s.descend.Namespaced := by
  obtain ⟨hhost, hbuiltins, hfree, hkeys⟩ := h
  refine ⟨hhost, hbuiltins, ?_, ?_⟩
  · exact List.forall_mem_append.2 ⟨hfree, List.forall_mem_singleton.2 rfl⟩
  · rw [frames_descend]
    exact List.forall_mem_append.2 ⟨hkeys, List.forall_mem_singleton.2 fun _ h => nomatch h⟩

theorem Namespaced.ascend (h : s.Namespaced) {t : Store} (ht : s.ascend = .ok t) :
    t.Namespaced := by
  obtain ⟨hhost, hbuiltins, hfree, hkeys⟩ := h
  have hkeys : ∀ f ∈ t.frames, f.Named := by
    rw [frames_ascend ht]
    exact fun f hf => hkeys f (List.mem_of_mem_dropLast hf)
  rw [Store.ascend] at ht
  split at ht
  · cases ht
  · cases ht
    exact ⟨hhost, hbuiltins, fun f hf => hfree f (List.mem_of_mem_dropLast hf), hkeys⟩

theorem namespaced_withBuiltins (h : s.host = []) :
    (Session.withBuiltins s.reset).Namespaced := by
  refine ⟨h, rfl, fun f hf => (nomatch hf), ?_⟩
  refine List.forall_mem_cons.2 ⟨?_, List.forall_mem_singleton.2 ?_⟩
  · rw [show (Session.withBuiltins s.reset).host = [] from h]
    exact fun _ h => nomatch h
  · exact List.forall_mem_singleton.2 (.inl rfl)

end Store

/-! ## Evaluation -/

/-- An address that begins with a name, once it is evaluated, is one of that name;
    no address that begins with a call is evaluated. -/
theorem exists_name_of_evaluateAll {N : String → Prop} {address : List Expr} {s s' : Session}
    {keys : List Key} (h : Grammar.HeadedBy N address)
    (hkeys : evaluateAll address s = .ok keys s') :
    ∃ n span rest, N n ∧ keys = ⟨.string n, span⟩ :: rest := by
  cases address with
  | nil => cases h
  | cons e es =>
    rw [evaluateAll] at hkeys
    obtain ⟨v, s₁, hv, hkeys⟩ := Action.bind_eq_ok_iff.1 hkeys
    obtain ⟨rest, s₂, -, hkeys⟩ := Action.bind_eq_ok_iff.1 hkeys
    cases hkeys
    cases e with
    | string span n =>
      rw [evaluate] at hv
      obtain ⟨-, s₃, hv, -⟩ := Action.nested_eq_ok_iff.1 hv
      cases hv
      exact ⟨n, span, rest, h, rfl⟩
    | call span callee arguments =>
      rw [evaluate] at hv
      obtain ⟨-, s₃, hv, -⟩ := Action.nested_eq_ok_iff.1 hv
      cases hv
    | _ => cases h

/-- What an address that begins with a name resolves to is written under a name. -/
theorem commitsWithin_of_headedBy {address : List Expr} (h : Grammar.HeadedBy IsName address) :
    CommitsWithin Store.SparesNamespace address := by
  intro s keys s₁ hkeys yieldsOld target old hres mark value s₂
  obtain ⟨n, span, rest, hn, rfl⟩ := exists_name_of_evaluateAll h hkeys
  have hfound := Target.found_of_resolve hres
  generalize hkeys' : (⟨.string n, span⟩ :: rest : List Key) = keys at hfound
  cases hfound with
  | name n' span' =>
    cases hkeys'
    exact fun hs => hs.bind (Nat.succ_ne_zero _) hn value
  | @member frame root hfind span' path key =>
    cases hkeys'
    rw [Moves, commit_member]
    split
    · exact fun hs => hs
    · split
      · exact fun hs => hs
      · split
        · exact fun hs => hs
        · exact fun hs => hs.bind (Store.find?_ne_zero hfind) hn _

/-- A source text leaves the namespace alone, whether its run succeeds or fails. -/
theorem SourceText.sparesNamespace (t : SourceText) (s : Session) :
    Moves Store.SparesNamespace t.run s := by
  rw [SourceText.run]
  split
  · next p hp =>
    refine moves_evaluateStatements (fun e he s => ?_) s
    rw [← moves_evaluate_bare]
    refine moves_evaluate e.bare s ?_
    exact (Program.assignsTo_of_ofSource hp e he).mono fun _ => commitsWithin_of_headedBy
  · exact .pure _

/-! ## Steps -/

theorem Step.namespaced {steps : List (Step SourceText)} {s : Session} (h : s.store.Namespaced) :
    (Step.after SourceText.run steps s).store.Namespaced := by
  induction steps generalizing s with
  | nil => exact h
  | cons step steps ih =>
    refine ih ?_
    cases step with
    | run t =>
      rw [session_act_run]
      exact t.sparesNamespace s h
    | descend => exact h.descend
    | ascend =>
      rw [act]
      cases ht : s.store.ascend with
      | ok t => simp only [ht]; exact h.ascend ht
      | error f => simp only [ht]; exact h
    | reset => exact Store.namespaced_withBuiltins h.host

/-- From a new session on, whatever source texts are run and whatever scopes are
    opened, left and forgotten, the namespace stays as it is and out of reach, and
    everything else that is bound in a frame is a name. -/
theorem namespace_unreachable (limit : Nat) (steps : List (Step SourceText)) :
    (Step.after SourceText.run steps (Session.new limit)).store.Namespaced :=
  Step.namespaced (Store.namespaced_withBuiltins (s := .empty) rfl)

end ScopeScript
