/-
  ScopeScript.Proofs.Grammar.Contract

  What the parse functions promise. A contract says what a call must find, what it
  gives then, and what its errors are like. A script keeps a contract if each call in
  it finds what it must, and the script ends as promised whatever the calls give that
  the contract lets them give. Scripts that keep a contract make functions that keep
  it (`Contract.Kept.promises`): this is the induction over the recursion of the
  parser, for all contracts at once, and what is left for each contract is one rule
  for each way in which a script goes on.
-/
import ScopeScript.Proofs.Grammar.Calls

namespace ScopeScript
namespace Grammar

variable {α β Γ : Type}

/-! ## Promises -/

/-- A parse gives what is wanted, or an error of a kind. -/
structure Promises (wanted : α → Prop) (blames : ParseError → Prop) (x : Except ParseError α) :
    Prop where
  value : ∀ a, x = .ok a → wanted a
  error : ∀ e, x = .error e → blames e

namespace Promises

variable {wanted wanted' : α → Prop} {blames : ParseError → Prop} {x : Except ParseError α}

theorem pure {a : α} (h : wanted a) : Promises wanted blames (.ok a) := by
  refine ⟨fun b hb => ?_, nofun⟩
  cases hb
  exact h

theorem throw {e : ParseError} (h : blames e) : Promises wanted blames (.error e) := by
  refine ⟨nofun, fun e' he => ?_⟩
  cases he
  exact h

theorem mono (h : Promises wanted blames x) (hwanted : ∀ a, wanted a → wanted' a) :
    Promises wanted' blames x :=
  ⟨fun a ha => hwanted a (h.value a ha), h.error⟩

theorem map {wanted' : β → Prop} {f : α → β} (h : Promises wanted blames x)
    (hf : ∀ a, wanted a → wanted' (f a)) : Promises wanted' blames (x.map f) := by
  cases x with
  | error e => exact throw (h.error e rfl)
  | ok a => exact pure (hf a (h.value a rfl))

end Promises

/-! ## Contracts -/

/-- What calls must find and what they give and blame. Both may refer to something
    that is known where the call is made, such as a place in the source. -/
structure Contract (Γ : Type) where
  before : Γ → Call → Prop
  after : Γ → (k : Call) → k.Gives → Prop
  blames : ParseError → Prop

namespace Script

/-- The script meets the demands of its calls and ends as is wanted. -/
def Keeps (K : Contract Γ) (wanted : α → Prop) : Script α → Prop
  | ends x => Promises wanted K.blames x
  | asks k next => ∃ γ, K.before γ k ∧ ∀ g, K.after γ k g → (next g).Keeps K wanted

namespace Keeps

variable {K : Contract Γ} {wanted : α → Prop} {wanted' : β → Prop} {s : Script α}
  {f : α → Script β}

theorem pure {a : α} (h : wanted a) : Keeps K wanted (Pure.pure a) :=
  Promises.pure h

theorem throw {e : ParseError} (h : K.blames e) : Keeps K wanted (.ends (.error e)) :=
  Promises.throw h

theorem bind (h : s.Keeps K wanted) (hf : ∀ a, wanted a → (f a).Keeps K wanted') :
    (s >>= f).Keeps K wanted' := by
  show (s.bind f).Keeps K wanted'
  induction s with
  | ends x =>
    cases x with
    | error e => exact throw (h.error e rfl)
    | ok a => exact hf a (h.value a rfl)
  | asks k next ih =>
    obtain ⟨γ, hbefore, hnext⟩ := h
    exact ⟨γ, hbefore, fun g hg => ih g (hnext g hg)⟩

/-- What comes last is a call, and its promise is enough. -/
theorem call {k : Call} {wanted : k.Gives → Prop} (γ : Γ) (h : K.before γ k)
    (hwanted : ∀ g, K.after γ k g → wanted g) : (Script.call k).Keeps K wanted :=
  ⟨γ, h, fun g hg => Promises.pure (hwanted g hg)⟩

/-- A call is made, and the script goes on from what it promises. -/
theorem asks {k : Call} {f : k.Gives → Script β} (γ : Γ) (h : K.before γ k)
    (hf : ∀ g, K.after γ k g → (f g).Keeps K wanted') : (Script.call k >>= f).Keeps K wanted' :=
  ⟨γ, h, hf⟩

/-- What is known without a call may be used as it is. -/
theorem known {x : Except ParseError α} (hx : ∀ e, x = .error e → K.blames e)
    (hf : ∀ a, x = .ok a → (f a).Keeps K wanted') : (.ends x >>= f : Script β).Keeps K wanted' := by
  cases x with
  | error e => exact throw (hx e rfl)
  | ok a => exact hf a rfl

/-- A symbol is read, or its absence is blamed on what stands there. -/
theorem eat {c : Cursor} {sign : Symbol} {f : Span × Cursor → Script β}
    (hblames : ∀ wanted, K.blames (c.unexpected wanted))
    (hf : ∀ span rest, c.tokens = ⟨.symbol sign, span⟩ :: rest →
      (f (span, c.past span rest)).Keeps K wanted') :
    (.ends ((c.eat sign).map Parsed.plain) >>= f : Script β).Keeps K wanted' := by
  rw [Cursor.eat]
  split
  · next s span rest htokens =>
    split
    · next hs => exact hf span rest (hs ▸ htokens)
    · exact throw (hblames _)
  · exact throw (hblames _)

/-- Where a level is opened the limit may be met. -/
theorem level {limit opened : Nat} {e : ParseError} (h : K.blames e)
    (hs : opened < limit → s.Keeps K wanted) :
    Keeps K wanted (if limit ≤ opened then .ends (.error e) else s) := by
  split
  · exact throw h
  · next hlimit => exact hs (Nat.lt_of_not_le hlimit)

/-- Answers as promised lead a script to an end as promised. -/
theorem promises {answers : Answers} {x : Except ParseError α} (h : s.Keeps K wanted)
    (hanswers : ∀ k, s.Makes answers k → ∀ γ, K.before γ k → ∀ y, answers k = some y →
      Promises (K.after γ k) K.blames y)
    (hrun : s.run answers = some x) : Promises wanted K.blames x := by
  induction s with
  | ends y =>
    cases hrun
    exact h
  | asks k next ih =>
    obtain ⟨γ, hbefore, hnext⟩ := h
    rw [Script.run] at hrun
    cases hk : answers k with
    | none =>
      rw [hk] at hrun
      cases hrun
    | some y =>
      have hy := hanswers k (.here next) γ hbefore y hk
      rw [hk] at hrun
      cases y with
      | error e =>
        cases hrun
        exact .throw (hy.error e rfl)
      | ok g =>
        refine ih g (hnext g (hy.value g rfl)) (fun j hj => ?_) hrun
        exact hanswers j (.later hk hj)

/-- And each call that is made on the way finds what it must. -/
theorem before_of_makes {answers : Answers} {j : Call} (h : s.Keeps K wanted)
    (hanswers : ∀ k γ, K.before γ k → ∀ y, answers k = some y →
      Promises (K.after γ k) K.blames y)
    (hmakes : s.Makes answers j) : ∃ γ, K.before γ j := by
  induction hmakes with
  | here next =>
    obtain ⟨γ, hbefore, -⟩ := h
    exact ⟨γ, hbefore⟩
  | later hk _ ih =>
    obtain ⟨γ, hbefore, hnext⟩ := h
    exact ih (hnext _ ((hanswers _ γ hbefore _ hk).value _ rfl))

end Keeps
end Script

namespace Contract

variable {K : Contract Γ} {limit : Nat}

/-- The scripts of all functions keep the contract. -/
def Kept (K : Contract Γ) (limit : Nat) : Prop :=
  ∀ γ k, K.before γ k → (script limit k).Keeps K (K.after γ k)

/-- What the scripts keep the functions keep. -/
theorem Kept.promises {k : Call} (h : K.Kept limit) (γ : Γ) (hk : K.before γ k) :
    Promises (K.after γ k) K.blames (outcome limit k) := by
  obtain ⟨hrun, hmakes⟩ := unfolds limit k
  refine (h γ k hk).promises (fun k' hk' γ' hbefore y hy => ?_) hrun
  -- The calls that are made have less left to do.
  have hlt := hmakes k' hk'
  cases hy
  exact h.promises γ' hbefore
termination_by k.weight

/-- The calls that are made on the way find what they must. -/
theorem Kept.before_of_makes {k k' : Call} (h : K.Kept limit) (γ : Γ) (hk : K.before γ k)
    (hmakes : (script limit k).Makes (answers limit) k') : ∃ γ', K.before γ' k' := by
  refine (h γ k hk).before_of_makes (fun j γ' hbefore y hy => ?_) hmakes
  cases hy
  exact h.promises γ' hbefore

end Contract

end Grammar
end ScopeScript
