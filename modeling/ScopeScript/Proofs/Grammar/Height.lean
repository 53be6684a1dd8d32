/-
  ScopeScript.Proofs.Grammar.Height

  How high the trees are that nest a number of levels. A level adds more nodes to
  a tree than one: a chain may go on for as many operands as there are levels
  left, once at each of the four precedences, an address for as many calls, and a
  step puts three nodes above the address that it names. As all of these close
  their levels where they end, the highest tree grows by about five nodes a level
  for every level below, so that its height is quadratic in the levels.
-/
import Mathlib.Tactic.Ring
import ScopeScript.Proofs.Expr.Height
import ScopeScript.Proofs.Grammar.Derivation

namespace ScopeScript
namespace Grammar

open ScopeScript.Expr

/-! ## The greatest heights -/

/-- The greatest height of an expression that nests so many levels. -/
def peak : Nat → Nat
  | 0 => 1
  | m + 1 => peak m + 5 * m + 3

theorem one_le_peak (m : Nat) : 1 ≤ peak m := by
  cases m with
  | zero => exact Nat.le_refl 1
  | succ m => exact Nat.le_add_left_of_le (by decide)

theorem two_mul_peak (m : Nat) : 2 * peak m = 5 * m ^ 2 + m + 2 := by
  induction m with
  | zero => rfl
  | succ m ih =>
    calc 2 * (peak m + 5 * m + 3)
      _ = 2 * peak m + 2 * (5 * m + 3) := by ring
      _ = 5 * m ^ 2 + m + 2 + 2 * (5 * m + 3) := by rw [ih]
      _ = 5 * (m + 1) ^ 2 + (m + 1) + 2 := by ring

/-- The greatest height of an operand. Every chain that it is made of adds as
    many nodes as there are levels. -/
def Precedence.peak (m : Nat) : Precedence → Nat
  | exponential => Grammar.peak m + 3 + m
  | multiplicative => Grammar.peak m + 3 + 2 * m
  | additive => Grammar.peak m + 3 + 3 * m
  | comparison => Grammar.peak m + 3 + 4 * m

theorem Precedence.peak_succ_le (p : Precedence) (k : Nat) : p.peak k ≤ p.peak (k + 1) := by
  cases p <;> simp only [Precedence.peak, Grammar.peak] <;> omega

theorem Precedence.Over.peak_add {p q : Precedence} (h : p.Over q) (m : Nat) :
    q.peak m + m = p.peak m := by
  cases h <;> simp only [Precedence.peak] <;> omega

/-- What nests `m` levels is at most so high. What follows in a chain or in an
    address makes the tree or the keys so far, or the highest of its own parts,
    higher by a node a level. The addresses that an operand may read are bounded
    apart, since a step and an assignment take them out of the tree. -/
def Nonterminal.HeightBound (m : Nat) : (n : Nonterminal) → n.Meaning → Prop
  | statement, e => e.height ≤ peak m + 2
  | expression, e => e.height ≤ peak m
  | chain p, e => e.height ≤ p.peak m + m ∧ heightAll e.location ≤ peak m + m
  | operand p, e => e.height ≤ p.peak m ∧ heightAll e.location ≤ peak m + m
  | chainRest p, f => ∀ left : Expr, (f left).height ≤ max left.height (p.peak m) + m ∧
    heightAll (f left).location ≤ heightAll left.location
  | unary, e | suffixed, e =>
    e.height ≤ peak m + 3 + m ∧ heightAll e.location ≤ peak m + m
  | primary, e => e.height ≤ peak m + 1
  | segments, f => ∀ keys : List Expr, heightAll (f keys) ≤ max (heightAll keys) (peak m) + m
  | printed, es | printedRest, es | items, es => heightAll es ≤ peak m
  | entries, ps => heightEntries ps ≤ peak m

/-! ## Every derivation keeps to them -/

section Bounds

variable {k m : Nat}

/-! ### Statements and expressions -/

theorem heightBound_printCall {arguments : List Expr} (h : heightAll arguments ≤ peak m) :
    (printCall arguments).height ≤ peak m + 2 := by
  have hpos := one_le_peak m
  rw [height_printCall]
  omega

/-- A level is what the four chains of an expression have room in. -/
theorem heightBound_value {e : Expr} (h : Nonterminal.HeightBound k (.chain .comparison) e) :
    e.height ≤ peak (k + 1) := by
  obtain ⟨hheight, -⟩ := h
  simp only [Precedence.peak, peak] at hheight ⊢
  omega

theorem heightBound_assigned {sign : AssignSign} {target right : Expr}
    (htarget : heightAll target.location ≤ peak k + k) (hright : right.height ≤ peak k) :
    (assigned sign target.location right).height ≤ peak (k + 1) := by
  have hle := height_assigned_le sign target.location right
  simp only [peak]
  omega

/-! ### Chains -/

theorem heightBound_chain {p : Precedence} {first : Expr} {f : Expr → Expr}
    (hfirst : Nonterminal.HeightBound m (.operand p) first)
    (hrest : Nonterminal.HeightBound m (.chainRest p) f) :
    Nonterminal.HeightBound m (.chain p) (f first) := by
  obtain ⟨hfirst, hlocation⟩ := hfirst
  obtain ⟨hheight, hkept⟩ := hrest first
  refine ⟨Nat.le_trans hheight ?_, Nat.le_trans hkept hlocation⟩
  omega

/-- One more operand is one more level, and one node above those so far. -/
theorem heightBound_chainMore {p : Precedence} {op : BinaryOp} {right : Expr} {f : Expr → Expr}
    (hright : right.height ≤ p.peak k) (hrest : Nonterminal.HeightBound k (.chainRest p) f) :
    Nonterminal.HeightBound (k + 1) (.chainRest p)
      (fun left => f (.binary nowhere op left right)) := by
  intro left
  obtain ⟨hheight, hlocation⟩ := hrest (.binary nowhere op left right)
  have hmono := p.peak_succ_le k
  rw [Expr.height] at hheight
  refine ⟨?_, Nat.le_trans hlocation (Nat.zero_le _)⟩
  show (f (.binary nowhere op left right)).height ≤ _
  omega

/-! ### Signs and addresses -/

theorem location_negated (e : Expr) : (negated e).location = [] := by
  cases e <;> rfl

theorem heightBound_negated {e : Expr} (h : Nonterminal.HeightBound k .unary e) :
    Nonterminal.HeightBound (k + 1) .unary (negated e) := by
  obtain ⟨hheight, -⟩ := h
  have hle := height_negated_le e
  constructor
  · simp only [peak]
    omega
  · rw [location_negated]
    exact Nat.zero_le _

/-- A step puts three nodes above its address, which it no longer reads. -/
theorem heightBound_stepped {address : List Expr} (op : BinaryOp) (yieldsOld : Bool)
    (h : heightAll address ≤ peak m + m) :
    Nonterminal.HeightBound m .suffixed (stepped op address yieldsOld) := by
  refine ⟨?_, Nat.zero_le _⟩
  rw [height_stepped]
  omega

theorem heightBound_read {address : List Expr} (h : heightAll address ≤ peak m + m) :
    Nonterminal.HeightBound m .suffixed (.read nowhere address) := by
  refine ⟨?_, h⟩
  rw [Expr.height]
  omega

theorem heightBound_primary {e : Expr} (h : e.height ≤ peak m + 1) :
    Nonterminal.HeightBound m .suffixed e := by
  have hlocation := heightAll_location_lt e
  constructor <;> omega

/-- What follows the name in an address. -/
theorem heightAll_named {f : List Expr → List Expr} (name : String)
    (h : Nonterminal.HeightBound m .segments f) :
    heightAll (f [.string nowhere name]) ≤ peak m + m := by
  have hname : heightAll [.string nowhere name] = 1 := rfl
  have hle := h [.string nowhere name]
  have hpos := one_le_peak m
  omega

theorem heightBound_key {key : Expr} {f : List Expr → List Expr} (hkey : key.height ≤ peak m)
    (h : Nonterminal.HeightBound m .segments f) :
    Nonterminal.HeightBound m .segments (fun keys => f (keys ++ [key])) := by
  intro keys
  have hle := h (keys ++ [key])
  rw [heightAll_concat] at hle
  show heightAll (f (keys ++ [key])) ≤ _
  omega

theorem heightBound_call {arguments : List Expr} {f : List Expr → List Expr}
    (harguments : heightAll arguments ≤ peak k) (h : Nonterminal.HeightBound k .segments f) :
    Nonterminal.HeightBound (k + 1) .segments
      (fun keys => f [.call nowhere keys arguments]) := by
  intro keys
  have hle := h [.call nowhere keys arguments]
  have hcall : heightAll [.call nowhere keys arguments] =
      1 + max (heightAll keys) (heightAll arguments) := by
    rw [heightAll, heightAll, Expr.height, Nat.max_zero]
  show heightAll (f [.call nowhere keys arguments]) ≤ _
  simp only [peak]
  omega

end Bounds

/-- What opens a level fits in some levels only if there is one. -/
theorem exists_level {l m : Nat} (h : l + 1 ≤ m) : ∃ k, m = k + 1 ∧ l ≤ k :=
  ⟨m - 1, by omega, by omega⟩

/-- A derivation that nests `m` levels means a tree within their bounds. -/
theorem Derivation.heightBound {n : Nonterminal} (d : Derivation n) {m : Nat}
    (h : d.levels ≤ m) : n.HeightBound m d.meaning := by
  -- What opens a level has its parts within one level less.
  induction d generalizing m with
  | print arguments ih => exact heightBound_printCall (ih h)
  | statement e ih => exact Nat.le_add_right_of_le (ih h)
  | printedNone | printedEnd | itemsNone | entriesNone => exact Nat.zero_le _
  | printedSome first rest ihf ihr | printedMore first rest ihf ihr
  | itemsMore first rest ihf ihr =>
    rw [levels, Nat.max_le] at h
    exact Nat.max_le.2 ⟨ihf h.1, ihr h.2⟩
  | value e ih =>
    obtain ⟨k, rfl, hk⟩ := exists_level h
    exact heightBound_value (ih hk)
  | assign hs target right iht ihr =>
    obtain ⟨k, rfl, hk⟩ := exists_level h
    rw [Nat.max_le] at hk
    exact heightBound_assigned (iht hk.1).2 (ihr hk.2)
  | chain first rest ihf ihr =>
    rw [levels, Nat.max_le] at h
    exact heightBound_chain (ihf h.1) (ihr h.2)
  | chainEnd => exact fun left => ⟨Nat.le_add_right_of_le (Nat.le_max_left _ _), Nat.le_refl _⟩
  | chainMore hop right rest ihr ihs =>
    obtain ⟨k, rfl, hk⟩ := exists_level h
    rw [Nat.max_le] at hk
    exact heightBound_chainMore (ihr hk.1).1 (ihs hk.2)
  | tighter hq inner ih =>
    obtain ⟨hheight, hlocation⟩ := ih h
    exact ⟨hq.peak_add m ▸ hheight, hlocation⟩
  | operand inner ih | unsigned inner ih => exact ih h
  | minus inner ih =>
    obtain ⟨k, rfl, hk⟩ := exists_level h
    exact heightBound_negated (ih hk)
  | step hs inner ih => exact heightBound_stepped _ _ (ih h).2
  | address name rest ih => exact heightBound_read (heightAll_named name (ih h))
  | addressStep hs name rest ih => exact heightBound_stepped _ _ (heightAll_named name (ih h))
  | primary inner ih => exact heightBound_primary (ih h)
  | segmentsEnd => exact fun keys => Nat.le_add_right_of_le (Nat.le_max_left _ _)
  | property name rest ih => exact heightBound_key (one_le_peak m) (ih h)
  | index key rest ihk ihr =>
    rw [levels, Nat.max_le] at h
    exact heightBound_key (ihk h.1) (ihr h.2)
  | call arguments rest iha ihr =>
    obtain ⟨k, rfl, hk⟩ := exists_level h
    rw [Nat.max_le] at hk
    exact heightBound_call (iha hk.1) (ihr hk.2)
  | int _ | double _ | string _ => exact Nat.le_add_left _ _
  | parens e ih => exact Nat.le_add_right_of_le (ih h)
  | list inner ih | object inner ih =>
    exact Nat.le_trans (Nat.le_of_eq (Nat.add_comm 1 _)) (Nat.succ_le_succ (ih h))
  | itemsOne e ih => exact Nat.max_le.2 ⟨ih h, Nat.zero_le _⟩
  | entriesOne k v ihk ihv =>
    rw [levels, Nat.max_le] at h
    exact Nat.max_le.2 ⟨Nat.max_le.2 ⟨ihk h.1, ihv h.2⟩, Nat.zero_le _⟩
  | entriesMore k v rest ihk ihv ihr =>
    rw [levels, Nat.max_le, Nat.max_le] at h
    exact Nat.max_le.2 ⟨Nat.max_le.2 ⟨ihk h.1.1, ihv h.1.2⟩, ihr h.2⟩

end Grammar
end ScopeScript
