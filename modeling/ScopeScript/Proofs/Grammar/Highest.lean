/-
  ScopeScript.Proofs.Grammar.Highest

  The highest trees within a limit. Below a step stands an address whose key is
  the highest expression of one level less and which goes on for as many calls as
  there are levels; above the step stand four chains, each as long. With what no
  derivation exceeds this gives the exact height that a limit on the nesting
  allows, and where it is about twice the limit.
-/
import Mathlib.Order.Bounds.Basic
import ScopeScript.Source
import ScopeScript.Proofs.Grammar.Height
import ScopeScript.Proofs.Grammar.Soundness
import ScopeScript.Proofs.Grammar.Completeness

namespace ScopeScript
namespace Grammar

open ScopeScript.Expr
open ScopeScript.Grammar.Derivation (levels meaning TargetsIdentifiers)

/-! ## Parts of the highest expression -/

/-- The number one as an operand of any precedence. -/
def one : (p : Precedence) → Derivation (.operand p)
  | .exponential => .operand (.unsigned (.primary (.int 1)))
  | .multiplicative => .tighter .multiplicative (.chain (one .exponential) .chainEnd)
  | .additive => .tighter .additive (.chain (one .multiplicative) .chainEnd)
  | .comparison => .tighter .comparison (.chain (one .additive) .chainEnd)
termination_by p => p.height
decreasing_by all_goals decide

theorem one_correct (p : Precedence) :
    (one p).TargetsIdentifiers ∧ (one p).levels = 0 ∧ (one p).meaning = .int nowhere 1 := by
  cases p <;> simp [one, Derivation.TargetsIdentifiers, Derivation.levels, Derivation.meaning]

/-- `m` more operands in a chain. -/
def ones {p : Precedence} {op : BinaryOp} (h : Precedence.ofOp op = p) :
    Nat → Derivation (.chainRest p)
  | 0 => .chainEnd
  | m + 1 => .chainMore h (one p) (ones h m)

theorem ones_correct {p : Precedence} {op : BinaryOp} (h : Precedence.ofOp op = p) (m : Nat) :
    (ones h m).TargetsIdentifiers ∧ (ones h m).levels = m ∧
      ∀ left : Expr, ((ones h m).meaning left).height = left.height + m := by
  obtain ⟨htargets, hlevels, hmeaning⟩ := one_correct p
  induction m with
  | zero => exact ⟨trivial, rfl, fun left => rfl⟩
  | succ m ih =>
    obtain ⟨htargets', hlevels', hheight⟩ := ih
    refine ⟨⟨htargets, htargets'⟩, ?_, fun left => ?_⟩
    · rw [ones, levels, hlevels, hlevels', Nat.zero_max]
    · have hpos := left.height_pos
      have hone : (Expr.int nowhere 1).height = 1 := rfl
      show ((ones h m).meaning (.binary nowhere op left (one p).meaning)).height = _
      rw [hheight, hmeaning, Expr.height]
      omega

/-- `m` calls in a row. -/
def calls : Nat → Derivation .segments
  | 0 => .segmentsEnd
  | m + 1 => .call .itemsNone (calls m)

theorem calls_correct (m : Nat) :
    (calls m).TargetsIdentifiers ∧ (calls m).levels = m ∧
      ∀ keys : List Expr, heightAll ((calls m).meaning keys) = heightAll keys + m := by
  induction m with
  | zero => exact ⟨trivial, rfl, fun keys => rfl⟩
  | succ m ih =>
    obtain ⟨htargets, hlevels, hheight⟩ := ih
    refine ⟨⟨trivial, htargets⟩, ?_, fun keys => ?_⟩
    · rw [calls, levels, levels, hlevels, Nat.zero_max]
    · show heightAll ((calls m).meaning [.call nowhere keys []]) = _
      rw [hheight]
      simp only [heightAll, Expr.height, Nat.max_zero]
      omega

/-! ## The highest expression -/

/-- An operand has a chain of its own precedence above it that is as much higher
    as there are levels. -/
theorem exists_chain {p : Precedence} (first : Derivation (.operand p)) {m : Nat}
    (htargets : first.TargetsIdentifiers) (hlevels : first.levels ≤ m) :
    ∃ d : Derivation (.chain p), d.TargetsIdentifiers ∧ d.levels ≤ m ∧
      d.meaning.height = Expr.height first.meaning + m := by
  obtain ⟨op, hop⟩ : ∃ op, Precedence.ofOp op = p := by
    cases p with
    | comparison => exact ⟨.eq, rfl⟩
    | additive => exact ⟨.add, rfl⟩
    | multiplicative => exact ⟨.mul, rfl⟩
    | exponential => exact ⟨.pow, rfl⟩
  obtain ⟨htargets', hlevels', hheight⟩ := ones_correct hop m
  refine ⟨.chain first (ones hop m), ⟨htargets, htargets'⟩, ?_, hheight _⟩
  rw [levels, hlevels', Nat.max_eq_right hlevels]

/-- Four chains stand above an operand in an expression. -/
theorem exists_expression (inner : Derivation .unary) {m : Nat}
    (htargets : inner.TargetsIdentifiers) (hlevels : inner.levels ≤ m) :
    ∃ d : Derivation .expression, d.TargetsIdentifiers ∧ d.levels ≤ m + 1 ∧
      d.meaning.height = Expr.height inner.meaning + 4 * m := by
  obtain ⟨e, hte, hle, hhe⟩ := exists_chain (.operand inner) htargets hlevels
  obtain ⟨f, htf, hlf, hhf⟩ := exists_chain (.tighter .multiplicative e) hte hle
  obtain ⟨g, htg, hlg, hhg⟩ := exists_chain (.tighter .additive f) htf hlf
  obtain ⟨d, htd, hld, hhd⟩ := exists_chain (.tighter .comparison g) htg hlg
  refine ⟨.value d, htd, Nat.succ_le_succ hld, ?_⟩
  simp only [meaning] at hhe hhf hhg hhd ⊢
  omega

/-- A step of an address in an expression, each as high as it can be. -/
theorem exists_above (rest : Derivation .segments) {m : Nat} (htargets : rest.TargetsIdentifiers)
    (hlevels : rest.levels ≤ m)
    (hheight : heightAll (rest.meaning [.string nowhere "a"]) = peak m + m) :
    ∃ d : Derivation .expression, d.TargetsIdentifiers ∧ d.levels ≤ m + 1 ∧
      d.meaning.height = peak (m + 1) := by
  obtain ⟨d, htd, hld, hhd⟩ :=
    exists_expression (.unsigned (@Derivation.addressStep .add .increment rfl "a" rest)) htargets
      hlevels
  refine ⟨d, htd, hld, ?_⟩
  rw [hhd, peak]
  show (stepped .add (rest.meaning [.string nowhere "a"]) true).height + 4 * m = _
  rw [height_stepped, hheight]
  omega

/-- Every number of levels but none has an expression of the greatest height. -/
theorem exists_highest (m : Nat) :
    ∃ d : Derivation .expression, d.TargetsIdentifiers ∧ d.levels ≤ m + 1 ∧
      d.meaning.height = peak (m + 1) := by
  induction m with
  | zero => exact exists_above .segmentsEnd trivial (Nat.le_refl 0) rfl
  | succ m ih =>
    obtain ⟨key, htkey, hlkey, hhkey⟩ := ih
    obtain ⟨htcalls, hlcalls, hhcalls⟩ := calls_correct (m + 1)
    refine exists_above (.index key (calls (m + 1))) ?_ ?_ ?_
    · rw [TargetsIdentifiers]
      exact ⟨htkey, htcalls⟩
    · rw [levels, hlcalls, Nat.max_eq_right hlkey]
    · have hpos := one_le_peak (m + 1)
      have hname : (Expr.string nowhere "a").height = 1 := rfl
      show heightAll ((calls (m + 1)).meaning [.string nowhere "a", key.meaning]) = _
      rw [hhcalls, heightAll, heightAll, heightAll, hname, hhkey]
      omega

/-- The highest statement prints the highest expression. -/
theorem exists_highest_statement (m : Nat) :
    ∃ d : Derivation .statement, d.TargetsIdentifiers ∧ d.levels ≤ m ∧
      d.meaning.height = peak m + 2 := by
  cases m with
  | zero => exact ⟨.print .printedNone, trivial, Nat.le_refl 0, rfl⟩
  | succ m =>
    obtain ⟨e, hte, hle, hhe⟩ := exists_highest m
    refine ⟨.print (.printedSome e .printedEnd), ⟨hte, trivial⟩, ?_, ?_⟩
    · rw [levels, levels, levels, Nat.max_zero]
      exact hle
    · have hpos := one_le_peak (m + 1)
      rw [meaning, height_printCall, meaning, meaning, heightAll, heightAll, hhe]
      omega

/-! ## Programs -/

theorem Splits.height_le {limit : Nat} {ts : List Token} {es : List Expr}
    (h : Splits limit ts es) : ∀ e ∈ es, e.height ≤ peak limit + 2 := by
  induction h with
  | nil => exact fun e he => absurd he List.not_mem_nil
  | semicolon _ ih => exact ih
  | statement d _ hlevels _ ih =>
    rintro e (_ | ⟨_, he⟩)
    · exact d.heightBound hlevels
    · exact ih e he

/-- No statement that is parsed is higher than the limit allows. -/
theorem height_le_of_ofLexemes {limit size : Nat} {tokens : List Lexeme} {p : Program}
    (h : Program.ofLexemes limit size tokens = .ok p) {e : Expr} (he : e ∈ p.statements) :
    e.height ≤ peak limit + 2 := by
  rw [Program.ofLexemes] at h
  cases hall : statementsFrom limit (.start size tokens) [] with
  | error err => rw [hall] at h; cases h
  | ok all =>
    rw [hall] at h
    cases h
    obtain ⟨es, rfl, hsplits⟩ := splits_of_statementsFrom rfl hall
    have hle := hsplits.height_le e.bare (List.mem_map_of_mem he)
    rwa [height_bare] at hle

/-- Some token list is parsed to a statement as high as the limit allows. -/
theorem exists_ofLexemes_height (limit : Nat) :
    ∃ size tokens e, Program.ofLexemes limit size tokens = .ok ⟨[e]⟩ ∧
      e.height = peak limit + 2 := by
  obtain ⟨d, htargets, hlevels, hheight⟩ := exists_highest_statement limit
  have hyield : (d.yield.map (Lexeme.mk · nowhere)).map (·.token) = d.yield := by
    rw [List.map_map]
    exact List.map_id _
  obtain ⟨e, he, hmeaning⟩ := exists_ofLexemes 0 htargets hlevels hyield
  refine ⟨0, _, e, he, ?_⟩
  rw [← height_bare, hmeaning]
  exact hheight

/-- The greatest height of a statement that nests at most `limit` levels grows
    with the square of the limit. Only for the least limits is it as low as
    twice the limit and a few nodes more. -/
theorem height_quadratic (limit : Nat) :
    IsGreatest {h | ∃ size tokens p, Program.ofLexemes limit size tokens = .ok p ∧
      ∃ e ∈ p.statements, e.height = h} ((5 * limit ^ 2 + limit + 6) / 2) ∧
    ((∀ size tokens p, Program.ofLexemes limit size tokens = .ok p →
      ∀ e ∈ p.statements, e.height ≤ 2 * limit + 8) ↔ limit ≤ 1) := by
  have hpeak := two_mul_peak limit
  have hgreatest : (5 * limit ^ 2 + limit + 6) / 2 = peak limit + 2 := by omega
  rw [hgreatest]
  obtain ⟨size, tokens, highest, hok, hheight⟩ := exists_ofLexemes_height limit
  refine ⟨⟨⟨size, tokens, _, hok, highest, List.mem_singleton_self _, hheight⟩, ?_⟩, ?_, ?_⟩
  · rintro h ⟨size, tokens, p, hp, e, he, rfl⟩
    exact height_le_of_ofLexemes hp he
  · intro hall
    have hle := hall size tokens _ hok highest (List.mem_singleton_self _)
    by_contra hlimit
    have hsquare : 2 * limit ≤ limit ^ 2 := by
      rw [Nat.pow_two]
      exact Nat.mul_le_mul_right limit (by omega)
    omega
  · intro hlimit size tokens p hp e he
    have hle := height_le_of_ofLexemes hp he
    have hsquare : limit ^ 2 ≤ limit := by
      rw [Nat.pow_two]
      exact Nat.le_trans (Nat.mul_le_mul_right limit hlimit) (Nat.le_of_eq (Nat.one_mul limit))
    omega

/-- A text that nests four levels and is higher than sixteen: nine chains, one
    around the other, close their levels before the next one opens any. -/
theorem height_above_twice :
    let source := "((1**1*1+1)**1**1*1*1+1+1)**1**1**1*1*1*1+1+1+1"
    ∃ tokens p, tokenize source = .ok tokens ∧
      Program.ofLexemes 4 source.utf8ByteSize tokens = .ok p ∧
      ∃ e ∈ p.statements, 2 * 4 + 8 < e.height := by
  intro source
  have hhigh : ∃ tokens ∈ (tokenize source).toOption,
      ∃ p ∈ (Program.ofLexemes 4 source.utf8ByteSize tokens).toOption,
        ∃ e ∈ p.statements, 2 * 4 + 8 < e.height := by decide +kernel
  obtain ⟨tokens, htokens, p, hp, hhigh⟩ := hhigh
  exact ⟨tokens, p, eq_ok_of_mem_toOption htokens, eq_ok_of_mem_toOption hp, hhigh⟩

end Grammar
end ScopeScript
