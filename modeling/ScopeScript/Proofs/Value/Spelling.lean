/-
  ScopeScript.Proofs.Value.Spelling

  The written form of a printable value is a sentence of the grammar. There is a
  derivation of the tree of the value, within its levels, whose yield is what
  the written form is scanned as, before anything that does not go on a number.
-/
import ScopeScript.Proofs.Value.Literal
import ScopeScript.Proofs.Grammar.Derivation

namespace ScopeScript
namespace Value

open Grammar Grammar.Derivation Scan

/-- Characters are scanned as the yield of a derivation, before anything that does
    not go on a number. -/
def ScansAs {n : Nonterminal} (cs : List Char) (d : Derivation n) : Prop :=
  ∀ rest ts, EndsNumber rest → Scans rest ts → Scans (cs ++ rest) (d.yield ++ ts)

/-- The written form of a value is scanned as the yield of a derivation of its
    tree. -/
structure Spells (v : Value) (d : Derivation .unary) : Prop where
  targets : d.TargetsIdentifiers
  levels : d.levels + 1 ≤ v.levels
  meaning : d.meaning = v.tree
  scans : ScansAs v.text.toList d

/-- So are the written forms of the elements of a list, with commas in between. -/
structure SpellsItems (vs : List Value) (d : Derivation .items) : Prop where
  targets : d.TargetsIdentifiers
  levels : ∀ n, (∀ v ∈ vs, v.levels ≤ n) → d.levels ≤ n
  meaning : d.meaning = vs.map tree
  scans : ScansAs (String.intercalate ", " (vs.map text)).toList d

/-- So are the written forms of the entries of an object. -/
structure SpellsEntries (ps : Object) (d : Derivation .entries) : Prop where
  targets : d.TargetsIdentifiers
  levels : ∀ n, (∀ p ∈ ps, (Value.primitive p.1).levels ≤ n ∧ p.2.levels ≤ n) → d.levels ≤ n
  meaning : d.meaning = ps.map fun p => (p.1.tree, p.2.tree)
  scans : ScansAs (String.intercalate ", " (ps.map entryText)).toList d

theorem endsNumber_cons {c : Char} (hc : c.isDigit = false) (hpoint : c ≠ '.') (cs : List Char) :
    EndsNumber (c :: cs) := by
  intro d hd
  cases hd
  exact ⟨hc, hpoint⟩

/-! ## Primitives -/

theorem spells_int {n : Int32} (h : n.toInt ≠ -2147483648) :
    ∃ d, Spells (.primitive (.int n)) d := by
  have hlower := n.le_toInt
  have hupper := n.toInt_lt
  have htext : (Value.primitive (.int n)).text.toList = Decimal.integer n.toInt := by
    rw [text, Primitive.text, intText, String.toList_ofList]
  by_cases hneg : n.toInt < 0
  · -- The sign is a token of its own, and the parser puts it back.
    refine ⟨.minus (.unsigned (.primary (.int (-n)))), trivial, ?_, ?_, ?_⟩
    · show 2 ≤ if n.toInt < 0 then 2 else 1
      exact Nat.le_of_eq (if_pos hneg).symm
    · show Expr.int nowhere (- -n) = .int nowhere n
      rw [Int32.neg_neg]
    · intro rest ts hrest hscans
      have hvalue : Int32.ofInt (n.toInt.natAbs : Int) = -n := by
        rw [show (n.toInt.natAbs : Int) = -n.toInt by omega, Int32.ofInt_neg, Int32.ofInt_toInt]
      have hdigits := Scans.digits (n := n.toInt.natAbs) (by omega) hrest hscans
      rw [hvalue] at hdigits
      obtain ⟨c, ds, hds, hc, -⟩ := digitsOf_eq_cons n.toInt.natAbs
      rw [htext, Decimal.integer, if_pos hneg, List.cons_append]
      rw [hds, List.cons_append] at hdigits ⊢
      exact hdigits.minus hc
  · refine ⟨.unsigned (.primary (.int n)), trivial, ?_, rfl, ?_⟩
    · show 1 ≤ if n.toInt < 0 then 2 else 1
      exact Nat.le_of_eq (if_neg hneg).symm
    · intro rest ts hrest hscans
      have hvalue : Int32.ofInt (n.toInt.natAbs : Int) = n := by
        rw [show (n.toInt.natAbs : Int) = n.toInt by omega, Int32.ofInt_toInt]
      have hdigits := Scans.digits (n := n.toInt.natAbs) (by omega) hrest hscans
      rw [hvalue] at hdigits
      rw [htext, Decimal.integer, if_neg hneg]
      exact hdigits

theorem spells_string {s : String} (h : Plain s.toList) :
    ∃ d, Spells (.primitive (.string s)) d := by
  refine ⟨.unsigned (.primary (.string s)), trivial, Nat.le_refl _, rfl, ?_⟩
  intro rest ts _ hscans
  have htext : (Value.primitive (.string s)).text.toList ++ rest =
      '\'' :: (s.toList ++ '\'' :: rest) := by
    rw [text, Primitive.text, String.toList_append, String.toList_append, List.append_assoc,
      List.append_assoc]
    rfl
  rw [htext]
  exact hscans.string h

theorem spells_primitive {p : Primitive} (h : p.Printable) : ∃ d, Spells (.primitive p) d := by
  cases h with
  | int h => exact spells_int h
  | string h => exact spells_string h

/-! ## Lists and objects -/

theorem exists_spellsItems {vs : List Value} (h : ∀ v ∈ vs, ∃ d, Spells v d) :
    ∃ d, SpellsItems vs d := by
  induction vs with
  | nil => exact ⟨.itemsNone, trivial, fun n _ => Nat.zero_le n, rfl, fun _ _ _ hscans => hscans⟩
  | cons v vs ih =>
    obtain ⟨⟨d, hd⟩, hvs⟩ := List.forall_mem_cons.1 h
    have htargets := (targetsIdentifiers_expressionOf d).2 hd.targets
    cases vs with
    | nil =>
      refine ⟨.itemsOne (expressionOf d), htargets, fun n hn => ?_, ?_,
        fun rest ts hrest hscans => ?_⟩
      · rw [Derivation.levels, levels_expressionOf]
        exact Nat.le_trans hd.levels (hn v List.mem_cons_self)
      · rw [Derivation.meaning, meaning_expressionOf, hd.meaning]
        rfl
      · rw [Derivation.yield, yield_expressionOf, List.map_singleton, String.intercalate_singleton]
        exact hd.scans rest ts hrest hscans
    | cons w vs =>
      obtain ⟨ds, hds⟩ := ih hvs
      refine ⟨.itemsMore (expressionOf d) ds, ⟨htargets, hds.targets⟩, fun n hn => ?_, ?_,
        fun rest ts hrest hscans => ?_⟩
      · obtain ⟨hv, hn⟩ := List.forall_mem_cons.1 hn
        have hfirst := hd.levels
        have hothers := hds.levels n hn
        rw [Derivation.levels, levels_expressionOf]
        omega
      · rw [Derivation.meaning, meaning_expressionOf, hd.meaning, hds.meaning]
        rfl
      · -- What follows the first one begins with a comma, so it ends a number.
        have hothers := hds.scans rest ts hrest hscans
        have hsep := (hothers.space (c := ' ') rfl).mark .comma
        have hfirst := hd.scans _ _ (endsNumber_cons rfl (by decide) _) hsep
        rw [Derivation.yield, yield_expressionOf, List.append_assoc]
        rw [List.map_cons, List.map_cons, String.intercalate_cons_cons, String.toList_append,
          String.toList_append, List.append_assoc, List.append_assoc]
        exact hfirst

theorem exists_spellsEntries {ps : Object}
    (h : ∀ p ∈ ps, (∃ d, Spells (.primitive p.1) d) ∧ ∃ d, Spells p.2 d) :
    ∃ d, SpellsEntries ps d := by
  induction ps with
  | nil => exact ⟨.entriesNone, trivial, fun n _ => Nat.zero_le n, rfl, fun _ _ _ hscans => hscans⟩
  | cons p ps ih =>
    obtain ⟨⟨⟨k, hk⟩, d, hd⟩, hps⟩ := List.forall_mem_cons.1 h
    have hkey := (targetsIdentifiers_expressionOf k).2 hk.targets
    have hvalue := (targetsIdentifiers_expressionOf d).2 hd.targets
    -- An entry before anything that ends a number.
    have hentry : ∀ rest ts, EndsNumber rest → Scans rest ts →
        Scans ((entryText p).toList ++ rest) (k.yield ++ .symbol .colon :: (d.yield ++ ts)) := by
      intro rest ts hrest hscans
      have hsep := ((hd.scans rest ts hrest hscans).space (c := ' ') rfl).mark .colon
      have hall := hk.scans _ _ (endsNumber_cons rfl (by decide) _) hsep
      rw [entryText, String.toList_append, String.toList_append, List.append_assoc,
        List.append_assoc]
      exact hall
    cases ps with
    | nil =>
      refine ⟨.entriesOne (expressionOf k) (expressionOf d), ⟨hkey, hvalue⟩, fun n hn => ?_, ?_,
        fun rest ts hrest hscans => ?_⟩
      · obtain ⟨hk', hd'⟩ := hn p List.mem_cons_self
        have hlevels := hk.levels
        have hlevels' := hd.levels
        rw [Derivation.levels, levels_expressionOf, levels_expressionOf]
        omega
      · rw [Derivation.meaning, meaning_expressionOf, meaning_expressionOf, hk.meaning, hd.meaning]
        rfl
      · rw [Derivation.yield, yield_expressionOf, yield_expressionOf, List.map_singleton,
          String.intercalate_singleton, List.append_assoc]
        exact hentry rest ts hrest hscans
    | cons q ps =>
      obtain ⟨ds, hds⟩ := ih hps
      refine ⟨.entriesMore (expressionOf k) (expressionOf d) ds, ⟨hkey, hvalue, hds.targets⟩,
        fun n hn => ?_, ?_, fun rest ts hrest hscans => ?_⟩
      · obtain ⟨⟨hk', hd'⟩, hn⟩ := List.forall_mem_cons.1 hn
        have hfirst := hk.levels
        have hfirst' := hd.levels
        have hothers := hds.levels n hn
        rw [Derivation.levels, levels_expressionOf, levels_expressionOf]
        omega
      · rw [Derivation.meaning, meaning_expressionOf, meaning_expressionOf, hk.meaning, hd.meaning,
          hds.meaning]
        rfl
      · have hothers := hds.scans rest ts hrest hscans
        have hsep := (hothers.space (c := ' ') rfl).mark .comma
        have hfirst := hentry _ _ (endsNumber_cons rfl (by decide) _) hsep
        rw [Derivation.yield, yield_expressionOf, yield_expressionOf, List.append_assoc,
          List.cons_append, List.append_assoc]
        rw [List.map_cons, List.map_cons, String.intercalate_cons_cons, String.toList_append,
          String.toList_append, List.append_assoc, List.append_assoc]
        exact hfirst

/-- The written form of a printable value is a sentence. -/
theorem Printable.exists_spells {v : Value} (h : v.Printable) : ∃ d, Spells v d := by
  induction h with
  | primitive h => exact spells_primitive h
  | @list vs _ ih =>
    obtain ⟨ds, hds⟩ := exists_spellsItems ih
    refine ⟨.unsigned (.primary (.list ds)), hds.targets, ?_, ?_, fun rest ts _ hscans => ?_⟩
    · refine Nat.succ_le_succ (hds.levels _ fun v hv => ?_)
      exact nesting_le_of_mem hv
    · rw [tree, trees_eq_map, ← hds.meaning]
      rfl
    · have hclose := (hscans.mark .rightBracket).space (c := ' ') rfl
      have hitems := hds.scans _ _ (endsNumber_cons rfl (by decide) _) hclose
      have hopen := (hitems.space (c := ' ') rfl).mark .leftBracket
      simp only [Derivation.yield, List.cons_append, List.append_assoc]
      rw [text_list, String.toList_append, String.toList_append, List.append_assoc,
        List.append_assoc]
      exact hopen
  | @object ps hkeys _ _ ih =>
    have hentries : ∀ p ∈ Object.inOrder ps,
        (∃ d, Spells (.primitive p.1) d) ∧ ∃ d, Spells p.2 d := by
      intro p hp
      have hmem := Object.mem_inOrder.1 hp
      exact ⟨spells_primitive (hkeys p hmem), ih p hmem⟩
    obtain ⟨ds, hds⟩ := exists_spellsEntries hentries
    refine ⟨.unsigned (.primary (.object ds)), hds.targets, ?_, ?_, fun rest ts _ hscans => ?_⟩
    · refine Nat.succ_le_succ (hds.levels _ fun p hp => ?_)
      exact nesting_entry_le Primitive.levels (Object.mem_inOrder.1 hp)
    · rw [tree_object, ← hds.meaning]
      rfl
    · have hclose := (hscans.mark .rightBrace).space (c := ' ') rfl
      have hitems := hds.scans _ _ (endsNumber_cons rfl (by decide) _) hclose
      have hopen := (hitems.space (c := ' ') rfl).mark .leftBrace
      simp only [Derivation.yield, List.cons_append, List.append_assoc]
      rw [text_object, String.toList_append, String.toList_append, List.append_assoc,
        List.append_assoc]
      exact hopen

end Value
end ScopeScript
