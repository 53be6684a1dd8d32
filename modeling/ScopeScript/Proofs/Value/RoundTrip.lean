/-
  ScopeScript.Proofs.Value.RoundTrip

  A printed value is source text for itself.
-/
import ScopeScript.Source
import ScopeScript.Proofs.Value.Spelling
import ScopeScript.Proofs.Session.Literal
import ScopeScript.Proofs.Grammar.Completeness

namespace ScopeScript
namespace Value

open Grammar Grammar.Derivation Scan

/-- The written form of a printable value is a program of one statement. -/
theorem Printable.exists_ofSource {v : Value} (h : v.Printable) {limit : Nat}
    (hlevels : v.levels ≤ limit) :
    ∃ e, Program.ofSource limit v.text = .ok ⟨[e]⟩ ∧ e.bare = v.tree := by
  obtain ⟨d, hd⟩ := h.exists_spells
  -- The whole text is scanned: nothing follows it.
  have hscans := hd.scans [] [] (fun _ h => nomatch h) .nil
  rw [List.append_nil, List.append_nil] at hscans
  obtain ⟨lexemes, hlexemes, htokens⟩ := exists_tokenize hscans
  have hyield : lexemes.map (·.token) = (Derivation.statement (expressionOf d)).yield := by
    rw [htokens]
    exact (yield_expressionOf d).symm
  have htargets : (Derivation.statement (expressionOf d)).TargetsIdentifiers :=
    (targetsIdentifiers_expressionOf d).2 hd.targets
  have hopen : (Derivation.statement (expressionOf d)).levels ≤ limit := by
    show (expressionOf d).levels ≤ limit
    rw [levels_expressionOf]
    exact Nat.le_trans hd.levels hlevels
  obtain ⟨e, he, hbare⟩ := exists_ofLexemes v.text.utf8ByteSize htargets hopen hyield
  refine ⟨e, ?_, ?_⟩
  · rw [Program.ofSource, hlexemes]
    simp only [he]
  · rw [hbare, ← hd.meaning]
    rfl

/-- Reading and running the written form of a printable value, where its nesting
    is within the limits of the parser and the session, gives one value. That is
    equal to the first one and written in the same way, and the store is left as
    it is. -/
theorem text_reads_back {v : Value} (h : v.Printable) {limit : Nat} (hlevels : v.levels ≤ limit)
    {s : Session} (hheight : s.depth + v.height ≤ s.limit) :
    ∃ p w s', Program.ofSource limit v.text = .ok p ∧ p.run s = .ok [w] s' ∧
      w.same v = true ∧ w.text = v.text ∧ s'.store = s.store := by
  obtain ⟨e, he, hbare⟩ := h.exists_ofSource hlevels
  obtain ⟨s', hs', hlike⟩ := h.evaluated e s hbare hheight
  refine ⟨⟨[e]⟩, v.written, s', he, ?_, h.same_written, h.text_written, hlike.store⟩
  rw [Program.run, evaluateStatements, Action.bind_of_ok hs']
  rfl

/-- The object `{ 'b': [ -1 ], 2: '' }`, which is written with the integer key
    first. -/
theorem text_reads_back_object :
    let v := Value.object [(.string "b", .list [.int (-1)]), (.int 2, .string "")]
    let s := Session.new 100
    ∃ p w s', Program.ofSource 100 v.text = .ok p ∧ p.run s = .ok [w] s' ∧
      w.same v = true ∧ w.text = v.text ∧ s'.store = s.store := by
  intro v s
  have hb : (Primitive.string "b").Printable := .string (by simp [Scan.Plain])
  have htwo : (Primitive.int 2).Printable := .int (by decide)
  have hlist : (Value.list [.int (-1)]).Printable :=
    .list (List.forall_mem_singleton.2 (.primitive (.int (by decide))))
  have hempty : (Value.string "").Printable :=
    .primitive (.string (by simp [Scan.Plain]))
  have hv : v.Printable :=
    .object (List.forall_mem_cons.2 ⟨hb, List.forall_mem_singleton.2 htwo⟩)
      (List.forall_mem_cons.2 ⟨hlist, List.forall_mem_singleton.2 hempty⟩) (by decide)
  exact text_reads_back hv (by decide) (by decide)

end Value
end ScopeScript
