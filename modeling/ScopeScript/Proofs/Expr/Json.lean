/-
  ScopeScript.Proofs.Expr.Json

  What is lost between a tree and its JSON document. A document of a tree reads
  back as that tree or not at all, and it does read back exactly if every node
  can be written: its source range is one that fits a document, and it is no
  literal of an infinity or a NaN. What reads as a tree, in whatever form, has
  only ranges that fit.
-/
import ScopeScript.Expr.Json
import ScopeScript.Proofs.Expr.Everywhere

namespace ScopeScript

/-! ## Readings -/

/-- What was read is the value that was written, and it can be read exactly if a
    condition is met. -/
def ReadsBack {α : Type} (condition : Prop) (written : α) (read : Option α) : Prop :=
  ∀ a, read = some a ↔ a = written ∧ condition

namespace ReadsBack

variable {α β : Type} {p q : Prop} {a : α} {b : β} {read : Option α}

theorem some (a : α) : ReadsBack True a (Option.some a) := by
  intro a'
  simp [eq_comm]

theorem congr (h : ReadsBack p a read) (hpq : p ↔ q) : ReadsBack q a read := by
  intro a'
  rw [h a', hpq]

theorem of_ite [Decidable p] (a : α) : ReadsBack p a (if p then Option.some a else none) := by
  intro a'
  split <;> simp_all [eq_comm]

theorem bind {f : α → Option β} (h : ReadsBack p a read) (hf : ReadsBack q b (f a)) :
    ReadsBack (p ∧ q) b (read.bind f) := by
  intro b'
  rw [Option.bind_eq_some_iff]
  constructor
  · rintro ⟨a', ha', hb'⟩
    obtain ⟨rfl, hp⟩ := (h a').1 ha'
    obtain ⟨rfl, hq⟩ := (hf b').1 hb'
    exact ⟨rfl, hp, hq⟩
  · rintro ⟨rfl, hp, hq⟩
    exact ⟨a, (h a).2 ⟨rfl, hp⟩, (hf b').2 ⟨rfl, hq⟩⟩

theorem map (f : α → β) (h : ReadsBack p a read) : ReadsBack p (f a) (read.map f) := by
  rw [Option.map_eq_bind]
  exact (h.bind (.some (f a))).congr (iff_of_eq (and_true p))

end ReadsBack

/-! ## Ranges and literals -/

/-- Both ends of a range fit into 64 bits, as all offsets into a text do. -/
structure Span.Representable (s : Span) : Prop where
  start : s.start < 0x10000000000000000
  stop : s.stop < 0x10000000000000000

namespace Expr

open Json

/-- The tree is not itself the literal of an infinity or a NaN. -/
def FiniteLiteral : Expr → Prop
  | double _ d => d.isFinite
  | _ => True

/-- A document can tell the node: its range fits and its literal is a number. -/
structure Writable (e : Expr) : Prop where
  span : e.span.Representable
  literal : e.FiniteLiteral

theorem readsBack_offset (n : Nat) :
    ReadsBack (n < 0x10000000000000000) n (Json.int n).offset? := by
  refine (ReadsBack.of_ite (p := 0 ≤ (n : Int) ∧ (n : Int) < 0x10000000000000000) n).congr ?_
  omega

theorem readsBack_span (s : Span) : ReadsBack s.Representable s s.toJson.span? := by
  have hends : ReadsBack _ s ((Json.int s.start).offset?.bind fun start =>
      (Json.int s.stop).offset?.bind fun stop => Option.some ⟨start, stop⟩) :=
    (readsBack_offset s.start).bind ((readsBack_offset s.stop).bind (.some s))
  refine hends.congr ⟨?_, ?_⟩
  · rintro ⟨hstart, hstop, -⟩
    exact ⟨hstart, hstop⟩
  · rintro ⟨hstart, hstop⟩
    exact ⟨hstart, hstop, trivial⟩

theorem readsBack_int32 (n : Int32) : ReadsBack True n (Json.int n.toInt).int32? := by
  have hrange : -0x80000000 ≤ n.toInt ∧ n.toInt < 0x80000000 := ⟨n.le_toInt, n.toInt_lt⟩
  rw [int32?, if_pos hrange, Int32.ofInt_toInt]
  exact .some n

theorem readsBack_double (d : Double) : ReadsBack d.isFinite d d.toJson.double? := by
  rw [Double.toJson]
  split
  · exact (ReadsBack.some d).congr (by simp [*])
  · intro d'
    simp [double?, *]

theorem readsBack_operator (op : BinaryOp) :
    ReadsBack True op (Json.string op.label).operator? := by
  rw [operator?, BinaryOp.ofLabel?_label]
  exact .some op

/-! ## Trees -/

theorem readsBack_record {q : Prop} {e : Expr} {span : Span} {tag : String} {content : Json}
    (h : ReadsBack q e (ofTagged? span tag content)) :
    ReadsBack (span.Representable ∧ q) e (ofJson? (record span tag content)) := by
  have hrecord : (record span tag content).record? ["node", "span"] =
      some [.object [(tag, content)], span.toJson] := rfl
  have htag : (Json.object [(tag, content)]).tagged? = some (tag, content) := rfl
  have hread : ofJson? (record span tag content) =
      span.toJson.span?.bind (ofTagged? · tag content) := by
    -- The function matches with equations, for its termination, so what it finds
    -- is compared with the parts in each case.
    rw [ofJson?]
    split
    · next node doc hparts =>
      cases hrecord.symm.trans hparts
      split
      · next tag' content' span' htag' hspan =>
        cases htag.symm.trans htag'
        rw [hspan]
        rfl
      · next hno =>
        cases hspan : span.toJson.span? with
        | none => rfl
        | some s => exact absurd hspan (hno _ _ _ htag)
    · next hno => exact absurd hrecord (hno _ _)
  rw [hread]
  exact (readsBack_span span).bind h

theorem readsBack_all {W : Expr → Prop} :
    ∀ {es : List Expr}, (∀ e ∈ es, ReadsBack (W e) e (ofJson? e.toJson)) →
      ReadsBack (∀ e ∈ es, W e) es (ofJsonAll? (toJsonAll es))
  | [], _ => by
    rw [toJsonAll, ofJsonAll?]
    exact (ReadsBack.some []).congr (by simp)
  | e :: rest, h => by
    obtain ⟨he, hrest⟩ := List.forall_mem_cons.1 h
    rw [toJsonAll, ofJsonAll?]
    refine (he.bind ((readsBack_all hrest).bind (.some (e :: rest)))).congr ?_
    simp

theorem readsBack_entries {W : Expr → Prop} :
    ∀ {entries : List (Expr × Expr)},
      (∀ part ∈ (object default entries).parts, ReadsBack (W part) part (ofJson? part.toJson)) →
        ReadsBack (∀ part ∈ (object default entries).parts, W part) entries
          (ofJsonEntries? (toJsonEntries entries))
  | [], _ => by
    rw [toJsonEntries, ofJsonEntries?]
    exact (ReadsBack.some []).congr (by simp [parts])
  | (k, v) :: rest, h => by
    obtain ⟨hk, hv, hrest⟩ := forall_parts_object_cons.1 h
    rw [toJsonEntries, ofJsonEntries?]
    refine (hk.bind (hv.bind ((readsBack_entries hrest).bind (.some ((k, v) :: rest))))).congr ?_
    rw [forall_parts_object_cons, and_true]

theorem readsBack_address {W : Expr → Prop} {address : List Expr}
    (h : ∀ e ∈ address, ReadsBack (W e) e (ofJson? e.toJson)) :
    ReadsBack (∀ e ∈ address, W e) address
      (addressOfJson? (addressRecord (toJsonAll address))) := by
  have hread : addressOfJson? (addressRecord (toJsonAll address)) =
      ofJsonAll? (toJsonAll address) := by
    rw [addressOfJson?]
    rfl
  rw [hread]
  exact readsBack_all h

/-! ## Forms -/

section Forms

variable {p q : Prop} {span : Span} {address : List Expr} {e left right : Expr} {doc doc' : Json}

theorem readsBack_assign {yieldsOld : Bool} (haddress : ReadsBack p address (addressOfJson? doc))
    (he : ReadsBack q e (ofJson? doc')) :
    ReadsBack (p ∧ q) (assign span address e yieldsOld)
      (ofTagged? span "Assign" (.object
        [("target", doc), ("value", doc'), ("return_before_assignment", .bool yieldsOld)])) := by
  unfold ofTagged?
  have hparts : ReadsBack (p ∧ q ∧ True) (assign span address e yieldsOld)
      ((addressOfJson? doc).bind fun address => (ofJson? doc').bind fun e =>
        Option.some (assign span address e yieldsOld)) :=
    haddress.bind (he.bind (.some _))
  exact hparts.congr (by simp)

theorem readsBack_binary {op : BinaryOp} (hleft : ReadsBack p left (ofJson? doc))
    (hright : ReadsBack q right (ofJson? doc')) :
    ReadsBack (p ∧ q) (binary span op left right)
      (ofTagged? span "Binary" (.object
        [("op", .string op.label), ("left", doc), ("right", doc')])) := by
  unfold ofTagged?
  have hparts : ReadsBack (True ∧ p ∧ q ∧ True) (binary span op left right)
      ((Json.string op.label).operator?.bind fun op => (ofJson? doc).bind fun left =>
        (ofJson? doc').bind fun right => Option.some (binary span op left right)) :=
    (readsBack_operator op).bind (hleft.bind (hright.bind (.some _)))
  exact hparts.congr (by simp)

theorem readsBack_call {docs : List Json} {arguments : List Expr}
    (haddress : ReadsBack p address (addressOfJson? doc))
    (harguments : ReadsBack q arguments (ofJsonAll? docs)) :
    ReadsBack (p ∧ q) (call span address arguments)
      (ofTagged? span "Call" (.object [("callee", doc), ("args", .array docs)])) := by
  unfold ofTagged?
  exact haddress.bind (harguments.map (call span address))

end Forms

/-- The document of a node reads back as the node if its content does. -/
theorem readsBack_node {W : Expr → Prop} {q : Prop} {e : Expr} {tag : String} {content : Json}
    (h : ReadsBack q e (ofTagged? e.span tag content))
    (hq : q ↔ e.FiniteLiteral ∧ ∀ part ∈ e.parts, W part) :
    ReadsBack (e.Writable ∧ ∀ part ∈ e.parts, W part) e (ofJson? (record e.span tag content)) := by
  refine (readsBack_record h).congr ?_
  rw [hq, ← and_assoc]
  exact and_congr_left' ⟨fun h => ⟨h.1, h.2⟩, fun h => ⟨h.span, h.literal⟩⟩

/-- The document of a tree reads back as the tree if its parts do. -/
theorem readsBack_parts {W : Expr → Prop} (e : Expr)
    (h : ∀ part ∈ e.parts, ReadsBack (W part) part (ofJson? part.toJson)) :
    ReadsBack (e.Writable ∧ ∀ part ∈ e.parts, W part) e (ofJson? e.toJson) := by
  -- For each form, what its content reads back as; the rest is the same for all.
  cases e with
  | int span n =>
    have hcontent : ReadsBack True (int span n) (ofTagged? span "IntLit" (.int n.toInt)) := by
      unfold ofTagged?
      exact (readsBack_int32 n).map (int span)
    exact readsBack_node hcontent (by simp [FiniteLiteral, parts])
  | double span d =>
    have hcontent : ReadsBack d.isFinite (double span d) (ofTagged? span "DoubleLit" d.toJson) := by
      unfold ofTagged?
      exact (readsBack_double d).map (double span)
    exact readsBack_node hcontent (by simp [FiniteLiteral, parts])
  | string span text =>
    have hcontent : ReadsBack True (string span text)
        (ofTagged? span "StringLit" (.string text)) := by
      unfold ofTagged?
      exact .some (string span text)
    exact readsBack_node hcontent (by simp [FiniteLiteral, parts])
  | read span address =>
    have hcontent : ReadsBack (∀ key ∈ address, W key) (read span address)
        (ofTagged? span "Ident" (addressRecord (toJsonAll address))) := by
      unfold ofTagged?
      exact (readsBack_address h).map (read span)
    exact readsBack_node hcontent (by simp [FiniteLiteral, parts])
  | assign span address value yieldsOld =>
    obtain ⟨hvalue, haddress⟩ := List.forall_mem_cons.1 h
    refine readsBack_node (readsBack_assign (readsBack_address haddress) hvalue) ?_
    simp [FiniteLiteral, parts, and_comm]
  | binary span op left right =>
    obtain ⟨hleft, hright⟩ : _ ∧ ReadsBack (W right) right (ofJson? right.toJson) := by
      simpa [parts] using h
    refine readsBack_node (readsBack_binary hleft hright) ?_
    simp [FiniteLiteral, parts]
  | list span elements =>
    have hcontent : ReadsBack (∀ e ∈ elements, W e) (list span elements)
        (ofTagged? span "List" (.array (toJsonAll elements))) := by
      unfold ofTagged?
      exact (readsBack_all h).map (list span)
    exact readsBack_node hcontent (by simp [FiniteLiteral, parts])
  | object span entries =>
    have hcontent : ReadsBack (∀ part ∈ (object span entries).parts, W part) (object span entries)
        (ofTagged? span "Object" (.array (toJsonEntries entries))) := by
      unfold ofTagged?
      exact (readsBack_entries h).map (object span)
    exact readsBack_node hcontent (by simp [FiniteLiteral])
  | call span callee arguments =>
    obtain ⟨hcallee, harguments⟩ := List.forall_mem_append.1 h
    refine readsBack_node (readsBack_call (readsBack_address hcallee) (readsBack_all harguments)) ?_
    simp [FiniteLiteral, parts, or_imp, forall_and]

/-- A tree's document reads back exactly if every node of it can be told. -/
theorem readsBack_toJson (e : Expr) : ReadsBack (e.Everywhere Writable) e (ofJson? e.toJson) := by
  induction e using parts_induction with
  | step e ih => exact (readsBack_parts e ih).congr everywhere_iff.symm

/-! ## What reads as a tree -/

/-- Every tree of a list of documents is the tree of one of them. -/
theorem ofJson?_of_mem : ∀ {docs : List Json} {es : List Expr}, ofJsonAll? docs = some es →
    ∀ e ∈ es, ∃ doc, ofJson? doc = some e
  | [], es, h, e, he => by
    rw [ofJsonAll?] at h
    cases h
    cases he
  | doc :: rest, es, h, e, he => by
    rw [ofJsonAll?] at h
    obtain ⟨first, hfirst, h⟩ := Option.bind_eq_some_iff.1 h
    obtain ⟨others, hothers, h⟩ := Option.bind_eq_some_iff.1 h
    cases h
    exact List.forall_mem_cons.2 ⟨⟨doc, hfirst⟩, ofJson?_of_mem hothers⟩ e he

theorem ofJson?_of_mem_entries : ∀ {docs : List Json} {entries : List (Expr × Expr)},
    ofJsonEntries? docs = some entries →
      ∀ part ∈ (object default entries).parts, ∃ doc, ofJson? doc = some part
  | [], entries, h, part, hpart => by
    rw [ofJsonEntries?] at h
    cases h
    cases hpart
  | doc :: rest, entries, h, part, hpart => by
    unfold ofJsonEntries? at h
    split at h
    · next heq => cases heq
    · next key value rest' heq =>
      cases heq
      obtain ⟨k, hk, h⟩ := Option.bind_eq_some_iff.1 h
      obtain ⟨v, hv, h⟩ := Option.bind_eq_some_iff.1 h
      obtain ⟨others, hothers, h⟩ := Option.bind_eq_some_iff.1 h
      cases h
      have hrest := ofJson?_of_mem_entries hothers
      exact forall_parts_object_cons.2 ⟨⟨key, hk⟩, ⟨value, hv⟩, hrest⟩ part hpart
    · cases h

theorem ofJson?_of_mem_address {doc : Json} {address : List Expr}
    (h : addressOfJson? doc = some address) : ∀ key ∈ address, ∃ doc, ofJson? doc = some key := by
  rw [addressOfJson?] at h
  split at h
  · split at h
    · exact ofJson?_of_mem h
    · cases h
  · cases h

theorem span?_representable {doc : Json} {s : Span} (h : doc.span? = some s) : s.Representable := by
  have hoffset {doc : Json} {n : Nat} (h : doc.offset? = some n) : n < 0x10000000000000000 := by
    unfold offset? at h
    split at h
    · split at h
      · cases h
        omega
      · cases h
    · cases h
  unfold span? at h
  split at h
  · obtain ⟨start, hstart, h⟩ := Option.bind_eq_some_iff.1 h
    obtain ⟨stop, hstop, h⟩ := Option.bind_eq_some_iff.1 h
    cases h
    exact ⟨hoffset hstart, hoffset hstop⟩
  · cases h

/-- A node read from its tag and content stands where it was said to, and its
    parts were read from documents. -/
theorem ofTagged?_parts {span : Span} {tag : String} {content : Json} {e : Expr}
    (h : ofTagged? span tag content = some e) :
    e.span = span ∧ ∀ part ∈ e.parts, ∃ doc, ofJson? doc = some part := by
  unfold ofTagged? at h
  split at h
  · obtain ⟨n, -, rfl⟩ := Option.map_eq_some_iff.1 h
    exact ⟨rfl, fun part hpart => absurd hpart List.not_mem_nil⟩
  · obtain ⟨d, -, rfl⟩ := Option.map_eq_some_iff.1 h
    exact ⟨rfl, fun part hpart => absurd hpart List.not_mem_nil⟩
  · obtain ⟨text, -, rfl⟩ := Option.map_eq_some_iff.1 h
    exact ⟨rfl, fun part hpart => absurd hpart List.not_mem_nil⟩
  · obtain ⟨address, haddress, rfl⟩ := Option.map_eq_some_iff.1 h
    exact ⟨rfl, ofJson?_of_mem_address haddress⟩
  · split at h
    · obtain ⟨address, haddress, h⟩ := Option.bind_eq_some_iff.1 h
      obtain ⟨e', he', h⟩ := Option.bind_eq_some_iff.1 h
      obtain ⟨yieldsOld, -, h⟩ := Option.bind_eq_some_iff.1 h
      cases h
      exact ⟨rfl, List.forall_mem_cons.2 ⟨⟨_, he'⟩, ofJson?_of_mem_address haddress⟩⟩
    · cases h
  · split at h
    · obtain ⟨op, -, h⟩ := Option.bind_eq_some_iff.1 h
      obtain ⟨left, hleft, h⟩ := Option.bind_eq_some_iff.1 h
      obtain ⟨right, hright, h⟩ := Option.bind_eq_some_iff.1 h
      cases h
      exact ⟨rfl, List.forall_mem_cons.2 ⟨⟨_, hleft⟩, List.forall_mem_singleton.2 ⟨_, hright⟩⟩⟩
    · cases h
  · split at h
    · obtain ⟨elements, helements, rfl⟩ := Option.map_eq_some_iff.1 h
      exact ⟨rfl, ofJson?_of_mem helements⟩
    · cases h
  · split at h
    · obtain ⟨entries, hentries, rfl⟩ := Option.map_eq_some_iff.1 h
      exact ⟨rfl, ofJson?_of_mem_entries hentries⟩
    · cases h
  · split at h
    · obtain ⟨callee, hcallee, h⟩ := Option.bind_eq_some_iff.1 h
      split at h
      · obtain ⟨arguments, harguments, rfl⟩ := Option.map_eq_some_iff.1 h
        exact ⟨rfl, List.forall_mem_append.2
          ⟨ofJson?_of_mem_address hcallee, ofJson?_of_mem harguments⟩⟩
      · cases h
    · cases h
  · cases h

theorem ofJson?_parts {doc : Json} {e : Expr} (h : ofJson? doc = some e) :
    e.span.Representable ∧ ∀ part ∈ e.parts, ∃ doc, ofJson? doc = some part := by
  rw [ofJson?] at h
  split at h
  · split at h
    · next hspan =>
      obtain ⟨rfl, hparts⟩ := ofTagged?_parts h
      exact ⟨span?_representable hspan, hparts⟩
    · cases h
  · cases h

/-- All ranges in what reads as a tree fit a document. -/
theorem representable_of_ofJson? {e : Expr} {doc : Json} (h : ofJson? doc = some e) :
    e.Everywhere (·.span.Representable) := by
  induction e using parts_induction generalizing doc with
  | step e ih =>
    obtain ⟨here, hparts⟩ := ofJson?_parts h
    refine .intro here fun part hpart => ?_
    obtain ⟨doc', hdoc'⟩ := hparts part hpart
    exact ih part hpart hdoc'

/-- Where all ranges fit, only infinities and NaNs keep a tree from reading back. -/
theorem everywhere_writable_iff {e : Expr} (h : e.Everywhere (·.span.Representable)) :
    e.Everywhere Writable ↔ e.Everywhere FiniteLiteral := by
  constructor
  · exact fun hw => hw.mono fun _ => Writable.literal
  · exact fun hf => (everywhere_and.2 ⟨h, hf⟩).mono fun _ hn => ⟨hn.1, hn.2⟩

theorem ofJson?_toJson_iff {e e' : Expr} (h : e.Everywhere (·.span.Representable)) :
    ofJson? e.toJson = some e' ↔ e' = e ∧ e.Everywhere FiniteLiteral := by
  rw [readsBack_toJson e e', everywhere_writable_iff h]

end Expr

/-! ## Programs -/

namespace Program

open ScopeScript.Expr

/-- Every node of every statement has a property. -/
def Everywhere (P : Expr → Prop) (p : Program) : Prop :=
  ∀ e ∈ p.statements, e.Everywhere P

theorem ofJson?_toJson_iff {p q : Program} (h : p.Everywhere (·.span.Representable)) :
    ofJson? p.toJson = some q ↔ q = p ∧ p.Everywhere FiniteLiteral := by
  have hstatements : ReadsBack (p.Everywhere FiniteLiteral) p.statements
      (ofJsonAll? (toJsonAll p.statements)) :=
    (readsBack_all fun e _ => readsBack_toJson e).congr
      (forall₂_congr fun e he => everywhere_writable_iff (h e he))
  exact hstatements.map Program.mk q

theorem representable_of_ofJson? {doc : Json} {p : Program} (h : ofJson? doc = some p) :
    p.Everywhere (·.span.Representable) := by
  unfold ofJson? at h
  split at h
  · obtain ⟨statements, hstatements, rfl⟩ := Option.map_eq_some_iff.1 h
    obtain ⟨docs, -, hdocs⟩ := Option.bind_eq_some_iff.1 hstatements
    intro e he
    obtain ⟨doc, hdoc⟩ := ofJson?_of_mem hdocs e he
    exact Expr.representable_of_ofJson? hdoc
  · cases h

end Program

/-- The documents of trees and programs lose nothing. One reads back exactly if
    no literal in it, however deep, is an infinity or a NaN, and then as what was
    written. And what was read from any document, if its literals are numbers,
    reads back from its own. -/
theorem json_lossless :
    (∀ e e' : Expr, e.Everywhere (·.span.Representable) →
      (Expr.ofJson? e.toJson = some e' ↔ e' = e ∧ e.Everywhere Expr.FiniteLiteral)) ∧
    (∀ p q : Program, p.Everywhere (·.span.Representable) →
      (Program.ofJson? p.toJson = some q ↔ q = p ∧ p.Everywhere Expr.FiniteLiteral)) ∧
    (∀ (doc : Json) (e : Expr), Expr.ofJson? doc = some e → e.Everywhere Expr.FiniteLiteral →
      Expr.ofJson? e.toJson = some e) ∧
    (∀ (doc : Json) (p : Program), Program.ofJson? doc = some p →
      p.Everywhere Expr.FiniteLiteral → Program.ofJson? p.toJson = some p) := by
  refine ⟨?trees, ?programs, ?treeDocuments, ?programDocuments⟩
  case trees => exact fun e e' h => Expr.ofJson?_toJson_iff h
  case programs => exact fun p q h => Program.ofJson?_toJson_iff h
  case treeDocuments =>
    intro doc e hdoc hfinite
    exact (Expr.ofJson?_toJson_iff (Expr.representable_of_ofJson? hdoc)).2 ⟨rfl, hfinite⟩
  case programDocuments =>
    intro doc p hdoc hfinite
    exact (Program.ofJson?_toJson_iff (Program.representable_of_ofJson? hdoc)).2 ⟨rfl, hfinite⟩

/-- An infinity among the arguments of a call keeps a program from reading back.
    A zero given as an integer, at a range given as an array, reads back. -/
theorem json_lossless_of_zero :
    let at0 : Span := ⟨0, 5⟩
    let call (d : Double) := Expr.call at0 [.string at0 "print"] [.double at0 d]
    let p : Program := ⟨[.read at0 [call .infinity]]⟩
    let doc : Json := .array [.object [("DoubleLit", .int 0)], .array [.int 0, .int 5]]
    p.Everywhere (·.span.Representable) ∧ (∀ q, Program.ofJson? p.toJson ≠ some q) ∧
      Expr.ofJson? doc = some (.double at0 .zero) ∧
      Expr.ofJson? (Expr.double at0 .zero).toJson = some (.double at0 .zero) := by
  intro at0 call p doc
  obtain ⟨-, hprograms, hdocuments, -⟩ := json_lossless
  have hat0 : at0.Representable := ⟨by decide, by decide⟩
  have hcall : (call .infinity).Everywhere (·.span.Representable) :=
    .intro hat0 (List.forall_mem_cons.2
      ⟨.leaf hat0 rfl, List.forall_mem_singleton.2 (.leaf hat0 rfl)⟩)
  have hp : p.Everywhere (·.span.Representable) :=
    List.forall_mem_singleton.2 (.intro hat0 (List.forall_mem_singleton.2 hcall))
  have hlost (q : Program) : Program.ofJson? p.toJson ≠ some q := by
    intro hq
    obtain ⟨-, hfinite⟩ := (hprograms p q hp).1 hq
    have hstatement : (Expr.read at0 [call .infinity]).Everywhere _ := hfinite _ List.mem_cons_self
    have harguments : (call .infinity).Everywhere _ := hstatement.part List.mem_cons_self
    have hinfinity : (Expr.double at0 .infinity).Everywhere _ :=
      harguments.part (List.mem_cons_of_mem _ List.mem_cons_self)
    have hwrong : Double.infinity.isFinite := hinfinity.here
    exact absurd hwrong (by decide)
  have hdoc : Expr.ofJson? doc = some (.double at0 .zero) := by cbv
  have hzero : (Expr.double at0 .zero).Everywhere Expr.FiniteLiteral := .leaf rfl rfl
  exact ⟨hp, hlost, hdoc, hdocuments doc _ hdoc hzero⟩

end ScopeScript
