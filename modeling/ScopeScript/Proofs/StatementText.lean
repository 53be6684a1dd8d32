/-
  ScopeScript.Proofs.StatementText

  A statement is exactly its text. The bytes of its range are a text, which read alone
  is a program of one statement, the same one further back: the first token of the next
  statement ends a statement as the end of a text does, no level stays open, and no
  token was shorter for what stood behind it. Between the ranges of the statements
  there is nothing but white space, comments and semicolons.
-/
import ScopeScript.Expr.Equality
import ScopeScript.Proofs.Grammar.Extent
import ScopeScript.Proofs.Grammar.Transplant
import ScopeScript.Proofs.Text.ByteOrder
import ScopeScript.Proofs.Token.Segments
import ScopeScript.Source

namespace ScopeScript

/-! ## Bytes of a part -/

theorem utf8_ofList (cs : List Char) :
    utf8 (String.ofList cs) = cs.flatMap String.utf8EncodeChar := by
  rw [utf8_eq_flatMap, String.toList_ofList]

theorem length_utf8_ofList (cs : List Char) :
    (utf8 (String.ofList cs)).length = Text.byteLength cs := by
  rw [utf8_ofList]
  induction cs with
  | nil => rfl
  | cons c cs ih =>
    rw [List.flatMap_cons, List.length_append, ih, String.length_utf8EncodeChar, Text.byteLength]

theorem utf8_append (cs ds : List Char) :
    utf8 (String.ofList (cs ++ ds)) = utf8 (String.ofList cs) ++ utf8 (String.ofList ds) := by
  rw [utf8_ofList, utf8_ofList, utf8_ofList, List.flatMap_append]

/-- The bytes of a part of a text are the part's. -/
theorem drop_take_utf8 {source : String} {before body behind : List Char}
    (h : source.toList = before ++ (body ++ behind)) :
    ((utf8 source).drop (Text.byteLength before)).take (Text.byteLength body) =
      utf8 (String.ofList body) := by
  rw [← String.ofList_toList (s := source), h, utf8_append, utf8_append,
    ← length_utf8_ofList before, List.drop_left, ← length_utf8_ofList body, List.take_left]

/-- The bytes of a text are read as it. -/
theorem sourceText_utf8 (s : String) : sourceText (utf8 s) = .ok s := by
  have hbytes : ByteArray.mk (utf8 s).toArray = s.toByteArray := by
    rw [utf8, Array.toArray_toList]
  rw [sourceText, hbytes, String.fromUTF8?, dif_pos s.isValidUTF8]
  rfl

/-! ## Further back -/

/-- The range `n` bytes further back. -/
def Span.unshift (n : Nat) (s : Span) : Span :=
  ⟨s.start - n, s.stop - n⟩

theorem Span.unshift_shift (n : Nat) (s : Span) : (s.shift n).unshift n = s := by
  simp only [shift, unshift, Nat.add_sub_cancel]

theorem Span.keepsMerges_unshift (n : Nat) : KeepsMerges (unshift n) := by
  refine ⟨fun a b => ?_⟩
  simp only [unshift, merge, Span.mk.injEq]
  omega

theorem map_unshift_shift (n : Nat) (ts : List Lexeme) :
    (ts.map (Lexeme.relocate (Span.shift n))).map (Lexeme.relocate (Span.unshift n)) = ts := by
  rw [List.map_map]
  refine (List.map_congr_left fun t _ => ?_).trans (List.map_id ts)
  simp only [Function.comp, Lexeme.relocate, Span.unshift_shift, id]

/-! ## One statement alone -/

namespace Grammar

open ScopeScript.Expr

theorem Parses.unique {α : Type} {c c₁ c₂ : Cursor} {x : Except ParseError (Parsed c α)} {a b : α}
    (h : Parses x a c₁) (h' : Parses x b c₂) : a = b := by
  obtain ⟨r, hr, rfl, -⟩ := h
  obtain ⟨r', hr', rfl, -⟩ := h'
  cases hr.symm.trans hr'
  rfl

/-- A statement is parsed from its tokens alone, wherever they stand. -/
theorem parses_alone {limit : Nat} {place : Span → Span} (hplace : Span.KeepsMerges place)
    {c c' d : Cursor} {used : List Lexeme} {e : Expr} (h : Parses (statement limit c) e c')
    (hused : c.tokens = used ++ c'.tokens)
    (htokens : d.tokens = used.map (Lexeme.relocate place)) (hlevel : d.level = c.level) :
    ∃ d', Parses (statement limit d) (e.relocate place) d' ∧ d'.tokens = [] := by
  let m : Transplant := ⟨place, c'.tokens, [], hplace, nofun⟩
  have hmirrors : m.Mirrors c d := ⟨⟨used, hused, by rw [htokens, List.append_nil]⟩, hlevel⟩
  obtain ⟨d', hd, hfollows⟩ := Transplant.parses_statement h hmirrors (Nat.le_refl _)
  obtain ⟨more, hmore, hd'⟩ := hfollows.tokens
  have hnone : more = [] := List.self_eq_append_left.1 hmore
  rw [hnone] at hd'
  exact ⟨d', hd, hd'⟩

/-- Further back they are a program of this one statement. -/
theorem exists_statementsFrom {limit size n : Nat} {c c' : Cursor} {used used' : List Lexeme}
    {e : Expr} (hlevel : c.level = 0) (h : Parses (statement limit c) e c')
    (hsemicolon : c.peek? ≠ some (.symbol .semicolon)) (hused : c.tokens = used ++ c'.tokens)
    (hmoved : used = used'.map (Lexeme.relocate (Span.shift n))) :
    ∃ e', statementsFrom limit (.start size used') [] = .ok [e'] ∧
      e = e'.relocate (Span.shift n) := by
  have hback : used' = used.map (Lexeme.relocate (Span.unshift n)) := by
    rw [hmoved, map_unshift_shift]
  obtain ⟨d, hd, hend⟩ :=
    parses_alone (d := .start size used') (Span.keepsMerges_unshift n) h hused hback hlevel.symm
  refine ⟨e.relocate (Span.unshift n), ?_, ?_⟩
  · have hne : used' ≠ [] := by
      rintro rfl
      exact absurd hd.lt (Nat.not_lt_zero _)
    have hpeek : (Cursor.start size used').peek? = c.peek? := by
      rw [Cursor.peek?, Cursor.peek?, hused, hmoved]
      cases used' with
      | nil => exact absurd rfl hne
      | cons t ts => rfl
    have hstop : Succeeds limit (.statements [e.relocate (Span.unshift n)] d)
        [e.relocate (Span.unshift n)] := .of_production (.programEnd hend)
    exact Succeeds.of_production
      (.programStatement hne (hpeek ▸ hsemicolon) (parses_iff.1 hd) hstop)
  · -- Put where it was, the tree is what these tokens give there.
    have hused' : (Cursor.start size used').tokens = used' ++ d.tokens := by
      rw [hend, List.append_nil]
      rfl
    obtain ⟨d₁, hmoved', -⟩ := parses_alone (d := .start size used) (Span.keepsMerges_shift n) hd
      hused' hmoved rfl
    obtain ⟨d₂, hsame, -⟩ := parses_alone (d := .start size used) Span.keepsMerges_id h hused
      (List.map_id used).symm hlevel.symm
    rw [relocate_id] at hsame
    exact hsame.unique hmoved'

end Grammar

/-! ## Texts of statements -/

/-- White space, comments and semicolons, where `rest` comes next. -/
inductive Idle (rest : List Char) : List Char → Prop where
  | gap {gap : List Char} (h : Gap rest gap) : Idle rest gap
  | semicolon {gap idle : List Char} (hgap : Gap (';' :: (idle ++ rest)) gap)
    (h : Idle rest idle) : Idle rest (gap ++ ';' :: idle)

/-- A text from byte `start` on is the texts of these statements, each in its range and
    a program of this one statement alone, with idle text around them. -/
inductive Composed (limit : Nat) : Nat → List Char → List Expr → Prop where
  | idle {start : Nat} {text : List Char} (h : Idle [] text) : Composed limit start text []
  | statement {start : Nat} {idle body text : List Char} {e e' : Expr} {es : List Expr}
    (hidle : Idle (body ++ text) idle) (hstart : e.span.start = start + Text.byteLength idle)
    (hstop : e.span.stop = e.span.start + Text.byteLength body)
    (hbody : Program.ofSource limit (String.ofList body) = .ok ⟨[e']⟩)
    (hmoved : e = e'.relocate (Span.shift e.span.start))
    (h : Composed limit e.span.stop text es) :
    Composed limit start (idle ++ (body ++ text)) (e :: es)

namespace Composed

variable {limit start : Nat} {text gap : List Char} {es : List Expr}

/-- A semicolon in front of what comes first. -/
theorem semicolon (hgap : Gap (';' :: text) gap)
    (h : Composed limit (start + Text.byteLength gap + 1) text es) :
    Composed limit start (gap ++ ';' :: text) es := by
  cases h with
  | idle h => exact .idle (.semicolon (by rwa [List.append_nil]) h)
  | @statement _ idle body text e e' es hidle hstart hstop hbody hmoved h =>
    have htext : gap ++ ';' :: (idle ++ (body ++ text)) =
        (gap ++ ';' :: idle) ++ (body ++ text) := by
      rw [List.append_assoc]
      rfl
    rw [htext]
    refine .statement (.semicolon hgap hidle) ?_ hstop hbody hmoved h
    rw [hstart, Text.byteLength_append, Text.byteLength, ← Nat.add_assoc, ← Nat.add_assoc]
    rfl

/-- Each statement stands in the text. -/
theorem exists_part (h : Composed limit start text es) {e : Expr} (he : e ∈ es) :
    ∃ before body behind e', text = before ++ (body ++ behind) ∧
      e.span.start = start + Text.byteLength before ∧
      e.span.stop = e.span.start + Text.byteLength body ∧
      Program.ofSource limit (String.ofList body) = .ok ⟨[e']⟩ ∧
      e = e'.relocate (Span.shift e.span.start) := by
  induction h with
  | idle => exact absurd he List.not_mem_nil
  | @statement start idle body text f e' es hidle hstart hstop hbody hmoved _ ih =>
    rcases List.mem_cons.1 he with rfl | he
    · exact ⟨idle, body, text, e', rfl, hstart, hstop, hbody, hmoved⟩
    · obtain ⟨before, body', behind, e'', rfl, hstart', hrest⟩ := ih he
      refine ⟨idle ++ (body ++ before), body', behind, e'', ?_, ?_, hrest⟩
      · simp only [List.append_assoc]
      · rw [hstart', hstop, hstart, Text.byteLength_append, Text.byteLength_append]
        omega

end Composed

/-- The statements that are parsed make up the text that was lexed. -/
theorem composed_of_statementsFrom {limit size start stop : Nat} {c : Grammar.Cursor}
    {text : List Char} {found all : List Expr} (hlexes : Lexes start text c.tokens stop [])
    (hc : c.Stands size start) (hlevel : c.level = 0)
    (h : Grammar.statementsFrom limit c found = .ok all) :
    ∃ es, all = found.reverse ++ es ∧ Composed limit start text es := by
  refine Grammar.statementsFrom_induct (motive := fun found c all => ∀ start text,
    Lexes start text c.tokens stop [] → c.Stands size start → c.level = 0 →
      ∃ es, all = found.reverse ++ es ∧ Composed limit start text es) ?done ?semicolon ?statement
    h start text hlexes hc hlevel
  case done =>
    intro found c htokens start text hlexes _ _
    rw [htokens] at hlexes
    refine ⟨[], (List.append_nil _).symm, .idle ?_⟩
    cases hlexes with
    | gap hgap =>
      rw [List.append_nil]
      exact .gap hgap
  case semicolon =>
    intro found c span rest all htokens ih start text hlexes hc hlevel
    -- A semicolon is idle text in front of the statements behind it.
    have hstands := (hc.past htokens).stands
    rw [htokens] at hlexes
    cases hlexes with
    | @token _ place _ gap word text _ _ _ hgap hplace ht _ hlexes =>
      cases ht
      obtain ⟨es, hall, hcomposed⟩ := ih _ _ hlexes hstands hlevel
      refine ⟨es, hall, .semicolon hgap ?_⟩
      rw [hplace] at hcomposed
      exact hcomposed
  case statement =>
    intro found c e c₁ all _ hsemicolon he ih start text hlexes hc hlevel
    obtain ⟨hspan, hstands⟩ := Grammar.span_of_statement hc he
    have hleads : c.Leads c₁ := Grammar.Succeeds.leads (k := .statement c) (Grammar.parses_iff.1 he)
    obtain ⟨used, hused, hlast⟩ := hleads
    cases used with
    | nil =>
      have hlt := he.lt
      rw [Grammar.Cursor.remaining, Grammar.Cursor.remaining, hused, List.nil_append] at hlt
      exact absurd hlt (Nat.lt_irrefl _)
    | cons t ts =>
      -- The tokens of the statement stand in a part of the text from the first of them
      -- to the last one, which is its range.
      rw [hused] at hlexes
      obtain @⟨first, last, gap, body, behind, rfl, hgap, hne, hfirst, hlast', hstart, hstop,
        hbody, hbehind⟩ := hlexes.segment
      have hfrom : e.span.start = first := by
        rw [hspan, ← hstart, Grammar.Cursor.here_of_tokens hused]
      have hend : c₁.last.stop = last := by
        rw [hlast, lastSpan_cons, hstop]
      have hto : e.span.stop = last := by
        rw [hspan, ← hend]
      -- Alone the tokens stand from byte 0 on.
      rw [← Nat.zero_add first] at hbody
      obtain ⟨ts', stop', halone, hmoved⟩ := hbody.exists_unshift
      obtain ⟨e', hparsed, heq⟩ :=
        Grammar.exists_statementsFrom hlevel he hsemicolon hused hmoved
      have hsource : Program.ofSource limit (String.ofList body) = .ok ⟨[e']⟩ :=
        Program.ofSource_eq_ok_iff.2 ⟨ts', halone.tokenize_eq, hparsed⟩
      rw [hend, ← hto] at hstands
      rw [← hto] at hbehind
      obtain ⟨es, hall, hcomposed⟩ :=
        ih _ _ hbehind hstands ((Grammar.level_of_statement he).trans hlevel)
      refine ⟨e :: es, ?_, .statement (.gap hgap) ?_ ?_ hsource ?_ hcomposed⟩
      · rw [hall, List.reverse_cons, List.append_assoc]
        rfl
      · rw [hfrom, hfirst]
      · rw [hto, hfrom, hlast']
      · rwa [hfrom]

/-- The range of a statement is exactly its text. The bytes of the range are a text,
    and read alone under the same limit this text is a program of one statement, which
    is the statement with all ranges as far back as it begins. All of the source is the
    texts of the statements in turn, with white space, comments and semicolons around
    them. -/
theorem statement_is_its_text {limit : Nat} {source : String} {p : Program}
    (h : Program.ofSource limit source = .ok p) :
    (∀ e ∈ p.statements, ∃ text e',
      sourceText (((utf8 source).drop e.span.start).take (e.span.stop - e.span.start)) =
        .ok text ∧
      Program.ofSource limit text = .ok ⟨[e']⟩ ∧ e = e'.relocate (Span.shift e.span.start)) ∧
    Composed limit 0 source.toList p.statements := by
  obtain ⟨tokens, htokens, hstatements⟩ := Program.ofSource_eq_ok_iff.1 h
  have hlexes := ((tokenize_maximal_munch source).1 tokens).1 htokens
  have hstands : (Grammar.Cursor.start source.utf8ByteSize tokens).Stands _ 0 :=
    ⟨rfl, spaced_of_tokenize htokens⟩
  obtain ⟨es, hes, hcomposed⟩ := composed_of_statementsFrom hlexes hstands rfl hstatements
  rw [List.reverse_nil, List.nil_append] at hes
  rw [← hes] at hcomposed
  refine ⟨fun e he => ?_, hcomposed⟩
  obtain ⟨before, body, behind, e', htext, hstart, hstop, hbody, hmoved⟩ :=
    hcomposed.exists_part he
  refine ⟨String.ofList body, e', ?_, hbody, hmoved⟩
  rw [hstop, Nat.add_sub_cancel_left, hstart, Nat.zero_add, drop_take_utf8 htext,
    sourceText_utf8]

/-- `"é" x = 1; // z`, whose two statements have a space between them and no sign. -/
theorem statement_is_its_text_behind_string :
    let source := "\"é\" x = 1; // z"
    let e : Expr := .assign ⟨5, 10⟩ [.string ⟨5, 6⟩ "x"] (.int ⟨9, 10⟩ 1) false
    let p : Program := ⟨[.string ⟨0, 4⟩ "é", e]⟩
    Program.ofSource 10 source = .ok p ∧
    (∃ text e', sourceText (((utf8 source).drop 5).take 5) = .ok text ∧
      Program.ofSource 10 text = .ok ⟨[e']⟩ ∧ e = e'.relocate (Span.shift 5)) ∧
    Composed 10 0 source.toList p.statements := by
  intro source e p
  have hp : Program.ofSource 10 source = .ok p := by decide +kernel
  obtain ⟨hparts, hcomposed⟩ := statement_is_its_text hp
  exact ⟨hp, hparts e (List.mem_cons_of_mem _ List.mem_cons_self), hcomposed⟩

end ScopeScript
