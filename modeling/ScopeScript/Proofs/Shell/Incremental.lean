/-
  ScopeScript.Proofs.Shell.Incremental

  It does not matter how a program is cut into runs. Two source texts with a
  semicolon on a line of its own between them are the program of the one and then
  that of the other, and run like the one and then the other. What the shell
  shows of a program, from a file or from the loop, is what running it comes to.
-/
import Mathlib.Control.Monad.Basic
import ScopeScript.Expr.Equality
import ScopeScript.Proofs.Grammar.Transplant
import ScopeScript.Proofs.Session.Relocation
import ScopeScript.Proofs.Token.Concatenation
import ScopeScript.Shell.CommandLine
import ScopeScript.Shell.Repl

namespace ScopeScript

/-! ## Source texts -/

namespace Grammar

open ScopeScript.Expr

/-- Tokens that are all read, put in front of nothing or of a semicolon. -/
def Transplant.whole {place : Span → Span} (h : Span.KeepsMerges place) (behind : List Lexeme)
    (ends : ∀ t ∈ behind.head?, t.token = .symbol .semicolon) : Transplant :=
  ⟨place, [], behind, h, ends⟩

theorem Transplant.mirrors_whole {place : Span → Span} (h : Span.KeepsMerges place)
    (behind : List Lexeme) (ends : ∀ t ∈ behind.head?, t.token = .symbol .semicolon)
    {c d : Cursor} (htokens : d.tokens = c.tokens.map (Lexeme.relocate place) ++ behind)
    (hlevel : d.level = c.level) : (Transplant.whole h behind ends).Mirrors c d :=
  ⟨⟨c.tokens, (List.append_nil _).symm, htokens⟩, hlevel⟩

/-- The statements of the tokens of two sources with a semicolon between them. -/
theorem statementsFrom_append {limit size size' total k : Nat} {ts us : List Lexeme}
    {sign : Span} {es fs : List Expr} (hts : statementsFrom limit (.start size ts) [] = .ok es)
    (hus : statementsFrom limit (.start size' us) [] = .ok fs) :
    statementsFrom limit (.start total
        (ts ++ ⟨.symbol .semicolon, sign⟩ :: us.map (Lexeme.relocate (Span.shift k)))) [] =
      .ok (es ++ fs.map (relocate (Span.shift k))) := by
  have hends : ∀ t ∈ (⟨.symbol .semicolon, sign⟩ ::
      us.map (Lexeme.relocate (Span.shift k)) : List Lexeme).head?,
      t.token = .symbol .semicolon := by
    rintro t ⟨⟩
    rfl
  have hsame : ts.map (Lexeme.relocate id) = ts := List.map_id ts
  -- The first statements are read up to the semicolon.
  obtain ⟨es', d, hes, hd, hlevel, hread⟩ := Transplant.exists_statements rfl rfl hts
    (Transplant.mirrors_whole (d := .start total (ts ++ _)) Span.keepsMerges_id _ hends
      (by rw [Cursor.start, Cursor.start, hsame]) rfl)
  -- The others are read behind it up to the end.
  obtain ⟨fs', d', hfs, hd', -, hread'⟩ := Transplant.exists_statements rfl rfl hus
    (Transplant.mirrors_whole (d := d.past sign (us.map (Lexeme.relocate (Span.shift k))))
      (Span.keepsMerges_shift k) [] nofun (List.append_nil _).symm hlevel)
  refine hread [] _ (Succeeds.of_production (.programSemicolon hd (hread' _ _ ?_)))
  have hend : ∀ found, Succeeds limit (.statements found d') found.reverse :=
    fun _ => .of_production (.programEnd hd')
  refine Eq.trans (hend _) (congrArg Except.ok ?_)
  have hkept : es'.map (relocate id) = es' :=
    (List.map_congr_left fun e _ => e.relocate_id).trans (List.map_id es')
  rw [hes, hfs, List.append_nil, List.reverse_append, List.reverse_reverse, List.reverse_reverse]
  exact congrArg (· ++ fs'.map (relocate (Span.shift k))) hkept

end Grammar

/-- Two source texts, with a semicolon on a line of its own between them, make one
    program. -/
theorem Program.ofSource_lines {limit : Nat} {a b : String} {p q : Program}
    (ha : Program.ofSource limit a = .ok p) (hb : Program.ofSource limit b = .ok q) :
    Program.ofSource limit (a ++ "\n;\n" ++ b) = .ok ⟨p.statements ++
      q.statements.map (Expr.relocate (Span.shift (a.utf8ByteSize + 3)))⟩ := by
  obtain ⟨ts, hts, hp⟩ := ofSource_eq_ok_iff.1 ha
  obtain ⟨us, hus, hq⟩ := ofSource_eq_ok_iff.1 hb
  exact ofSource_eq_ok_iff.2 ⟨_, tokenize_lines hts hus, Grammar.statementsFrom_append hp hq⟩

/-! ## Runs -/

/-- Statements in a row run like the first ones and then the others. -/
theorem evaluateStatements_append (es fs : List Expr) :
    evaluateStatements (es ++ fs) = do
      let vs ← evaluateStatements es
      let us ← evaluateStatements fs
      return vs ++ us := by
  induction es with
  | nil => simp only [List.nil_append, evaluateStatements, pure_bind, bind_pure]
  | cons e es ih =>
    simp only [List.cons_append, evaluateStatements, ih, bind_assoc, pure_bind]

/-- A program comes to values and perhaps an error: those of the statements before
    the first one that fails, and the error of that one, which is that of the
    whole run. -/
inductive Program.ComesTo (p : Program) (s : Session) :
    List Value → Option RuntimeError → Session → Prop where
  | values {vs : List Value} {s' : Session} (h : p.run s = .ok vs s') : ComesTo p s vs none s'
  | error (before : List Expr) (failing : Expr) (after : List Expr) {vs : List Value}
      {e : RuntimeError} {s₁ s' : Session} (hp : p.statements = before ++ failing :: after)
      (hbefore : Program.run ⟨before⟩ s = .ok vs s₁) (hfailing : evaluate failing s₁ = .error e s')
      (h : p.run s = .error e s') : ComesTo p s vs (some e) s'

/-- What a trace records is what the run comes to. -/
theorem Trace.comesTo (es : List Expr) (s : Session) :
    Program.ComesTo ⟨es⟩ s (ofStatements es s).values (ofStatements es s).error
      (ofStatements es s).session := by
  induction es generalizing s with
  | nil => exact .values rfl
  | cons e es ih =>
    rw [ofStatements]
    cases he : evaluate e s with
    | error x s₁ => exact .error [] e es rfl rfl he (Action.bind_of_error he)
    | ok v s₁ =>
      have hrun : Program.run ⟨e :: es⟩ s =
          (evaluateStatements es >>= fun vs => pure (v :: vs) : Action (List Value)) s₁ :=
        Action.bind_of_ok he
      have hes := ih s₁
      simp only
      generalize ofStatements es s₁ = t at hes
      obtain ⟨values, error, session⟩ := t
      cases hes with
      | values h => exact .values (hrun.trans (Action.bind_of_ok h))
      | error before failing after hp hbefore hfailing h =>
        refine .error (e :: before) failing after (congrArg (e :: ·) hp) ?_ hfailing
          (hrun.trans (Action.bind_of_error h))
        show (evaluate e >>= _) s = _
        rw [Action.bind_of_ok he]
        exact Action.bind_of_ok hbefore

/-- Behind statements that succeed a trace goes on with the others. -/
theorem Trace.ofStatements_append {es : List Expr} {s s₁ : Session} {vs : List Value}
    (h : Program.run ⟨es⟩ s = .ok vs s₁) (fs : List Expr) :
    ofStatements (es ++ fs) s = { ofStatements fs s₁ with
      values := vs ++ (ofStatements fs s₁).values } := by
  induction es generalizing s vs with
  | nil =>
    cases h
    rfl
  | cons e es ih =>
    obtain ⟨v, s₂, he, h⟩ := Action.bind_eq_ok_iff.1 h
    obtain ⟨us, s₃, hes, h⟩ := Action.bind_eq_ok_iff.1 h
    cases h
    rw [List.cons_append, ofStatements, he]
    simp only [ih hes]
    rfl

/-- A program comes to one thing only. -/
theorem Program.ComesTo.trace_eq {p : Program} {s s' : Session} {vs : List Value}
    {e : Option RuntimeError} (h : p.ComesTo s vs e s') :
    Trace.ofStatements p.statements s = ⟨vs, e, s'⟩ := by
  cases h with
  | values h =>
    have happend := Trace.ofStatements_append h []
    rw [List.append_nil] at happend
    rw [happend, Trace.ofStatements, List.append_nil]
  | error before failing after hp hbefore hfailing h =>
    rw [hp, Trace.ofStatements_append hbefore, Trace.ofStatements, hfailing]
    simp only [List.append_nil]

/-! ## What is shown -/

/-- The report of an error of a program: what went wrong and, where the error has a
    range in the source, the place of that. -/
def RuntimeError.reportIn (file source : String) : RuntimeError → Report
  | ⟨fault, none⟩ => ⟨"Error: Runtime error: " ++ fault.message, none, none⟩
  | ⟨fault, some span⟩ =>
    ⟨"Error: Runtime error",
      (Diagnostic.place? source.toList span).map fun p => file ++ ":" ++ p.text,
      some fault.message⟩

theorem Diagnostic.report_ofRuntime (file source : String) (e : RuntimeError) :
    (ofRuntime e).report file source = e.reportIn file source := by
  obtain ⟨fault, span⟩ := e
  cases span <;> rfl

namespace Transcript

variable (file source : String) (t : Trace)

/-- Each value is printed on a line of its own. An error is no output. -/
theorem output_ofTrace : (ofTrace file source t).output =
    String.join (t.values.map fun v => v.text ++ "\n") := by
  have hlines : (printed (t.values.map Value.text)).output =
      String.join (t.values.map fun v => v.text ++ "\n") := by
    rw [printed, List.map_map]
    rfl
  obtain ⟨values, error, session⟩ := t
  cases error <;> exact (String.append_empty ..).trans hlines

/-- The error is reported, if there is one. Lines of output are no report. -/
theorem reports_ofTrace : (ofTrace file source t).reports =
    match t.error with
    | none => []
    | some e => [e.reportIn file source] := by
  obtain ⟨values, error, session⟩ := t
  cases error with
  | none => rfl
  | some e => exact congrArg (fun r => [r]) (Diagnostic.report_ofRuntime file source e)

end Transcript

/-- What a source text that is a program prints and reports in a session. -/
theorem Session.exists_runSource {limit : Nat} {source : String} {p : Program}
    (h : Program.ofSource limit source = .ok p) (s : Session) (file : String) :
    ∃ vs e s', p.ComesTo s vs e s' ∧
      s.runSource file limit source = (s', .ofTrace file source ⟨vs, e, s'⟩, e.isNone) := by
  refine ⟨_, _, _, Trace.comesTo p.statements s, ?_⟩
  rw [runSource, h]

/-! ## Programs one behind another -/

/-- A program and another one further on run like the first and then the other. -/
theorem Program.run_relocated (p q : Program) (k : Nat) (s : Session) :
    Program.run ⟨p.statements ++ q.statements.map (Expr.relocate (Span.shift k))⟩ s =
      match p.run s with
      | .error e s₁ => .error e s₁
      | .ok vs s₁ =>
        match q.run s₁ with
        | .error e s₂ => .error (e.relocate (Span.shift k)) s₂
        | .ok us s₂ => .ok (vs ++ us) s₂ := by
  rw [run, evaluateStatements_append]
  cases hp : p.run s with
  | error e s₁ => exact Action.bind_of_error hp
  | ok vs s₁ =>
    refine (Action.bind_of_ok hp).trans ?_
    have hmoved := evaluateStatements_relocate (Span.shift k) q.statements s₁
    simp only
    cases hq : q.run s₁ with
    | error e s₂ => exact Action.bind_of_error (hmoved.trans (congrArg (Run.relocate _) hq))
    | ok us s₂ => exact Action.bind_of_ok (hmoved.trans (congrArg (Run.relocate _) hq))

/-- Programs run one after another as they do in one. Two source texts that are
    programs are one program if a semicolon on a line of its own stands between
    them; it has the statements of the one and then those of the other, further
    on by what stands before them, and running it is running the one and then,
    if that did not fail, the other. A file that is run, and a line in the loop,
    print the values of the statements before the first one that fails, each on a
    line of its own, and report the error with which running the program ends, and
    nothing else. -/
theorem batch_agrees_with_incremental :
    (∀ (limit : Nat) (a b : String) (p q : Program),
      Program.ofSource limit a = .ok p → Program.ofSource limit b = .ok q →
      let f := Span.shift (a.utf8ByteSize + 3)
      let r : Program := ⟨p.statements ++ q.statements.map (Expr.relocate f)⟩
      Program.ofSource limit (a ++ "\n;\n" ++ b) = .ok r ∧
      ∀ s : Session, r.run s =
        match p.run s with
        | .error e s₁ => .error e s₁
        | .ok vs s₁ =>
          match q.run s₁ with
          | .error e s₂ => .error (e.relocate f) s₂
          | .ok us s₂ => .ok (vs ++ us) s₂) ∧
    (∀ (limit : Nat) (source : String) (p : Program), Program.ofSource limit source = .ok p →
      ∀ file, ∃ vs e s' t, p.ComesTo (Session.new limit) vs e s' ∧
        t.output = String.join (vs.map fun v => v.text ++ "\n") ∧
        (t.reports = match e with
          | none => []
          | some e => [e.reportIn file source]) ∧
        CommandLine.onFile (.run limit) file (.ok source) = ⟨if e.isNone then 0 else 1, t⟩) ∧
    (∀ (source : String) (p : Program), Program.ofSource defaultLimit source = .ok p →
      ∀ s : Session, ∃ vs e s' t, p.ComesTo s vs e s' ∧
        t.output = String.join (vs.map fun v => v.text ++ "\n") ∧
        (t.reports = match e with
          | none => []
          | some e => [e.reportIn Repl.fileName source]) ∧
        s.runSource Repl.fileName defaultLimit source = (s', t, e.isNone) ∧
        ∀ input, Text.trim input = source → source.isEmpty = false →
          source.startsWith ":" = false → Repl.reply s input = ⟨s', t, true⟩) := by
  refine ⟨fun limit a b p q ha hb => ⟨Program.ofSource_lines ha hb, fun s => ?_⟩,
    fun limit source p h file => ?_, fun source p h s => ?_⟩
  · exact p.run_relocated q _ s
  · obtain ⟨vs, e, s', hto, hrun⟩ := Session.exists_runSource h (.new limit) file
    refine ⟨vs, e, s', _, hto, Transcript.output_ofTrace file source ⟨vs, e, s'⟩,
      Transcript.reports_ofTrace .., ?_⟩
    rw [CommandLine.onFile, CommandLine.onSource, hrun]
    cases e <;> rfl
  · obtain ⟨vs, e, s', hto, hrun⟩ := Session.exists_runSource h s Repl.fileName
    refine ⟨vs, e, s', _, hto, Transcript.output_ofTrace Repl.fileName source ⟨vs, e, s'⟩,
      Transcript.reports_ofTrace .., hrun, fun input htrim hline hcolon => ?_⟩
    rw [Repl.reply, htrim, hline, hcolon, hrun]
    rfl

/-- A comment that ends the first text does not reach into the second one, which
    reads what the first has bound; its error is reported behind the first. A file
    with a value, an error and a statement behind it prints the value and reports the
    error, and in the loop a line does so in the session at hand. -/
theorem batch_agrees_behind_comment :
    let x (start : Nat) : Expr := .string ⟨start, start + 1⟩ "x"
    let p : Program := ⟨[.assign ⟨0, 5⟩ [x 0] (.int ⟨4, 5⟩ 1) false]⟩
    let r : Program := ⟨p.statements ++
      [.binary ⟨15, 20⟩ .div (.read ⟨15, 16⟩ [x 15]) (.int ⟨19, 20⟩ 0)]⟩
    let report (place : String) : Report :=
      ⟨"Error: Runtime error", some place, some "division by zero"⟩
    (Program.ofSource 10 ("x = 1 // one" ++ "\n;\n" ++ "x / 0") = .ok r ∧
      ∃ s', r.run (.new 10) = .error ⟨.divisionByZero, some ⟨15, 20⟩⟩ s') ∧
    CommandLine.onFile (.run 10) "two" (.ok "2; 3 / 0; 4") = ⟨1, "2\n", [report "two:1:4"]⟩ ∧
    Repl.reply Repl.session " 2; 3 / 0; 4 " =
      ⟨Repl.session, ⟨"2\n", [report "<repl>:1:4"]⟩, true⟩ := by
  intro x p r report
  have hp : Program.ofSource 10 "x = 1 // one" = .ok p := by decide +kernel
  have hq : Program.ofSource 10 "x / 0" =
      .ok ⟨[.binary ⟨0, 5⟩ .div (.read ⟨0, 1⟩ [x 0]) (.int ⟨4, 5⟩ 0)]⟩ := by decide +kernel
  let two : Program := ⟨[.int ⟨0, 1⟩ 2, .binary ⟨3, 8⟩ .div (.int ⟨3, 4⟩ 3) (.int ⟨7, 8⟩ 0),
    .int ⟨10, 11⟩ 4]⟩
  have htwo : Program.ofSource 10 "2; 3 / 0; 4" = .ok two := by decide +kernel
  have htwo' : Program.ofSource defaultLimit "2; 3 / 0; 4" = .ok two := by decide +kernel
  obtain ⟨hlines, hfile, hloop⟩ := batch_agrees_with_incremental
  refine ⟨?_, ?_, ?_⟩
  · obtain ⟨hjoined, hrun⟩ := hlines 10 _ _ p _ hp hq
    exact ⟨hjoined, _, (hrun (.new 10)).trans rfl⟩
  · obtain ⟨vs, e, s', ⟨output, reports⟩, hto, houtput, hreports, hrun⟩ := hfile 10 _ two htwo "two"
    have htrace : Trace.ofStatements two.statements (.new 10) =
        ⟨[.int 2], some ⟨.divisionByZero, some ⟨3, 8⟩⟩, .new 10⟩ := rfl
    cases htrace.symm.trans hto.trace_eq
    cases houtput
    cases hreports
    rw [hrun]
    decide +kernel
  · obtain ⟨vs, e, s', ⟨output, reports⟩, hto, houtput, hreports, -, hreply⟩ :=
      hloop _ two htwo' Repl.session
    have htrace : Trace.ofStatements two.statements Repl.session =
        ⟨[.int 2], some ⟨.divisionByZero, some ⟨3, 8⟩⟩, Repl.session⟩ := rfl
    cases htrace.symm.trans hto.trace_eq
    cases houtput
    cases hreports
    rw [hreply " 2; 3 / 0; 4 " (by decide +kernel) rfl (by decide +kernel)]
    rfl

end ScopeScript
