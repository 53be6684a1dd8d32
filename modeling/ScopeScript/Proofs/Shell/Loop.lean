/-
  ScopeScript.Proofs.Shell.Loop

  What the interactive loop keeps between lines. Nothing but the scopes of its
  session changes: the host has bound nothing, no evaluation is under way, and
  the limit is the one it began with. A reset leaves no more of the scopes than a
  new session has, so whatever was typed before it is forgotten. The lines are
  those that the line feeds of an input separate.
-/
import Mathlib.Control.Monad.Basic
import Mathlib.Tactic.SplitIfs
import ScopeScript.Expr.Equality
import ScopeScript.Proofs.Session.Host
import ScopeScript.Proofs.Session.Limit
import ScopeScript.Proofs.StatementText
import ScopeScript.Shell.Repl

namespace ScopeScript

/-! ## Sessions between lines -/

/-- The sessions differ at most in the scopes of programs and in the log of writes:
    the host has bound the same, and evaluations are nested alike. -/
structure Session.SameOutside (s s' : Session) : Prop where
  host_eq : s'.store.host = s.store.host
  nesting : s.SameNesting s'

namespace Session.SameOutside

variable {s s₁ s' : Session}

theorem refl (s : Session) : s.SameOutside s :=
  ⟨rfl, .refl s⟩

theorem trans (h : s.SameOutside s₁) (h' : s₁.SameOutside s') : s.SameOutside s' :=
  ⟨h'.host_eq.trans h.host_eq, h.nesting.trans h'.nesting⟩

end Session.SameOutside

theorem sameOutside_evaluate (e : Expr) (s : Session) :
    s.SameOutside (Run.session (evaluate e s)) := by
  refine ⟨?_, (limits_evaluate e).keeps s⟩
  -- With the host's frame that it has, a session is the same one.
  have hrun := congrArg Run.session (evaluate_withHost e s s.store.host)
  rw [Run.session_withHost, show s.withHost s.store.host = s from rfl] at hrun
  exact congrArg (·.store.host) hrun

theorem sameOutside_ofStatements (es : List Expr) (s : Session) :
    s.SameOutside (Trace.ofStatements es s).session := by
  induction es generalizing s with
  | nil => exact .refl s
  | cons e es ih =>
    have he := sameOutside_evaluate e s
    rw [Trace.ofStatements]
    cases hs : evaluate e s with
    | ok v s₁ =>
      rw [hs] at he
      exact he.trans (ih s₁)
    | error x s₁ =>
      rw [hs] at he
      exact he

theorem sameOutside_runSource (s : Session) (file : String) (limit : Nat) (source : String) :
    s.SameOutside (s.runSource file limit source).1 := by
  rw [Session.runSource]
  split
  · exact .refl s
  · exact sameOutside_ofStatements _ s

/-! ## The bytes of a line -/

/-- Of all characters, the line feed alone has its byte. -/
theorem lineFeed_not_mem_utf8EncodeChar {c : Char} (h : c ≠ '\n') :
    10 ∉ String.utf8EncodeChar c := by
  have hval : c.val.toNat ≠ 10 := fun hval => h (Char.ext (UInt32.toNat_inj.1 hval))
  have hbound : c.val.toNat < 1114112 := by
    rcases c.valid with hvalid | ⟨-, hvalid⟩
    · exact Nat.lt_trans hvalid (by decide)
    · exact hvalid
  have hten : (10 : UInt8) = UInt8.ofNat 10 := rfl
  simp only [String.utf8EncodeChar]
  -- One case for each length: the bytes of an encoding of more than one are not ASCII.
  split_ifs
  all_goals
    simp only [List.mem_cons, List.not_mem_nil, or_false, not_or, hten]
    simp (disch := omega) only [ofNat_eq_ofNat]
    omega

theorem lineFeed_not_mem_utf8 {s : String} (h : '\n' ∉ s.toList) : 10 ∉ utf8 s := by
  rw [utf8_eq_flatMap, List.mem_flatMap]
  rintro ⟨c, hc, hten⟩
  exact lineFeed_not_mem_utf8EncodeChar (fun hfeed => h (hfeed ▸ hc)) hten

namespace Repl

theorem splitOn_utf8_lines {lines : List String} (h : ∀ line ∈ lines, '\n' ∉ line.toList) :
    (utf8 (String.join (lines.map (· ++ "\n")))).splitOn 10 = lines.map utf8 ++ [[]] := by
  induction lines with
  | nil => rfl
  | cons line lines ih =>
    obtain ⟨hline, hlines⟩ := List.forall_mem_cons.1 h
    have hbytes : utf8 (String.join ((line :: lines).map (· ++ "\n"))) =
        utf8 line ++ 10 :: utf8 (String.join (lines.map (· ++ "\n"))) := by
      simp [utf8_eq_flatMap, String.utf8EncodeChar]
    have hone : (utf8 line).splitOn 10 = [utf8 line] := by
      have hfree : ∀ bytes ∈ [utf8 line], 10 ∉ bytes :=
        List.forall_mem_singleton.2 (lineFeed_not_mem_utf8 hline)
      have hsplit := List.splitOn_intercalate 10 hfree (List.cons_ne_nil _ _)
      rwa [List.intercalate_singleton] at hsplit
    rw [hbytes, List.splitOn_append_cons_self, ih hlines, hone]
    rfl

/-- Lines that are typed one after another are the lines that are read. -/
theorem inputLines_utf8 {lines : List String} (h : ∀ line ∈ lines, '\n' ∉ line.toList) :
    inputLines (utf8 (String.join (lines.map (· ++ "\n")))) = lines.map some := by
  have htext (line : String) : lineText? (utf8 line) = some line := by
    rw [lineText?, sourceText_utf8]
    rfl
  -- What follows the last line feed is empty and no line.
  have hlast : (lines.map utf8 ++ [[]]).getLast? = some [] := List.getLast?_concat
  rw [inputLines, splitOn_utf8_lines h]
  show List.map lineText? (if _ then _ else _) = _
  rw [if_pos hlast, List.dropLast_concat, List.map_map]
  exact List.map_congr_left fun line _ => htext line

/-! ## Replies -/

/-- The line is a command to end the loop. -/
def Quits (line : String) : Prop :=
  Text.trim line ∈ [":quit", ":q", ":exit"]

instance (line : String) : Decidable (Quits line) :=
  inferInstanceAs (Decidable (_ ∈ _))

theorem Command.ofLine_eq_quit_iff {line : String} :
    Command.ofLine line = .quit ↔ line ∈ [":quit", ":q", ":exit"] := by
  simp only [List.mem_cons, List.not_mem_nil, or_false]
  constructor
  · intro h
    by_cases hquit : line = ":quit" ∨ line = ":q" ∨ line = ":exit"
    · exact hquit
    · rw [ofLine, if_neg hquit] at h
      repeat' split at h
      all_goals cases h
  · exact fun h => if_pos h

theorem Command.goesOn_reply (s : Session) (c : Command) : (c.reply s).goesOn = (c != .quit) := by
  cases c with
  | ascend =>
    rw [reply]
    split <;> rfl
  | _ => rfl

/-- A line that begins with a colon is a command. -/
theorem reply_of_colon {line : String} (h : (Text.trim line).startsWith ":" = true) (s : Session) :
    reply s line = (Command.ofLine (Text.trim line)).reply s := by
  have hempty : (Text.trim line).isEmpty ≠ true := by
    intro hempty
    rw [String.isEmpty_iff.1 hempty] at h
    exact absurd h (by decide +kernel)
  rw [reply, if_neg hempty, if_pos h]

theorem Quits.colon {line : String} (h : Quits line) : (Text.trim line).startsWith ":" = true := by
  simp only [Quits, List.mem_cons, List.not_mem_nil, or_false] at h
  rcases h with h | h | h <;> rw [h] <;> decide +kernel

theorem reply_of_quits {line : String} (h : Quits line) (s : Session) :
    reply s line = ⟨s, .printed farewell, false⟩ := by
  rw [reply_of_colon h.colon, Command.ofLine_eq_quit_iff.2 h]
  rfl

/-- Only a command to do so ends the loop. -/
theorem goesOn_reply_iff {s : Session} {line : String} :
    (reply s line).goesOn = false ↔ Quits line := by
  by_cases hcolon : (Text.trim line).startsWith ":" = true
  · rw [reply_of_colon hcolon, Command.goesOn_reply, Quits, ← Command.ofLine_eq_quit_iff]
    simp
  · refine iff_of_false ?_ fun h => hcolon h.colon
    rw [reply, if_neg hcolon]
    split <;> simp

/-- How known commands are written. -/
def Command.names : List String :=
  [":quit", ":q", ":exit", ":help", ":h", ":?", ":clear", ":scope", ":descend", ":ascend", ":reset"]

theorem Command.ofLine_of_not_mem {line : String} (h : line ∉ names) :
    ofLine line = .unknown line := by
  simp only [names, List.mem_cons, List.not_mem_nil, or_false, not_or] at h
  simp [ofLine, h]

/-- A line that is neither a command nor a program is reported. -/
theorem reply_of_error {line : String} {e : SourceError}
    (hcolon : (Text.trim line).startsWith ":" = false)
    (h : Program.ofSource defaultLimit (Text.trim line) = .error e) (s : Session) :
    reply s line = ⟨s, .diagnosed fileName (Text.trim line) (.ofSource e), true⟩ := by
  have hempty : (Text.trim line).isEmpty ≠ true := by
    intro hempty
    rw [String.isEmpty_iff.1 hempty] at h
    cases h.symm.trans (show Program.ofSource defaultLimit "" = .ok ⟨[]⟩ by decide +kernel)
  rw [reply, if_neg hempty, hcolon, Session.runSource, h]
  rfl

/-- The session of the loop, of which only the scopes can differ from those at its
    start. -/
structure Ready (s : Session) : Prop where
  host : s.store.host = []
  depth : s.depth = 0
  limit : s.limit = defaultLimit

theorem ready_session : Ready session :=
  ⟨rfl, rfl, rfl⟩

theorem Ready.of_sameOutside {s s' : Session} (h : Ready s) (hsame : s.SameOutside s') : Ready s' :=
  ⟨hsame.host_eq.trans h.host, hsame.nesting.depth_eq.trans h.depth,
    hsame.nesting.limit_eq.trans h.limit⟩

/-- A reset makes such a session the one at the start. -/
theorem Ready.reset_eq {s : Session} (h : Ready s) : s.reset = session := by
  rw [Session.reset, Store.reset, h.host, h.limit]
  rfl

theorem Ready.command {s : Session} (h : Ready s) (c : Command) : Ready (c.reply s).session := by
  cases c with
  | ascend =>
    rw [Command.reply, Store.ascend]
    split
    · next store hstore =>
      split at hstore
      · cases hstore
      · cases hstore
        exact ⟨h.host, h.depth, h.limit⟩
    · exact h
  | descend => exact ⟨h.host, h.depth, h.limit⟩
  | reset =>
    show Ready s.reset
    rw [h.reset_eq]
    exact ready_session
  | _ => exact h

theorem Ready.reply {s : Session} (h : Ready s) (line : String) : Ready (reply s line).session := by
  rw [Repl.reply]
  split
  · exact h
  split
  · exact h.command _
  · exact h.of_sameOutside (sameOutside_runSource ..)

theorem Ready.reply_reset {s : Session} (h : Ready s) {line : String}
    (hline : Text.trim line = ":reset") :
    Repl.reply s line = ⟨session, .printed ["Scope reset."], true⟩ := by
  have hcolon : ":reset".startsWith ":" = true := by decide +kernel
  rw [reply_of_colon (hline ▸ hcolon), hline, ← h.reset_eq]
  rfl

/-! ## Lines in a row -/

/-- The session after some lines. -/
def after (s : Session) (lines : List String) : Session :=
  lines.foldl (fun s line => (reply s line).session) s

/-- The replies to some lines. -/
def replies (s : Session) : List String → List Reply
  | [] => []
  | line :: rest => reply s line :: replies (reply s line).session rest

/-- What replies put out, one after another. -/
def output (rs : List Reply) : String :=
  String.join (rs.map (·.transcript.output))

/-- What replies report, one after another. -/
def reports (rs : List Reply) : List Report :=
  rs.flatMap (·.transcript.reports)

theorem ready_after {s : Session} (h : Ready s) (lines : List String) : Ready (after s lines) := by
  induction lines generalizing s with
  | nil => exact h
  | cons line rest ih => exact ih (h.reply line)

/-- The loop replies to lines that do not end it and goes on with the others. -/
theorem continued_append {s : Session} {lines : List String} (h : ∀ line ∈ lines, ¬Quits line)
    (rest : List (Option String)) :
    (continued s (lines.map some ++ rest)).output =
        output (replies s lines) ++ (continued (after s lines) rest).output ∧
      (continued s (lines.map some ++ rest)).reports =
        reports (replies s lines) ++ (continued (after s lines) rest).reports := by
  induction lines generalizing s with
  | nil => exact ⟨String.empty_append.symm, rfl⟩
  | cons line lines ih =>
    obtain ⟨hline, hlines⟩ := List.forall_mem_cons.1 h
    have hgoesOn : (reply s line).goesOn = true := by
      rw [← Bool.not_eq_false, goesOn_reply_iff]
      exact hline
    obtain ⟨houtput, hreports⟩ := ih (s := (reply s line).session) hlines
    have hstep : continued s ((line :: lines).map some ++ rest) =
        (reply s line).transcript ++
          continued (reply s line).session (lines.map some ++ rest) :=
      if_pos hgoesOn
    rw [hstep]
    constructor
    · show (reply s line).transcript.output ++ _ = _
      rw [houtput, ← String.append_assoc]
      simp [output, replies, after]
    · show (reply s line).transcript.reports ++ _ = _
      rw [hreports, ← List.append_assoc]
      rfl

/-- Lines are those up to the first one that ends the loop, if one does. -/
theorem exists_before_quitting (lines : List String) :
    ∃ before, (∀ line ∈ before, ¬Quits line) ∧
      (lines = before ∨ ∃ line rest, lines = before ++ line :: rest ∧ Quits line) := by
  induction lines with
  | nil => exact ⟨[], fun _ h => absurd h List.not_mem_nil, .inl rfl⟩
  | cons line lines ih =>
    by_cases hline : Quits line
    · exact ⟨[], fun _ h => absurd h List.not_mem_nil, .inr ⟨line, lines, rfl, hline⟩⟩
    · obtain ⟨before, hbefore, hlines⟩ := ih
      refine ⟨line :: before, List.forall_mem_cons.2 ⟨hline, hbefore⟩, ?_⟩
      rcases hlines with rfl | ⟨last, rest, rfl, hlast⟩
      · exact .inl rfl
      · exact .inr ⟨last, rest, rfl, hlast⟩

/-- What stands at the head of everything that the loop puts out. -/
def heading : String :=
  "Quill REPL v0.1.0\nType :help for help, :quit to exit.\n\n"

theorem output_run (lines : List (Option String)) :
    (run lines).output = heading ++ (continued session lines).output := by
  have hbanner : (Transcript.printed banner).output = heading := by decide +kernel
  rw [← hbanner]
  rfl

theorem reports_run (lines : List (Option String)) :
    (run lines).reports = (continued session lines).reports :=
  List.nil_append _

/-- The loop ends with the farewell, at the end of the lines or before it. -/
theorem run_of_ends {lines before : List String} (h : ∀ line ∈ before, ¬Quits line)
    (hends : lines = before ∨ ∃ line rest, lines = before ++ line :: rest ∧ Quits line) :
    (run (lines.map some)).output =
        heading ++ output (replies session before) ++ "Goodbye!\n" ∧
      (run (lines.map some)).reports = reports (replies session before) := by
  -- What is left for the loop after those lines: their end, or a line that quits.
  obtain ⟨rest, hlines, hrest⟩ : ∃ rest, lines.map some = before.map some ++ rest ∧
      ∀ s, continued s rest = .printed farewell := by
    rcases hends with rfl | ⟨line, rest, rfl, hline⟩
    · exact ⟨[], (List.append_nil _).symm, fun _ => rfl⟩
    · refine ⟨(line :: rest).map some, List.map_append .., fun s => ?_⟩
      rw [List.map_cons, continued, react, reply_of_quits hline]
      rfl
  obtain ⟨houtput, hreports⟩ := continued_append h (s := session) rest
  rw [output_run, reports_run, hlines, houtput, hreports, hrest, String.append_assoc]
  exact ⟨congrArg _ (congrArg _ (by decide +kernel)), List.append_nil _⟩

/-! ## Where the farewell stands -/

/-- What is shown next begins a line: what has been shown ends with a line feed, or
    with a cleared screen. -/
def AtLineStart (text : String) : Prop :=
  ∃ before, text = before ++ "\n" ∨ text = before ++ clearScreen

theorem AtLineStart.append {text : String} (h : AtLineStart text) (before : String) :
    AtLineStart (before ++ text) := by
  obtain ⟨rest, rfl | rfl⟩ := h
  · exact ⟨before ++ rest, .inl (String.append_assoc ..).symm⟩
  · exact ⟨before ++ rest, .inr (String.append_assoc ..).symm⟩

/-- Nothing is put out, or what is shown next begins a line. -/
def WholeLines (text : String) : Prop :=
  text = "" ∨ AtLineStart text

theorem WholeLines.append {text text' : String} (h : WholeLines text) (h' : WholeLines text') :
    WholeLines (text ++ text') := by
  rcases h' with h' | h'
  · rw [h', String.append_empty]
    exact h
  · exact .inr (h'.append _)

theorem wholeLines_printed (lines : List String) :
    WholeLines (Transcript.printed lines).output := by
  rcases List.eq_nil_or_concat lines with rfl | ⟨init, last, rfl⟩
  · exact .inl rfl
  · refine .inr ⟨String.join (init.map (· ++ "\n")) ++ last, .inl ?_⟩
    simp [Transcript.printed, String.join, String.append_assoc]

theorem wholeLines_reported (r : Report) : WholeLines (Transcript.reported r).output :=
  .inl rfl

theorem wholeLines_runSource (s : Session) (file : String) (limit : Nat) (source : String) :
    WholeLines (s.runSource file limit source).2.1.output := by
  rw [Session.runSource]
  split
  · exact wholeLines_reported _
  · refine (wholeLines_printed _).append ?_
    split
    · exact wholeLines_reported _
    · exact .inl rfl

theorem Command.wholeLines_reply (s : Session) (c : Command) :
    WholeLines (c.reply s).transcript.output := by
  cases c with
  | clear => exact .inr ⟨"", .inr rfl⟩
  | ascend =>
    rw [reply]
    split
    · exact wholeLines_printed _
    · exact wholeLines_reported _
  | _ => exact wholeLines_printed _

theorem wholeLines_reply (s : Session) (line : String) :
    WholeLines (reply s line).transcript.output := by
  rw [reply]
  split
  · exact .inl rfl
  split
  · exact Command.wholeLines_reply s _
  · exact wholeLines_runSource ..

theorem wholeLines_output (s : Session) (lines : List String) :
    WholeLines (output (replies s lines)) := by
  induction lines generalizing s with
  | nil => exact .inl rfl
  | cons line rest ih =>
    have hcons : output (replies s (line :: rest)) =
        (reply s line).transcript.output ++ output (replies (reply s line).session rest) := by
      simp [output, replies]
    rw [hcons]
    exact (wholeLines_reply s line).append (ih _)

theorem atLineStart_output (s : Session) (lines : List String) :
    AtLineStart (heading ++ output (replies s lines)) := by
  rcases wholeLines_output s lines with h | h
  · rw [h, String.append_empty]
    exact ⟨"Quill REPL v0.1.0\nType :help for help, :quit to exit.\n", .inl rfl⟩
  · exact h.append _

end Repl

open Repl

/-- The loop withstands whatever lines it is given. Between lines there are the
    host's frame and the global one, and no evaluation is under way. A line that is
    no program, or an unknown command, changes nothing. Only a command to do so and
    the end of the lines end the loop, and the farewell is the last line that it
    puts out, behind its heading and the replies to the lines before. What a reset
    leaves is the session at the start, so what is put out and reported after it
    is what a new loop would put out and report. -/
theorem repl_robust :
    (∀ lines : List String, (∀ line ∈ lines, ¬Quits line) →
      2 ≤ (after session lines).store.depth ∧ (after session lines).depth = 0) ∧
    (∀ (s : Session) (line : String) (e : SourceError),
      (Text.trim line).startsWith ":" = false →
      Program.ofSource defaultLimit (Text.trim line) = .error e →
      reply s line = ⟨s, .diagnosed fileName (Text.trim line) (.ofSource e), true⟩) ∧
    (∀ (s : Session) (line : String), (Text.trim line).startsWith ":" = true →
      Text.trim line ∉ Command.names → ∃ t, reply s line = ⟨s, t, true⟩) ∧
    (∀ (s : Session) (line : String), (reply s line).goesOn = false ↔ Quits line) ∧
    (∀ lines : List String, ∃ before, (∀ line ∈ before, ¬Quits line) ∧
      (lines = before ∨ ∃ line rest, lines = before ++ line :: rest ∧ Quits line) ∧
      AtLineStart (heading ++ output (replies session before)) ∧
      (run (lines.map some)).output =
        heading ++ output (replies session before) ++ "Goodbye!\n" ∧
      (run (lines.map some)).reports = reports (replies session before)) ∧
    ∀ (before rest : List String) (line : String), (∀ line ∈ before, ¬Quits line) →
      Text.trim line = ":reset" →
      after session (before ++ [line]) = session ∧
      ∃ behind, (run (rest.map some)).output = heading ++ behind ∧
        (run ((before ++ line :: rest).map some)).output =
          heading ++ output (replies session before) ++ "Scope reset.\n" ++ behind ∧
        (run ((before ++ line :: rest).map some)).reports =
          reports (replies session before) ++ (run (rest.map some)).reports := by
  refine ⟨fun lines _ => ?between, fun s line e hcolon he => reply_of_error hcolon he s,
    fun s line hcolon hline => ?unknown, fun s line => goesOn_reply_iff, fun lines => ?farewell,
    fun before rest line hbefore hline => ?reset⟩
  case between => exact ⟨Nat.le_add_left 2 _, (ready_after ready_session lines).depth⟩
  case unknown =>
    rw [reply_of_colon hcolon, Command.ofLine_of_not_mem hline]
    exact ⟨_, rfl⟩
  case farewell =>
    obtain ⟨before, hbefore, hends⟩ := exists_before_quitting lines
    exact ⟨before, hbefore, hends, atLineStart_output _ _, run_of_ends hbefore hends⟩
  case reset =>
    have hreply := (ready_after ready_session before).reply_reset hline
    have hsession : after session (before ++ [line]) = session := by
      rw [after, List.foldl_append]
      exact congrArg Reply.session hreply
    -- The loop goes on from the reset as it does from its start.
    have hreset : continued (after session before) ((line :: rest).map some) =
        .printed ["Scope reset."] ++ continued session (rest.map some) := by
      rw [List.map_cons, continued, react, hreply]
      rfl
    obtain ⟨houtput, hreports⟩ := continued_append hbefore (s := session) ((line :: rest).map some)
    rw [← List.map_append, hreset] at houtput hreports
    refine ⟨hsession, (continued session (rest.map some)).output, output_run _, ?_, ?_⟩
    · rw [output_run, houtput, String.append_assoc, String.append_assoc]
      rfl
    · rw [reports_run, reports_run, hreports]
      rfl

/-- A scope that was opened, a binding, a line that is no program and an unknown
    command are forgotten when the loop is reset. Of what it puts out, `:q` adds no
    more than the farewell, and nothing that follows it is read. -/
theorem repl_robust_forgets :
    let lines := ["x = 1", ":descend", "x.", ":what"]
    (∀ line ∈ lines, ¬Quits line) ∧ (after session lines).depth = 0 ∧
      (∃ r, reply session "x." = ⟨session, .reported r, true⟩) ∧
      (∃ t, reply session ":what" = ⟨session, t, true⟩) ∧
      after session (lines ++ [" :reset "]) = session ∧
      (run ((lines ++ " :reset " :: [":q", "x"]).map some)).output =
        heading ++ "1\ndepth 3\nUnknown command: :what\nType :help for help.\n" ++
          "Scope reset.\n" ++ "Goodbye!\n" := by
  intro lines
  obtain ⟨hbetween, herror, hunknown, -, -, hreset⟩ := repl_robust
  have hlines : ∀ line ∈ lines, ¬Quits line := by decide +kernel
  have hx : Program.ofSource defaultLimit (Text.trim "x.") =
      .error (.ofParse ⟨.expected .propertyName none, ⟨2, 2⟩⟩) := by decide +kernel
  have hwhat := hunknown session ":what" (by decide +kernel) (by decide +kernel)
  have hshown : output (replies session lines) =
      "1\ndepth 3\nUnknown command: :what\nType :help for help.\n" := by decide +kernel
  obtain ⟨hsession, behind, hbehind, houtput, -⟩ :=
    hreset lines [":q", "x"] " :reset " hlines (by decide +kernel)
  have hgoodbye : behind = "Goodbye!\n" := by
    have hrun : (run ([":q", "x"].map some)).output = heading ++ "Goodbye!\n" := by
      decide +kernel
    exact (String.append_right_inj heading).1 (hbehind.symm.trans hrun)
  rw [hshown, hgoodbye] at houtput
  exact ⟨hlines, (hbetween lines hlines).2, ⟨_, herror session "x." _ (by decide +kernel) hx⟩,
    hwhat, hsession, houtput⟩

end ScopeScript
