/-
  ScopeScript.Proofs.Token.Concatenation

  Scanning goes line by line. Behind a text that lexes to its end a line feed can
  stand, and whatever comes then, without a change to its tokens: no token and no
  comment reaches over the line feed, and a string that is closed is not longer
  for what follows it. So the tokens of two texts with a semicolon between them
  on a line of its own are those of the one, the semicolon, and those of the
  other further on.
-/
import ScopeScript.Proofs.Expr.Relocation
import ScopeScript.Proofs.Token.MaximalMunch

namespace ScopeScript

/-! ## Further on -/

/-- A text lexes in the same way wherever it begins. -/
theorem Lexes.shift {start stop : Nat} {text rest : List Char} {ts : List Lexeme}
    (h : Lexes start text ts stop rest) (k : Nat) :
    Lexes (start + k) text (ts.map (Lexeme.relocate (Span.shift k))) (stop + k) rest := by
  induction h with
  | gap hgap =>
    rw [Nat.add_right_comm]
    exact .gap hgap
  | @token start place stop gap word text rest t ts hgap hplace ht hlongest _ ih =>
    rw [Nat.add_right_comm] at ih
    rw [List.map_cons, Lexeme.relocate, Span.shift, Nat.add_right_comm place]
    exact .token hgap (by rw [hplace, Nat.add_right_comm]) ht hlongest ih

/-! ## Over a blank -/

/-- Only blanks, strings and comments can have blanks in them. -/
theorem not_blank_of_mem {r : Rule} {v : List Char} (hv : v ∈ r.language)
    (hblanks : r.family ≠ .blanks) (hstring : r.family ≠ .string) (hcomment : r ≠ .comment) :
    ∀ c ∈ v, ¬ Blank c := by
  cases r with
  | blanks => exact absurd rfl hblanks
  | string q => exact absurd rfl hstring
  | comment => exact absurd rfl hcomment
  | keyword k =>
    cases mem_spelled.1 hv
    refine List.forall_iff_forall_mem.1 ?_
    cases k <;> decide
  | symbol s =>
    cases mem_spelled.1 hv
    refine List.forall_iff_forall_mem.1 ?_
    cases s <;> decide
  | int => exact fun c hc => not_blank_of_digit (digit_of_mem_int hv c hc)
  | double =>
    obtain ⟨whole, decimals, rfl, hwhole, hdecimals⟩ := mem_double.1 hv
    refine List.forall_mem_append.2 ⟨fun c hc => ?_, List.forall_mem_cons.2 ⟨by decide, ?_⟩⟩
    · exact not_blank_of_digit (digit_of_mem_int hwhole c hc)
    · exact fun c hc => not_blank_of_digit (hdecimals c hc)
  | name =>
    obtain ⟨c, w, rfl, hc, hw⟩ := mem_letter_mul_star.1 hv
    refine List.forall_mem_cons.2 ⟨not_blank_of_nameStart hc, fun d hd => ?_⟩
    exact (hw d hd).elim not_blank_of_nameStart not_blank_of_digit

/-- What begins a text and does not have the character in it does not go over it. -/
theorem prefix_of_not_mem {v text rest : List Char} {c : Char} (h : v <+: text ++ c :: rest)
    (hv : c ∉ v) : v <+: text := by
  rcases List.prefix_or_prefix_of_prefix h (List.prefix_append text _) with h' | ⟨u, rfl⟩
  · exact h'
  · cases u with
    | nil => rw [List.append_nil]
    | cons d u =>
      obtain ⟨rfl, -⟩ := List.cons_prefix_cons.1 ((List.prefix_append_right_inj text).1 h)
      exact absurd (List.mem_append_right _ List.mem_cons_self) hv

/-- Two strings that begin one text are one. -/
theorem length_string {q : Quote} {v w cs : List Char} (hv : v ∈ (Rule.string q).language)
    (hw : w ∈ (Rule.string q).language) (hstart : v <+: q.char :: cs)
    (hstart' : w <+: q.char :: cs) : v.length ≤ w.length := by
  have hlength := (Scan.exists_of_string hv hstart).symm.trans (Scan.exists_of_string hw hstart')
  obtain ⟨inside, rfl, -⟩ := mem_string.1 hw
  have := Scan.Reach.closed.inj hlength
  rw [List.length_cons] at this ⊢
  omega

theorem Rule.exists_quote {r : Rule} (h : r.family = .string) : ∃ q, r = .string q := by
  cases r with
  | string q => exact ⟨q, rfl⟩
  | _ => cases h

/-- A longest token stays the longest where a blank follows its text, if no comment
    goes over the blank. -/
theorem Token.Reads.noLonger_over {t : Token} {word text rest : List Char} {b : Char}
    (ht : t.Reads word) (hb : Blank b) (h : NoLonger word.length (word ++ text))
    (hcomment : ∀ v ∈ Rule.comment.language, v <+: word ++ (text ++ b :: rest) → b ∉ v) :
    NoLonger word.length (word ++ (text ++ b :: rest)) := by
  intro r v hv hstart
  obtain ⟨r', hword, hfamily⟩ := ht.exists_rule
  obtain ⟨c, w, rfl, hc⟩ := begins_of_mem hword
  have hbegins := (begins_of_start hv hstart).1
  have hsame : r.family = r'.family := Rule.family_eq hbegins hc
  by_cases hstring : r.family = .string
  · -- Both are strings between the same quotes.
    obtain ⟨q, rfl⟩ := Rule.exists_quote (hsame.symm.trans hstring)
    cases hc
    cases rule_of_quote hbegins
    exact length_string hv hword hstart (List.prefix_append _ _)
  · have hblanks : r.family ≠ .blanks := by
      rw [hsame, hfamily]
      cases t <;> exact nofun
    have hnot : b ∉ v := by
      by_cases hr : r = .comment
      · subst hr
        exact hcomment v hv hstart
      · exact fun hmem => not_blank_of_mem hv hblanks hstring hr b hmem hb
    rw [← List.append_assoc] at hstart
    exact h r v hv (prefix_of_not_mem hstart hnot)

/-- A longest token stays the longest where another line follows its text. -/
theorem Token.Reads.noLonger_line {t : Token} {word text : List Char} (ht : t.Reads word)
    (h : NoLonger word.length (word ++ text)) (rest : List Char) :
    NoLonger word.length (word ++ (text ++ '\n' :: rest)) := by
  refine ht.noLonger_over (by decide) h fun v hv _ => ?_
  obtain ⟨w, rfl, hw⟩ := mem_comment.1 hv
  simpa using fun h => hw '\n' h rfl

theorem Gap.line {gap text : List Char} (h : Gap text gap) (rest : List Char) :
    Gap (text ++ '\n' :: rest) gap := by
  induction h with
  | nil => exact .nil
  | blanks hw _ ih => exact .blanks hw ih
  | @comment w gap hw hend _ ih =>
    refine .comment hw (fun c hc => ?_) ih
    rw [← List.append_assoc, List.head?_append, List.head?_cons] at hc
    cases hhead : (gap ++ text).head? with
    | some d =>
      rw [hhead] at hc
      cases hc
      exact hend c hhead
    | none =>
      rw [hhead] at hc
      cases hc
      rfl

/-- A text that lexes to its end lexes as far where another line follows. -/
theorem Lexes.line {start stop : Nat} {text : List Char} {ts : List Lexeme}
    (h : Lexes start text ts stop []) (rest : List Char) :
    Lexes start (text ++ '\n' :: rest) ts stop ('\n' :: rest) := by
  generalize hnil : [] = behind at h
  induction h with
  | gap hgap =>
    subst hnil
    rw [List.append_assoc]
    exact .gap (hgap.line rest)
  | @token start place stop gap word text behind t ts hgap hplace ht hlongest _ ih =>
    have hgap' := hgap.line rest
    rw [List.append_assoc] at hgap'
    have hall := Lexes.token hgap' hplace ht (ht.noLonger_line hlongest rest) (ih hnil)
    rw [List.append_assoc, List.append_assoc]
    exact hall

/-! ## Two texts -/

/-- A semicolon on a line of its own. -/
theorem lexes_semicolon (start : Nat) (rest : List Char) :
    Lexes start ('\n' :: ';' :: '\n' :: rest)
      [⟨.symbol .semicolon, ⟨start + 1, start + 2⟩⟩] (start + 3) rest := by
  have hline (rest : List Char) : Gap rest ['\n'] := .blank (by decide) .nil
  have hlongest : NoLonger 1 (';' :: '\n' :: rest) := by
    intro r v hv hstart
    have hbegins := (begins_of_start hv hstart).1
    rcases rule_of_sign (by decide) (by decide) (by decide) (fun q => by cases q <;> decide)
      hbegins with rfl | ⟨s, rfl⟩
    · exact absurd hbegins (by decide : ';' ≠ '/')
    · have hsemicolon : s.spelling.toList.head? = some ';' := hbegins
      cases mem_spelled.1 hv
      cases s <;> first | exact Nat.le_refl 1 | cases hsemicolon
  exact .token (hline _) rfl (.symbol .semicolon) hlongest (.gap (hline rest))

/-- What a text that is scanned lexes to, wherever it begins. -/
theorem lexes_of_tokenize {source : String} {ts : List Lexeme} (h : tokenize source = .ok ts)
    (start : Nat) : Lexes start source.toList (ts.map (Lexeme.relocate (Span.shift start)))
      (start + source.utf8ByteSize) [] := by
  have hlexed := lexed_tokensFrom 0 source.toList
  rw [← tokenize, h] at hlexed
  cases hlexed with
  | ok h =>
    have hshift := h.shift start
    rwa [Nat.zero_add, Nat.zero_add, Text.byteLength_toList, Nat.add_comm] at hshift

/-- The tokens of two texts with a semicolon on a line of its own between them. -/
theorem tokenize_lines {a b : String} {ts us : List Lexeme} (ha : tokenize a = .ok ts)
    (hb : tokenize b = .ok us) :
    tokenize (a ++ "\n;\n" ++ b) = .ok (ts ++
      ⟨.symbol .semicolon, ⟨a.utf8ByteSize + 1, a.utf8ByteSize + 2⟩⟩ ::
        us.map (Lexeme.relocate (Span.shift (a.utf8ByteSize + 3)))) := by
  have hfirst := (lexes_of_tokenize ha 0).line (';' :: '\n' :: b.toList)
  have hsecond := lexes_of_tokenize hb (a.utf8ByteSize + 3)
  have hsame : ts.map (Lexeme.relocate (Span.shift 0)) = ts := List.map_id' ts
  rw [hsame, Nat.zero_add] at hfirst
  rw [tokenize, String.toList_append, String.toList_append, List.append_assoc]
  rw [show "\n;\n".toList ++ b.toList = '\n' :: ';' :: '\n' :: b.toList from rfl]
  rw [hfirst.tokensFrom_eq, (lexes_semicolon a.utf8ByteSize b.toList).tokensFrom_eq,
    hsecond.tokensFrom_eq, Scan.tokensFrom]
  simp [Except.map]

end ScopeScript
