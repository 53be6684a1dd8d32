/-
  ScopeScript.Proofs.Token.MaximalMunch

  Scanning is maximal munch. A source text is its tokens with gaps between them:
  a gap is made of blanks and of comments, a token reads its own characters, and
  where a token stands no rule matches more of the text. `Lexes` says this with
  no scan in it. A scan gives exactly the tokens by which the whole text lexes,
  and it fails exactly where lexing comes to a place it cannot go on from.
-/
import ScopeScript.Proofs.Token.Longest
import ScopeScript.Proofs.Token.Readings
import ScopeScript.Proofs.Token.Runs
import ScopeScript.Proofs.Token.Spelling

namespace ScopeScript

/-! ## Lexing -/

/-- The text is over, or a line feed comes next. -/
def EndsLine (text : List Char) : Prop :=
  ∀ c ∈ text.head?, c = '\n'

/-- What stands between tokens, where `rest` comes next: blanks, and comments as
    far as their lines go. -/
inductive Gap (rest : List Char) : List Char → Prop where
  | nil : Gap rest []
  | blanks {w gap : List Char} (hw : w ∈ Rule.blanks.language) (h : Gap rest gap) :
    Gap rest (w ++ gap)
  | comment {w gap : List Char} (hw : w ∈ Rule.comment.language) (hend : EndsLine (gap ++ rest))
    (h : Gap rest gap) : Gap rest (w ++ gap)

/-- A text that begins at byte `start` is gaps and these tokens in turn up to byte
    `stop`, where `rest` begins. Each token reads the characters of its span, and
    where it begins no rule matches more. -/
inductive Lexes : Nat → List Char → List Lexeme → Nat → List Char → Prop where
  | gap {start : Nat} {gap rest : List Char} (hgap : Gap rest gap) :
    Lexes start (gap ++ rest) [] (start + Text.byteLength gap) rest
  | token {start place stop : Nat} {gap word text rest : List Char} {t : Token}
    {ts : List Lexeme} (hgap : Gap (word ++ text) gap)
    (hplace : place = start + Text.byteLength gap) (ht : t.Reads word)
    (hlongest : NoLonger word.length (word ++ text))
    (h : Lexes (place + Text.byteLength word) text ts stop rest) :
    Lexes start (gap ++ (word ++ text)) (⟨t, ⟨place, place + Text.byteLength word⟩⟩ :: ts) stop
      rest

/-- Lexing cannot go on: no rule matches, or the longest match is an integer
    above the largest one. -/
inductive Stuck (text : List Char) : Prop where
  | nothing (hne : text ≠ [])
    (h : ∀ (r : Rule) (v : List Char), v ∈ r.language → ¬ v <+: text)
  | overflow {w : List Char} (hw : w ∈ Rule.int.language) (hstart : w <+: text)
    (hlongest : NoLonger w.length text) (hvalue : 2147483647 < decimal w)

/-- No prefix of a text is longer than it. -/
theorem noLonger_self (text : List Char) : NoLonger text.length text :=
  fun _ _ _ hstart => hstart.length_le

/-- Two longest matches are one. -/
theorem longest_unique {r r' : Rule} {w w' text : List Char} (hw : w ∈ r.language)
    (hstart : w <+: text) (h : NoLonger w.length text) (hw' : w' ∈ r'.language)
    (hstart' : w' <+: text) (h' : NoLonger w'.length text) : w = w' :=
  (List.prefix_of_prefix_length_le hstart hstart' (h' r w hw hstart)).eq_of_length_le
    (h r' w' hw' hstart')

/-- Behind a longest comment its line ends. -/
theorem endsLine_of_longest {w rest : List Char} (hw : w ∈ Rule.comment.language)
    (h : NoLonger w.length (w ++ rest)) : EndsLine rest := by
  intro c hc
  by_contra hne
  obtain ⟨rest, rfl⟩ := List.head?_eq_some_iff.1 hc
  obtain ⟨v, rfl, hv⟩ := mem_comment.1 hw
  -- With its next character it is a comment too.
  have hmore : '/' :: '/' :: v ++ [c] ∈ Rule.comment.language := by
    refine mem_comment.2 ⟨v ++ [c], rfl, List.forall_mem_append.2 ⟨hv, ?_⟩⟩
    exact List.forall_mem_singleton.2 hne
  have hle := h .comment _ hmore ⟨rest, by rw [List.append_assoc]; rfl⟩
  rw [List.length_append, List.length_singleton] at hle
  omega

/-! ## Scans of gaps and tokens -/

namespace Scan

variable {start : Nat} {cs w : List Char} {piece : Piece}

theorem tokensFrom_of_gap {c : Char} {rest : List Char} (hpiece : (munch c cs).piece = .gap)
    (hrest : (munch c cs).rest = rest) (hsource : c :: cs = w ++ rest) :
    tokensFrom start (c :: cs) [] = tokensFrom (start + Text.byteLength w) rest [] := by
  have htext : (munch c cs).text = w := by
    have hsplit := (munch c cs).split
    rw [hrest] at hsplit
    exact List.append_cancel_right (hsplit.symm.trans hsource)
  rw [tokensFrom_gap hpiece, Munch.stop, htext, hrest]

/-- A scan goes on behind the blanks that a text begins with. -/
theorem tokensFrom_dropWhile (start : Nat) (cs : List Char) :
    tokensFrom start cs [] =
      tokensFrom (start + Text.byteLength (cs.takeWhile isGap)) (cs.dropWhile isGap) [] := by
  cases cs with
  | nil => rfl
  | cons c cs =>
    by_cases hc : isGap c = true
    · obtain ⟨hpiece, hrest⟩ := munch_gap hc cs
      rw [List.takeWhile_cons_of_pos hc, List.dropWhile_cons_of_pos hc]
      refine tokensFrom_of_gap hpiece hrest ?_
      rw [List.cons_append, List.takeWhile_append_dropWhile]
    · rw [List.takeWhile_cons_of_neg hc, List.dropWhile_cons_of_neg hc]
      rfl

theorem tokensFrom_blanks (hw : w ∈ Rule.blanks.language) :
    tokensFrom start (w ++ cs) [] = tokensFrom (start + Text.byteLength w) cs [] := by
  have hall : ∀ c ∈ w, isGap c = true := by
    obtain ⟨c, v, rfl, hc, hv⟩ := mem_letter_mul_star.1 hw
    exact List.forall_mem_cons.2 ⟨isGap_iff.2 hc, fun d hd => isGap_iff.2 (hv d hd)⟩
  -- Behind `w` there may be more blanks, which both scans take.
  rw [tokensFrom_dropWhile, List.takeWhile_append_of_pos hall, List.dropWhile_append_of_pos hall,
    Text.byteLength_append, ← Nat.add_assoc, ← tokensFrom_dropWhile]

theorem munch_comment (cs : List Char) :
    (munch '/' ('/' :: cs)).piece = .gap ∧
    (munch '/' ('/' :: cs)).rest = cs.dropWhile (· ≠ '\n') := by
  refine ⟨rfl, ?_⟩
  show ('/' :: cs).drop (1 + (('/' :: cs).takeWhile (· ≠ '\n')).length - 1) = _
  rw [Nat.add_sub_cancel_left, drop_length_takeWhile, List.dropWhile_cons_of_pos (by decide)]

/-- A comment goes as far as its line. -/
theorem dropWhile_comment {v : List Char} (hv : ∀ c ∈ v, c ≠ '\n') (hend : EndsLine cs) :
    (v ++ cs).dropWhile (· ≠ '\n') = cs := by
  rw [List.dropWhile_append_of_pos (by simpa using hv)]
  cases cs with
  | nil => rfl
  | cons c cs =>
    cases hend c rfl
    rfl

theorem tokensFrom_comment (hw : w ∈ Rule.comment.language) (hend : EndsLine cs) :
    tokensFrom start (w ++ cs) [] = tokensFrom (start + Text.byteLength w) cs [] := by
  obtain ⟨v, rfl, hv⟩ := mem_comment.1 hw
  obtain ⟨hpiece, hrest⟩ := munch_comment (v ++ cs)
  rw [dropWhile_comment hv hend] at hrest
  exact tokensFrom_of_gap hpiece hrest rfl

/-- Nothing of a gap shows in the tokens. -/
theorem tokensFrom_skip {gap rest : List Char} (h : Gap rest gap) (start : Nat) :
    tokensFrom start (gap ++ rest) [] =
      tokensFrom (start + Text.byteLength gap) rest [] := by
  induction h generalizing start with
  | nil => rfl
  | blanks hw _ ih =>
    rw [List.append_assoc, tokensFrom_blanks hw, ih, Text.byteLength_append, Nat.add_assoc]
  | comment hw hend _ ih =>
    rw [List.append_assoc, tokensFrom_comment hw hend, ih, Text.byteLength_append, Nat.add_assoc]

/-- The longest match is what is taken. -/
theorem munch_text {c : Char} {r : Rule} (hw : w ∈ r.language) (hstart : w <+: c :: cs)
    (hlongest : NoLonger w.length (c :: cs)) : (munch c cs).text = w := by
  have htaken : (munch c cs).text <+: c :: cs := ⟨_, (munch c cs).split.symm⟩
  have hbest := munch_best c cs
  generalize (munch c cs).piece = piece at hbest
  cases hbest with
  | gap hgap h =>
    obtain ⟨_, hw'⟩ := exists_rule_of_skipped hgap
    exact longest_unique hw' htaken h hw hstart hlongest
  | token ht h =>
    obtain ⟨_, hw', -⟩ := ht.exists_rule
    exact longest_unique hw' htaken h hw hstart hlongest
  | overflow hint _ h => exact longest_unique hint htaken h hw hstart hlongest
  | nothing h => exact absurd hstart (h r w hw)

theorem munch_of_reads {c : Char} {t : Token} (ht : t.Reads w) (hstart : w <+: c :: cs)
    (hlongest : NoLonger w.length (c :: cs)) :
    (munch c cs).piece = .token t ∧ (munch c cs).text = w := by
  obtain ⟨r, hw, -⟩ := ht.exists_rule
  have htext := munch_text hw hstart hlongest
  have hbest := munch_best c cs
  rw [htext] at hbest
  refine ⟨?_, htext⟩
  generalize (munch c cs).piece = piece at hbest ⊢
  cases hbest with
  | gap hgap => exact absurd hgap ht.not_skipped
  | token ht' => rw [ht'.unique ht]
  | overflow hint hvalue => exact absurd hvalue (Nat.not_lt.2 (ht.decimal_le hint))
  | nothing h => exact absurd hstart (h r w hw)

theorem tokensFrom_reads {t : Token} (ht : t.Reads w)
    (hlongest : NoLonger w.length (w ++ cs)) (start : Nat) :
    tokensFrom start (w ++ cs) [] = (tokensFrom (start + Text.byteLength w) cs []).map
      (⟨t, ⟨start, start + Text.byteLength w⟩⟩ :: ·) := by
  obtain ⟨r, hw, -⟩ := ht.exists_rule
  obtain ⟨c, v, rfl, -⟩ := begins_of_mem hw
  have hstart : c :: v <+: c :: (v ++ cs) := ⟨cs, rfl⟩
  obtain ⟨hpiece, htext⟩ := munch_of_reads ht hstart hlongest
  have hrest : (munch c (v ++ cs)).rest = cs := by
    have hsplit : c :: v ++ cs = _ := (munch c (v ++ cs)).split
    rw [htext] at hsplit
    exact (List.append_cancel_left hsplit).symm
  show tokensFrom start (c :: (v ++ cs)) [] = _
  rw [tokensFrom_token hpiece, Munch.stop, htext, hrest]

/-- An integer above the largest one is no gap and no token. -/
theorem fault_of_overflow (hw : w ∈ Rule.int.language) (hvalue : 2147483647 < decimal w)
    (hbest : Best cs piece w) : ∃ f, piece = .fault f := by
  cases hbest with
  | gap hgap =>
    rcases hgap with hgap | hgap
    · cases Rule.family_eq_of_mem hgap hw
    · cases Rule.family_eq_of_mem hgap hw
  | token ht => exact absurd hvalue (Nat.not_lt.2 (ht.decimal_le hw))
  | overflow => exact ⟨_, rfl⟩
  | nothing => exact ⟨_, rfl⟩

/-- Where no rule matches there is no gap and no token. -/
theorem fault_of_nothing (h : ∀ (r : Rule) (v : List Char), v ∈ r.language → ¬ v <+: cs)
    (hstart : w <+: cs) (hbest : Best cs piece w) : ∃ f, piece = .fault f := by
  cases hbest with
  | gap hgap =>
    obtain ⟨r, hw⟩ := exists_rule_of_skipped hgap
    exact absurd hstart (h r w hw)
  | token ht =>
    obtain ⟨r, hw, -⟩ := ht.exists_rule
    exact absurd hstart (h r w hw)
  | overflow => exact ⟨_, rfl⟩
  | nothing => exact ⟨_, rfl⟩

theorem fault_of_stuck {c : Char} (h : Stuck (c :: cs)) : ∃ f, (munch c cs).piece = .fault f := by
  have hbest := munch_best c cs
  cases h with
  | nothing _ h => exact fault_of_nothing h ⟨_, (munch c cs).split.symm⟩ hbest
  | overflow hw hstart hlongest hvalue =>
    rw [munch_text hw hstart hlongest] at hbest
    exact fault_of_overflow hw hvalue hbest

/-- Where lexing is stuck a scan fails. -/
theorem error_of_stuck (h : Stuck cs) (start : Nat) :
    ∃ e, tokensFrom start cs [] = .error e ∧ e.span.start = start := by
  cases cs with
  | nil =>
    cases h with
    | nothing hne => exact absurd rfl hne
    | overflow hw hstart =>
      obtain ⟨c, v, rfl, -⟩ := begins_of_mem hw
      cases List.prefix_nil.1 hstart
  | cons c cs =>
    obtain ⟨f, hpiece⟩ := fault_of_stuck h
    exact ⟨_, tokensFrom_fault hpiece, rfl⟩

end Scan

/-! ## Lexing and scanning -/

section Lexing

variable {start stop : Nat} {source w text rest : List Char} {ts : List Lexeme}

theorem Lexes.tokensFrom_eq (h : Lexes start text ts stop rest) :
    Scan.tokensFrom start text [] = (Scan.tokensFrom stop rest []).map (ts ++ ·) := by
  induction h with
  | @gap start gap rest hgap =>
    rw [Scan.tokensFrom_skip hgap]
    cases Scan.tokensFrom (start + Text.byteLength gap) rest [] <;> rfl
  | @token start place stop gap word text rest t ts hgap hplace ht hlongest _ ih =>
    rw [Scan.tokensFrom_skip hgap, ← hplace, Scan.tokensFrom_reads ht hlongest, ih]
    cases Scan.tokensFrom stop rest [] <;> rfl

/-- Where a text lexes to its end the tokens are those that are scanned. -/
theorem Lexes.tokenize_eq (h : Lexes 0 text ts stop []) :
    tokenize (String.ofList text) = .ok ts := by
  rw [tokenize, String.toList_ofList]
  refine h.tokensFrom_eq.trans ?_
  rw [Scan.tokensFrom]
  show Except.ok (ts ++ []) = _
  rw [List.append_nil]

theorem Gap.of_longest (hw : w ∈ skipped) (hlongest : NoLonger w.length (w ++ rest)) :
    Gap rest w := by
  rw [← List.append_nil w]
  rcases hw with hw | hw
  · exact .blanks hw .nil
  · exact .comment hw (endsLine_of_longest hw hlongest) .nil

theorem Gap.blank {c : Char} {gap rest : List Char} (hc : Blank c) (h : Gap rest gap) :
    Gap rest (c :: gap) := by
  have hw : [c] ∈ Rule.blanks.language :=
    mem_letter_mul_star.2 ⟨c, [], rfl, hc, List.forall_mem_nil _⟩
  exact .blanks hw h

/-- A gap goes on in the gap behind it. -/
theorem Gap.append {gap gap' : List Char} (h : Gap (gap' ++ rest) gap) (h' : Gap rest gap') :
    Gap rest (gap ++ gap') := by
  induction h with
  | nil => exact h'
  | blanks hw _ ih =>
    rw [List.append_assoc]
    exact .blanks hw ih
  | comment hw hend _ ih =>
    rw [List.append_assoc]
    rw [← List.append_assoc] at hend
    exact .comment hw hend ih

/-- A gap stands in front of a text. -/
theorem Lexes.prepend {gap : List Char} (hgap : Gap text gap)
    (h : Lexes (start + Text.byteLength gap) text ts stop rest) :
    Lexes start (gap ++ text) ts stop rest := by
  cases h with
  | gap hgap' =>
    rw [← List.append_assoc, Nat.add_assoc, ← Text.byteLength_append]
    exact .gap (hgap.append hgap')
  | token hgap' hplace ht hlongest h =>
    rw [← List.append_assoc]
    refine .token (hgap.append hgap') ?_ ht hlongest h
    rw [hplace, Text.byteLength_append, Nat.add_assoc]

theorem Lexes.of_gap (h : Lexes (start + Text.byteLength w) text ts stop rest)
    (hsource : source = w ++ text) (hlongest : NoLonger w.length source) (hw : w ∈ skipped) :
    Lexes start source ts stop rest := by
  subst hsource
  exact h.prepend (.of_longest hw hlongest)

theorem Lexes.of_token {t : Token} (h : Lexes (start + Text.byteLength w) text ts stop rest)
    (hsource : source = w ++ text) (hlongest : NoLonger w.length source) (ht : t.Reads w) :
    Lexes start source (⟨t, ⟨start, start + Text.byteLength w⟩⟩ :: ts) stop rest := by
  subst hsource
  exact .token .nil rfl ht hlongest h

/-- A word alone lexes as its token. -/
theorem Lexes.of_word {t : Token} (ht : t.Reads w) (start : Nat) :
    Lexes start w [⟨t, ⟨start, start + Text.byteLength w⟩⟩] (start + Text.byteLength w) [] := by
  have hend : Lexes (start + Text.byteLength w) [] [] (start + Text.byteLength w) [] := .gap .nil
  exact hend.of_token (List.append_nil w).symm (noLonger_self w) ht

theorem Stuck.of_best {piece : Scan.Piece} {f : ScanFault} (hbest : Scan.Best text piece w)
    (hpiece : piece = .fault f) (hstart : w <+: text) (hne : w ≠ []) : Stuck text := by
  cases hbest with
  | gap => cases hpiece
  | token => cases hpiece
  | overflow hw hvalue hlongest => exact .overflow hw hstart hlongest hvalue
  | nothing h =>
    refine .nothing (fun heq => hne ?_) h
    rw [heq] at hstart
    exact List.prefix_nil.1 hstart

/-- What the outcome of a scan says of lexing: with tokens the whole text lexes,
    and with an error it lexes up to where it is stuck. -/
inductive Lexed (start : Nat) (text : List Char) : Except ScanError (List Lexeme) → Prop where
  | ok {ts : List Lexeme} (h : Lexes start text ts (start + Text.byteLength text) []) :
    Lexed start text (.ok ts)
  | error {e : ScanError} {ts : List Lexeme} {rest : List Char}
    (h : Lexes start text ts e.span.start rest) (hstuck : Stuck rest) :
    Lexed start text (.error e)

/-- A scan lexes. -/
theorem lexed_tokensFrom (start : Nat) (text : List Char) :
    Lexed start text (Scan.tokensFrom start text []) := by
  refine Scan.tokensFrom_induction ?nil ?gap ?token ?fault start text
  case nil => exact fun start => .ok (.gap .nil)
  case gap =>
    intro start c cs x hpiece ih
    have hbest := Scan.munch_best c cs
    rw [hpiece] at hbest
    have hsource := (Scan.munch c cs).split
    cases hbest with
    | gap hw hlongest =>
      cases ih with
      | ok h =>
        rw [Scan.Munch.stop_add] at h
        exact .ok (h.of_gap hsource hlongest hw)
      | error h hstuck => exact .error (h.of_gap hsource hlongest hw) hstuck
  case token =>
    intro start c cs t x hpiece ih
    have hbest := Scan.munch_best c cs
    rw [hpiece] at hbest
    have hsource := (Scan.munch c cs).split
    cases hbest with
    | token ht hlongest =>
      cases ih with
      | ok h =>
        rw [Scan.Munch.stop_add] at h
        exact .ok (h.of_token hsource hlongest ht)
      | error h hstuck => exact .error (h.of_token hsource hlongest ht) hstuck
  case fault =>
    intro start c cs f hpiece
    have hstart : (Scan.munch c cs).text <+: c :: cs := ⟨_, (Scan.munch c cs).split.symm⟩
    refine .error (.gap .nil) ?_
    exact .of_best (Scan.munch_best c cs) hpiece hstart (Scan.munch c cs).moved

end Lexing

/-- Scanning is lossless maximal munch. The tokens of a source are those by which
    all of it lexes, and it has an error exactly if it lexes up to a place where
    lexing is stuck, which is where the error begins. -/
theorem tokenize_maximal_munch (source : String) :
    (∀ tokens, tokenize source = .ok tokens ↔
      Lexes 0 source.toList tokens source.utf8ByteSize []) ∧
    ∀ place, (∃ e, tokenize source = .error e ∧ e.span.start = place) ↔
      ∃ tokens rest, Lexes 0 source.toList tokens place rest ∧ Stuck rest := by
  have hlexed := lexed_tokensFrom 0 source.toList
  rw [tokenize]
  refine ⟨fun tokens => ⟨fun h => ?_, fun h => ?_⟩, fun place => ⟨?_, ?_⟩⟩
  · rw [h] at hlexed
    cases hlexed with
    | ok h => rwa [Nat.zero_add, Text.byteLength_toList] at h
  · rw [h.tokensFrom_eq, Scan.tokensFrom]
    show Except.ok (tokens ++ []) = _
    rw [List.append_nil]
  · rintro ⟨e, h, rfl⟩
    rw [h] at hlexed
    cases hlexed with
    | error h hstuck => exact ⟨_, _, h, hstuck⟩
  · rintro ⟨tokens, rest, h, hstuck⟩
    obtain ⟨e, he, hplace⟩ := Scan.error_of_stuck hstuck place
    refine ⟨e, ?_, hplace⟩
    rw [h.tokensFrom_eq, he]
    rfl

end ScopeScript
