/-
  ScopeScript.Proofs.Token.Longest

  At each place a scan takes the longest prefix of the text that a rule matches.
  The first character leaves one or two rules to choose from; for each kind of
  first character it is shown what the scan takes there and that no rule takes
  more.
-/
import Mathlib.Data.List.TakeWhile
import ScopeScript.Proofs.Token.Rules
import ScopeScript.Token.Scan

namespace ScopeScript
namespace Scan

open Computability

/-! ## Kinds of characters -/

theorem isGap_iff {c : Char} : isGap c = true ↔ Blank c := by
  have hfeed : c.toNat = 0x0C ↔ c = '\x0c' := Char.toNat_inj (d := '\x0c')
  rw [isGap, Blank]
  simp only [Bool.or_eq_true, decide_eq_true_eq, hfeed, or_assoc]

theorem isDigit_iff {c : Char} : c.isDigit = true ↔ Digit c := by
  rw [Char.isDigit, Bool.and_eq_true, decide_eq_true_eq, decide_eq_true_eq]
  rfl

theorem isAlpha_iff {c : Char} :
    c.isAlpha = true ↔ ('A' ≤ c ∧ c ≤ 'Z') ∨ ('a' ≤ c ∧ c ≤ 'z') :=
  Bool.or_eq_true_iff.trans <| or_congr decide_eq_true_iff <|
    Bool.and_eq_true_iff.trans (and_congr decide_eq_true_iff decide_eq_true_iff)

theorem isNameStart_iff {c : Char} : isNameStart c = true ↔ NameStart c := by
  rw [isNameStart, Bool.or_eq_true, isAlpha_iff, decide_eq_true_eq, NameStart, or_assoc,
    or_left_comm]

theorem isNamePart_iff {c : Char} : isNamePart c = true ↔ NamePart c := by
  rw [NamePart, ← isNameStart_iff, ← isDigit_iff, isNamePart, isNameStart, Char.isAlphanum]
  simp only [Bool.or_eq_true, decide_eq_true_eq, or_right_comm]

/-! ## Prefixes -/

section Prefixes

variable {p : Char → Bool} {v w cs : List Char}

/-- A prefix of characters of a kind is within all that the text begins with. -/
theorem length_le_takeWhile (hv : ∀ c ∈ v, p c = true) (h : v <+: cs) :
    v.length ≤ (cs.takeWhile p).length := by
  obtain ⟨rest, rfl⟩ := h
  rw [List.takeWhile_append_of_pos hv, List.length_append]
  exact Nat.le_add_right _ _

/-- A prefix of characters of a kind up to one of another kind is all of them. -/
theorem takeWhile_of_start {c : Char} (hv : ∀ d ∈ v, p d = true) (hc : p c = false)
    (h : v ++ c :: w <+: cs) :
    cs.takeWhile p = v ∧ ∃ rest, cs.dropWhile p = c :: rest ∧ w <+: rest := by
  obtain ⟨rest, rfl⟩ := h
  rw [List.append_assoc, List.cons_append, List.takeWhile_append_of_pos hv,
    List.dropWhile_append_of_pos hv, List.takeWhile_cons_of_neg (by simp [hc]),
    List.dropWhile_cons_of_neg (by simp [hc]), List.append_nil]
  exact ⟨rfl, w ++ rest, rfl, rest, rfl⟩

end Prefixes

/-! ## Values -/

theorem digitsValue_eq_decimal (digits : List Char) : digitsValue digits = decimal digits := by
  induction digits using List.reverseRecOn with
  | nil => rfl
  | append_singleton digits c ih =>
    have hvalue : digitsValue (digits ++ [c]) =
        10 * digitsValue digits + (c.toNat - '0'.toNat) := by
      rw [digitsValue, digitsValue, List.foldl_append]
      rfl
    have hdecimal : decimal (digits ++ [c]) = c.toNat - '0'.toNat + 10 * decimal digits := by
      rw [decimal, decimal, List.reverse_append, List.reverse_singleton, List.singleton_append,
        List.map_cons, Nat.ofDigits_cons]
    rw [hvalue, hdecimal, ih, Nat.add_comm]

/-- What may stand between quotes is unescaped to what it stands for. -/
theorem escapes_unescape {q : Char} {v : List Char} (h : Inside q v) : Escapes v (unescape v) := by
  induction h with
  | nil => exact .nil
  | @plain c v hquote hslash _ ih =>
    rw [unescape]
    · exact .plain hslash ih
    · exact fun hc _ => hslash hc
    · exact fun _ _ hc _ => hslash hc
  | @escape c v hc _ ih =>
    rw [unescape]
    by_cases hn : c = 'n'
    · rw [if_pos hn, hn]
      exact .lineFeed ih
    · by_cases ht : c = 't'
      · rw [if_neg hn, if_pos ht, ht]
        exact .tab ih
      · rw [if_neg hn, if_neg ht]
        exact .other hn ht ih

/-! ## Longest pieces -/

/-- What the longest match at the start of a text comes to. -/
inductive Best (text : List Char) : Piece → List Char → Prop where
  | gap {w : List Char} (hw : w ∈ skipped)
    (h : NoLonger w.length text) : Best text .gap w
  | token {t : Token} {w : List Char} (ht : t.Reads w) (h : NoLonger w.length text) :
    Best text (.token t) w
  | overflow {f : ScanFault} {w : List Char} (hw : w ∈ Rule.int.language)
    (hvalue : 2147483647 < decimal w) (h : NoLonger w.length text) : Best text (.fault f) w
  | nothing {f : ScanFault} {w : List Char}
    (h : ∀ (r : Rule) (v : List Char), v ∈ r.language → ¬ v <+: text) : Best text (.fault f) w

theorem best_blanks {c : Char} (hc : Blank c) (cs : List Char) :
    Best (c :: cs) .gap (c :: cs.takeWhile isGap) := by
  refine .gap (.inl (mem_letter_mul_star.2 ⟨c, _, rfl, hc, fun d hd => ?_⟩)) ?_
  · exact isGap_iff.1 (List.mem_takeWhile_imp hd)
  · intro r v hv hstart
    obtain ⟨hbegins, v', rfl, hrest⟩ := begins_of_start hv hstart
    cases rule_of_blank hc hbegins
    obtain ⟨_, _, heq, -, hall⟩ := mem_letter_mul_star.1 hv
    cases heq
    exact Nat.succ_le_succ (length_le_takeWhile (fun d hd => isGap_iff.2 (hall d hd)) hrest)

theorem best_comment (cs : List Char) :
    Best ('/' :: '/' :: cs) .gap ('/' :: '/' :: cs.takeWhile (· ≠ '\n')) := by
  refine .gap (.inr (mem_comment.2 ⟨_, rfl, fun d hd => ?_⟩)) ?_
  · simpa using List.mem_takeWhile_imp hd
  · intro r v hv hstart
    obtain ⟨hbegins, v', rfl, hrest⟩ := begins_of_start hv hstart
    rcases rule_of_sign (by decide) (by decide) (by decide) (fun q => by cases q <;> decide)
      hbegins with rfl | ⟨s, rfl⟩
    · obtain ⟨_, heq, hall⟩ := mem_comment.1 hv
      cases heq
      have hrest' := (List.cons_prefix_cons.1 hrest).2
      have hle := length_le_takeWhile (p := (· ≠ '\n')) (by simpa using hall) hrest'
      exact Nat.succ_le_succ (Nat.succ_le_succ hle)
    · -- The symbols that begin like a comment are shorter than any.
      rw [mem_spelled.1 hv]
      have hhead : s.spelling.toList.head? = some '/' := hbegins
      have hle : s.spelling.toList.length ≤ 2 := by cases s <;> first | decide | cases hhead
      exact Nat.le_trans hle (Nat.le_add_left _ _)

/-! ### Numbers -/

section Numbers

variable {c : Char} {cs after : List Char}

theorem digits_mem_int (hc : Digit c) (cs : List Char) :
    c :: cs.takeWhile Char.isDigit ∈ Rule.int.language :=
  mem_letter_mul_star.2 ⟨c, _, rfl, hc, fun _ hd => isDigit_iff.1 (List.mem_takeWhile_imp hd)⟩

/-- Digits that a text begins with are among all of them. -/
theorem length_le_of_int {v : List Char} (hv : v ∈ Rule.int.language) (hstart : v <+: c :: cs) :
    v.length ≤ (c :: cs.takeWhile Char.isDigit).length := by
  obtain ⟨d, v', rfl, hd, hall⟩ := mem_letter_mul_star.1 hv
  have hrest := (List.cons_prefix_cons.1 hstart).2
  exact Nat.succ_le_succ (length_le_takeWhile (fun d hd => isDigit_iff.2 (hall d hd)) hrest)

/-- A double that a text begins with has all digits before its point. -/
theorem exists_of_double {v : List Char} (hv : v ∈ Rule.double.language)
    (hstart : v <+: c :: cs) :
    ∃ decimals rest, v = (c :: cs.takeWhile Char.isDigit) ++ '.' :: decimals ∧
      cs.dropWhile Char.isDigit = '.' :: rest ∧ decimals <+: rest ∧ ∀ d ∈ decimals, Digit d := by
  obtain ⟨whole, decimals, rfl, hwhole, hdecimals⟩ := mem_double.1 hv
  obtain ⟨d, v', rfl, hd, hall⟩ := mem_letter_mul_star.1 hwhole
  obtain ⟨rfl, hrest⟩ := List.cons_prefix_cons.1 hstart
  obtain ⟨htake, rest, hdrop, hdecimals'⟩ :=
    takeWhile_of_start (fun d hd => isDigit_iff.2 (hall d hd)) (by decide) hrest
  refine ⟨decimals, rest, ?_, hdrop, hdecimals', hdecimals⟩
  rw [htake]

theorem best_int (hc : Digit c) (hpoint : ∀ rest, cs.dropWhile Char.isDigit ≠ '.' :: rest) :
    Best (c :: cs) (intPiece (c :: cs.takeWhile Char.isDigit))
      (c :: cs.takeWhile Char.isDigit) := by
  have hmem := digits_mem_int hc cs
  have hlongest : NoLonger (c :: cs.takeWhile Char.isDigit).length (c :: cs) := by
    intro r v hv hstart
    rcases rule_of_digit hc (begins_of_start hv hstart).1 with rfl | rfl
    · exact length_le_of_int hv hstart
    · obtain ⟨_, rest, -, hdrop, -, -⟩ := exists_of_double hv hstart
      exact absurd hdrop (hpoint rest)
  rw [intPiece, digitsValue_eq_decimal]
  split
  · next hlt =>
    refine .token (.int hmem ?_) hlongest
    exact Int32.toInt_ofInt_of_le (by omega) (by omega)
  · next hge => exact .overflow hmem (by omega) hlongest

/-- A double stands at the start of a text with a point behind its digits. -/
theorem double_isPrefix (hpoint : cs.dropWhile Char.isDigit = '.' :: after) :
    cs.takeWhile Char.isDigit ++ '.' :: after.takeWhile Char.isDigit <+: cs := by
  refine ⟨after.dropWhile Char.isDigit, ?_⟩
  rw [List.append_assoc, List.cons_append, List.takeWhile_append_dropWhile, ← hpoint,
    List.takeWhile_append_dropWhile]

theorem best_double (hc : Digit c) (hpoint : cs.dropWhile Char.isDigit = '.' :: after) :
    Best (c :: cs)
      (doublePiece (c :: cs.takeWhile Char.isDigit) (after.takeWhile Char.isDigit))
      ((c :: cs.takeWhile Char.isDigit) ++ '.' :: after.takeWhile Char.isDigit) := by
  rw [doublePiece, digitsValue_eq_decimal]
  refine .token (.double (digits_mem_int hc cs) (mem_letter_star.2 fun d hd => ?_)) ?_
  · exact isDigit_iff.1 (List.mem_takeWhile_imp hd)
  · intro r v hv hstart
    rw [List.length_append, List.length_cons]
    rcases rule_of_digit hc (begins_of_start hv hstart).1 with rfl | rfl
    · exact Nat.le_add_right_of_le (length_le_of_int hv hstart)
    · obtain ⟨decimals, rest, rfl, hdrop, hrest, hall⟩ := exists_of_double hv hstart
      cases hpoint.symm.trans hdrop
      have hle := length_le_takeWhile (fun d hd => isDigit_iff.2 (hall d hd)) hrest
      rw [List.length_append, List.length_cons]
      exact Nat.add_le_add_left (Nat.succ_le_succ hle) _

end Numbers

/-! ### Strings -/

section Strings

variable {q : Char} {v cs : List Char}

theorem reach_inside (hq : q ≠ '\\') (h : Inside q v) (rest : List Char) (n : Nat) :
    reach q (v ++ q :: rest) n = .closed (n + v.length + 1) := by
  induction h generalizing n with
  | nil =>
    rw [List.nil_append, reach, if_pos rfl]
    · rfl
    · exact fun hc _ => hq hc
    · exact fun _ _ hc _ => hq hc
  | @plain c v hquote hslash _ ih =>
    rw [List.cons_append, reach, if_neg hquote, ih, List.length_cons]
    · congr 1
      omega
    · exact fun hc _ => hslash hc
    · exact fun _ _ hc _ => hslash hc
  | @escape c v hc _ ih =>
    rw [List.cons_append, List.cons_append, reach, if_neg hc, ih, List.length_cons,
      List.length_cons]
    congr 1
    omega

theorem exists_of_reach {n m : Nat} (h : reach q cs n = .closed m) :
    ∃ v rest, cs = v ++ q :: rest ∧ Inside q v ∧ m = n + v.length + 1 := by
  induction cs, n using reach.induct q with
  | case1 n => cases h
  | case2 n => cases h
  | case3 rest n =>
    rw [reach, if_pos rfl] at h
    cases h
  | case4 c rest n hc ih =>
    rw [reach, if_neg hc] at h
    obtain ⟨v, behind, rfl, hv, rfl⟩ := ih h
    refine ⟨'\\' :: c :: v, behind, rfl, .escape hc hv, ?_⟩
    rw [List.length_cons, List.length_cons]
    omega
  | case5 rest n hlone hslash =>
    rw [reach, if_pos rfl] at h
    · cases h
      exact ⟨[], rest, rfl, .nil, rfl⟩
    · exact hlone
    · exact hslash
  | case6 c rest n hlone hslash hc ih =>
    rw [reach, if_neg hc] at h
    · obtain ⟨v, behind, rfl, hv, rfl⟩ := ih h
      have hne : c ≠ '\\' := by
        intro heq
        cases v with
        | nil => exact hslash _ _ heq rfl
        | cons d v => exact hslash _ _ heq rfl
      refine ⟨c :: v, behind, rfl, .plain hc hne hv, ?_⟩
      rw [List.length_cons]
      omega
    · exact hlone
    · exact hslash

/-- The string that a text begins with is the one that a scan reaches around. -/
theorem exists_of_string {q : Quote} {w : List Char} (hw : w ∈ (Rule.string q).language)
    (hstart : w <+: q.char :: cs) : reach q.char cs 0 = .closed (w.length - 1) := by
  obtain ⟨inside, rfl, hinside⟩ := mem_string.1 hw
  obtain ⟨rest, hrest⟩ := (List.cons_prefix_cons.1 hstart).2
  rw [← hrest, List.append_assoc]
  refine (reach_inside q.char_ne_slash (mem_inside.1 hinside) rest 0).trans ?_
  simp only [List.length_cons, List.length_append, List.length_nil]
  congr 1
  omega

theorem best_string {q : Quote} {n : Nat} (h : reach q.char cs 0 = .closed n) :
    Best (q.char :: cs) (stringPiece (cs.take (n - 1))) (q.char :: cs.take n) := by
  obtain ⟨v, rest, rfl, hv, rfl⟩ := exists_of_reach h
  have hinside : (v ++ q.char :: rest).take (0 + v.length + 1 - 1) = v := by
    rw [Nat.add_sub_cancel, Nat.zero_add, List.take_left]
  have htext : (v ++ q.char :: rest).take (0 + v.length + 1) = v ++ [q.char] := by
    rw [Nat.zero_add, List.take_length_add_append]
    rfl
  rw [hinside, htext]
  refine .token (.string q (mem_inside.2 hv) (escapes_unescape hv)) ?_
  intro r w hw hstart
  cases rule_of_quote (begins_of_start hw hstart).1
  -- There is one place where the string ends, so no other string begins the text.
  have hlength := Reach.closed.inj (h.symm.trans (exists_of_string hw hstart))
  simp only [List.length_cons, List.length_append, List.length_nil]
  omega

theorem best_unclosed {q : Quote} {n : Nat} (h : reach q.char cs 0 = .unclosed n) (f : ScanFault)
    (w : List Char) : Best (q.char :: cs) (.fault f) w := by
  refine .nothing fun r v hv hstart => ?_
  cases rule_of_quote (begins_of_start hv hstart).1
  cases h.symm.trans (exists_of_string hv hstart)

end Strings

/-! ### Words -/

section Words

theorem reads_wordPiece {word : List Char} (hword : word ∈ Rule.name.language) :
    ∃ t, wordPiece word = .token t ∧ t.Reads word := by
  rw [wordPiece]
  cases hfind : Keyword.ofSpelling? (String.ofList word) with
  | some k =>
    have hspelling := List.find?_some hfind
    have hword : k.spelling.toList = word := by
      rw [of_decide_eq_true hspelling, String.toList_ofList]
    exact ⟨_, rfl, hword ▸ .keyword k⟩
  | none =>
    refine ⟨_, rfl, .name hword fun k hk => ?_⟩
    refine List.find?_eq_none.1 hfind k k.mem_all (decide_eq_true ?_)
    rw [← hk, String.ofList_toList]

theorem best_word {c : Char} (hc : NameStart c) (cs : List Char) :
    Best (c :: cs) (wordPiece (c :: cs.takeWhile isNamePart)) (c :: cs.takeWhile isNamePart) := by
  have hmem : c :: cs.takeWhile isNamePart ∈ Rule.name.language :=
    mem_letter_mul_star.2 ⟨c, _, rfl, hc, fun _ hd => isNamePart_iff.1 (List.mem_takeWhile_imp hd)⟩
  obtain ⟨t, ht, hreads⟩ := reads_wordPiece hmem
  rw [ht]
  refine .token hreads fun r v hv hstart => ?_
  have hname : v ∈ Rule.name.language := by
    rcases rule_of_nameStart hc (begins_of_start hv hstart).1 with rfl | ⟨k, rfl⟩
    · exact hv
    · rw [mem_spelled.1 hv]
      exact keyword_mem_name k
  obtain ⟨_, v', rfl, -, hall⟩ := mem_letter_mul_star.1 hname
  have hrest := (List.cons_prefix_cons.1 hstart).2
  exact Nat.succ_le_succ (length_le_takeWhile (fun d hd => isNamePart_iff.2 (hall d hd)) hrest)

end Words

/-! ### Symbols -/

section Symbols

variable {c : Char} {cs : List Char}

/-- What begins with a character of no other kind is a comment or a symbol. -/
theorem rule_of_other (hgap : ¬ isGap c = true) (hdigit : ¬ c.isDigit = true)
    (hquote : ¬ (c = '"' || c = '\'') = true) (hname : ¬ isNameStart c = true) (r : Rule)
    (h : r.Begins c) : r = .comment ∨ ∃ s, r = .symbol s := by
  refine rule_of_sign (fun h => hgap (isGap_iff.2 h)) (fun h => hdigit (isDigit_iff.2 h))
    (fun h => hname (isNameStart_iff.2 h)) (fun q hq => ?_) h
  cases q <;> cases hq <;> exact hquote rfl

/-- Only symbols match where the first character is of no other kind and no
    comment begins. -/
theorem symbol_of_start (hsign : ∀ r : Rule, r.Begins c → r = .comment ∨ ∃ s, r = .symbol s)
    (hcomment : ¬ (c = '/' ∧ cs.head? = some '/')) {r : Rule} {v : List Char}
    (hv : v ∈ r.language) (hstart : v <+: c :: cs) : ∃ s : Symbol, v = s.spelling.toList := by
  rcases hsign r (begins_of_start hv hstart).1 with rfl | ⟨s, rfl⟩
  · obtain ⟨w, rfl, -⟩ := mem_comment.1 hv
    obtain ⟨rfl, rest, rfl⟩ := List.cons_prefix_cons.1 hstart
    exact absurd ⟨rfl, rfl⟩ hcomment
  · exact ⟨s, mem_spelled.1 hv⟩

theorem isPrefix_of_symbolAt {s : Symbol} (h : symbolAt? cs = some s) :
    s.spelling.toList <+: cs := by
  have hstart := List.find?_some h
  exact List.isPrefixOf_iff_prefix.1 hstart

theorem best_symbol {s : Symbol} (h : symbolAt? cs = some s)
    (hsymbol : ∀ (r : Rule) (v : List Char), v ∈ r.language → v <+: cs →
      ∃ s : Symbol, v = s.spelling.toList) :
    Best cs (.token (.symbol s)) s.spelling.toList := by
  refine .token (.symbol s) fun r v hv hstart => ?_
  obtain ⟨s', rfl⟩ := hsymbol r v hv hstart
  rw [String.length_toList, String.length_toList]
  -- Symbols before the one found do not match, and those behind it are not longer.
  obtain ⟨-, before, after, htable, hbefore⟩ := List.find?_eq_some_iff_append.1 h
  have hmem := Symbol.mem_longestFirst s'
  have hsorted := Symbol.longestFirst_pairwise
  rw [htable] at hmem hsorted
  rcases List.mem_append.1 hmem with hmem | hmem
  · have hnot := hbefore s' hmem
    rw [List.isPrefixOf_iff_prefix.2 hstart] at hnot
    exact absurd hnot (by decide)
  · rcases List.mem_cons.1 hmem with rfl | hmem
    · exact Nat.le_refl _
    · exact List.rel_of_pairwise_cons (List.pairwise_append.1 hsorted).2.1 hmem

theorem best_none (h : symbolAt? cs = none) (hsymbol : ∀ (r : Rule) (v : List Char),
      v ∈ r.language → v <+: cs → ∃ s : Symbol, v = s.spelling.toList)
    (f : ScanFault) (w : List Char) : Best cs (.fault f) w := by
  refine .nothing fun r v hv hstart => ?_
  obtain ⟨s, rfl⟩ := hsymbol r v hv hstart
  refine List.find?_eq_none.1 h s (Symbol.mem_longestFirst s) ?_
  exact List.isPrefixOf_iff_prefix.2 hstart

end Symbols

/-! ### All texts -/

theorem best_first {c : Char} {cs v : List Char} {piece : Piece} {n : Nat}
    (h : Best (c :: cs) piece (c :: v)) (hv : v <+: cs) (hn : n = v.length + 1) :
    Best (c :: cs) (.first piece n : Munch (c :: cs)).piece
      (.first piece n : Munch (c :: cs)).text := by
  subst hn
  show Best (c :: cs) piece (c :: cs.take (v.length + 1 - 1))
  rw [Nat.add_sub_cancel, ← List.prefix_iff_eq_take.1 hv]
  exact h

/-- At each place a scan takes the longest prefix that a rule matches. -/
theorem munch_best (c : Char) (cs : List Char) :
    Best (c :: cs) (munch c cs).piece (munch c cs).text := by
  rw [munch]
  split
  · next hgap =>
    refine best_first (best_blanks (isGap_iff.1 hgap) cs) (List.takeWhile_prefix _) ?_
    exact Nat.add_comm _ _
  next hgap =>
  split
  · next hcomment =>
    rw [Bool.and_eq_true, decide_eq_true_eq, decide_eq_true_eq] at hcomment
    obtain ⟨rfl, hhead⟩ := hcomment
    obtain ⟨cs, rfl⟩ := List.head?_eq_some_iff.1 hhead
    refine best_first (best_comment cs) ?_ ?_
    · exact List.cons_prefix_cons.2 ⟨rfl, List.takeWhile_prefix _⟩
    · rw [List.takeWhile_cons_of_pos (by decide)]
      exact Nat.add_comm _ _
  next hcomment =>
  rw [Bool.and_eq_true, decide_eq_true_eq, decide_eq_true_eq] at hcomment
  split
  · next hdigit =>
    split
    · next after hpoint =>
      refine best_first (v := cs.takeWhile Char.isDigit ++ '.' :: after.takeWhile Char.isDigit)
        (best_double (isDigit_iff.1 hdigit) hpoint) (double_isPrefix hpoint) ?_
      simp only [List.length_cons, List.length_append]
      omega
    · next hpoint =>
      exact best_first (best_int (isDigit_iff.1 hdigit) hpoint) (List.takeWhile_prefix _) rfl
  next hdigit =>
  split
  · next hquote =>
    obtain ⟨q, rfl⟩ : ∃ q : Quote, c = q.char := by
      rcases Bool.or_eq_true_iff.1 hquote with h | h
      · exact ⟨.double, of_decide_eq_true h⟩
      · exact ⟨.single, of_decide_eq_true h⟩
    split
    · next n hreach =>
      show Best (q.char :: cs) _ (q.char :: cs.take (1 + n - 1))
      rw [Nat.add_sub_cancel_left]
      exact best_string hreach
    · next n hreach => exact best_unclosed hreach _ _
  next hquote =>
  split
  · next hname =>
    exact best_first (best_word (isNameStart_iff.1 hname) cs) (List.takeWhile_prefix _) rfl
  next hname =>
  -- Only symbols are left.
  have hsymbol {r : Rule} {v : List Char} (hv : v ∈ r.language) (hstart : v <+: c :: cs) :=
    symbol_of_start (rule_of_other hgap hdigit hquote hname) hcomment hv hstart
  split
  · next s hs =>
    have hbest := best_symbol hs fun r v => hsymbol
    obtain ⟨-, v, hv, hrest⟩ :=
      begins_of_start (r := .symbol s) (mem_spelled.2 rfl) (isPrefix_of_symbolAt hs)
    rw [hv] at hbest
    refine best_first hbest hrest ?_
    rw [← String.length_toList, hv, List.length_cons]
  · next hs => exact best_none hs (fun r v => hsymbol) _ _

end Scan
end ScopeScript
