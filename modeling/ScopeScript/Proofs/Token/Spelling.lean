/-
  ScopeScript.Proofs.Token.Spelling

  Texts whose tokens are known. `Scans` relates a text to its tokens without
  their places. A text that begins with a space, with a bracket or separator,
  with decimal digits that no digit and no point follows, or with a string in
  single quotes that holds neither a quote nor a backslash, scans as that and
  then as the rest does.
-/
import ScopeScript.Token.Scan
import ScopeScript.Decimal.Layout

namespace ScopeScript
namespace Scan

/-- A text has the given tokens. -/
inductive Scans : List Char → List Token → Prop where
  | nil : Scans [] []
  | gap {c : Char} {cs : List Char} {ts : List Token} (hpiece : (munch c cs).piece = .gap)
    (h : Scans (munch c cs).rest ts) : Scans (c :: cs) ts
  | token {c : Char} {cs : List Char} {t : Token} {ts : List Token}
    (hpiece : (munch c cs).piece = .token t) (h : Scans (munch c cs).rest ts) :
    Scans (c :: cs) (t :: ts)

/-- A text that scans has lexemes, wherever it begins. -/
theorem Scans.exists_tokensFrom {cs : List Char} {ts : List Token} (h : Scans cs ts) (start : Nat)
    (found : List Lexeme) :
    ∃ lexemes, tokensFrom start cs found = .ok (found.reverse ++ lexemes) ∧
      lexemes.map (·.token) = ts := by
  induction h generalizing start found with
  | nil =>
    refine ⟨[], ?_, rfl⟩
    rw [tokensFrom, List.append_nil]
  | @gap c cs ts hpiece _ ih =>
    obtain ⟨lexemes, hlexemes, hts⟩ := ih (start + Text.byteLength (munch c cs).text) found
    refine ⟨lexemes, ?_, hts⟩
    rw [tokensFrom]
    simp only [hpiece]
    exact hlexemes
  | @token c cs t ts hpiece _ ih =>
    -- The next lexeme begins where this one ends.
    obtain ⟨stop, hstop⟩ : ∃ stop, stop = start + Text.byteLength (munch c cs).text := ⟨_, rfl⟩
    obtain ⟨lexemes, hlexemes, hts⟩ := ih stop (⟨t, ⟨start, stop⟩⟩ :: found)
    refine ⟨⟨t, ⟨start, stop⟩⟩ :: lexemes, ?_, ?_⟩
    · rw [tokensFrom]
      simp only [hpiece, ← hstop]
      rw [hlexemes, List.reverse_cons, List.append_assoc]
      rfl
    · rw [List.map_cons, hts]

theorem exists_tokenize {source : String} {ts : List Token} (h : Scans source.toList ts) :
    ∃ lexemes, tokenize source = .ok lexemes ∧ lexemes.map (·.token) = ts := by
  obtain ⟨lexemes, hlexemes, hts⟩ := h.exists_tokensFrom 0 []
  exact ⟨lexemes, hlexemes, hts⟩

/-! ## Gaps -/

theorem drop_length_takeWhile {α : Type} (p : α → Bool) (l : List α) :
    l.drop (l.takeWhile p).length = l.dropWhile p := by
  have hsplit : l.takeWhile p ++ l.dropWhile p = l := List.takeWhile_append_dropWhile
  calc l.drop (l.takeWhile p).length
      = (l.takeWhile p ++ l.dropWhile p).drop (l.takeWhile p).length := by rw [hsplit]
    _ = l.dropWhile p := List.drop_left

theorem munch_gap {c : Char} (hc : isGap c = true) (cs : List Char) :
    (munch c cs).piece = .gap ∧ (munch c cs).rest = cs.dropWhile isGap := by
  rw [munch, if_pos hc]
  refine ⟨rfl, ?_⟩
  show cs.drop (1 + (cs.takeWhile isGap).length - 1) = _
  rw [Nat.add_sub_cancel_left, drop_length_takeWhile]

/-- White space before a text does not change its tokens. -/
theorem Scans.space {c : Char} (hc : isGap c = true) {cs : List Char} {ts : List Token}
    (h : Scans cs ts) : Scans (c :: cs) ts := by
  obtain ⟨hpiece, hrest⟩ := munch_gap hc cs
  refine .gap hpiece ?_
  rw [hrest]
  cases cs with
  | nil => exact h
  | cons d ds =>
    cases hd : isGap d with
    | false =>
      rw [List.dropWhile_cons_of_neg (by simp [hd])]
      exact h
    | true =>
      -- The next character belongs to the same gap.
      obtain ⟨hpiece', hrest'⟩ := munch_gap hd ds
      rw [List.dropWhile_cons_of_pos hd]
      cases h with
      | gap _ h =>
        rw [hrest'] at h
        exact h
      | token hp _ =>
        rw [hpiece'] at hp
        cases hp

/-! ## Symbols -/

/-- The spelling of a bracket or a separator. No longer symbol begins with it. -/
inductive Mark : Char → Symbol → Prop where
  | leftBracket : Mark '[' .leftBracket
  | rightBracket : Mark ']' .rightBracket
  | leftBrace : Mark '\x7b' .leftBrace
  | rightBrace : Mark '\x7d' .rightBrace
  | comma : Mark ',' .comma
  | colon : Mark ':' .colon

theorem Scans.mark {c : Char} {s : Symbol} (hs : Mark c s) {cs : List Char} {ts : List Token}
    (h : Scans cs ts) : Scans (c :: cs) (.symbol s :: ts) := by
  have hmunch : (munch c cs).piece = .token (.symbol s) ∧ (munch c cs).rest = cs := by
    cases hs <;> exact ⟨rfl, rfl⟩
  refine .token hmunch.1 ?_
  rw [hmunch.2]
  exact h

/-- A minus sign before a digit is a sign of its own. -/
theorem Scans.minus {d : Char} (hd : d.isDigit = true) {cs : List Char} {ts : List Token}
    (h : Scans (d :: cs) ts) : Scans ('-' :: d :: cs) (.symbol .minus :: ts) := by
  -- `--` and `-=` are the longer symbols with a minus sign in front.
  have hminus : ('-' == d) = false := by
    rw [beq_eq_false_iff_ne]
    rintro rfl
    exact absurd hd (by decide)
  have hequal : ('=' == d) = false := by
    rw [beq_eq_false_iff_ne]
    rintro rfl
    exact absurd hd (by decide)
  have hsymbol : symbolAt? ('-' :: d :: cs) = some .minus := by
    simp [symbolAt?, Symbol.longestFirst, Symbol.spelling, List.find?, List.isPrefixOf, hminus,
      hequal]
  have hmunch : munch '-' (d :: cs) = .first (.token (.symbol .minus)) 1 := by
    simp only [munch, hsymbol]
    rfl
  refine .token (t := .symbol .minus) ?_ ?_
  · rw [hmunch]
    rfl
  · rw [hmunch]
    exact h

/-! ## Numbers -/

/-- What may stand behind the digits of an integer. -/
def EndsNumber (rest : List Char) : Prop :=
  ∀ c ∈ rest.head?, c.isDigit = false ∧ c ≠ '.'

theorem isGap_of_isDigit {c : Char} (hc : c.isDigit = true) : isGap c = false := by
  have hge : 48 ≤ c.toNat := by
    rw [Char.isDigit, Bool.and_eq_true, decide_eq_true_eq] at hc
    exact UInt32.le_iff_toNat_le.1 hc.1
  rw [isGap]
  simp only [Bool.or_eq_false_iff, decide_eq_false_iff_not]
  refine ⟨⟨⟨⟨?_, ?_⟩, ?_⟩, ?_⟩, by omega⟩
  all_goals
    rintro rfl
    exact absurd hge (by decide)

theorem munch_digits {c : Char} {ds rest : List Char} (hc : c.isDigit = true)
    (hds : ∀ d ∈ ds, d.isDigit = true) (hrest : EndsNumber rest) :
    (munch c (ds ++ rest)).piece = intPiece (c :: ds) ∧ (munch c (ds ++ rest)).rest = rest := by
  have hslash : c ≠ '/' := by
    rintro rfl
    exact absurd hc (by decide)
  -- The digits end where `ds` does, for no digit follows.
  have htake : (ds ++ rest).takeWhile Char.isDigit = ds := by
    rw [List.takeWhile_append_of_pos hds]
    cases rest with
    | nil => rw [List.takeWhile_nil, List.append_nil]
    | cons d rest => rw [List.takeWhile_cons_of_neg (by simp [(hrest d rfl).1]), List.append_nil]
  have hdrop : (ds ++ rest).dropWhile Char.isDigit = rest := by
    rw [List.dropWhile_append_of_pos hds]
    cases rest with
    | nil => rfl
    | cons d rest => rw [List.dropWhile_cons_of_neg (by simp [(hrest d rfl).1])]
  have hmunch : munch c (ds ++ rest) = .first (intPiece (c :: ds)) (c :: ds).length := by
    rw [munch, if_neg (by simp [isGap_of_isDigit hc]), if_neg (by simp [hslash]), if_pos hc]
    simp only [htake, hdrop]
    -- A point would make the number a double.
    split
    · next after _ => exact absurd rfl (hrest '.' rfl).2
    · rfl
  rw [hmunch]
  exact ⟨rfl, List.drop_left⟩

/-- A number has at least one digit, and all its characters are digits. -/
theorem digitsOf_eq_cons (n : Nat) : ∃ c ds, Decimal.digitsOf n = c :: ds ∧ c.isDigit = true ∧
    ∀ d ∈ ds, d.isDigit = true := by
  have hall : ∀ d ∈ Decimal.digitsOf n, d.isDigit = true := fun d hd =>
    Nat.isDigit_of_mem_toDigits (by decide) (by decide) hd
  cases hds : Decimal.digitsOf n with
  | nil => exact absurd hds Nat.toDigits_ne_nil
  | cons c ds =>
    rw [hds] at hall
    obtain ⟨hc, hall⟩ := List.forall_mem_cons.1 hall
    exact ⟨c, ds, rfl, hc, hall⟩

/-- The digits of a number that fits are scanned as that number. -/
theorem Scans.digits {n : Nat} (hn : n < 0x80000000) {rest : List Char} {ts : List Token}
    (hrest : EndsNumber rest) (h : Scans rest ts) :
    Scans (Decimal.digitsOf n ++ rest) (.int (Int32.ofInt n) :: ts) := by
  have hvalue : digitsValue (Decimal.digitsOf n) = n := Nat.ofDigitChars_ten_toDigits
  obtain ⟨c, ds, hdigits, hc, hds⟩ := digitsOf_eq_cons n
  rw [hdigits] at hvalue ⊢
  obtain ⟨hpiece, hmunch⟩ := munch_digits hc hds hrest
  rw [intPiece, hvalue, if_pos hn] at hpiece
  rw [List.cons_append]
  refine .token hpiece ?_
  rw [hmunch]
  exact h

/-! ## Strings -/

/-- Characters that stand for themselves between single quotes. -/
def Plain (cs : List Char) : Prop :=
  ∀ c ∈ cs, c ≠ '\'' ∧ c ≠ '\\'

theorem reach_plain {cs : List Char} (hcs : Plain cs) (rest : List Char) (n : Nat) :
    reach '\'' (cs ++ '\'' :: rest) n = .closed (n + cs.length + 1) := by
  induction cs generalizing n with
  | nil => rfl
  | cons c cs ih =>
    obtain ⟨⟨hquote, hslash⟩, hcs⟩ := List.forall_mem_cons.1 hcs
    rw [List.cons_append, reach]
    · rw [if_neg hquote, ih hcs, List.length_cons]
      congr 1
      omega
    · exact fun hc _ => hslash hc
    · exact fun _ _ hc _ => hslash hc

theorem unescape_plain {cs : List Char} (hcs : Plain cs) : unescape cs = cs := by
  induction cs with
  | nil => rfl
  | cons c cs ih =>
    obtain ⟨⟨-, hslash⟩, hcs⟩ := List.forall_mem_cons.1 hcs
    rw [unescape]
    · rw [ih hcs]
    · exact fun hc _ => hslash hc
    · exact fun _ _ hc _ => hslash hc

/-- Plain characters between single quotes are scanned as the string of them. -/
theorem Scans.string {s : String} (hs : Plain s.toList) {rest : List Char} {ts : List Token}
    (h : Scans rest ts) : Scans ('\'' :: (s.toList ++ '\'' :: rest)) (.string s :: ts) := by
  have hmunch : munch '\'' (s.toList ++ '\'' :: rest) =
      .first (stringPiece s.toList) (1 + (0 + s.toList.length + 1)) := by
    rw [munch, if_neg (by decide), if_neg (by simp), if_neg (by decide), if_pos (by decide)]
    simp only [reach_plain hs]
    rw [Nat.zero_add, Nat.add_sub_cancel, List.take_left]
  refine .token (t := .string s) ?_ ?_
  · rw [hmunch, Munch.first, stringPiece, unescape_plain hs, String.ofList_toList]
  · rw [hmunch]
    show Scans ((s.toList ++ '\'' :: rest).drop (1 + (0 + s.toList.length + 1) - 1)) ts
    rw [Nat.add_sub_cancel_left, Nat.zero_add, ← List.drop_drop, List.drop_left]
    exact h

end Scan
end ScopeScript
