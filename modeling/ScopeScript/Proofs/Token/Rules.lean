/-
  ScopeScript.Proofs.Token.Rules

  The rules of the tokens, as languages. A rule is a regular language over the
  characters; blanks and comments have rules too. What the text of a token means
  is said apart: which value it has as a number, and which characters the inside
  of a string stands for. Nothing here scans.

    blanks   [ \t\n\r\f]+
    comment  //[^\n]*
    double   [0-9]+\.[0-9]*
    int      [0-9]+
    string   "([^"\\]|\\.)*"  and the same between single quotes
    name     [a-zA-Z_][a-zA-Z0-9_]*

  A reserved word and a symbol are the rules of their spellings.
-/
import Mathlib.Computability.Language
import Mathlib.Data.Nat.Digits.Defs
import ScopeScript.Token

namespace ScopeScript

open Computability

/-! ## Characters -/

/-- White space. -/
def Blank (c : Char) : Prop :=
  c = ' ' ∨ c = '\t' ∨ c = '\n' ∨ c = '\r' ∨ c = '\x0c'

def Digit (c : Char) : Prop :=
  '0' ≤ c ∧ c ≤ '9'

def NameStart (c : Char) : Prop :=
  ('a' ≤ c ∧ c ≤ 'z') ∨ ('A' ≤ c ∧ c ≤ 'Z') ∨ c = '_'

def NamePart (c : Char) : Prop :=
  NameStart c ∨ Digit c

instance : DecidablePred Blank := fun _ => inferInstanceAs (Decidable (_ ∨ _))

instance : DecidablePred Digit := fun _ => inferInstanceAs (Decidable (_ ∧ _))

instance : DecidablePred NameStart := fun _ => inferInstanceAs (Decidable (_ ∨ _))

instance : DecidablePred NamePart := fun _ => inferInstanceAs (Decidable (_ ∨ _))

/-- What a string stands between. -/
inductive Quote where
  | double
  | single

def Quote.char : Quote → Char
  | double => '"'
  | single => '\''

theorem Quote.char_ne_slash (q : Quote) : q.char ≠ '\\' := by
  cases q <;> decide

/-! ## Languages -/

/-- The words of one character of a kind. -/
def letter (p : Char → Prop) : Language Char :=
  {w : List Char | ∃ c, p c ∧ w = [c]}

/-- The one word of a spelling. -/
def spelled (s : String) : Language Char :=
  {s.toList}

/-- What may stand between quotes: characters other than the quote and the
    backslash, and a backslash with any character that does not end the line. -/
def Quote.inside (q : Quote) : Language Char :=
  (letter (fun c => c ≠ q.char ∧ c ≠ '\\') + letter (· = '\\') * letter (· ≠ '\n'))∗

inductive Rule where
  | blanks
  | comment
  | keyword (word : Keyword)
  | double
  | int
  | string (q : Quote)
  | name
  | symbol (sign : Symbol)

/-- The texts that a rule matches. -/
def Rule.language : Rule → Language Char
  | blanks => letter Blank * (letter Blank)∗
  | comment => spelled "//" * (letter (· ≠ '\n'))∗
  | keyword k => spelled k.spelling
  | double => letter Digit * (letter Digit)∗ * spelled "." * (letter Digit)∗
  | int => letter Digit * (letter Digit)∗
  | string q => letter (· = q.char) * q.inside * letter (· = q.char)
  | name => letter NameStart * (letter NamePart)∗
  | symbol s => spelled s.spelling

/-- The texts that make no token. -/
def skipped : Language Char :=
  Rule.blanks.language + Rule.comment.language

/-- No prefix of the text that a rule matches has more than `n` characters. -/
def NoLonger (n : Nat) (text : List Char) : Prop :=
  ∀ (r : Rule) (v : List Char), v ∈ r.language → v <+: text → v.length ≤ n

/-! ## Values -/

/-- The number that decimal digits write. -/
def decimal (digits : List Char) : Nat :=
  Nat.ofDigits 10 (digits.reverse.map fun c => c.toNat - '0'.toNat)

/-- The characters that the inside of a string stands for. -/
inductive Escapes : List Char → List Char → Prop where
  | nil : Escapes [] []
  | plain {c : Char} {inside text : List Char} (hc : c ≠ '\\') (h : Escapes inside text) :
    Escapes (c :: inside) (c :: text)
  | lineFeed {inside text : List Char} (h : Escapes inside text) :
    Escapes ('\\' :: 'n' :: inside) ('\n' :: text)
  | tab {inside text : List Char} (h : Escapes inside text) :
    Escapes ('\\' :: 't' :: inside) ('\t' :: text)
  | other {c : Char} {inside text : List Char} (hn : c ≠ 'n') (ht : c ≠ 't')
    (h : Escapes inside text) : Escapes ('\\' :: c :: inside) (c :: text)

/-- The text matches the rule of the token and carries its value. -/
inductive Token.Reads : Token → List Char → Prop where
  | keyword (k : Keyword) : Reads (.keyword k) k.spelling.toList
  | double {whole decimals : List Char} (hwhole : whole ∈ Rule.int.language)
    (hdecimals : decimals ∈ (letter Digit)∗) :
    Reads (.double (Double.ofDecimal (decimal (whole ++ decimals)) (-(decimals.length : Int))))
      (whole ++ '.' :: decimals)
  | int {digits : List Char} {n : Int32} (hdigits : digits ∈ Rule.int.language)
    (hn : n.toInt = decimal digits) : Reads (.int n) digits
  | string (q : Quote) {inside text : List Char} (hinside : inside ∈ q.inside)
    (htext : Escapes inside text) :
    Reads (.string (String.ofList text)) (q.char :: (inside ++ [q.char]))
  | name {word : List Char} (hword : word ∈ Rule.name.language)
    (hreserved : ∀ k : Keyword, k.spelling.toList ≠ word) :
    Reads (.name (String.ofList word)) word
  | symbol (s : Symbol) : Reads (.symbol s) s.spelling.toList

/-! ## Words of the rules -/

section Words

variable {p q : Char → Prop} {l : Language Char} {w : List Char}

theorem mem_letter_mul : w ∈ letter p * l ↔ ∃ c v, w = c :: v ∧ p c ∧ v ∈ l := by
  rw [Language.mem_mul]
  constructor
  · rintro ⟨_, ⟨c, hc, rfl⟩, v, hv, rfl⟩
    exact ⟨c, v, rfl, hc, hv⟩
  · rintro ⟨c, v, rfl, hc, hv⟩
    exact ⟨[c], ⟨c, hc, rfl⟩, v, hv, rfl⟩

theorem mem_letter_star : w ∈ (letter p)∗ ↔ ∀ c ∈ w, p c := by
  constructor
  · rintro ⟨ws, rfl, hws⟩ c hc
    obtain ⟨v, hv, hcv⟩ := List.mem_flatten.1 hc
    obtain ⟨d, hd, rfl⟩ := hws v hv
    rw [List.mem_singleton.1 hcv]
    exact hd
  · intro h
    refine ⟨w.map fun c => [c], ?_, fun v hv => ?_⟩
    · induction w with
      | nil => rfl
      | cons c w ih =>
        rw [List.map_cons, List.flatten_cons, ← ih fun d hd => h d (List.mem_cons_of_mem _ hd)]
        rfl
    · obtain ⟨c, hc, rfl⟩ := List.mem_map.1 hv
      exact ⟨c, h c hc, rfl⟩

/-- A first character of one kind, and any number of another. -/
theorem mem_letter_mul_star :
    w ∈ letter p * (letter q)∗ ↔ ∃ c v, w = c :: v ∧ p c ∧ ∀ d ∈ v, q d := by
  simp only [mem_letter_mul, mem_letter_star]

theorem mem_spelled {s : String} : w ∈ spelled s ↔ w = s.toList := Iff.rfl

theorem mem_comment :
    w ∈ Rule.comment.language ↔ ∃ v, w = '/' :: '/' :: v ∧ ∀ c ∈ v, c ≠ '\n' := by
  rw [Rule.language, Language.mem_mul]
  constructor
  · rintro ⟨_, rfl, v, hv, rfl⟩
    exact ⟨v, rfl, mem_letter_star.1 hv⟩
  · rintro ⟨v, rfl, hv⟩
    exact ⟨_, rfl, v, mem_letter_star.2 hv, rfl⟩

theorem exists_rule_of_skipped (h : w ∈ skipped) : ∃ r : Rule, w ∈ r.language := by
  rcases h with h | h
  · exact ⟨_, h⟩
  · exact ⟨_, h⟩

theorem mem_double : w ∈ Rule.double.language ↔ ∃ whole decimals, w = whole ++ '.' :: decimals ∧
    whole ∈ Rule.int.language ∧ ∀ d ∈ decimals, Digit d := by
  rw [Rule.language, Language.mem_mul]
  constructor
  · rintro ⟨_, ⟨whole, hwhole, _, rfl, rfl⟩, decimals, hdecimals, rfl⟩
    refine ⟨whole, decimals, ?_, hwhole, mem_letter_star.1 hdecimals⟩
    exact List.append_assoc _ _ _
  · rintro ⟨whole, decimals, rfl, hwhole, hdecimals⟩
    refine ⟨_, ⟨whole, hwhole, _, rfl, rfl⟩, decimals, mem_letter_star.2 hdecimals, ?_⟩
    exact List.append_assoc _ _ _

theorem mem_string {q : Quote} : w ∈ (Rule.string q).language ↔
    ∃ inside, w = q.char :: (inside ++ [q.char]) ∧ inside ∈ q.inside := by
  rw [Rule.language, mul_assoc, mem_letter_mul]
  constructor
  · rintro ⟨_, v, rfl, rfl, hv⟩
    obtain ⟨inside, hinside, _, ⟨_, rfl, rfl⟩, rfl⟩ := Language.mem_mul.1 hv
    exact ⟨inside, rfl, hinside⟩
  · rintro ⟨inside, rfl, hinside⟩
    exact ⟨_, _, rfl, rfl, Language.mem_mul.2 ⟨inside, hinside, _, ⟨_, rfl, rfl⟩, rfl⟩⟩

/-- Reserved words are made like names. -/
theorem keyword_mem_name (k : Keyword) : k.spelling.toList ∈ Rule.name.language := by
  refine mem_letter_mul_star.2 ?_
  cases k <;> exact ⟨_, _, rfl, by decide, List.forall_iff_forall_mem.1 (by decide)⟩

/-- What may stand between quotes, piece by piece. -/
inductive Inside (quote : Char) : List Char → Prop where
  | nil : Inside quote []
  | plain {c : Char} {v : List Char} (hquote : c ≠ quote) (hslash : c ≠ '\\')
    (h : Inside quote v) : Inside quote (c :: v)
  | escape {c : Char} {v : List Char} (hc : c ≠ '\n') (h : Inside quote v) :
    Inside quote ('\\' :: c :: v)

theorem mem_inside {q : Quote} : w ∈ q.inside ↔ Inside q.char w := by
  constructor
  · rintro ⟨ws, rfl, hws⟩
    induction ws with
    | nil => exact .nil
    | cons u ws ih =>
      obtain ⟨hu, hrest⟩ := List.forall_mem_cons.1 hws
      rw [List.flatten_cons]
      rcases hu with ⟨c, ⟨hquote, hslash⟩, rfl⟩ | hu
      · exact .plain hquote hslash (ih hrest)
      · obtain ⟨_, _, rfl, rfl, c, hc, rfl⟩ := mem_letter_mul.1 hu
        exact .escape hc (ih hrest)
  · intro h
    induction h with
    | nil => exact Language.nil_mem_kstar _
    | @plain c v hquote hslash _ ih =>
      obtain ⟨ws, rfl, hws⟩ := ih
      exact ⟨[c] :: ws, rfl, List.forall_mem_cons.2 ⟨.inl ⟨c, ⟨hquote, hslash⟩, rfl⟩, hws⟩⟩
    | @escape c v hc _ ih =>
      obtain ⟨ws, rfl, hws⟩ := ih
      have hpiece : ['\\', c] ∈ letter (· = '\\') * letter (· ≠ '\n') :=
        mem_letter_mul.2 ⟨_, _, rfl, rfl, c, hc, rfl⟩
      exact ⟨['\\', c] :: ws, rfl, List.forall_mem_cons.2 ⟨.inr hpiece, hws⟩⟩

end Words

/-! ## First characters -/

/-- The characters that the texts of a rule begin with. -/
def Rule.Begins : Rule → Char → Prop
  | blanks, c => Blank c
  | comment, c => c = '/'
  | keyword _, c | name, c => NameStart c
  | double, c | int, c => Digit c
  | string q, c => c = q.char
  | symbol s, c => s.spelling.toList.head? = some c

theorem begins_of_mem {r : Rule} {w : List Char} (h : w ∈ r.language) :
    ∃ c v, w = c :: v ∧ r.Begins c := by
  cases r with
  | blanks | int | name =>
    obtain ⟨c, v, rfl, hc, -⟩ := mem_letter_mul_star.1 h
    exact ⟨c, v, rfl, hc⟩
  | comment =>
    obtain ⟨v, rfl, -⟩ := mem_comment.1 h
    exact ⟨_, _, rfl, rfl⟩
  | keyword k =>
    cases mem_spelled.1 h
    cases k <;> exact ⟨_, _, rfl, .inl (by decide)⟩
  | double =>
    obtain ⟨_, decimals, rfl, hwhole, -⟩ := mem_double.1 h
    obtain ⟨c, v, rfl, hc, -⟩ := mem_letter_mul_star.1 hwhole
    exact ⟨c, _, rfl, hc⟩
  | string q =>
    obtain ⟨inside, rfl, -⟩ := mem_string.1 h
    exact ⟨_, _, rfl, rfl⟩
  | symbol s =>
    cases mem_spelled.1 h
    cases s <;> exact ⟨_, _, rfl, rfl⟩

/-- A rule that matches a prefix of a text begins with its first character. -/
theorem begins_of_start {r : Rule} {c : Char} {cs v : List Char} (hv : v ∈ r.language)
    (hstart : v <+: c :: cs) : r.Begins c ∧ ∃ v', v = c :: v' ∧ v' <+: cs := by
  obtain ⟨d, v', rfl, hbegins⟩ := begins_of_mem hv
  obtain ⟨rfl, hrest⟩ := List.cons_prefix_cons.1 hstart
  exact ⟨hbegins, v', rfl, hrest⟩

section Kinds

variable {r : Rule} {c : Char}

theorem not_blank_of_digit (h : Digit c) : ¬ Blank c := by
  rintro (rfl | rfl | rfl | rfl | rfl) <;> exact absurd h (by decide)

theorem not_blank_of_nameStart (h : NameStart c) : ¬ Blank c := by
  rintro (rfl | rfl | rfl | rfl | rfl) <;> exact absurd h (by decide)

theorem not_digit_of_nameStart (h : NameStart c) : ¬ Digit c := by
  rintro ⟨-, hnine⟩
  rcases h with ⟨ha, -⟩ | ⟨ha, -⟩ | rfl
  · exact absurd (Char.le_trans ha hnine) (by decide)
  · exact absurd (Char.le_trans ha hnine) (by decide)
  · exact absurd hnine (by decide)

theorem kinds_of_quote (q : Quote) : ¬ Blank q.char ∧ ¬ Digit q.char ∧ ¬ NameStart q.char := by
  cases q <;> decide

/-- A symbol begins like a comment or like nothing else. -/
theorem kinds_of_symbol {s : Symbol} (h : (Rule.symbol s).Begins c) :
    ¬ Blank c ∧ ¬ Digit c ∧ ¬ NameStart c ∧ ∀ q : Quote, c ≠ q.char := by
  have hc : s.spelling.toList.head? = some c := h
  cases s <;> cases hc <;>
    exact ⟨by decide, by decide, by decide, fun q => by cases q <;> decide⟩

theorem rule_of_blank (hc : Blank c) (h : r.Begins c) : r = .blanks := by
  cases r with
  | blanks => rfl
  | comment =>
    cases h
    exact absurd hc (by decide)
  | keyword _ | name => exact absurd hc (not_blank_of_nameStart h)
  | double | int => exact absurd hc (not_blank_of_digit h)
  | string q =>
    cases h
    exact absurd hc (kinds_of_quote q).1
  | symbol s => exact absurd hc (kinds_of_symbol h).1

theorem rule_of_digit (hc : Digit c) (h : r.Begins c) : r = .int ∨ r = .double := by
  cases r with
  | int => exact .inl rfl
  | double => exact .inr rfl
  | blanks => exact absurd h (not_blank_of_digit hc)
  | comment =>
    cases h
    exact absurd hc (by decide)
  | keyword _ | name => exact absurd hc (not_digit_of_nameStart h)
  | string q =>
    cases h
    exact absurd hc (kinds_of_quote q).2.1
  | symbol s => exact absurd hc (kinds_of_symbol h).2.1

theorem rule_of_nameStart (hc : NameStart c) (h : r.Begins c) :
    r = .name ∨ ∃ k, r = .keyword k := by
  cases r with
  | name => exact .inl rfl
  | keyword k => exact .inr ⟨k, rfl⟩
  | blanks => exact absurd h (not_blank_of_nameStart hc)
  | comment =>
    cases h
    exact absurd hc (by decide)
  | double | int => exact absurd h (not_digit_of_nameStart hc)
  | string q =>
    cases h
    exact absurd hc (kinds_of_quote q).2.2
  | symbol s => exact absurd hc (kinds_of_symbol h).2.2.1

theorem rule_of_quote {q : Quote} (h : r.Begins q.char) : r = .string q := by
  cases r with
  | string q' => cases q <;> cases q' <;> first | rfl | cases h
  | blanks => exact absurd h (kinds_of_quote q).1
  | comment => cases q <;> cases h
  | keyword _ | name => exact absurd h (kinds_of_quote q).2.2
  | double | int => exact absurd h (kinds_of_quote q).2.1
  | symbol s => exact absurd rfl ((kinds_of_symbol h).2.2.2 q)

theorem rule_of_sign (hblank : ¬ Blank c) (hdigit : ¬ Digit c) (hname : ¬ NameStart c)
    (hquote : ∀ q : Quote, c ≠ q.char) (h : r.Begins c) :
    r = .comment ∨ ∃ s, r = .symbol s := by
  cases r with
  | comment => exact .inl rfl
  | symbol s => exact .inr ⟨s, rfl⟩
  | blanks => exact absurd h hblank
  | double | int => exact absurd h hdigit
  | keyword _ | name => exact absurd h hname
  | string q => exact absurd h (hquote q)

end Kinds

end ScopeScript
