/-
  ScopeScript.Proofs.Token.ReadBack

  What is written as tokens is read as them. A token can be written in its canonical
  spelling: an integer with zeros in front, a string between either quotes, with a
  backslash before each backslash and each such quote. Tokens are written one after
  another with a separator between them, which begins with white space, or with none
  where nothing could be read over the seam. The text is scanned as just these tokens,
  at the bytes of their spellings.
-/
import ScopeScript.Proofs.Token.Concatenation

namespace ScopeScript

open Computability

/-! ## Spellings -/

/-- A string as it is written between quotes: a backslash stands before every backslash
    and every such quote, and all other characters are raw. -/
def Quote.escape (q : Quote) : List Char → List Char
  | [] => []
  | c :: text => if c = '\\' ∨ c = q.char then '\\' :: c :: q.escape text else c :: q.escape text

/-- How tokens are written. -/
inductive Token.Written : Token → List Char → Prop where
  | keyword (k : Keyword) : Written (.keyword k) k.spelling.toList
  | double {whole decimals : List Char} (hwhole : whole ∈ Rule.int.language)
    (hdecimals : ∀ d ∈ decimals, Digit d) :
    Written (.double (Double.ofDecimal (decimal (whole ++ decimals)) (-(decimals.length : Int))))
      (whole ++ '.' :: decimals)
  | int {n : Int32} (hn : 0 ≤ n.toInt) (zeros : Nat) :
    Written (.int n) (List.replicate zeros '0' ++ Decimal.digitsOf n.toInt.toNat)
  | string (q : Quote) (text : List Char) :
    Written (.string (String.ofList text)) (q.char :: (q.escape text ++ [q.char]))
  | name {word : List Char} (hword : word ∈ Rule.name.language)
    (hreserved : ∀ k : Keyword, k.spelling.toList ≠ word) :
    Written (.name (String.ofList word)) word
  | symbol (s : Symbol) : Written (.symbol s) s.spelling.toList

theorem escape_mem_inside (q : Quote) (text : List Char) : q.escape text ∈ q.inside := by
  refine mem_inside.2 ?_
  induction text with
  | nil => exact .nil
  | cons c text ih =>
    rw [Quote.escape]
    split
    · next hc =>
      refine .escape ?_ ih
      rintro rfl
      cases q <;> exact absurd hc (by decide)
    · next hc => exact .plain (fun h => hc (.inr h)) (fun h => hc (.inl h)) ih

/-- What is escaped stands for itself. -/
theorem escapes_escape (q : Quote) (text : List Char) : Escapes (q.escape text) text := by
  induction text with
  | nil => exact .nil
  | cons c text ih =>
    rw [Quote.escape]
    split
    · next hc =>
      have hletters : c ≠ 'n' ∧ c ≠ 't' := by
        constructor <;>
        · rintro rfl
          cases q <;> exact absurd hc (by decide)
      exact .other hletters.1 hletters.2 ih
    · next hc => exact .plain (fun h => hc (.inl h)) ih

/-! ### Integers -/

theorem digitsOf_mem_int (n : Nat) : Decimal.digitsOf n ∈ Rule.int.language := by
  obtain ⟨c, ds, hdigits, hc, hds⟩ := Scan.digitsOf_eq_cons n
  rw [hdigits]
  exact mem_letter_mul_star.2 ⟨c, ds, rfl, Scan.isDigit_iff.1 hc, fun d hd =>
    Scan.isDigit_iff.1 (hds d hd)⟩

/-- Zeros in front of digits are digits. -/
theorem zeros_mem_int {digits : List Char} (h : digits ∈ Rule.int.language) (zeros : Nat) :
    List.replicate zeros '0' ++ digits ∈ Rule.int.language := by
  induction zeros with
  | zero => exact h
  | succ zeros ih =>
    rw [List.replicate_succ, List.cons_append]
    exact mem_letter_mul_star.2 ⟨'0', _, rfl, by decide, digit_of_mem_int ih⟩

/-- They do not count. -/
theorem decimal_zeros (zeros n : Nat) :
    decimal (List.replicate zeros '0' ++ Decimal.digitsOf n) = n := by
  rw [← Scan.digitsValue_eq_decimal]
  induction zeros with
  | zero => exact Nat.ofDigitChars_ten_toDigits
  | succ zeros ih => exact ih

/-! ### Readings -/

/-- What is written is a text of the token. -/
theorem Token.Written.reads {t : Token} {word : List Char} (h : t.Written word) :
    t.Reads word := by
  cases h with
  | keyword k => exact .keyword k
  | double hwhole hdecimals => exact .double hwhole (mem_letter_star.2 hdecimals)
  | int hn zeros =>
    refine .int (zeros_mem_int (digitsOf_mem_int _) zeros) ?_
    rw [decimal_zeros, Int.toNat_of_nonneg hn]
  | string q text => exact .string q (escape_mem_inside q text) (escapes_escape q text)
  | name hword hreserved => exact .name hword hreserved
  | symbol s => exact .symbol s

/-- Every token of a text can be written. -/
theorem Token.Reads.exists_written {t : Token} {word : List Char} (h : t.Reads word) :
    ∃ spelling, t.Written spelling := by
  cases h with
  | keyword k => exact ⟨_, .keyword k⟩
  | double hwhole hdecimals => exact ⟨_, .double hwhole (mem_letter_star.1 hdecimals)⟩
  | int _ hn => exact ⟨_, .int (hn ▸ Int.natCast_nonneg _) 0⟩
  | string q _ _ => exact ⟨_, .string q _⟩
  | name hword hreserved => exact ⟨_, .name hword hreserved⟩
  | symbol s => exact ⟨_, .symbol s⟩

/-! ## Separators -/

/-- White space, and comments with the line feeds that end them. -/
inductive Filler : List Char → Prop where
  | nil : Filler []
  | blank {c : Char} {filler : List Char} (hc : Blank c) (h : Filler filler) :
    Filler (c :: filler)
  | comment {line filler : List Char} (hline : ∀ c ∈ line, c ≠ '\n') (h : Filler filler) :
    Filler ('/' :: '/' :: (line ++ '\n' :: filler))

/-- What can stand between any two tokens: a filler that begins with white space. -/
inductive Separator : List Char → Prop where
  | blank {c : Char} {filler : List Char} (hc : Blank c) (h : Filler filler) :
    Separator (c :: filler)

theorem Filler.gap {filler : List Char} (h : Filler filler) (rest : List Char) :
    Gap rest filler := by
  induction h with
  | nil => exact .nil
  | blank hc _ ih => exact ih.blank hc
  | @comment line filler hline _ ih =>
    have hw : '/' :: '/' :: line ∈ Rule.comment.language := mem_comment.2 ⟨line, rfl, hline⟩
    refine .comment hw (fun c hc => ?_) (ih.blank (by decide : Blank '\n'))
    cases hc
    rfl

theorem Separator.gap {sep : List Char} (h : Separator sep) (rest : List Char) :
    Gap rest sep := by
  cases h with
  | blank hc h => exact (h.gap rest).blank hc

/-! ## Seams -/

/-- No token and no comment that begins where the word does goes on in the text behind
    it. -/
def Seam (word text : List Char) : Prop :=
  ∀ (r : Rule) (v : List Char), r ≠ .blanks → v ∈ r.language → v <+: word ++ text →
    v.length ≤ word.length

section Seams

variable {t : Token} {word text : List Char}

theorem Token.Reads.noLonger (ht : t.Reads word) (h : Seam word text) :
    NoLonger word.length (word ++ text) := by
  intro r v hv hstart
  refine h r v ?_ hv hstart
  rintro rfl
  obtain ⟨r', hword, hfamily⟩ := ht.exists_rule
  obtain ⟨c, w, rfl, hc⟩ := begins_of_mem hword
  have hsame := (Rule.family_eq (begins_of_start hv hstart).1 hc).trans hfamily
  cases t <;> cases hsame

/-- A comment does not begin with a token that white space follows. -/
theorem Token.Reads.not_comment {c : Char} {v : List Char} (ht : t.Reads word) (hc : Blank c)
    (hv : v ∈ Rule.comment.language) (hstart : v <+: word ++ c :: text) : False := by
  obtain ⟨line, rfl, -⟩ := mem_comment.1 hv
  obtain ⟨r, hword, -⟩ := ht.exists_rule
  obtain ⟨d, w, rfl, hd⟩ := begins_of_mem hword
  obtain ⟨-, _, heq, hrest⟩ := begins_of_start hv hstart
  cases heq
  rcases rule_of_sign (by decide) (by decide) (by decide) (fun q => by cases q <;> decide) hd with
    rfl | ⟨s, rfl⟩
  · exact ht.not_skipped (.inr hword)
  · -- The second slash would be white space, or in the spelling of the symbol.
    have hspelling := mem_spelled.1 hword
    cases w with
    | nil =>
      obtain ⟨rfl, -⟩ := List.cons_prefix_cons.1 hrest
      exact absurd hc (by decide)
    | cons e w =>
      obtain ⟨rfl, -⟩ := List.cons_prefix_cons.1 hrest
      exact s.spelling_ne_comment w hspelling.symm

/-- White space ends every token. -/
theorem Token.Reads.noLonger_blank {c : Char} (ht : t.Reads word) (hc : Blank c)
    (text : List Char) : NoLonger word.length (word ++ c :: text) := by
  have hend : NoLonger word.length (word ++ []) := by
    rw [List.append_nil]
    exact noLonger_self word
  exact ht.noLonger_over hc hend fun v hv hstart => (ht.not_comment hc hv hstart).elim

/-- Where a scan takes a token, nothing goes on behind it. -/
theorem seam_of_munch {c : Char} {cs : List Char} (hsource : word ++ text = c :: cs)
    (hpiece : (Scan.munch c cs).piece = .token t) (htext : (Scan.munch c cs).text = word) :
    Seam word text := by
  have hbest := Scan.munch_best c cs
  rw [hpiece, htext] at hbest
  cases hbest with
  | token _ h =>
    intro r v _ hv hstart
    rw [hsource] at hstart
    exact h r v hv hstart

end Seams

/-! ## Tokens one after another -/

/-- Tokens are written from byte `start` on, each at the bytes of its spelling: with a
    separator behind a token, or with none where nothing goes over the seam. -/
inductive Joined : Nat → List Lexeme → List Char → Prop where
  | nil {start : Nat} : Joined start [] []
  | last {start : Nat} {t : Token} {word : List Char} (ht : t.Written word) :
    Joined start [⟨t, ⟨start, start + Text.byteLength word⟩⟩] word
  | separated {start : Nat} {t : Token} {word sep text : List Char} {ts : List Lexeme}
    (ht : t.Written word) (hsep : Separator sep)
    (h : Joined (start + Text.byteLength word + Text.byteLength sep) ts text) :
    Joined start (⟨t, ⟨start, start + Text.byteLength word⟩⟩ :: ts) (word ++ (sep ++ text))
  | adjacent {start : Nat} {t : Token} {word text : List Char} {ts : List Lexeme}
    (ht : t.Written word) (hseam : Seam word text)
    (h : Joined (start + Text.byteLength word) ts text) :
    Joined start (⟨t, ⟨start, start + Text.byteLength word⟩⟩ :: ts) (word ++ text)

/-- What is written lexes to its end. -/
theorem Joined.lexes {start : Nat} {ts : List Lexeme} {text : List Char}
    (h : Joined start ts text) : ∃ stop, Lexes start text ts stop [] := by
  induction h with
  | nil => exact ⟨_, .gap .nil⟩
  | last ht => exact ⟨_, .of_word ht.reads _⟩
  | separated ht hsep _ ih =>
    -- The separator is a gap in front of the tokens behind it.
    obtain ⟨stop, h⟩ := ih
    refine ⟨stop, .token .nil rfl ht.reads ?_ (h.prepend (hsep.gap _))⟩
    cases hsep with
    | blank hc _ => exact ht.reads.noLonger_blank hc _
  | adjacent ht hseam _ ih =>
    obtain ⟨stop, h⟩ := ih
    exact ⟨stop, .token .nil rfl ht.reads (ht.reads.noLonger hseam) h⟩

/-- Tokens can be written one after another if each of them can. -/
theorem exists_joined {ts : List Token} (h : ∀ t ∈ ts, ∃ word, t.Written word) (start : Nat) :
    ∃ lexemes text, Joined start lexemes text ∧ lexemes.map (·.token) = ts := by
  induction ts generalizing start with
  | nil => exact ⟨[], [], .nil, rfl⟩
  | cons t ts ih =>
    obtain ⟨⟨word, hword⟩, hts⟩ := List.forall_mem_cons.1 h
    obtain ⟨lexemes, text, hjoined, hmap⟩ :=
      ih hts (start + Text.byteLength word + Text.byteLength [' '])
    refine ⟨_, _, .separated hword (.blank (by decide) .nil) hjoined, ?_⟩
    rw [List.map_cons, hmap]

/-- What is written as tokens is read as them, each at the bytes of its spelling; and
    every list of tokens that some texts read as can be written. -/
theorem tokenize_reads_back :
    (∀ ts text, Joined 0 ts text → tokenize (String.ofList text) = .ok ts) ∧
    ∀ ts : List Token, (∀ t ∈ ts, ∃ word, t.Reads word) →
      ∃ lexemes text, Joined 0 lexemes text ∧ lexemes.map (·.token) = ts := by
  refine ⟨fun ts text h => ?_, fun ts h => exists_joined (fun t ht => ?_) 0⟩
  · obtain ⟨stop, hlexes⟩ := h.lexes
    exact hlexes.tokenize_eq
  · obtain ⟨word, hword⟩ := h t ht
    exact hword.exists_written

/-- `007 //;` and on the next line `"\"n"*x`. -/
theorem tokenize_reads_back_string :
    let ts : List Lexeme := [⟨.int 7, ⟨0, 3⟩⟩, ⟨.string "\"n", ⟨8, 13⟩⟩, ⟨.symbol .star, ⟨13, 14⟩⟩,
      ⟨.name "x", ⟨14, 15⟩⟩]
    Joined 0 ts "007 //;\n\"\\\"n\"*x".toList ∧ tokenize "007 //;\n\"\\\"n\"*x" = .ok ts := by
  intro ts
  have hname : Token.Written (.name "x") ['x'] := by
    refine .name (mem_letter_mul_star.2 ⟨'x', [], rfl, by decide, List.forall_mem_nil _⟩) ?_
    exact fun k => by cases k <;> decide
  have hstar : Joined 13 [⟨.symbol .star, ⟨13, 14⟩⟩, ⟨.name "x", ⟨14, 15⟩⟩] ['*', 'x'] :=
    .adjacent (.symbol .star) (seam_of_munch rfl rfl rfl) (.last hname)
  have hstring := Token.Written.string .double ['"', 'n']
  have hseam : Seam ['"', '\\', '"', 'n', '"'] ['*', 'x'] := seam_of_munch rfl rfl rfl
  have hsep : Separator [' ', '/', '/', ';', '\n'] :=
    .blank (by decide) (.comment (List.forall_mem_singleton.2 (by decide : ';' ≠ '\n')) .nil)
  have hint := Token.Written.int (n := 7) (by decide) 2
  have hjoined := Joined.separated hint hsep (.adjacent hstring hseam hstar)
  exact ⟨hjoined, tokenize_reads_back.1 _ _ hjoined⟩

end ScopeScript
