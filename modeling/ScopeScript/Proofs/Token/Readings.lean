/-
  ScopeScript.Proofs.Token.Readings

  A text reads as one token at most. Its first character tells the family of the
  rules that may match it, and within a family one rule is left, except that a
  reserved word is made like a name and that what no point follows is no double.
-/
import ScopeScript.Proofs.Token.Rules

namespace ScopeScript

open Computability

/-! ## Families -/

/-- Rules whose texts begin alike. -/
inductive Family where
  | blanks | word | number | string | sign

def Rule.family : Rule → Family
  | blanks => .blanks
  | keyword _ | name => .word
  | double | int => .number
  | string _ => .string
  | comment | symbol _ => .sign

def Token.family : Token → Family
  | keyword _ | name _ => .word
  | double _ | int _ => .number
  | string _ => .string
  | symbol _ => .sign

/-- The first character tells the family. -/
theorem Rule.family_eq {r r' : Rule} {c : Char} (h : r.Begins c) (h' : r'.Begins c) :
    r.family = r'.family := by
  cases r with
  | blanks => rw [rule_of_blank h h']
  | keyword _ | name => rcases rule_of_nameStart h h' with rfl | ⟨_, rfl⟩ <;> rfl
  | double | int => rcases rule_of_digit h h' with rfl | rfl <;> rfl
  | string q =>
    cases h
    rw [rule_of_quote h']
  | comment =>
    cases h
    rcases rule_of_sign (by decide) (by decide) (by decide) (fun q => by cases q <;> decide) h' with
      rfl | ⟨_, rfl⟩ <;> rfl
  | symbol s =>
    obtain ⟨hblank, hdigit, hname, hquote⟩ := kinds_of_symbol h
    rcases rule_of_sign hblank hdigit hname hquote h' with rfl | ⟨_, rfl⟩ <;> rfl

theorem Rule.family_eq_of_mem {r r' : Rule} {w : List Char} (h : w ∈ r.language)
    (h' : w ∈ r'.language) : r.family = r'.family := by
  obtain ⟨c, v, rfl, hc⟩ := begins_of_mem h
  obtain ⟨_, _, heq, hc'⟩ := begins_of_mem h'
  cases heq
  exact family_eq hc hc'

/-! ## Readings -/

theorem digit_of_mem_int {digits : List Char} (h : digits ∈ Rule.int.language) :
    ∀ d ∈ digits, Digit d := by
  obtain ⟨c, v, rfl, hc, hall⟩ := mem_letter_mul_star.1 h
  exact List.forall_mem_cons.2 ⟨hc, hall⟩

theorem point_not_mem {digits : List Char} (h : ∀ d ∈ digits, Digit d) : '.' ∉ digits :=
  fun hpoint => absurd (h _ hpoint) (by decide)

/-- A text with a point in it is no integer. -/
theorem point_not_mem_int {whole decimals : List Char} :
    whole ++ '.' :: decimals ∉ Rule.int.language := fun h =>
  point_not_mem (digit_of_mem_int h) (List.mem_append_right _ List.mem_cons_self)

theorem Keyword.spelling_injective : Function.Injective Keyword.spelling := fun k k' h =>
  List.inj_on_of_nodup_map (l := Keyword.all) (by decide) k.mem_all k'.mem_all h

theorem Symbol.spelling_injective : Function.Injective Symbol.spelling := fun s s' h =>
  List.inj_on_of_nodup_map (l := Symbol.longestFirst) (by decide) s.mem_longestFirst
    s'.mem_longestFirst h

/-- No symbol is spelled with two slashes in front. -/
theorem Symbol.spelling_ne_comment (s : Symbol) (v : List Char) :
    s.spelling.toList ≠ '/' :: '/' :: v := by
  intro h
  have hslashes : s.spelling.toList.take 2 = ['/', '/'] := h ▸ rfl
  cases s <;> exact absurd hslashes (by decide)

theorem Escapes.unique {v a b : List Char} (h : Escapes v a) (h' : Escapes v b) : a = b := by
  induction h generalizing b with
  | nil =>
    cases h'
    rfl
  | plain hc _ ih =>
    cases h' with
    | plain _ h' => rw [ih h']
    | _ => exact absurd rfl hc
  | lineFeed _ ih =>
    cases h' with
    | lineFeed h' => rw [ih h']
    | plain hc => exact absurd rfl hc
    | other hn => exact absurd rfl hn
  | tab _ ih =>
    cases h' with
    | tab h' => rw [ih h']
    | plain hc => exact absurd rfl hc
    | other _ ht => exact absurd rfl ht
  | other hn ht _ ih =>
    cases h' with
    | other _ _ h' => rw [ih h']
    | plain hc => exact absurd rfl hc
    | lineFeed => exact absurd rfl hn
    | tab => exact absurd rfl ht

namespace Token.Reads

variable {t t' : Token} {w : List Char}

theorem exists_rule (h : t.Reads w) : ∃ r : Rule, w ∈ r.language ∧ r.family = t.family := by
  cases h with
  | keyword k => exact ⟨.keyword k, rfl, rfl⟩
  | double hwhole hdecimals =>
    exact ⟨.double, mem_double.2 ⟨_, _, rfl, hwhole, mem_letter_star.1 hdecimals⟩, rfl⟩
  | int hdigits => exact ⟨.int, hdigits, rfl⟩
  | string q hinside => exact ⟨.string q, mem_string.2 ⟨_, rfl, hinside⟩, rfl⟩
  | name hword => exact ⟨.name, hword, rfl⟩
  | symbol s => exact ⟨.symbol s, rfl, rfl⟩

theorem family_eq {r : Rule} (h : t.Reads w) (hw : w ∈ r.language) : t.family = r.family := by
  obtain ⟨r', hw', hfamily⟩ := h.exists_rule
  exact hfamily.symm.trans (Rule.family_eq_of_mem hw' hw)

/-! ## Texts that are not read -/

theorem not_skipped (h : t.Reads w) : w ∉ skipped := by
  rintro (hw | hw)
  · have hfamily := h.family_eq hw
    cases t <;> cases hfamily
  · have hfamily := h.family_eq hw
    obtain ⟨v, rfl, -⟩ := mem_comment.1 hw
    cases t with
    | symbol s =>
      generalize hspelling : '/' :: '/' :: v = w at h
      cases h
      exact s.spelling_ne_comment v hspelling.symm
    | _ => cases hfamily

/-- An integer that is read is not above the largest one. -/
theorem decimal_le (h : t.Reads w) (hw : w ∈ Rule.int.language) : decimal w ≤ 2147483647 := by
  have hfamily := h.family_eq hw
  cases h with
  | @int digits n hdigits hn =>
    have hlt := n.toInt_lt
    omega
  | double => exact absurd hw point_not_mem_int
  | _ => cases hfamily

/-! ## One token -/

/-- A text reads as one token at most. -/
theorem unique (h : t.Reads w) (h' : t'.Reads w) : t = t' := by
  obtain ⟨r, hw, hr⟩ := h'.exists_rule
  have hfamily := (h.family_eq hw).trans hr
  clear hw hr
  generalize heq : w = w' at h'
  cases h with
  | keyword k =>
    cases h' with
    | keyword k' => rw [Keyword.spelling_injective (String.toList_injective heq)]
    | name _ hreserved => exact absurd heq (hreserved k)
    | _ => cases hfamily
  | name _ hreserved =>
    cases h' with
    | keyword k => exact absurd heq.symm (hreserved k)
    | name => rw [heq]
    | _ => cases hfamily
  | @int digits n hdigits hn =>
    cases h' with
    | @int _ n' _ hn' =>
      subst heq
      rw [Int32.toInt_inj.1 (hn.trans hn'.symm)]
    | double =>
      subst heq
      exact absurd hdigits point_not_mem_int
    | _ => cases hfamily
  | double hwhole hdecimals =>
    cases h' with
    | double =>
      -- There is one point, so both split the text there.
      obtain ⟨rfl, -, rfl⟩ := (List.append_cons_inj_of_notMem
        (point_not_mem (digit_of_mem_int hwhole))
        (point_not_mem (mem_letter_star.1 hdecimals))).1 heq
      rfl
    | int hdigits =>
      subst heq
      exact absurd hdigits point_not_mem_int
    | _ => cases hfamily
  | @string q inside text hinside htext =>
    cases h' with
    | @string q' inside' text' hinside' htext' =>
      obtain ⟨hquote, hrest⟩ := List.cons.inj heq
      rw [hquote] at hrest
      cases List.append_cancel_right hrest
      rw [htext.unique htext']
    | _ => cases hfamily
  | symbol s =>
    cases h' with
    | symbol s' => rw [Symbol.spelling_injective (String.toList_injective heq)]
    | _ => cases hfamily

end Token.Reads

end ScopeScript
