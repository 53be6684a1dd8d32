/-
  ScopeScript.Proofs.Text.ByteOrder

  Strings by their bytes. In UTF-8 the greater of two characters is encoded by
  the greater bytes: longer encodings begin with greater bytes, and encodings of
  one length are the digits of the character. So the order of strings by their
  characters is that of their bytes.
-/
import Mathlib.Tactic.SplitIfs

namespace ScopeScript

/-- The bytes of a string, in UTF-8. -/
def utf8 (s : String) : List UInt8 :=
  s.toByteArray.data.toList

theorem utf8_eq_flatMap (s : String) : utf8 s = s.toList.flatMap String.utf8EncodeChar := by
  rw [utf8, ← String.utf8Encode_toList]
  exact List.toList_data_toByteArray

/-! ## Lists of bytes -/

/-- A difference between lists of one length decides, whatever follows. -/
theorem lt_append_of_lt {as bs : List UInt8} (h : as < bs) (hlength : as.length = bs.length)
    (xs ys : List UInt8) : as ++ xs < bs ++ ys := by
  induction as generalizing bs with
  | nil =>
    obtain rfl := List.length_eq_zero_iff.1 hlength.symm
    exact absurd h (List.lt_irrefl _)
  | cons a as ih =>
    cases bs with
    | nil => cases hlength
    | cons b bs =>
      rw [List.cons_append, List.cons_append, List.cons_lt_cons_iff]
      rcases List.cons_lt_cons_iff.1 h with hhead | ⟨rfl, htail⟩
      · exact .inl hhead
      · exact .inr ⟨rfl, ih htail (Nat.succ.inj hlength)⟩

/-- Bytes by the numbers they are made of, with bounds in digits, which is what
    `omega` finds below. -/
theorem ofNat_lt_ofNat {m n : Nat} (hm : m < 256) (hn : n < 256) :
    UInt8.ofNat m < UInt8.ofNat n ↔ m < n :=
  UInt8.ofNat_lt_iff_lt hm hn

theorem ofNat_eq_ofNat {m n : Nat} (hm : m < 256) (hn : n < 256) :
    UInt8.ofNat m = UInt8.ofNat n ↔ m = n := by
  rw [← UInt8.toNat_inj, UInt8.toNat_ofNat', UInt8.toNat_ofNat', Nat.mod_eq_of_lt hm,
    Nat.mod_eq_of_lt hn]

/-! ## Characters -/

theorem digit_lt {m n : Nat} (h : m < n) :
    m / 64 < n / 64 ∨ m / 64 = n / 64 ∧ m % 64 < n % 64 := by
  omega

/-- Of two numbers the first digit in which they differ decides, to the base 64. -/
theorem digits_lt {m n : Nat} (h : m < n) :
    m / 262144 < n / 262144 ∨ m / 262144 = n / 262144 ∧
      (m / 4096 % 64 < n / 4096 % 64 ∨ m / 4096 % 64 = n / 4096 % 64 ∧
        (m / 64 % 64 < n / 64 % 64 ∨ m / 64 % 64 = n / 64 % 64 ∧ m % 64 < n % 64)) := by
  have hdiv (k : Nat) : k / 4096 = k / 64 / 64 ∧ k / 262144 = k / 64 / 64 / 64 := by
    rw [Nat.div_div_eq_div_mul, Nat.div_div_eq_div_mul]
    exact ⟨rfl, rfl⟩
  rw [(hdiv m).1, (hdiv n).1, (hdiv m).2, (hdiv n).2]
  rcases digit_lt h with h | ⟨heq, h⟩
  · rcases digit_lt h with h | ⟨heq, h⟩
    · rcases digit_lt h with h | ⟨heq, h⟩
      · exact .inl h
      · exact .inr ⟨heq, .inl h⟩
    · rw [heq]
      exact .inr ⟨rfl, .inr ⟨rfl, .inl h⟩⟩
  · rw [heq]
    exact .inr ⟨rfl, .inr ⟨rfl, .inr ⟨rfl, h⟩⟩⟩

/-- The greater character has the greater encoding, even as the beginning of a
    string. -/
theorem utf8EncodeChar_append_lt {c d : Char} (h : c < d) (xs ys : List UInt8) :
    String.utf8EncodeChar c ++ xs < String.utf8EncodeChar d ++ ys := by
  have hlt : c.val.toNat < d.val.toNat := h
  have hd : d.val.toNat < 1114112 := by
    have hvalid := d.valid
    rcases hvalid with hvalid | ⟨-, hvalid⟩
    · exact Nat.lt_trans hvalid (by decide)
    · exact hvalid
  have hdigits := digits_lt hlt
  have htop {k : Nat} (hk : k < 1114112) : k / 262144 % 8 = k / 262144 := by omega
  simp only [String.utf8EncodeChar]
  -- One case for each pair of lengths; the character with more bytes is greater.
  split_ifs
  all_goals first
    | omega
    | (simp only [List.cons_append, List.cons_lt_cons_iff]
       refine .inl ?_
       simp (disch := omega) only [ofNat_lt_ofNat]
       omega)
    | (refine lt_append_of_lt ?_ (by rfl) xs ys
       simp only [List.cons_lt_cons_iff]
       simp (disch := omega) only [ofNat_lt_ofNat, ofNat_eq_ofNat, htop]
       omega)

/-! ## Strings -/

theorem flatMap_utf8EncodeChar_lt {cs ds : List Char} (h : cs < ds) :
    cs.flatMap String.utf8EncodeChar < ds.flatMap String.utf8EncodeChar := by
  induction h with
  | @nil d ds =>
    rw [List.flatMap_nil, List.flatMap_cons]
    cases hd : String.utf8EncodeChar d with
    | nil => exact absurd hd String.utf8EncodeChar_ne_nil
    | cons b bs => exact .nil
  | rel h =>
    rw [List.flatMap_cons, List.flatMap_cons]
    exact utf8EncodeChar_append_lt h _ _
  | cons _ ih =>
    rw [List.flatMap_cons, List.flatMap_cons]
    exact List.append_left_lt ih

/-- Strings are ordered by their characters as they are by their bytes. -/
theorem lt_iff_utf8_lt {s t : String} : s < t ↔ utf8 s < utf8 t := by
  have hmono {s t : String} (h : s < t) : utf8 s < utf8 t := by
    rw [utf8_eq_flatMap, utf8_eq_flatMap]
    exact flatMap_utf8EncodeChar_lt (h)
  constructor
  · exact hmono
  · intro h
    by_cases hst : s < t
    · exact hst
    by_cases hts : t < s
    · exact absurd (hmono hts) (List.lt_asymm h)
    · obtain rfl := String.le_antisymm (String.not_lt.1 hts) (String.not_lt.1 hst)
      exact absurd h (List.lt_irrefl _)

end ScopeScript
