/-
  ScopeScript.Expr.Equality

  Equality of syntax trees is decidable: two trees are equal when they have the
  same form, spans and values and equal parts. Main statement: `same_iff`.
-/
import ScopeScript.Expr

namespace ScopeScript
namespace Expr

mutual

/-- Whether two trees are equal, spans included. -/
def same : Expr → Expr → Bool
  | .int s a, .int t b => s = t && a = b
  | .double s a, .double t b => s = t && a = b
  | .string s a, .string t b => s = t && a = b
  | .read s a, .read t b => s = t && sameAll a b
  | .assign s a v x, .assign t b w y => s = t && sameAll a b && same v w && x = y
  | .binary s o a b, .binary t p c d => s = t && o = p && same a c && same b d
  | .list s a, .list t b => s = t && sameAll a b
  | .object s a, .object t b => s = t && sameEntries a b
  | .call s a x, .call t b y => s = t && sameAll a b && sameAll x y
  | _, _ => false

def sameAll : List Expr → List Expr → Bool
  | [], [] => true
  | a :: as, b :: bs => same a b && sameAll as bs
  | _, _ => false

def sameEntries : List (Expr × Expr) → List (Expr × Expr) → Bool
  | [], [] => true
  | (a, v) :: as, (b, w) :: bs => same a b && same v w && sameEntries as bs
  | _, _ => false

end

mutual

theorem same_self : ∀ a : Expr, same a a = true
  | .int .. | .double .. | .string .. => by simp [same]
  | .read _ a => by simp [same, sameAll_self a]
  | .assign _ a v _ => by simp [same, sameAll_self a, same_self v]
  | .binary _ _ a b => by simp [same, same_self a, same_self b]
  | .list _ a => by simp [same, sameAll_self a]
  | .object _ a => by simp [same, sameEntries_self a]
  | .call _ a x => by simp [same, sameAll_self a, sameAll_self x]

theorem sameAll_self : ∀ as : List Expr, sameAll as as = true
  | [] => rfl
  | a :: as => by simp [sameAll, same_self a, sameAll_self as]

theorem sameEntries_self : ∀ as : List (Expr × Expr), sameEntries as as = true
  | [] => rfl
  | (a, v) :: as => by simp [sameEntries, same_self a, same_self v, sameEntries_self as]

end

mutual

theorem eq_of_same : ∀ a b : Expr, same a b = true → a = b
  | .int .., b, h | .double .., b, h | .string .., b, h => by
    cases b <;> simp_all [same]
  | .read _ a, b, h => by
    cases b <;> simp [same] at h
    rw [h.1, eq_of_sameAll a _ h.2]
  | .assign _ a v _, b, h => by
    cases b <;> simp [same] at h
    rw [h.1.1.1, eq_of_sameAll a _ h.1.1.2, eq_of_same v _ h.1.2, h.2]
  | .binary _ _ l r, b, h => by
    cases b <;> simp [same] at h
    rw [h.1.1.1, h.1.1.2, eq_of_same l _ h.1.2, eq_of_same r _ h.2]
  | .list _ a, b, h => by
    cases b <;> simp [same] at h
    rw [h.1, eq_of_sameAll a _ h.2]
  | .object _ a, b, h => by
    cases b <;> simp [same] at h
    rw [h.1, eq_of_sameEntries a _ h.2]
  | .call _ a x, b, h => by
    cases b <;> simp [same] at h
    rw [h.1.1, eq_of_sameAll a _ h.1.2, eq_of_sameAll x _ h.2]

theorem eq_of_sameAll : ∀ as bs : List Expr, sameAll as bs = true → as = bs
  | [], bs, h => by cases bs <;> simp_all [sameAll]
  | a :: as, bs, h => by
    cases bs <;> simp [sameAll] at h
    rw [eq_of_same a _ h.1, eq_of_sameAll as _ h.2]

theorem eq_of_sameEntries : ∀ as bs : List (Expr × Expr), sameEntries as bs = true → as = bs
  | [], bs, h => by cases bs <;> simp_all [sameEntries]
  | (a, v) :: as, bs, h => by
    cases bs <;> simp [sameEntries] at h
    rw [eq_of_same a _ h.1.1, eq_of_same v _ h.1.2, eq_of_sameEntries as _ h.2]

end

theorem same_iff {a b : Expr} : same a b = true ↔ a = b :=
  ⟨eq_of_same a b, fun h => h ▸ same_self a⟩

instance : DecidableEq Expr := fun _ _ => decidable_of_iff _ same_iff

end Expr

instance : DecidableEq Program := fun a b =>
  decidable_of_iff (a.statements = b.statements) (by cases a; cases b; simp)

end ScopeScript
