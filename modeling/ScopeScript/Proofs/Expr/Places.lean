/-
  ScopeScript.Proofs.Expr.Places

  Trees whose source ranges nest as they do: every part of a tree stands within
  the range of the tree. The forms that the grammar composes keep this, the
  copies of an address in a step or an assignment and the literals that no text
  spells included.
-/
import ScopeScript.Proofs.Expr.Bare

namespace ScopeScript

namespace Span

/-- One range lies in another. -/
structure Within (inner outer : Span) : Prop where
  start : outer.start ≤ inner.start
  stop : inner.stop ≤ outer.stop

variable {a b c : Span}

theorem Within.refl (a : Span) : a.Within a :=
  ⟨Nat.le_refl _, Nat.le_refl _⟩

theorem Within.trans (h : a.Within b) (h' : b.Within c) : a.Within c :=
  ⟨Nat.le_trans h'.start h.start, Nat.le_trans h.stop h'.stop⟩

theorem within_merge_left (a b : Span) : a.Within (a.merge b) :=
  ⟨Nat.min_le_left _ _, Nat.le_max_left _ _⟩

theorem within_merge_right (a b : Span) : b.Within (a.merge b) :=
  ⟨Nat.min_le_right _ _, Nat.le_max_right _ _⟩

/-- The range around two others lies wherever both do. -/
theorem merge_within (ha : a.Within c) (hb : b.Within c) : (a.merge b).Within c :=
  ⟨Nat.le_min.2 ⟨ha.start, hb.start⟩, Nat.max_le.2 ⟨ha.stop, hb.stop⟩⟩

theorem merge_ordered (b : Span) (ha : a.start ≤ a.stop) : (a.merge b).start ≤ (a.merge b).stop :=
  Nat.le_trans (Nat.min_le_left _ _) (Nat.le_trans ha (Nat.le_max_left _ _))

end Span

namespace Expr

/-- The parts of a tree. -/
def parts : Expr → List Expr
  | int _ _ | double _ _ | string _ _ => []
  | read _ address => address
  | assign _ address right _ => right :: address
  | binary _ _ left right => [left, right]
  | list _ elements => elements
  | object _ entries => entries.flatMap fun (k, v) => [k, v]
  | call _ callee arguments => callee ++ arguments

/-- Every range in the tree is in order, and those of the parts of a tree lie in
    the range of the tree. -/
inductive Fits : Expr → Prop where
  | intro {e : Expr} (ordered : e.span.start ≤ e.span.stop)
    (within : ∀ part ∈ e.parts, part.span.Within e.span)
    (parts : ∀ part ∈ e.parts, part.Fits) : Fits e

/-- The tree fits and stands within a range. -/
structure FitsIn (outer : Span) (e : Expr) : Prop where
  within : e.span.Within outer
  fits : e.Fits

variable {e : Expr} {s t : Span}

theorem Fits.ordered (h : e.Fits) : e.span.start ≤ e.span.stop := by
  cases h with
  | intro ordered within parts => exact ordered

theorem Fits.part (h : e.Fits) {part : Expr} (hpart : part ∈ e.parts) : part.FitsIn e.span := by
  cases h with
  | intro ordered within parts => exact ⟨within part hpart, parts part hpart⟩

theorem FitsIn.mono (h : e.FitsIn s) (hst : s.Within t) : e.FitsIn t :=
  ⟨h.within.trans hst, h.fits⟩

theorem FitsIn.of_parts (ordered : e.span.start ≤ e.span.stop) (within : e.span.Within s)
    (parts : ∀ part ∈ e.parts, part.FitsIn e.span) : e.FitsIn s :=
  ⟨within, .intro ordered (fun part h => (parts part h).within) fun part h => (parts part h).fits⟩

/-- The keys of an address stand where it is read. -/
theorem Fits.location (h : e.Fits) : ∀ key ∈ e.location, key.FitsIn e.span := by
  cases e with
  | read span address => exact fun key hkey => h.part hkey
  | _ => exact fun key hkey => absurd hkey List.not_mem_nil

/-- A tree still fits in a wider range of its own. -/
theorem Fits.withSpan (h : e.Fits) (hst : e.span.Within s) : (e.withSpan s).FitsIn s := by
  have hparts : (e.withSpan s).parts = e.parts := by cases e <;> rfl
  have hordered : s.start ≤ s.stop := Nat.le_trans hst.start (Nat.le_trans h.ordered hst.stop)
  refine .of_parts ?_ ?_ ?_ <;> rw [span_withSpan]
  · exact hordered
  · exact .refl s
  · rw [hparts]
    exact fun part hpart => (h.part hpart).mono hst

end Expr

namespace Grammar

open ScopeScript.Expr

variable {e left right : Expr} {address arguments : List Expr} {s span : Span}

/-! ## Composed forms -/

theorem fitsIn_int {n : Int32} (h : span.start ≤ span.stop) (hs : span.Within s) :
    (Expr.int span n).FitsIn s :=
  .of_parts h hs fun _ hpart => absurd hpart List.not_mem_nil

theorem fitsIn_string {text : String} (h : span.start ≤ span.stop) (hs : span.Within s) :
    (Expr.string span text).FitsIn s :=
  .of_parts h hs fun _ hpart => absurd hpart List.not_mem_nil

theorem fitsIn_double {d : Double} (h : span.start ≤ span.stop) (hs : span.Within s) :
    (Expr.double span d).FitsIn s :=
  .of_parts h hs fun _ hpart => absurd hpart List.not_mem_nil

theorem fitsIn_read (h : span.start ≤ span.stop) (hs : span.Within s)
    (haddress : ∀ key ∈ address, key.FitsIn span) : (Expr.read span address).FitsIn s :=
  .of_parts h hs haddress

theorem fitsIn_binary {op : BinaryOp} (h : span.start ≤ span.stop) (hs : span.Within s)
    (hleft : left.FitsIn span) (hright : right.FitsIn span) :
    (Expr.binary span op left right).FitsIn s :=
  .of_parts h hs (List.forall_mem_cons.2 ⟨hleft, List.forall_mem_singleton.2 hright⟩)

theorem fitsIn_assign {yieldsOld : Bool} (h : span.start ≤ span.stop) (hs : span.Within s)
    (haddress : ∀ key ∈ address, key.FitsIn span) (hright : right.FitsIn span) :
    (Expr.assign span address right yieldsOld).FitsIn s :=
  .of_parts h hs (List.forall_mem_cons.2 ⟨hright, haddress⟩)

theorem fitsIn_call {callee : List Expr} (h : span.start ≤ span.stop) (hs : span.Within s)
    (hcallee : ∀ key ∈ callee, key.FitsIn span) (harguments : ∀ e ∈ arguments, e.FitsIn span) :
    (Expr.call span callee arguments).FitsIn s :=
  .of_parts h hs (List.forall_mem_append.2 ⟨hcallee, harguments⟩)

theorem fitsIn_operation (op : BinaryOp) (hleft : left.FitsIn s) (hright : right.FitsIn s) :
    (operation op left right).FitsIn s :=
  fitsIn_binary (Span.merge_ordered _ hleft.fits.ordered)
    (Span.merge_within hleft.within hright.within)
    ⟨Span.within_merge_left _ _, hleft.fits⟩ ⟨Span.within_merge_right _ _, hright.fits⟩

theorem fitsIn_negation {sign : Span} (h : sign.start ≤ sign.stop) (hs : sign.Within s)
    (he : e.FitsIn s) : (negation sign e).FitsIn s := by
  have hordered := Span.merge_ordered e.span h
  have hwithin := Span.merge_within hs he.within
  cases e with
  | int _ n => exact fitsIn_int hordered hwithin
  | double _ d => exact fitsIn_double hordered hwithin
  | _ =>
    exact fitsIn_binary hordered hwithin
      (fitsIn_int h (Span.within_merge_left _ _)) ⟨Span.within_merge_right _ _, he.fits⟩

/-- The address that a step reads and writes stands in the range of the step, as
    does the number one. -/
theorem fitsIn_step (op : BinaryOp) (yieldsOld : Bool) (h : span.start ≤ span.stop)
    (hs : span.Within s) (haddress : ∀ key ∈ address, key.FitsIn span) :
    (step op address span yieldsOld).FitsIn s :=
  fitsIn_assign h hs haddress
    (fitsIn_binary h (.refl span) (fitsIn_read h (.refl span) haddress)
      (fitsIn_int h (.refl span)))

/-- An assignment stands from its target to the end of its right-hand side. -/
theorem fitsIn_assignment {place : Span} (sign : AssignSign) (h : place.start ≤ place.stop)
    (hs : place.Within s) (haddress : ∀ key ∈ address, key.FitsIn place)
    (hright : right.FitsIn s) : (assignment sign address place right).FitsIn s := by
  have hordered := Span.merge_ordered right.span h
  have hwithin := Span.merge_within hs hright.within
  have hplace := Span.within_merge_left place right.span
  have hkeys : ∀ key ∈ address, key.FitsIn (place.merge right.span) :=
    fun key hkey => (haddress key hkey).mono hplace
  have hvalue : right.FitsIn (place.merge right.span) :=
    ⟨Span.within_merge_right _ _, hright.fits⟩
  cases sign with
  | plain => exact fitsIn_assign hordered hwithin hkeys hvalue
  | compound op =>
    exact fitsIn_assign hordered hwithin hkeys
      (fitsIn_binary hordered (.refl _) (fitsIn_read h hplace haddress) hvalue)

theorem fitsIn_printing {sign : Span} (hsign : sign.start ≤ sign.stop)
    (h : span.start ≤ span.stop) (hwithin : sign.Within span)
    (harguments : ∀ e ∈ arguments, e.FitsIn span) (hs : span.Within s) :
    (printing sign span arguments).FitsIn s := by
  have hcallee : ∀ key ∈ Builtin.address "print" sign, key.FitsIn span :=
    List.forall_mem_cons.2 ⟨fitsIn_string hsign hwithin,
      List.forall_mem_singleton.2 (fitsIn_string hsign hwithin)⟩
  exact fitsIn_read h hs
    (List.forall_mem_singleton.2 (fitsIn_call h (.refl span) hcallee harguments))

end Grammar
end ScopeScript
