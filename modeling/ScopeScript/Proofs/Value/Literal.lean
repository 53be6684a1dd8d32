/-
  ScopeScript.Proofs.Value.Literal

  Values as source text. A value is printable if its integers have an absolute
  value that can be written, its strings hold nothing that would have to be
  escaped, and it holds no doubles. Its written form is that of a syntax tree,
  `tree`, and the tree stands for the value with its entries in the order in
  which they are written, `written`, which is an equal value with the same
  written form.
-/
import ScopeScript.Proofs.KeyEquality
import ScopeScript.Proofs.Value.Order
import ScopeScript.Proofs.Expr.Bare
import ScopeScript.Proofs.Token.Spelling

namespace ScopeScript

/-! ## Printable values -/

/-- Primitives that can be read back. -/
inductive Primitive.Printable : Primitive → Prop where
  | int {n : Int32} (h : n.toInt ≠ -2147483648) : Printable (.int n)
  | string {s : String} (h : Scan.Plain s.toList) : Printable (.string s)

namespace Value

/-- Values that can be read back. -/
inductive Printable : Value → Prop where
  | primitive {p : Primitive} (h : p.Printable) : Printable (.primitive p)
  | list {vs : List Value} (h : ∀ v ∈ vs, Printable v) : Printable (.list vs)
  | object {ps : Object} (keys : ∀ p ∈ ps, p.1.Printable) (values : ∀ p ∈ ps, Printable p.2)
    (unequal : ps.Pairwise fun p q => p.1.same q.1 = false) : Printable (.object ps)

/-! ## Trees -/

end Value

/-- The literal of a primitive; a negative integer is one too. -/
def Primitive.tree : Primitive → Expr
  | int n => .int nowhere n
  | double d => .double nowhere d
  | string s => .string nowhere s

namespace Value

mutual

/-- The tree that the written form of a value is read as. -/
def tree : Value → Expr
  | primitive p => p.tree
  | list vs => .list nowhere (trees vs)
  | object ps =>
    .object nowhere ((Object.inOrder (entryTrees ps)).map fun p => (p.1.tree, p.2))

def trees : List Value → List Expr
  | [] => []
  | v :: vs => tree v :: trees vs

def entryTrees : List (Primitive × Value) → List (Primitive × Expr)
  | [] => []
  | (k, v) :: ps => (k, tree v) :: entryTrees ps

end

mutual

/-- The value with all its entries in the order in which they are written. -/
def written : Value → Value
  | primitive p => primitive p
  | list vs => list (writtenAll vs)
  | object ps => object (Object.inOrder (writtenEntries ps))

def writtenAll : List Value → List Value
  | [] => []
  | v :: vs => written v :: writtenAll vs

def writtenEntries : List (Primitive × Value) → List (Primitive × Value)
  | [] => []
  | (k, v) :: ps => (k, written v) :: writtenEntries ps

end

theorem trees_eq_map (vs : List Value) : trees vs = vs.map tree := by
  induction vs with
  | nil => rfl
  | cons v vs ih => rw [trees, ih, List.map_cons]

theorem entryTrees_eq (ps : List (Primitive × Value)) :
    entryTrees ps = Bindings.mapValues tree ps := by
  induction ps with
  | nil => rfl
  | cons p ps ih =>
    rw [entryTrees, ih]
    rfl

theorem tree_object (ps : Object) :
    tree (object ps) =
      .object nowhere ((Object.inOrder ps).map fun p => (p.1.tree, p.2.tree)) := by
  rw [tree, entryTrees_eq, Object.inOrder_mapValues, Bindings.mapValues, List.map_map]
  rfl

theorem writtenAll_eq_map (vs : List Value) : writtenAll vs = vs.map written := by
  induction vs with
  | nil => rfl
  | cons v vs ih => rw [writtenAll, ih, List.map_cons]

theorem writtenEntries_eq (ps : List (Primitive × Value)) :
    writtenEntries ps = Bindings.mapValues written ps := by
  induction ps with
  | nil => rfl
  | cons p ps ih =>
    rw [writtenEntries, ih]
    rfl

theorem written_object (ps : Object) :
    written (object ps) = object (Bindings.mapValues written (Object.inOrder ps)) := by
  rw [written, writtenEntries_eq, Object.inOrder_mapValues]

/-! ## Nesting -/

mutual

/-- How deeply a value is nested, if a primitive alone counts as `leaf` says. -/
def nesting (leaf : Primitive → Nat) : Value → Nat
  | primitive p => leaf p
  | list vs => nestingAll leaf vs + 1
  | object ps => nestingEntries leaf ps + 1

def nestingAll (leaf : Primitive → Nat) : List Value → Nat
  | [] => 0
  | v :: vs => max (nesting leaf v) (nestingAll leaf vs)

def nestingEntries (leaf : Primitive → Nat) : List (Primitive × Value) → Nat
  | [] => 0
  | (k, v) :: ps => max (max (leaf k) (nesting leaf v)) (nestingEntries leaf ps)

end

end Value

/-- The levels that the parser opens for a literal: one for the expression, and
    one for a minus sign. -/
def Primitive.levels : Primitive → Nat
  | int n => if n.toInt < 0 then 2 else 1
  | _ => 1

namespace Value

/-- The levels that the parser opens for the written form. -/
def levels (v : Value) : Nat :=
  v.nesting Primitive.levels

/-- How many evaluations are under way at once for the written form. -/
def height (v : Value) : Nat :=
  v.nesting fun _ => 1

theorem nesting_le_of_mem {leaf : Primitive → Nat} {v : Value} {vs : List Value} (h : v ∈ vs) :
    v.nesting leaf ≤ nestingAll leaf vs := by
  induction vs with
  | nil => cases h
  | cons w vs ih =>
    rw [nestingAll]
    rcases List.mem_cons.1 h with rfl | h
    · exact Nat.le_max_left _ _
    · exact Nat.le_trans (ih h) (Nat.le_max_right _ _)

theorem nesting_entry_le (leaf : Primitive → Nat) {p : Primitive × Value}
    {ps : List (Primitive × Value)} (h : p ∈ ps) :
    leaf p.1 ≤ nestingEntries leaf ps ∧ p.2.nesting leaf ≤ nestingEntries leaf ps := by
  induction ps with
  | nil => cases h
  | cons q ps ih =>
    rw [nestingEntries]
    rcases List.mem_cons.1 h with rfl | h
    · constructor <;> omega
    · obtain ⟨hkey, hvalue⟩ := ih h
      constructor <;> omega

/-! ## Written forms -/

theorem texts_eq_map (vs : List Value) : texts vs = vs.map text := by
  induction vs with
  | nil => rfl
  | cons v vs ih => rw [texts, ih, List.map_cons]

theorem entryTexts_eq (ps : List (Primitive × Value)) :
    entryTexts ps = Bindings.mapValues text ps := by
  induction ps with
  | nil => rfl
  | cons p ps ih =>
    rw [entryTexts, ih]
    rfl

theorem text_list (vs : List Value) :
    text (list vs) = "[ " ++ String.intercalate ", " (vs.map text) ++ " ]" := by
  rw [text, texts_eq_map]

/-- The written form of an entry. -/
def entryText (p : Primitive × Value) : String :=
  p.1.text ++ ": " ++ p.2.text

theorem text_object (ps : Object) :
    text (object ps) =
      "\x7b " ++ String.intercalate ", " ((Object.inOrder ps).map entryText) ++ " \x7d" := by
  rw [text, entryTexts_eq, Object.inOrder_mapValues, Bindings.mapValues]
  simp only [List.map_map]
  rfl

/-- The order of entries does not show in the written form. -/
theorem Printable.text_written {v : Value} (h : v.Printable) : v.written.text = v.text := by
  induction h with
  | primitive h => rfl
  | @list vs _ ih =>
    rw [written, writtenAll_eq_map, text_list, text_list, List.map_map]
    congr 3
    exact List.map_congr_left ih
  | @object ps _ _ _ ih =>
    rw [written_object, text_object, text_object, Object.inOrder_mapValues,
      Object.inOrder_inOrder, Bindings.mapValues, List.map_map]
    congr 3
    refine List.map_congr_left fun p hp => ?_
    show p.1.text ++ ": " ++ p.2.written.text = entryText p
    rw [ih p (Object.mem_inOrder.1 hp), entryText]

/-! ## Equality -/

/-- An object with unequal keys binds each of its keys to the value next to
    it. -/
theorem get?_of_mem {ps : Object} (hne : ps.Pairwise fun p q => p.1.same q.1 = false)
    {p : Primitive × Value} (hp : p ∈ ps) : Object.get? ps p.1 = some p.2 := by
  induction ps with
  | nil => cases hp
  | cons q ps ih =>
    obtain ⟨hq, hne⟩ := List.pairwise_cons.1 hne
    rw [Object.get?]
    rcases List.mem_cons.1 hp with rfl | hp
    · rw [if_pos (Primitive.same_self _)]
    · rw [if_neg (by simp [hq p hp]), ih hne hp]

theorem boundAlike_of_forall {ps o : Object}
    (h : ∀ p ∈ ps, ∃ v, Object.get? o p.1 = some v ∧ p.2.same v = true) :
    boundAlike ps o = true := by
  induction ps with
  | nil => rfl
  | cons p ps ih =>
    obtain ⟨⟨v, hv, hsame⟩, h⟩ := List.forall_mem_cons.1 h
    rw [boundAlike, hv]
    simp only [hsame, ih h, Bool.and_true]

theorem sameAll_map {f : Value → Value} {vs : List Value} (h : ∀ v ∈ vs, (f v).same v = true) :
    sameAll (vs.map f) vs = true := by
  induction vs with
  | nil => rfl
  | cons v vs ih =>
    obtain ⟨hv, hvs⟩ := List.forall_mem_cons.1 h
    rw [List.map_cons, sameAll, hv, ih hvs]
    rfl

/-- The value in written order is equal to the value. -/
theorem Printable.same_written {v : Value} (h : v.Printable) : v.written.same v = true := by
  induction h with
  | primitive h => exact Primitive.same_self _
  | @list vs _ ih =>
    rw [written, writtenAll_eq_map, same]
    exact sameAll_map ih
  | @object ps _ _ hne ih =>
    rw [written_object, same, Bool.and_eq_true, decide_eq_true_eq]
    constructor
    · rw [Bindings.mapValues, List.length_map, (Object.inOrder_perm ps).length_eq]
    · refine boundAlike_of_forall fun q hq => ?_
      rw [Bindings.mapValues, List.mem_map] at hq
      obtain ⟨p, hp, rfl⟩ := hq
      have hmem := Object.mem_inOrder.1 hp
      exact ⟨p.2, get?_of_mem hne hmem, ih p hmem⟩

end Value
end ScopeScript
