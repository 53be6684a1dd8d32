/-
  ScopeScript.Proofs.Value.Rendering

  The written form of objects does not depend on how their entries are stored.
  The order in which keys are written is total, and only a key and itself are
  level in it, so entries with unequal keys can be written in one order only. This
  goes for the objects in an object too.
-/
import ScopeScript.Proofs.Value.Order
import ScopeScript.Proofs.Value.Distinct
import ScopeScript.Proofs.Value.Literal
import ScopeScript.Proofs.Text.ByteOrder

namespace ScopeScript

/-! ## Doubles -/

namespace Double

variable {a b : Double}

/-- The total order of doubles, by their patterns: negative ones come before the
    others, and a greater magnitude is later among these and earlier among those. -/
inductive TotalLt (a b : Double) : Prop where
  | signs (ha : a.isNegative = true) (hb : b.isNegative = false) : TotalLt a b
  | negative (ha : a.isNegative = true) (hb : b.isNegative = true)
    (h : b.magnitude < a.magnitude) : TotalLt a b
  | positive (ha : a.isNegative = false) (hb : b.isNegative = false)
    (h : a.magnitude < b.magnitude) : TotalLt a b

theorem orderKey_lt_iff : a.orderKey < b.orderKey ↔ a.TotalLt b := by
  rw [orderKey, orderKey]
  constructor
  · intro h
    cases ha : a.isNegative <;> cases hb : b.isNegative <;>
      simp only [ha, hb, if_true, if_false, Bool.false_eq_true] at h
    · exact .positive ha hb (by omega)
    · omega
    · exact .signs ha hb
    · exact .negative ha hb (by omega)
  · rintro (⟨ha, hb⟩ | ⟨ha, hb, h⟩ | ⟨ha, hb, h⟩) <;>
      simp only [ha, hb, if_true, if_false, Bool.false_eq_true] <;> omega

/-- A pattern is its sign and its magnitude. -/
theorem eq_of_parts (hsign : a.isNegative = b.isNegative) (h : a.magnitude = b.magnitude) :
    a = b := by
  have ha : a.bits.toNat < 2 ^ 64 := a.bits.toNat_lt
  have hb : b.bits.toNat < 2 ^ 64 := b.bits.toNat_lt
  have hbits : a.bits.toNat = b.bits.toNat := by
    rw [isNegative, isNegative, decide_eq_decide] at hsign
    simp only [magnitude, signBit] at hsign h
    omega
  cases a
  cases b
  exact congrArg Double.mk (UInt64.toNat_inj.1 hbits)

theorem eq_of_orderKey (h : a.orderKey = b.orderKey) : a = b := by
  rw [orderKey, orderKey] at h
  cases ha : a.isNegative <;> cases hb : b.isNegative <;>
    simp only [ha, hb, if_true, if_false, Bool.false_eq_true] at h
  · exact eq_of_parts (ha.trans hb.symm) (by omega)
  · omega
  · omega
  · exact eq_of_parts (ha.trans hb.symm) (by omega)

end Double

/-! ## Keys -/

namespace Primitive

variable {a b : Primitive}

/-- The order in which keys are written: integers by their values, doubles in total
    order, strings by their bytes. -/
inductive Before : Primitive → Primitive → Prop where
  | ints {m n : Int32} (h : m.toInt < n.toInt) : Before (.int m) (.int n)
  | intDouble (m : Int32) (d : Double) : Before (.int m) (.double d)
  | intString (m : Int32) (s : String) : Before (.int m) (.string s)
  | doubles {c d : Double} (h : c.TotalLt d) : Before (.double c) (.double d)
  | doubleString (d : Double) (s : String) : Before (.double d) (.string s)
  | strings {s t : String} (h : utf8 s < utf8 t) : Before (.string s) (.string t)

theorem precedes_iff : a.precedes b = true ↔ a.Before b := by
  constructor
  · intro h
    cases a <;> cases b
    case int.int => exact .ints (of_decide_eq_true h)
    case int.double => exact .intDouble _ _
    case int.string => exact .intString _ _
    case double.double => exact .doubles (Double.orderKey_lt_iff.1 (of_decide_eq_true h))
    case double.string => exact .doubleString _ _
    case string.string => exact .strings (lt_iff_utf8_lt.1 (of_decide_eq_true h))
    all_goals cases h
  · intro h
    cases h with
    | ints h => exact decide_eq_true h
    | doubles h => exact decide_eq_true (Double.orderKey_lt_iff.2 h)
    | strings h => exact decide_eq_true (lt_iff_utf8_lt.2 h)
    | _ => rfl

/-- Two keys of which neither is written before the other are one. -/
theorem eq_of_not_precedes (hab : a.precedes b = false) (hba : b.precedes a = false) :
    a = b := by
  cases a <;> cases b
  case int.int m n =>
    have hmn := of_decide_eq_false hab
    have hnm := of_decide_eq_false hba
    have heq : m.toInt = n.toInt := by omega
    exact congrArg int (Int32.toInt_inj.1 heq)
  case double.double c d =>
    have hcd := of_decide_eq_false hab
    have hdc := of_decide_eq_false hba
    have heq : c.orderKey = d.orderKey := by omega
    exact congrArg double (Double.eq_of_orderKey heq)
  case string.string s t =>
    have hst := String.not_lt.1 (of_decide_eq_false hab)
    have hts := String.not_lt.1 (of_decide_eq_false hba)
    exact congrArg string (String.le_antisymm hts hst)
  -- Of two kinds one comes first.
  all_goals first
    | exact nomatch (show true = false from hab)
    | exact nomatch (show true = false from hba)

/-- Of two unequal keys, one is written first. -/
theorem before_of_not_precedes (hne : a.same b = false) (hba : b.precedes a = false) :
    a.Before b := by
  rw [← precedes_iff]
  cases hab : a.precedes b with
  | true => rfl
  | false =>
    obtain rfl := eq_of_not_precedes hab hba
    rw [same_self] at hne
    cases hne

theorem Before.asymm (h : a.Before b) : ¬ b.Before a := by
  intro h'
  have hba := precedes_asymm (precedes_iff.2 h)
  rw [precedes_iff.2 h'] at hba
  cases hba

end Primitive

/-! ## Entries -/

namespace Object

variable {α : Type} {ps qs : List (Primitive × α)}

/-- Every key is written before those that stand behind it. -/
def Ascending (ps : List (Primitive × α)) : Prop :=
  ps.Pairwise fun p q => p.1.Before q.1

theorem ascending_inOrder (h : Bindings.Unequal ps) : Ascending (inOrder ps) := by
  have hunequal : Bindings.Unequal (inOrder ps) := h.perm (inOrder_perm ps).symm
  refine (hunequal.and (pairwise_inOrder ps)).imp ?_
  rintro p q ⟨hne, hle⟩
  exact Primitive.before_of_not_precedes hne (by simpa using hle)

/-- There is one order of ascending keys. -/
theorem Ascending.eq_of_perm (hps : Ascending ps) (hqs : Ascending qs) (hperm : ps.Perm qs) :
    ps = qs :=
  hperm.eq_of_pairwise (fun _ _ _ _ hpq hqp => absurd hqp hpq.asymm) hps hqs

theorem inOrder_eq_of_perm (h : Bindings.Unequal ps) (hperm : ps.Perm qs) :
    inOrder ps = inOrder qs := by
  have hqs : Bindings.Unequal qs := h.perm hperm
  refine (ascending_inOrder h).eq_of_perm (ascending_inOrder hqs) ?_
  exact (inOrder_perm ps).trans (hperm.trans (inOrder_perm qs).symm)

/-- Unequal keys are in one order exactly when the entries are the same ones. -/
theorem inOrder_eq_iff (h : Bindings.Unequal ps) : inOrder ps = inOrder qs ↔ ps.Perm qs := by
  constructor
  · intro heq
    have hps : (inOrder qs).Perm ps := heq ▸ inOrder_perm ps
    exact hps.symm.trans (inOrder_perm qs)
  · exact inOrder_eq_of_perm h

/-- An object with further entries bound in it, one after another. -/
def insertAll (o : Object) (entries : List (Primitive × Value)) : Object :=
  entries.foldl (fun o p => o.insert p.1 p.2) o

/-- Entries with unequal keys come to stand in the order in which they are bound. -/
theorem insertAll_eq {o : Object} {entries : List (Primitive × Value)}
    (h : Bindings.Unequal (o ++ entries)) : insertAll o entries = o ++ entries := by
  induction entries generalizing o with
  | nil => exact (List.append_nil o).symm
  | cons p entries ih =>
    obtain ⟨-, -, hbetween⟩ := List.pairwise_append.1 h
    have hnone : Bindings.find? p.1 o = none :=
      Bindings.find?_eq_none_iff.2 fun q hq => hbetween q hq p List.mem_cons_self
    have hinsert : o.insert p.1 p.2 = o ++ [p] := insert_of_find?_eq_none hnone p.2
    have hassoc : o ++ p :: entries = (o ++ [p]) ++ entries := List.append_cons o p entries
    show insertAll (o.insert p.1 p.2) entries = _
    rw [hassoc] at h
    rw [hassoc, hinsert, ih h]

end Object

/-! ## Written forms -/

namespace Value

mutual

/-- The same value, with the entries of objects stored in any order, at every
    depth. -/
inductive Rearranged : Value → Value → Prop where
  | primitive (p : Primitive) : Rearranged (.primitive p) (.primitive p)
  | list {vs ws : List Value} (h : AllRearranged vs ws) : Rearranged (.list vs) (.list ws)
  | object {ps qs rs : Object} (h : EntriesRearranged ps qs) (hperm : qs.Perm rs) :
    Rearranged (.object ps) (.object rs)

inductive AllRearranged : List Value → List Value → Prop where
  | nil : AllRearranged [] []
  | cons {v w : Value} {vs ws : List Value} (h : Rearranged v w) (hs : AllRearranged vs ws) :
    AllRearranged (v :: vs) (w :: ws)

inductive EntriesRearranged : Object → Object → Prop where
  | nil : EntriesRearranged [] []
  | cons {k : Primitive} {v w : Value} {ps qs : Object} (h : Rearranged v w)
    (hs : EntriesRearranged ps qs) : EntriesRearranged ((k, v) :: ps) ((k, w) :: qs)

end

/-- Values written in the same way at the same keys. -/
theorem text_object_of_entryTexts {ps qs : Object} (hps : Bindings.Unequal ps)
    (h : (Bindings.mapValues text ps).Perm (Bindings.mapValues text qs)) :
    text (object ps) = text (object qs) := by
  have hunequal : Bindings.Unequal (Bindings.mapValues text ps) :=
    (Bindings.unequal_mapValues text).2 hps
  rw [text, text, entryTexts_eq, entryTexts_eq, Object.inOrder_eq_of_perm hunequal h]

mutual

/-- The order in which entries are stored does not show in the written form. -/
theorem text_of_rearranged : ∀ {v w : Value}, v.Distinct → v.Rearranged w → v.text = w.text
  | _, _, _, .primitive _ => rfl
  | _, _, .list elements, .list h => by
    rw [text_list, text_list, texts_of_rearranged elements h]
  | _, _, .object keys values, .object h hperm => by
    refine text_object_of_entryTexts keys ?_
    rw [entryTexts_of_rearranged values h]
    exact hperm.map _

theorem texts_of_rearranged : ∀ {vs ws : List Value}, (∀ v ∈ vs, v.Distinct) →
    AllRearranged vs ws → vs.map text = ws.map text
  | _, _, _, .nil => rfl
  | _, _, hvs, .cons h hs => by
    obtain ⟨hv, hvs⟩ := List.forall_mem_cons.1 hvs
    rw [List.map_cons, List.map_cons, text_of_rearranged hv h, texts_of_rearranged hvs hs]

theorem entryTexts_of_rearranged : ∀ {ps qs : Object}, (∀ p ∈ ps, p.2.Distinct) →
    EntriesRearranged ps qs → Bindings.mapValues text ps = Bindings.mapValues text qs
  | _, _, _, .nil => rfl
  | _, _, hps, .cons h hs => by
    obtain ⟨hv, hps⟩ := List.forall_mem_cons.1 hps
    have htail := entryTexts_of_rearranged hps hs
    rw [Bindings.mapValues, Bindings.mapValues] at htail ⊢
    rw [List.map_cons, List.map_cons, htail, text_of_rearranged hv h]

end

/-- All entries of an object are written, each one once, in the order of their
    keys. -/
theorem exists_text_object {o : Object} (h : Bindings.Unequal o) :
    ∃ entries, entries.Perm o ∧ Object.Ascending entries ∧
      text (.object o) = "\x7b " ++ String.intercalate ", " (entries.map entryText) ++ " \x7d" :=
  ⟨Object.inOrder o, Object.inOrder_perm o, Object.ascending_inOrder h, text_object o⟩

end Value
end ScopeScript
