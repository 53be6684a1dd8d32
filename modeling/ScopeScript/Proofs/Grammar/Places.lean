/-
  ScopeScript.Proofs.Grammar.Places

  Where trees and errors of the parser stand. From a cursor whose tokens stand
  behind byte `k` a parse function either gives a tree that fits between `k` and
  the end of the last token that was read, or an error that stands in the
  source. This is a contract (`places`) that refers to `k`. Lists of trees are
  measured from the token in which the first of them may stand: a key of an
  address stands behind its name, and an argument behind its bracket.
-/
import ScopeScript.Proofs.Expr.Places
import ScopeScript.Proofs.Grammar.Contract
import ScopeScript.Proofs.Token.Places

namespace ScopeScript
namespace Grammar

open ScopeScript.Expr

/-! ## Cursors -/

/-- The tokens that are left stand behind byte `k` of a source of `size` bytes. -/
structure Cursor.Stands (size k : Nat) (c : Cursor) : Prop where
  finish : c.finish = ⟨size, size⟩
  spaced : Spaced size k c.tokens

/-- The token read last stands behind byte `k`, and the others behind it. -/
structure Cursor.Past (size k : Nat) (c : Cursor) : Prop where
  le : k ≤ c.last.start
  lt : c.last.start < c.last.stop
  stands : c.Stands size c.last.stop

/-- A tree was read behind byte `k`. -/
structure TreeRead (size k : Nat) (e : Expr) (next : Cursor) : Prop where
  fits : e.FitsIn ⟨k, next.last.stop⟩
  past : next.Past size k

/-- Trees were read from the token at `start` on, in which the first of them may
    stand. -/
structure TreesRead (size : Nat) (start : Span) (es : List Expr) (next : Cursor) : Prop where
  fits : ∀ e ∈ es, e.FitsIn ⟨start.start, next.last.stop⟩
  stop : start.stop ≤ next.last.stop
  past : next.Past size start.start

section Reading

variable {size j k : Nat} {c c₁ : Cursor} {t : Token} {start comma span : Span}
  {rest : List Lexeme} {e right : Expr} {es fs : List Expr}

namespace Cursor

theorem Stands.deeper (h : c.Stands size k) : c.deeper.Stands size k :=
  ⟨h.finish, h.spaced⟩

theorem Stands.atLevel (h : c.Stands size k) (level : Nat) : (c.atLevel level).Stands size k :=
  ⟨h.finish, h.spaced⟩

theorem Stands.here (h : c.Stands size k) : c.here.start ≤ c.here.stop ∧ c.here.stop ≤ size := by
  rw [Cursor.here]
  cases htokens : c.tokens with
  | nil =>
    rw [h.finish]
    exact ⟨Nat.le_refl _, Nat.le_refl _⟩
  | cons t ts =>
    have hspaced := h.spaced
    rw [htokens] at hspaced
    exact ⟨Nat.le_of_lt hspaced.2.1, hspaced.2.2.le⟩

theorem Stands.past (h : c.Stands size k) (htokens : c.tokens = ⟨t, span⟩ :: rest) :
    (c.past span rest).Past size k := by
  have hspaced := h.spaced
  rw [htokens] at hspaced
  exact ⟨hspaced.1, hspaced.2.1, h.finish, hspaced.2.2⟩

theorem Past.le_stop (h : c.Past size k) : k ≤ c.last.stop :=
  Nat.le_trans h.le (Nat.le_of_lt h.lt)

theorem Past.mono (h : c.Past size k) (hle : j ≤ k) : c.Past size j :=
  ⟨Nat.le_trans hle h.le, h.lt, h.stands⟩

theorem Past.self (h : c.Past size k) : c.Past size c.last.start :=
  ⟨Nat.le_refl _, h.lt, h.stands⟩

theorem Past.atLevel (h : c.Past size k) (level : Nat) : (c.atLevel level).Past size k :=
  ⟨h.le, h.lt, h.stands.atLevel level⟩

theorem Past.deeper (h : c.Past size k) : c.deeper.Past size k :=
  ⟨h.le, h.lt, h.stands.deeper⟩

end Cursor

/-! ## Trees that were read -/

theorem TreeRead.mono (h : TreeRead size k e c) (hle : j ≤ k) : TreeRead size j e c :=
  ⟨h.fits.mono ⟨hle, Nat.le_refl _⟩, h.past.mono hle⟩

theorem TreeRead.atLevel (h : TreeRead size k e c) (level : Nat) :
    TreeRead size k e (c.atLevel level) :=
  ⟨h.fits, h.past.atLevel level⟩

/-- A tree that was read stands in the source. -/
theorem TreeRead.place (h : TreeRead size k e c) :
    e.span.start ≤ e.span.stop ∧ e.span.stop ≤ size :=
  ⟨h.fits.fits.ordered, Nat.le_trans h.fits.within.stop h.past.stands.spaced.le⟩

/-- The token read last, as a tree. -/
theorem TreeRead.of_last (h : c.Past size k) (he : e.FitsIn c.last) : TreeRead size k e c :=
  ⟨he.mono ⟨h.le, Nat.le_refl _⟩, h⟩

/-- A tree and one behind it. -/
theorem TreeRead.follow (h : TreeRead size k e c₁) (hle : c₁.last.stop ≤ j)
    (hright : TreeRead size j right c) : e.FitsIn ⟨k, c.last.stop⟩ ∧ TreeRead size k right c :=
  ⟨h.fits.mono ⟨Nat.le_refl _, Nat.le_trans hle hright.past.le_stop⟩,
    hright.mono (Nat.le_trans h.past.le_stop hle)⟩

theorem TreesRead.nil (h : c.Past size k) : TreesRead size c.last [] c :=
  ⟨fun _ he => absurd he List.not_mem_nil, Nat.le_refl _, h.self⟩

theorem TreesRead.replace (h : TreesRead size start es c)
    (hfs : ∀ f ∈ fs, f.FitsIn ⟨start.start, c.last.stop⟩) : TreesRead size start fs c :=
  ⟨hfs, h.stop, h.past⟩

/-- Reading on. -/
theorem TreesRead.advance (h : TreesRead size start es c₁) (hpast : c.Past size c₁.last.stop) :
    TreesRead size start es c := by
  have hle := hpast.le_stop
  have hstart := Nat.le_trans h.past.le_stop hpast.le
  exact ⟨fun e he => (h.fits e he).mono ⟨Nat.le_refl _, hle⟩, Nat.le_trans h.stop hle,
    hstart, hpast.lt, hpast.stands⟩

/-- One more tree. -/
theorem TreesRead.concat (h : TreesRead size start es c₁) (he : TreeRead size c₁.last.stop e c) :
    TreesRead size start (es ++ [e]) c := by
  have hes := h.advance he.past
  refine ⟨List.forall_mem_append.2 ⟨hes.fits, List.forall_mem_singleton.2 ?_⟩, hes.stop, hes.past⟩
  exact he.fits.mono ⟨h.past.le_stop, Nat.le_refl _⟩

/-- More trees, from a token behind the first ones on. -/
theorem TreesRead.append (h : TreesRead size start es c₁) (hcomma : c₁.last.stop ≤ comma.start)
    (hfs : TreesRead size comma fs c) : TreesRead size start (es ++ fs) c := by
  have hes := h.advance (hfs.past.mono hcomma)
  refine ⟨List.forall_mem_append.2 ⟨hes.fits, fun f hf => ?_⟩, hes.stop, hes.past⟩
  exact (hfs.fits f hf).mono ⟨Nat.le_trans h.past.le_stop hcomma, Nat.le_refl _⟩

/-- The range from the token where the trees begin to the token read last. -/
theorem TreesRead.merge (h : TreesRead size start es c) :
    start.merge c.last = ⟨start.start, c.last.stop⟩ := by
  rw [Span.merge, Nat.min_eq_left h.past.le, Nat.max_eq_right h.stop]

/-- A tree in that range. -/
theorem TreesRead.tree (h : TreesRead size start es c) (hk : k ≤ start.start)
    (he : e.FitsIn ⟨start.start, c.last.stop⟩) : TreeRead size k e c :=
  ⟨he.mono ⟨hk, Nat.le_refl _⟩, h.past.mono hk⟩

/-- A tree of that range with the trees as its parts. -/
theorem TreesRead.fitsIn (h : TreesRead size start es c) (hspan : e.span = start.merge c.last)
    (hparts : e.parts = es) : e.FitsIn ⟨start.start, c.last.stop⟩ := by
  rw [h.merge] at hspan
  refine .of_parts ?_ ?_ ?_ <;> rw [hspan]
  · exact h.past.le_stop
  · exact .refl _
  · rw [hparts]
    exact h.fits

end Reading

/-! ## Statements that were read -/

/-- Trees that fit, one behind another, from byte `k` on. -/
structure Laid (size k : Nat) (es : List Expr) : Prop where
  fits : ∀ e ∈ es, e.FitsIn ⟨k, size⟩
  disjoint : es.Pairwise fun a b => a.span.stop ≤ b.span.start

theorem Laid.mono {j k : Nat} {es : List Expr} (h : Laid size k es) (hle : j ≤ k) :
    Laid size j es :=
  ⟨fun e he => (h.fits e he).mono ⟨hle, Nat.le_refl _⟩, h.disjoint⟩

/-- A tree before those behind it. -/
theorem Laid.cons {k : Nat} {e : Expr} {es : List Expr} {c : Cursor} (h : TreeRead size k e c)
    (hes : Laid size c.last.stop es) : Laid size k (e :: es) := by
  have hle : c.last.stop ≤ size := h.past.stands.spaced.le
  refine ⟨List.forall_mem_cons.2 ⟨h.fits.mono ⟨Nat.le_refl _, hle⟩,
    (hes.mono h.past.le_stop).fits⟩, .cons (fun b hb => ?_) hes.disjoint⟩
  exact Nat.le_trans h.fits.within.stop (hes.fits b hb).within.start

theorem Laid.nil {size k : Nat} : Laid size k [] :=
  ⟨fun _ he => absurd he List.not_mem_nil, .nil⟩

/-! ## The contract -/

/-- Calls find tokens that stand behind byte `k`, and those that may read nothing find
    the token behind them there too. So do calls that go on from trees. -/
def places (size : Nat) : Contract Nat where
  before k
    | .expression c | .chain _ c | .operand _ c | .unary c | .suffixed c | .primary c
    | .statement c | .statements _ c => c.Stands size k
    | .items _ c | .entries c | .printedAfterComma c | .printed c => c.Past size k
    | .chainRest _ left c => TreeRead size k left c
    | .address start keys c => TreesRead size start keys c
  after k
    | .expression _, (e, c') | .chain _ _, (e, c') | .operand _ _, (e, c')
    | .chainRest _ _ _, (e, c') | .unary _, (e, c') | .suffixed _, (e, c') | .primary _, (e, c')
    | .statement _, (e, c') => TreeRead size k e c'
    | .address start _ _, (keys, c') => TreesRead size start keys c'
    | .items _ c, (es, c') | .printed c, (es, c') => TreesRead size c.last es c'
    | .entries c, (entries, c') => TreesRead size c.last (entries.flatMap fun (k, v) => [k, v]) c'
    -- The first of the printed trees may stand before the call.
    | .printedAfterComma c, (es, c') =>
      ∀ start fs, TreesRead size start fs c → TreesRead size start (fs ++ es) c'
    | .statements found _, all => ∃ es, all = found.reverse ++ es ∧ Laid size k es
  blames e := e.span.start ≤ e.span.stop ∧ e.span.stop ≤ size

/-- The function of a call keeps to the places from byte `j` on. -/
abbrev KeepsPlaces (limit size j : Nat) (k : Call) : Prop :=
  (script limit k).Keeps (places size) ((places size).after j k)

variable {limit size k : Nat} {c : Cursor}

/-! ## Expressions -/

theorem location_of_target {use : TargetUse} {e : Expr} {keys : List Expr} (he : e.Fits)
    (h : target use e = .ok keys) : ∀ key ∈ keys, key.FitsIn e.span := by
  obtain ⟨-, rfl⟩ := target_eq_ok_iff.1 h
  exact he.location

/-- A bad target is blamed where it stands. -/
theorem place_of_target {use : TargetUse} {e : Expr} {x : ParseError}
    (he : TreeRead size k e c) (h : target use e = .error x) :
    x.span.start ≤ x.span.stop ∧ x.span.stop ≤ size := by
  rw [target.eq_def] at h
  split at h
  · cases h
  · cases h
    exact he.place

theorem places_expression (hc : c.Stands size k) : KeepsPlaces limit size k (.expression c) := by
  delta KeepsPlaces script
  dsimp only
  refine .level hc.here fun _ => .asks k hc.deeper ?_
  rintro ⟨left, c₁⟩ hleft
  dsimp only
  split
  · next s span rest htokens =>
    split
    · next sign hsign =>
      have hpast := hleft.past.stands.past htokens
      refine .known (fun _ => place_of_target hleft) fun keys hkeys => ?_
      refine .asks _ (hpast.stands.atLevel _) ?_
      rintro ⟨right, c₂⟩ hright
      refine .pure ?_
      obtain ⟨hplace, hright⟩ := hleft.follow hpast.le_stop hright
      refine .atLevel ⟨?_, hright.past⟩ _
      have haddress := location_of_target hleft.fits.fits hkeys
      exact fitsIn_assignment sign hplace.fits.ordered hplace.within haddress hright.fits
    · exact .pure (hleft.atLevel _)
  · exact .pure (hleft.atLevel _)

theorem places_chain (p : Precedence) (hc : c.Stands size k) :
    KeepsPlaces limit size k (.chain p c) := by
  delta KeepsPlaces script
  dsimp only
  refine .asks k hc fun (first, c₁) hfirst => ?_
  exact .asks k hfirst fun (all, c₂) hall => .pure (hall.atLevel _)

theorem places_operand (p : Precedence) (hc : c.Stands size k) :
    KeepsPlaces limit size k (.operand p c) := by
  delta KeepsPlaces script
  dsimp only
  split <;> exact .call k hc fun _ h => h

theorem places_chainRest {p : Precedence} {left : Expr} (hleft : TreeRead size k left c) :
    KeepsPlaces limit size k (.chainRest p left c) := by
  delta KeepsPlaces script
  dsimp only
  split
  · next s span rest htokens =>
    split
    · next op hop =>
      have hpast := hleft.past.stands.past htokens
      refine .level hpast.stands.here fun _ => ?_
      refine .asks _ hpast.stands.deeper ?_
      rintro ⟨right, c₁⟩ hright
      -- The operation begins where its left operand does.
      obtain ⟨hfirst, hright⟩ := hleft.follow hpast.le_stop hright
      exact .call k ⟨fitsIn_operation op hfirst hright.fits, hright.past⟩ fun _ h => h
    · exact .pure hleft
  · exact .pure hleft

theorem places_unary (hc : c.Stands size k) : KeepsPlaces limit size k (.unary c) := by
  delta KeepsPlaces script
  dsimp only
  split
  · next s span rest htokens =>
    have hpast := hc.past htokens
    have hordered : span.start ≤ span.stop := Nat.le_of_lt hpast.lt
    split
    · refine .level hpast.stands.here fun _ => ?_
      refine .asks _ hpast.stands.deeper ?_
      rintro ⟨inner, c₁⟩ hinner
      refine .pure ?_
      have hone := (TreesRead.nil hpast).concat hinner
      refine .atLevel (hone.tree hpast.le ?_) _
      exact fitsIn_negation hordered ⟨Nat.le_refl _, hone.stop⟩
        (hone.fits inner (List.mem_singleton_self _))
    · split
      · next op hop =>
        refine .asks _ hpast.stands ?_
        rintro ⟨inner, c₁⟩ hinner
        refine .known (fun _ => place_of_target hinner) fun keys hkeys => .pure ?_
        have hone := (TreesRead.nil hpast).concat hinner
        have hfits := hone.fits inner (List.mem_singleton_self _)
        refine hone.tree hpast.le ?_
        refine fitsIn_step op false (Span.merge_ordered _ hordered) ?_ fun key hkey => ?_
        · exact Span.merge_within ⟨Nat.le_refl _, hone.stop⟩ hfits.within
        · have haddress := location_of_target hfits.fits hkeys
          exact (haddress key hkey).mono (Span.within_merge_right _ _)
      · exact .call k hc fun _ h => h
  · exact .call k hc fun _ h => h

theorem places_suffixed (hc : c.Stands size k) : KeepsPlaces limit size k (.suffixed c) := by
  delta KeepsPlaces script
  dsimp only
  split
  · next s span rest htokens =>
    have hpast := hc.past htokens
    have hname : TreesRead size span [.string span s] (c.past span rest) :=
      (TreesRead.nil hpast).replace
        (List.forall_mem_singleton.2 (fitsIn_string (Nat.le_of_lt hpast.lt) (.refl span)))
    refine .asks k hname fun (keys, c₁) hkeys => ?_
    have hkeys : TreesRead size span keys c₁ := hkeys
    have htree : TreeRead size k (.read (span.merge c₁.last) keys) c₁ :=
      hkeys.tree hpast.le (hkeys.fitsIn rfl rfl)
    dsimp only
    split
    · next s' sign rest' htokens' =>
      split
      · next op hop =>
        -- What is stepped begins with its name and ends with the sign.
        have hwhole : TreesRead size ⟨span.start, c₁.last.stop⟩ keys (c₁.atLevel c.level) :=
          ⟨hkeys.fits, Nat.le_refl _, hkeys.past.atLevel _⟩
        have hall := hwhole.advance (hwhole.past.stands.past htokens')
        have hmerge : Span.merge ⟨span.start, c₁.last.stop⟩ sign = ⟨span.start, sign.stop⟩ :=
          hall.merge
        rw [hkeys.merge, hmerge]
        exact .pure (hall.tree hpast.le (fitsIn_step op true hall.past.le_stop (.refl _) hall.fits))
      · exact .pure (htree.atLevel _)
    · exact .pure (htree.atLevel _)
  · exact .call k hc fun _ h => h

theorem places_address {start : Span} {keys : List Expr} (h : TreesRead size start keys c) :
    KeepsPlaces limit size k (.address start keys c) := by
  delta KeepsPlaces script
  dsimp only
  split
  · next dot s span rest htokens =>
    have hdot := h.past.stands.past htokens
    have hname : (c.past span rest).Past size dot.stop := hdot.stands.past rfl
    have hkey : TreeRead size dot.stop (.string span s) (c.past span rest) :=
      .of_last hname (fitsIn_string (Nat.le_of_lt hname.lt) (.refl span))
    exact .call k ((h.advance hdot).concat hkey) fun _ h => h
  · next span rest _ htokens => exact .throw (h.past.stands.past htokens).stands.here
  · next span rest htokens =>
    have hpast := h.past.stands.past htokens
    refine .asks _ hpast.stands fun (index, c₁) hindex => ?_
    refine .eat (fun _ => hindex.past.stands.here) fun close rest hclose => ?_
    have hkeys := ((h.advance hpast).concat hindex).advance (hindex.past.stands.past hclose)
    exact .call k hkeys fun _ h => h
  · next span rest htokens =>
    have hpast := h.past.stands.past htokens
    refine .level hpast.stands.here fun _ => ?_
    refine .asks _ hpast.deeper fun (arguments, c₁) harguments => ?_
    refine .eat (fun _ => harguments.past.stands.here) fun close rest hclose => ?_
    have hall := (h.append hpast.le harguments).advance (harguments.past.stands.past hclose)
    have hcall : (Expr.call (start.merge close) keys arguments).FitsIn ⟨start.start, close.stop⟩ :=
      hall.fitsIn rfl rfl
    exact .call k (hall.replace (List.forall_mem_singleton.2 hcall)) fun _ h => h
  · exact .pure h

theorem places_primary (hc : c.Stands size k) : KeepsPlaces limit size k (.primary c) := by
  delta KeepsPlaces script
  dsimp only
  split
  · next n span rest htokens =>
    have hpast := hc.past htokens
    exact .pure (.of_last hpast (fitsIn_int (Nat.le_of_lt hpast.lt) (.refl span)))
  · next d span rest htokens =>
    have hpast := hc.past htokens
    exact .pure (.of_last hpast (fitsIn_double (Nat.le_of_lt hpast.lt) (.refl span)))
  · next s span rest htokens =>
    have hpast := hc.past htokens
    exact .pure (.of_last hpast (fitsIn_string (Nat.le_of_lt hpast.lt) (.refl span)))
  · next span rest htokens =>
    have hpast := hc.past htokens
    refine .asks _ hpast.stands fun (inner, c₁) hinner => ?_
    refine .eat (fun _ => hinner.past.stands.here) fun close rest hclose => .pure ?_
    have hone := ((TreesRead.nil hpast).concat hinner).advance (hinner.past.stands.past hclose)
    have hfits := hone.fits inner (List.mem_singleton_self _)
    have hmerge : span.merge close = ⟨span.start, close.stop⟩ := hone.merge
    rw [hmerge]
    exact hone.tree hpast.le (hfits.fits.withSpan hfits.within)
  · next span rest htokens =>
    have hpast := hc.past htokens
    refine .asks _ hpast fun (elements, c₁) helements => ?_
    refine .eat (fun _ => helements.past.stands.here) fun close rest hclose => .pure ?_
    have hall := helements.advance (helements.past.stands.past hclose)
    exact hall.tree hpast.le (hall.fitsIn rfl rfl)
  · next span rest htokens =>
    have hpast := hc.past htokens
    refine .asks _ hpast fun (members, c₁) hmembers => ?_
    refine .eat (fun _ => hmembers.past.stands.here) fun close rest hclose => .pure ?_
    have hall := hmembers.advance (hmembers.past.stands.past hclose)
    exact hall.tree hpast.le (hall.fitsIn rfl rfl)
  · exact .throw hc.here

theorem places_items (close : Symbol) (hc : c.Past size k) :
    KeepsPlaces limit size k (.items close c) := by
  delta KeepsPlaces script
  dsimp only
  split
  · exact .pure (.nil hc)
  refine .asks _ hc.stands fun (first, c₁) hfirst => ?_
  have hone := (TreesRead.nil hc).concat hfirst
  dsimp only
  split
  · next span rest htokens =>
    have hpast := hone.past.stands.past htokens
    refine .asks _ hpast fun (others, c₂) hothers => .pure ?_
    exact hone.append hpast.le hothers
  · exact .pure hone

theorem places_entries (hc : c.Past size k) : KeepsPlaces limit size k (.entries c) := by
  delta KeepsPlaces script
  dsimp only
  split
  · exact .pure (.nil hc)
  refine .asks _ hc.stands fun (key, c₁) hkey => ?_
  refine .eat (fun _ => hkey.past.stands.here) fun colon rest hcolon => ?_
  have hvalued := hkey.past.stands.past hcolon
  refine .asks _ hvalued.stands fun (value, c₂) hvalue => ?_
  have hone := (((TreesRead.nil hc).concat hkey).advance hvalued).concat hvalue
  dsimp only
  split
  · next span rest htokens =>
    have hpast := hone.past.stands.past htokens
    refine .asks _ hpast fun (others, c₃) hothers => .pure ?_
    exact hone.append hpast.le hothers
  · exact .pure hone

/-! ## Programs -/

theorem places_printedAfterComma (hc : c.Past size k) :
    KeepsPlaces limit size k (.printedAfterComma c) := by
  delta KeepsPlaces script
  dsimp only
  split
  · next span rest htokens =>
    have hpast := hc.stands.past htokens
    refine .asks _ hpast.stands fun (first, c₁) hfirst => ?_
    refine .asks _ hfirst.past fun (others, c₂) hothers => .pure fun start fs h => ?_
    -- The trees before the comma, then the first one behind it, then the others.
    have hall := hothers start (fs ++ [first]) ((h.advance hpast).concat hfirst)
    rw [List.append_assoc] at hall
    exact hall
  · refine .pure fun start fs h => ?_
    rw [List.append_nil]
    exact h

theorem places_printed (hc : c.Past size k) : KeepsPlaces limit size k (.printed c) := by
  delta KeepsPlaces script
  dsimp only
  split
  · exact .pure (.nil hc)
  refine .asks _ hc.stands fun (first, c₁) hfirst => ?_
  refine .asks _ hfirst.past fun (others, c₂) hothers => .pure ?_
  exact hothers c.last [first] ((TreesRead.nil hc).concat hfirst)

theorem places_statement (hc : c.Stands size k) : KeepsPlaces limit size k (.statement c) := by
  delta KeepsPlaces script
  dsimp only
  split
  · next word span rest htokens =>
    have hpast := hc.past htokens
    exact .throw ⟨Nat.le_of_lt hpast.lt, hpast.stands.spaced.le⟩
  · next span rest htokens =>
    have hpast := hc.past htokens
    refine .asks _ hpast fun (arguments, c₁) harguments => ?_
    have harguments : TreesRead size span arguments c₁ := harguments
    dsimp only
    split
    · refine .pure (harguments.tree hpast.le ?_)
      rw [harguments.merge]
      exact fitsIn_printing (Nat.le_of_lt hpast.lt) harguments.past.le_stop
        ⟨Nat.le_refl _, harguments.stop⟩ harguments.fits (.refl _)
    · exact .throw harguments.past.stands.here
  · exact .call k hc fun _ h => h

theorem places_statements (found : List Expr) (hc : c.Stands size k) :
    KeepsPlaces limit size k (.statements found c) := by
  delta KeepsPlaces script
  dsimp only
  split
  · exact .pure ⟨[], (List.append_nil _).symm, .nil⟩
  · next span rest htokens =>
    have hpast := hc.past htokens
    refine .call _ hpast.stands fun all hall => ?_
    obtain ⟨es, rfl, hlaid⟩ := hall
    exact ⟨es, rfl, hlaid.mono hpast.le_stop⟩
  · refine .asks k hc fun (e, c₁) he => .call _ he.past.stands fun all hall => ?_
    obtain ⟨es, rfl, hlaid⟩ := hall
    refine ⟨e :: es, ?_, .cons he hlaid⟩
    rw [List.reverse_cons, List.append_assoc]
    rfl

theorem places_kept (size limit : Nat) : (places size).Kept limit := by
  intro j k hk
  cases k with
  | expression c => exact places_expression hk
  | chain p c => exact places_chain p hk
  | operand p c => exact places_operand p hk
  | chainRest p left c => exact places_chainRest hk
  | unary c => exact places_unary hk
  | suffixed c => exact places_suffixed hk
  | address start keys c => exact places_address hk
  | primary c => exact places_primary hk
  | items close c => exact places_items close hk
  | entries c => exact places_entries hk
  | printedAfterComma c => exact places_printedAfterComma hk
  | printed c => exact places_printed hk
  | statement c => exact places_statement hk
  | statements found c => exact places_statements found hk

/-- The statements that tokens spell fit and stand one behind another, or there is
    an error in the source. -/
theorem places_ofLexemes (limit : Nat) {tokens : List Lexeme} (h : Spaced size 0 tokens) :
    Promises (fun p => Laid size 0 p.statements)
      (fun e => e.span.start ≤ e.span.stop ∧ e.span.stop ≤ size)
      (Program.ofLexemes limit size tokens) := by
  have hstart : (Cursor.start size tokens).Stands size 0 := ⟨rfl, h⟩
  have hall := (places_kept size limit).promises (k := .statements [] (.start size tokens)) 0
    hstart
  refine hall.map fun all hlaid => ?_
  obtain ⟨es, rfl, hlaid⟩ := hlaid
  exact hlaid

end Grammar
end ScopeScript
