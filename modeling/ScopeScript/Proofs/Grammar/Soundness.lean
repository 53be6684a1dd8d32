/-
  ScopeScript.Proofs.Grammar.Soundness

  What the parser accepts, the grammar derives. For each call that gives a tree there is
  a derivation that reads the same tokens within the same levels and means that tree,
  and any other limit with room for those levels gives the tree too. The induction is
  that on productions: each production of a call is one of derivations, and what has to
  be seen in it is how the levels of its parts add up.
-/
import ScopeScript.Proofs.Grammar.Productions
import ScopeScript.Proofs.Grammar.Reading

namespace ScopeScript
namespace Grammar

open ScopeScript.Expr

variable {limit : Nat}

/-- There is a derivation of what the call reads, with the meaning of what it gives. The
    rest of a chain or an address means what it makes of the part before it, and its
    levels end only with the whole. -/
def Sound (limit : Nat) : (k : Call) → k.Gives → Prop
  | .expression c, (e, c') => ∃ d : Derivation .expression, d.Reads limit c c' ∧
    d.meaning = e.bare ∧ c'.level = c.level ∧
    ∀ m, d.levels ≤ m - c.level → Succeeds m (.expression c) (e, c')
  | .chain p c, (e, c') => ∃ d : Derivation (.chain p), d.Reads limit c c' ∧
    d.meaning = e.bare ∧ c'.level = c.level ∧
    ∀ m, d.levels ≤ m - c.level → Succeeds m (.chain p c) (e, c')
  | .operand p c, (e, c') => ∃ d : Derivation (.operand p), d.Reads limit c c' ∧
    d.meaning = e.bare ∧ c'.level = c.level ∧
    ∀ m, d.levels ≤ m - c.level → Succeeds m (.operand p c) (e, c')
  | .chainRest p left c, (e, c') => ∃ d : Derivation (.chainRest p), d.Reads limit c c' ∧
    d.meaning left.bare = e.bare ∧
    ∀ m, d.levels ≤ m - c.level → Succeeds m (.chainRest p left c) (e, c')
  | .unary c, (e, c') => ∃ d : Derivation .unary, d.Reads limit c c' ∧
    d.meaning = e.bare ∧ c'.level = c.level ∧
    ∀ m, d.levels ≤ m - c.level → Succeeds m (.unary c) (e, c')
  | .suffixed c, (e, c') => ∃ d : Derivation .suffixed, d.Reads limit c c' ∧
    d.meaning = e.bare ∧ c'.level = c.level ∧
    ∀ m, d.levels ≤ m - c.level → Succeeds m (.suffixed c) (e, c')
  | .address start keys c, (all, c') => ∃ d : Derivation .segments, d.Reads limit c c' ∧
    d.meaning (bareAll keys) = bareAll all ∧
    ∀ m, d.levels ≤ m - c.level → Succeeds m (.address start keys c) (all, c')
  | .primary c, (e, c') => ∃ d : Derivation .primary, d.Reads limit c c' ∧
    d.meaning = e.bare ∧ c'.level = c.level ∧
    ∀ m, d.levels ≤ m - c.level → Succeeds m (.primary c) (e, c')
  | .items close c, (es, c') => ∃ d : Derivation .items, d.Reads limit c c' ∧
    d.meaning = bareAll es ∧ c'.level = c.level ∧
    ∀ m, d.levels ≤ m - c.level → Succeeds m (.items close c) (es, c')
  | .entries c, (es, c') => ∃ d : Derivation .entries, d.Reads limit c c' ∧
    d.meaning = bareEntries es ∧ c'.level = c.level ∧
    ∀ m, d.levels ≤ m - c.level → Succeeds m (.entries c) (es, c')
  | .printedAfterComma c, (es, c') => ∃ d : Derivation .printedRest, d.Reads limit c c' ∧
    d.meaning = bareAll es ∧ c'.level = c.level ∧
    ∀ m, d.levels ≤ m - c.level → Succeeds m (.printedAfterComma c) (es, c')
  | .printed c, (es, c') => ∃ d : Derivation .printed, d.Reads limit c c' ∧
    d.meaning = bareAll es ∧ c'.level = c.level ∧
    ∀ m, d.levels ≤ m - c.level → Succeeds m (.printed c) (es, c')
  | .statement c, (e, c') => ∃ d : Derivation .statement, d.Reads limit c c' ∧
    d.meaning = e.bare ∧ c'.level = c.level ∧
    ∀ m, d.levels ≤ m - c.level → Succeeds m (.statement c) (e, c')
  | .statements _ _, _ => True

/-- The calls in a production succeed, and there are derivations of what they read. -/
abbrev SoundParts (limit : Nat) (k : Call) (g : k.Gives) : Prop :=
  Production limit (fun k g => Succeeds limit k g ∧ Sound limit k g) k g

section Calls

variable {p : Precedence} {c c' : Cursor} {e left : Expr}

/-! ## Expressions and chains -/

/-- The level of an expression is open while its parts are read. -/
theorem sound_expression (h : SoundParts limit (.expression c) (e, c')) :
    Sound limit (.expression c) (e, c') := by
  -- The expression has opened a level, which gives room for one more than those
  -- of its parts.
  cases h with
  | value hlevel hleft hno =>
    obtain ⟨-, dl, hdl, hmeaning, -, hroom⟩ := hleft
    have hlevels := hdl.levels
    rw [Cursor.level_deeper] at hlevels hroom
    refine ⟨.value dl, ⟨hdl.targets, ?_, hdl.ahead⟩, hmeaning, rfl, fun m hm => ?_⟩
    · show dl.levels + 1 ≤ limit - c.level
      omega
    · rw [Derivation.levels] at hm
      exact .of_production (.value (by omega) (hroom m (by omega)) hno)
  | @assign _ c₁ c₂ left right s span rest sign keys hlevel hleft htokens hsign htarget hright =>
    obtain ⟨-, dl, hdl, hmeaning, -, hroom⟩ := hleft
    obtain ⟨-, dr, hdr, hmeaning', -, hroom'⟩ := hright
    -- The target was checked to be an identifier, which its bare form is too.
    obtain ⟨hidentifier, rfl⟩ := target_eq_ok_iff.1 htarget
    have hlevels := hdl.levels
    have hlevels' := hdr.levels
    simp only [Cursor.level_atLevel, Cursor.level_deeper] at hlevels hlevels' hroom hroom'
    refine ⟨.assign (ofSymbol?_eq_some_iff.1 hsign) dl dr, ⟨⟨?_, hdl.targets, hdr.targets⟩, ?_, ?_⟩,
      ?_, rfl, fun m hm => ?_⟩
    · rw [hmeaning, isIdentifier_bare]
      exact hidentifier
    · show max dl.levels dr.levels + 1 ≤ limit - c.level
      omega
    · have hahead := hdl.ahead
      have hahead' := hdr.ahead
      simp only [Cursor.ahead_deeper, Cursor.ahead_atLevel] at hahead hahead'
      rw [hahead, Cursor.ahead_of_tokens htokens, hahead', Derivation.yield, List.append_assoc,
        List.cons_append]
      rfl
    · rw [Derivation.meaning, hmeaning, hmeaning', bare_assignment, location_bare]
    · rw [Derivation.levels] at hm
      exact .of_production (.assign (by omega) (hroom m (by omega)) htokens hsign htarget
        (hroom' m (by omega)))

/-- A chain is its first operand and what follows it, in the level that the operand ends at. -/
theorem sound_chain (h : SoundParts limit (.chain p c) (e, c')) :
    Sound limit (.chain p c) (e, c') := by
  cases h with
  | chain hfirst hrest =>
    obtain ⟨-, df, hdf, hmeaning, hsame, hroom⟩ := hfirst
    obtain ⟨-, dr, hdr, hmeaning', hroom'⟩ := hrest
    have hlevels := hdf.levels
    have hlevels' := hdr.levels
    rw [hsame] at hlevels' hroom'
    refine ⟨.chain df dr, ⟨⟨hdf.targets, hdr.targets⟩, ?_, ?_⟩, ?_, rfl, fun m hm => ?_⟩
    · show max df.levels dr.levels ≤ limit - c.level
      omega
    · rw [hdf.ahead, hdr.ahead, Derivation.yield, List.append_assoc]
      rfl
    · rw [Derivation.meaning, hmeaning, hmeaning']
    · rw [Derivation.levels] at hm
      exact .of_production (.chain (hroom m (by omega)) (hroom' m (by omega)))

/-- An operand of a chain is a tighter chain, and one of the tightest is no chain. -/
theorem sound_operand (h : SoundParts limit (.operand p c) (e, c')) :
    Sound limit (.operand p c) (e, c') := by
  cases h with
  | tighter hp h =>
    obtain ⟨-, d, hd, hmeaning, hsame, hroom⟩ := h
    exact ⟨.tighter (tighter?_eq_some_iff.1 hp) d, ⟨hd.targets, hd.levels, hd.ahead⟩, hmeaning,
      hsame, fun m hm => .of_production (.tighter hp (hroom m hm))⟩
  | operand hp h =>
    obtain ⟨-, d, hd, hmeaning, hsame, hroom⟩ := h
    -- All other precedences have a tighter one.
    obtain rfl : p = .exponential := by cases p <;> first | rfl | cases hp
    exact ⟨.operand d, ⟨hd.targets, hd.levels, hd.ahead⟩, hmeaning, hsame,
      fun m hm => .of_production (.operand hp (hroom m hm))⟩

/-- What follows the first operand opens a level for every further one. -/
theorem sound_chainRest (h : SoundParts limit (.chainRest p left c) (e, c')) :
    Sound limit (.chainRest p left c) (e, c') := by
  cases h with
  | chainMore htokens hop hlevel hright hrest =>
    obtain ⟨-, dr, hdr, hmeaning, hsame, hroom⟩ := hright
    obtain ⟨-, ds, hds, hmeaning', hroom'⟩ := hrest
    obtain ⟨hprec, rfl⟩ := operator?_eq_some_iff.1 hop
    -- The next operand is read in the level of this one, which is still open.
    have hlevels := hdr.levels
    have hlevels' := hds.levels
    rw [hsame] at hlevels' hroom'
    simp only [Cursor.level_deeper, Cursor.level_past] at hlevels hlevels' hroom hroom'
    refine ⟨.chainMore hprec dr ds, ⟨⟨hdr.targets, hds.targets⟩, ?_, ?_⟩, ?_, fun m hm => ?_⟩
    · show max dr.levels ds.levels + 1 ≤ limit - c.level
      omega
    · have hahead := hdr.ahead
      rw [Cursor.ahead_deeper, hds.ahead] at hahead
      rw [Cursor.ahead_of_tokens htokens, hahead, Derivation.yield, List.cons_append,
        List.append_assoc]
    · rw [Derivation.meaning, hmeaning, ← hmeaning', bare_operation]
    · rw [Derivation.levels] at hm
      exact .of_production (.chainMore htokens hop (by omega) (hroom m (by omega))
        (hroom' m (by omega)))
  | chainEnd hend =>
    exact ⟨.chainEnd, ⟨trivial, Nat.zero_le _, rfl⟩, rfl,
      fun m _ => .of_production (.chainEnd hend)⟩

/-! ## Operands -/

/-- Of the signs only the minus opens a level. -/
theorem sound_unary (h : SoundParts limit (.unary c) (e, c')) :
    Sound limit (.unary c) (e, c') := by
  cases h with
  | minus htokens hlevel hinner =>
    obtain ⟨-, d, hd, hmeaning, -, hroom⟩ := hinner
    have hlevels := hd.levels
    simp only [Cursor.level_deeper, Cursor.level_past] at hlevels hroom
    refine ⟨.minus d, ⟨hd.targets, ?_, ?_⟩, ?_, rfl, fun m hm => ?_⟩
    · show d.levels + 1 ≤ limit - c.level
      omega
    · have hahead := hd.ahead
      rw [Cursor.ahead_deeper] at hahead
      rw [Cursor.ahead_of_tokens htokens, hahead]
      rfl
    · rw [Derivation.meaning, hmeaning, bare_negation]
    · rw [Derivation.levels] at hm
      exact .of_production (.minus htokens (by omega) (hroom m (by omega)))
  | step htokens hop hinner htarget =>
    obtain ⟨-, d, hd, hmeaning, hsame, hroom⟩ := hinner
    -- What is stepped was checked to be an identifier.
    obtain ⟨hidentifier, rfl⟩ := target_eq_ok_iff.1 htarget
    refine ⟨.step (stepOp?_eq_some_iff.1 hop) d, ⟨⟨?_, hd.targets⟩, hd.levels, ?_⟩, ?_, hsame,
      fun m hm => .of_production (.step htokens hop (hroom m hm) htarget)⟩
    · rw [hmeaning, isIdentifier_bare]
      exact hidentifier
    · rw [Cursor.ahead_of_tokens htokens, hd.ahead]
      rfl
    · rw [Derivation.meaning, hmeaning, bare_step, location_bare]
  | unsigned hsign h =>
    obtain ⟨-, d, hd, hmeaning, hsame, hroom⟩ := h
    exact ⟨.unsigned d, ⟨hd.targets, hd.levels, hd.ahead⟩, hmeaning, hsame,
      fun m hm => .of_production (.unsigned hsign (hroom m hm))⟩

/-- An address closes what its calls opened. -/
theorem sound_suffixed (h : SoundParts limit (.suffixed c) (e, c')) :
    Sound limit (.suffixed c) (e, c') := by
  cases h with
  | @address _ c₁ s span rest keys htokens hkeys hend =>
    obtain ⟨-, d, hd, hmeaning, hroom⟩ := hkeys
    refine ⟨.address s d, ⟨hd.targets, hd.levels, ?_⟩, ?_, rfl,
      fun m hm => .of_production (.address htokens (hroom m hm) hend)⟩
    · rw [Cursor.ahead_of_tokens htokens, hd.ahead]
      rfl
    · simp only [bareAll, bare] at hmeaning
      rw [Derivation.meaning, bare, hmeaning]
  | @addressStep _ c₁ s span signSpan rest behind keys sign op htokens hkeys hsign hop =>
    obtain ⟨-, d, hd, hmeaning, hroom⟩ := hkeys
    refine ⟨.addressStep (stepOp?_eq_some_iff.1 hop) s d, ⟨hd.targets, hd.levels, ?_⟩, ?_, rfl,
      fun m hm => .of_production (.addressStep htokens (hroom m hm) hsign hop)⟩
    · rw [Cursor.ahead_of_tokens htokens, hd.ahead, Cursor.ahead_of_tokens hsign, Derivation.yield,
        List.cons_append, List.append_assoc]
      rfl
    · simp only [bareAll, bare] at hmeaning
      rw [Derivation.meaning, bare_step, hmeaning]
  | primary hname h =>
    obtain ⟨-, d, hd, hmeaning, hsame, hroom⟩ := h
    exact ⟨.primary d, ⟨hd.targets, hd.levels, hd.ahead⟩, hmeaning, hsame,
      fun m hm => .of_production (.primary hname (hroom m hm))⟩

/-- The segments of an address are read one behind another, and each is put behind the keys
    so far. -/
theorem sound_address {start : Span} {keys all : List Expr}
    (h : SoundParts limit (.address start keys c) (all, c')) :
    Sound limit (.address start keys c) (all, c') := by
  cases h with
  | @property _ dot span _ _ _ _ s rest htokens hrest =>
    obtain ⟨-, d, hd, hmeaning, hroom⟩ := hrest
    refine ⟨.property s d, ⟨hd.targets, hd.levels, ?_⟩, ?_,
      fun m hm => .of_production (.property htokens (hroom m hm))⟩
    · have hahead := hd.ahead
      rw [Cursor.ahead, htokens, Derivation.yield, List.cons_append, List.cons_append, ← hahead]
      rfl
    · rw [← hmeaning, bareAll_append]
      rfl
  | index htokens hindex hclose hrest =>
    -- The index is read at the level of the address, and leaves it so.
    obtain ⟨-, di, hdi, hmeaning, hsame, hroom⟩ := hindex
    obtain ⟨-, d, hd, hmeaning', hroom'⟩ := hrest
    have hlevels := hdi.levels
    have hlevels' := hd.levels
    rw [Cursor.level_past] at hlevels hlevels' hsame hroom hroom'
    rw [hsame] at hlevels' hroom'
    refine ⟨.index di d, ⟨⟨hdi.targets, hd.targets⟩, ?_, ?_⟩, ?_, fun m hm => ?_⟩
    · show max di.levels d.levels ≤ limit - c.level
      omega
    · rw [Cursor.ahead_of_tokens htokens, hdi.ahead, Cursor.ahead_of_tokens hclose, hd.ahead,
        Derivation.yield, List.cons_append, List.append_assoc]
      rfl
    · rw [← hmeaning', bareAll_append, Derivation.meaning, hmeaning]
      rfl
    · rw [Derivation.levels] at hm
      exact .of_production (.index htokens (hroom m (by omega)) hclose (hroom' m (by omega)))
  | call htokens hlevel harguments hclose hrest =>
    obtain ⟨-, da, hda, hmeaning, hsame, hroom⟩ := harguments
    obtain ⟨-, d, hd, hmeaning', hroom'⟩ := hrest
    -- The level of the call stays open until the address ends.
    have hlevels := hda.levels
    have hlevels' := hd.levels
    simp only [Cursor.level_past, Cursor.level_deeper] at hlevels hlevels' hsame hroom hroom'
    rw [hsame] at hlevels' hroom'
    refine ⟨.call da d, ⟨⟨hda.targets, hd.targets⟩, ?_, ?_⟩, ?_, fun m hm => ?_⟩
    · show max da.levels d.levels + 1 ≤ limit - c.level
      omega
    · have hahead := hda.ahead
      rw [Cursor.ahead_deeper] at hahead
      rw [Cursor.ahead_of_tokens htokens, hahead, Cursor.ahead_of_tokens hclose, hd.ahead,
        Derivation.yield, List.cons_append, List.append_assoc]
      rfl
    · rw [← hmeaning', Derivation.meaning, hmeaning]
      rfl
    · rw [Derivation.levels] at hm
      exact .of_production (.call htokens (by omega) (hroom m (by omega)) hclose
        (hroom' m (by omega)))
  | segmentsEnd hend =>
    exact ⟨.segmentsEnd, ⟨trivial, Nat.zero_le _, rfl⟩, rfl,
      fun m _ => .of_production (.segmentsEnd hend)⟩

/-- Brackets open no level. -/
theorem sound_primary (h : SoundParts limit (.primary c) (e, c')) :
    Sound limit (.primary c) (e, c') := by
  cases h with
  | @int _ n span rest htokens =>
    exact ⟨.int n, ⟨trivial, Nat.zero_le _, Cursor.ahead_of_tokens htokens⟩, rfl, rfl,
      fun m _ => .of_production (.int htokens)⟩
  | @double _ x span rest htokens =>
    exact ⟨.double x, ⟨trivial, Nat.zero_le _, Cursor.ahead_of_tokens htokens⟩, rfl, rfl,
      fun m _ => .of_production (.double htokens)⟩
  | @string _ s span rest htokens =>
    exact ⟨.string s, ⟨trivial, Nat.zero_le _, Cursor.ahead_of_tokens htokens⟩, rfl, rfl,
      fun m _ => .of_production (.string htokens)⟩
  | parens htokens hinner hclose =>
    obtain ⟨-, d, hd, hmeaning, hsame, hroom⟩ := hinner
    refine ⟨.parens d, ⟨hd.targets, hd.levels, ?_⟩, ?_, hsame,
      fun m hm => .of_production (.parens htokens (hroom m hm) hclose)⟩
    · rw [Cursor.ahead_of_tokens htokens, hd.ahead, Cursor.ahead_of_tokens hclose,
        Derivation.yield, List.cons_append, List.append_assoc]
      rfl
    · -- Parentheses only change the range of the tree.
      rw [bare_withSpan]
      exact hmeaning
  | list htokens helements hclose =>
    obtain ⟨-, d, hd, hmeaning, hsame, hroom⟩ := helements
    refine ⟨.list d, ⟨hd.targets, hd.levels, ?_⟩, ?_, hsame,
      fun m hm => .of_production (.list htokens (hroom m hm) hclose)⟩
    · rw [Cursor.ahead_of_tokens htokens, hd.ahead, Cursor.ahead_of_tokens hclose,
        Derivation.yield, List.cons_append, List.append_assoc]
      rfl
    · rw [Derivation.meaning, hmeaning, bare]
  | object htokens hmembers hclose =>
    obtain ⟨-, d, hd, hmeaning, hsame, hroom⟩ := hmembers
    refine ⟨.object d, ⟨hd.targets, hd.levels, ?_⟩, ?_, hsame,
      fun m hm => .of_production (.object htokens (hroom m hm) hclose)⟩
    · rw [Cursor.ahead_of_tokens htokens, hd.ahead, Cursor.ahead_of_tokens hclose,
        Derivation.yield, List.cons_append, List.append_assoc]
      rfl
    · rw [Derivation.meaning, hmeaning, bare]

/-! ## Lists between brackets -/

/-- Each item is read at the level of the first. -/
theorem sound_items {close : Symbol} {es : List Expr}
    (h : SoundParts limit (.items close c) (es, c')) : Sound limit (.items close c) (es, c') := by
  cases h with
  | itemsNone hclose =>
    exact ⟨.itemsNone, ⟨trivial, Nat.zero_le _, rfl⟩, rfl, rfl,
      fun m _ => .of_production (.itemsNone hclose)⟩
  | itemsOne hclose hfirst hend =>
    obtain ⟨-, d, hd, hmeaning, hsame, hroom⟩ := hfirst
    exact ⟨.itemsOne d, ⟨hd.targets, hd.levels, hd.ahead⟩, congrArg (fun e => [e]) hmeaning, hsame,
      fun m hm => .of_production (.itemsOne hclose (hroom m hm) hend)⟩
  | itemsMore hclose hfirst htokens hothers =>
    obtain ⟨-, df, hdf, hmeaning, hsame, hroom⟩ := hfirst
    obtain ⟨-, d, hd, hmeaning', hsame', hroom'⟩ := hothers
    have hlevels := hdf.levels
    have hlevels' := hd.levels
    rw [Cursor.level_past, hsame] at hlevels' hsame' hroom'
    refine ⟨.itemsMore df d, ⟨⟨hdf.targets, hd.targets⟩, ?_, ?_⟩, ?_, hsame', fun m hm => ?_⟩
    · show max df.levels d.levels ≤ limit - c.level
      omega
    · rw [hdf.ahead, Cursor.ahead_of_tokens htokens, hd.ahead, Derivation.yield,
        List.append_assoc]
      rfl
    · rw [Derivation.meaning, hmeaning, hmeaning', bareAll]
    · rw [Derivation.levels] at hm
      exact .of_production (.itemsMore hclose (hroom m (by omega)) htokens (hroom' m (by omega)))

/-- Keys and values are read at the level of the first key. -/
theorem sound_entries {es : List (Expr × Expr)} (h : SoundParts limit (.entries c) (es, c')) :
    Sound limit (.entries c) (es, c') := by
  cases h with
  | entriesNone hclose =>
    exact ⟨.entriesNone, ⟨trivial, Nat.zero_le _, rfl⟩, rfl, rfl,
      fun m _ => .of_production (.entriesNone hclose)⟩
  | entriesOne hclose hkey hcolon hvalue hend =>
    obtain ⟨-, dk, hdk, hmeaning, hsame, hroom⟩ := hkey
    obtain ⟨-, dv, hdv, hmeaning', hsame', hroom'⟩ := hvalue
    have hlevels := hdk.levels
    have hlevels' := hdv.levels
    rw [Cursor.level_past, hsame] at hlevels' hsame' hroom'
    refine ⟨.entriesOne dk dv, ⟨⟨hdk.targets, hdv.targets⟩, ?_, ?_⟩, ?_, hsame', fun m hm => ?_⟩
    · show max dk.levels dv.levels ≤ limit - c.level
      omega
    · rw [hdk.ahead, Cursor.ahead_of_tokens hcolon, hdv.ahead, Derivation.yield,
        List.append_assoc]
      rfl
    · rw [Derivation.meaning, hmeaning, hmeaning', bareEntries, bareEntries]
    · rw [Derivation.levels] at hm
      exact .of_production (.entriesOne hclose (hroom m (by omega)) hcolon (hroom' m (by omega))
        hend)
  | entriesMore hclose hkey hcolon hvalue htokens hothers =>
    obtain ⟨-, dk, hdk, hmeaning, hsame, hroom⟩ := hkey
    obtain ⟨-, dv, hdv, hmeaning', hsame', hroom'⟩ := hvalue
    obtain ⟨-, d, hd, hmeaning'', hsame'', hroom''⟩ := hothers
    -- All three begin at the level of the first.
    have hlevels := hdk.levels
    have hlevels' := hdv.levels
    have hlevels'' := hd.levels
    rw [Cursor.level_past, hsame] at hlevels' hsame' hroom'
    rw [Cursor.level_past, hsame'] at hlevels'' hsame'' hroom''
    refine ⟨.entriesMore dk dv d, ⟨⟨hdk.targets, hdv.targets, hd.targets⟩, ?_, ?_⟩, ?_, hsame'',
      fun m hm => ?_⟩
    · show max (max dk.levels dv.levels) d.levels ≤ limit - c.level
      omega
    · rw [hdk.ahead, Cursor.ahead_of_tokens hcolon, hdv.ahead, Cursor.ahead_of_tokens htokens,
        hd.ahead, Derivation.yield, List.append_assoc, List.cons_append, List.append_assoc]
      rfl
    · rw [Derivation.meaning, hmeaning, hmeaning', hmeaning'', bareEntries]
    · rw [Derivation.levels] at hm
      exact .of_production (.entriesMore hclose (hroom m (by omega)) hcolon (hroom' m (by omega))
        htokens (hroom'' m (by omega)))

/-! ## Statements -/

/-- No argument of a print statement leaves a level open for the next. -/
theorem sound_printedAfterComma {es : List Expr}
    (h : SoundParts limit (.printedAfterComma c) (es, c')) :
    Sound limit (.printedAfterComma c) (es, c') := by
  cases h with
  | printedMore htokens hfirst hothers =>
    obtain ⟨-, df, hdf, hmeaning, hsame, hroom⟩ := hfirst
    obtain ⟨-, d, hd, hmeaning', hsame', hroom'⟩ := hothers
    have hlevels := hdf.levels
    have hlevels' := hd.levels
    rw [Cursor.level_past] at hlevels hsame hroom
    rw [hsame] at hlevels' hsame' hroom'
    refine ⟨.printedMore df d, ⟨⟨hdf.targets, hd.targets⟩, ?_, ?_⟩, ?_, hsame', fun m hm => ?_⟩
    · show max df.levels d.levels ≤ limit - c.level
      omega
    · rw [Cursor.ahead_of_tokens htokens, hdf.ahead, hd.ahead, Derivation.yield, List.cons_append,
        List.append_assoc]
    · rw [Derivation.meaning, hmeaning, hmeaning', bareAll]
    · rw [Derivation.levels] at hm
      exact .of_production (.printedMore htokens (hroom m (by omega)) (hroom' m (by omega)))
  | printedEnd hend =>
    exact ⟨.printedEnd, ⟨trivial, Nat.zero_le _, rfl⟩, rfl, rfl,
      fun m _ => .of_production (.printedEnd hend)⟩

theorem sound_printed {es : List Expr} (h : SoundParts limit (.printed c) (es, c')) :
    Sound limit (.printed c) (es, c') := by
  cases h with
  | printedNone hend =>
    exact ⟨.printedNone, ⟨trivial, Nat.zero_le _, rfl⟩, rfl, rfl,
      fun m _ => .of_production (.printedNone hend)⟩
  | printedSome hend hfirst hothers =>
    obtain ⟨-, df, hdf, hmeaning, hsame, hroom⟩ := hfirst
    obtain ⟨-, d, hd, hmeaning', hsame', hroom'⟩ := hothers
    have hlevels := hdf.levels
    have hlevels' := hd.levels
    rw [hsame] at hlevels' hsame' hroom'
    refine ⟨.printedSome df d, ⟨⟨hdf.targets, hd.targets⟩, ?_, ?_⟩, ?_, hsame', fun m hm => ?_⟩
    · show max df.levels d.levels ≤ limit - c.level
      omega
    · rw [hdf.ahead, hd.ahead, Derivation.yield, List.append_assoc]
    · rw [Derivation.meaning, hmeaning, hmeaning', bareAll]
    · rw [Derivation.levels] at hm
      exact .of_production (.printedSome hend (hroom m (by omega)) (hroom' m (by omega)))

/-- A statement is a print statement or an expression, and has no level of its own. -/
theorem sound_statement (h : SoundParts limit (.statement c) (e, c')) :
    Sound limit (.statement c) (e, c') := by
  cases h with
  | print htokens harguments hend =>
    obtain ⟨-, d, hd, hmeaning, hsame, hroom⟩ := harguments
    refine ⟨.print d, ⟨hd.targets, hd.levels, ?_⟩, ?_, hsame,
      fun m hm => .of_production (.print htokens (hroom m hm) hend)⟩
    · rw [Cursor.ahead_of_tokens htokens, hd.ahead, Derivation.yield, List.cons_append]
    · rw [Derivation.meaning, hmeaning, bare_printing]
  | statement hkeyword hsign h =>
    obtain ⟨-, d, hd, hmeaning, hsame, hroom⟩ := h
    exact ⟨.statement d, ⟨hd.targets, hd.levels, hd.ahead⟩, hmeaning, hsame,
      fun m hm => .of_production (.statement hkeyword hsign (hroom m hm))⟩

end Calls

/-- What the parser accepts, the grammar derives. -/
theorem Succeeds.sound {k : Call} {g : k.Gives} (h : Succeeds limit k g) : Sound limit k g := by
  refine h.induct fun k g hparts => ?_
  cases k with
  | expression c => exact sound_expression hparts
  | chain p c => exact sound_chain hparts
  | operand p c => exact sound_operand hparts
  | chainRest p left c => exact sound_chainRest hparts
  | unary c => exact sound_unary hparts
  | suffixed c => exact sound_suffixed hparts
  | address start keys c => exact sound_address hparts
  | primary c => exact sound_primary hparts
  | items close c => exact sound_items hparts
  | entries c => exact sound_entries hparts
  | printedAfterComma c => exact sound_printedAfterComma hparts
  | printed c => exact sound_printed hparts
  | statement c => exact sound_statement hparts
  | statements found c => trivial

/-- No level that is opened in a statement outlasts it. -/
theorem level_of_statement {c c' : Cursor} {e : Expr} (h : Parses (statement limit c) e c') :
    c'.level = c.level := by
  have hsucceeds : Succeeds limit (.statement c) (e, c') := parses_iff.1 h
  obtain ⟨-, -, -, hsame, -⟩ := hsucceeds.sound
  exact hsame

/-! ## Programs -/

/-- A token list is split into semicolons and yields of derivations, within the
    limit and assigning to identifiers only, and these mean the given trees. -/
inductive Splits (limit : Nat) : List Token → List Expr → Prop where
  | nil : Splits limit [] []
  | semicolon {ts : List Token} {es : List Expr} (h : Splits limit ts es) :
    Splits limit (.symbol .semicolon :: ts) es
  | statement {ts : List Token} {es : List Expr} (d : Derivation .statement)
    (targets : d.TargetsIdentifiers) (levels : d.levels ≤ limit) (h : Splits limit ts es) :
    Splits limit (d.yield ++ ts) (d.meaning :: es)

/-- A token list is split into semicolons and the yields of the given
    derivations. -/
inductive Spells : List Token → List (Derivation .statement) → Prop where
  | nil : Spells [] []
  | semicolon {ts : List Token} {ds : List (Derivation .statement)} (h : Spells ts ds) :
    Spells (.symbol .semicolon :: ts) ds
  | statement {ts : List Token} {ds : List (Derivation .statement)} (d : Derivation .statement)
    (h : Spells ts ds) : Spells (d.yield ++ ts) (d :: ds)

/-- Derivations within the limit split the tokens that they spell. -/
theorem Spells.splits {ts : List Token} {ds : List (Derivation .statement)} (h : Spells ts ds)
    (hd : ∀ d ∈ ds, d.TargetsIdentifiers ∧ d.levels ≤ limit) :
    Splits limit ts (ds.map (·.meaning)) := by
  induction h with
  | nil => exact .nil
  | semicolon _ ih => exact .semicolon (ih hd)
  | statement d _ ih =>
    obtain ⟨⟨ht, hlevels⟩, hds⟩ := List.forall_mem_cons.1 hd
    exact .statement d ht hlevels (ih hds)

/-- Statements that are parsed have derivations, which spell the tokens, and any
    limit with room for their levels gives the statements too. -/
theorem spells_of_statementsFrom {found all : List Expr} {c : Cursor} (hlevel : c.level = 0)
    (h : statementsFrom limit c found = .ok all) :
    ∃ es ds, all = found.reverse ++ es ∧ Spells c.ahead ds ∧ ds.map (·.meaning) = es.map bare ∧
      (∀ d ∈ ds, d.TargetsIdentifiers ∧ d.levels ≤ limit) ∧
      ∀ m, (∀ d ∈ ds, d.levels ≤ m) → statementsFrom m c found = .ok all := by
  revert hlevel
  refine statementsFrom_induct (motive := fun found c all => c.level = 0 →
    ∃ es ds, all = found.reverse ++ es ∧ Spells c.ahead ds ∧ ds.map (·.meaning) = es.map bare ∧
      (∀ d ∈ ds, d.TargetsIdentifiers ∧ d.levels ≤ limit) ∧
      ∀ m, (∀ d ∈ ds, d.levels ≤ m) → statementsFrom m c found = .ok all)
    ?done ?semicolon ?statement h
  case done =>
    intro found c htokens _
    refine ⟨[], [], (List.append_nil _).symm, ?_, rfl, nofun, fun m _ => ?_⟩
    · rw [Cursor.ahead, htokens]
      exact .nil
    · exact Succeeds.of_production (.programEnd htokens)
  case semicolon =>
    intro found c span rest all htokens ih hlevel
    obtain ⟨es, ds, hall, hspells, hmeaning, hlevels, hroom⟩ := ih hlevel
    refine ⟨es, ds, hall, ?_, hmeaning, hlevels, fun m hm => ?_⟩
    · rw [Cursor.ahead_of_tokens htokens]
      exact .semicolon hspells
    · exact Succeeds.of_production (.programSemicolon htokens (hroom m hm))
  case statement =>
    intro found c e c₁ all hne hsign he ih hlevel
    have hstatement : Succeeds limit (.statement c) (e, c₁) := parses_iff.1 he
    obtain ⟨d, hd, hmeaning, hsame, hroom⟩ := hstatement.sound
    -- A statement leaves no level open, so the next one begins at none again.
    obtain ⟨es, ds, hall, hspells, hmeanings, hlevels, hrooms⟩ := ih (hsame.trans hlevel)
    have hfirst := hd.levels
    rw [hlevel] at hroom hfirst
    refine ⟨e :: es, d :: ds, ?_, ?_, ?_, List.forall_mem_cons.2 ⟨⟨hd.targets, hfirst⟩, hlevels⟩,
      fun m hm => ?_⟩
    · rw [hall, List.reverse_cons, List.append_assoc]
      rfl
    · rw [hd.ahead]
      exact .statement d hspells
    · rw [List.map_cons, List.map_cons, hmeaning, hmeanings]
    · obtain ⟨hm, hms⟩ := List.forall_mem_cons.1 hm
      exact Succeeds.of_production (.programStatement hne hsign (hroom m hm) (hrooms m hms))

/-- The derivations of the statements that are parsed split the tokens. -/
theorem splits_of_statementsFrom {found all : List Expr} {c : Cursor} (hlevel : c.level = 0)
    (h : statementsFrom limit c found = .ok all) :
    ∃ es, all = found.reverse ++ es ∧ Splits limit c.ahead (es.map bare) := by
  obtain ⟨es, ds, hall, hspells, hmeaning, hlevels, -⟩ := spells_of_statementsFrom hlevel h
  exact ⟨es, hall, hmeaning ▸ hspells.splits hlevels⟩

end Grammar
end ScopeScript
