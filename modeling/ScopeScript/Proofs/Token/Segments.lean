/-
  ScopeScript.Proofs.Token.Segments

  Parts of a text that lexes. Tokens in a row stand in a part of their own, which
  begins where the first of them does and ends where the last one does. Cut out, the
  part lexes as these tokens alone: a token that was the longest is the longest still
  where less follows it, and all that a gap is told by is the next character.
-/
import ScopeScript.Proofs.Token.Concatenation
import ScopeScript.Proofs.Token.Places

namespace ScopeScript

/-! ## Less behind -/

/-- Less of the text has no longer matches. -/
theorem NoLonger.of_prefix {n : Nat} {u text : List Char} (h : NoLonger n text)
    (hu : u <+: text) : NoLonger n u :=
  fun r v hv hstart => h r v hv (hstart.trans hu)

/-- A gap is one before whatever begins alike. -/
theorem Gap.congr {gap rest rest' : List Char} (h : Gap rest gap)
    (hhead : rest'.head? = rest.head?) : Gap rest' gap := by
  induction h with
  | nil => exact .nil
  | blanks hw _ ih => exact .blanks hw ih
  | comment hw hend _ ih =>
    refine .comment hw ?_ ih
    rwa [EndsLine, List.head?_append, hhead, ← List.head?_append]

/-! ## From another byte on -/

/-- What lexes further on lexes from where it would begin otherwise. -/
theorem Lexes.exists_unshift {start stop k : Nat} {text rest : List Char} {ts : List Lexeme}
    (h : Lexes (start + k) text ts stop rest) :
    ∃ ts' stop', Lexes start text ts' stop' rest ∧
      ts = ts'.map (Lexeme.relocate (Span.shift k)) := by
  generalize hplace : start + k = place at h
  induction h generalizing start with
  | gap hgap => exact ⟨[], _, .gap hgap, rfl⟩
  | @token place place' stop gap word text rest t ts hgap hplace' ht hlongest _ ih =>
    subst hplace
    have hmoved : start + Text.byteLength gap + Text.byteLength word + k =
        place' + Text.byteLength word := by
      omega
    obtain ⟨ts', stop', h, rfl⟩ := ih hmoved
    refine ⟨_, stop', .token hgap rfl ht hlongest h, ?_⟩
    rw [List.map_cons, Lexeme.relocate, Span.shift, hmoved, hplace', Nat.add_right_comm start]

/-! ## Tokens in a row -/

/-- The tokens from `t` on, up to those in `us`, stand in a part of the text, and the
    others behind it. -/
inductive Segment (start : Nat) (text : List Char) (t : Lexeme) (ts us : List Lexeme)
    (stop : Nat) (rest : List Char) : Prop where
  | intro {first last : Nat} {gap body behind : List Char} (htext : text = gap ++ (body ++ behind))
    (hgap : Gap (body ++ behind) gap) (hne : body ≠ [])
    (hfirst : first = start + Text.byteLength gap) (hlast : last = first + Text.byteLength body)
    (hstart : t.span.start = first) (hstop : (lastSpan t.span ts).stop = last)
    (hbody : Lexes first body (t :: ts) last []) (hbehind : Lexes last behind us stop rest)

theorem Token.Reads.ne_nil {t : Token} {word : List Char} (h : t.Reads word) : word ≠ [] := by
  obtain ⟨r, hword, -⟩ := h.exists_rule
  obtain ⟨c, v, rfl, -⟩ := begins_of_mem hword
  exact List.cons_ne_nil c v

/-- Tokens in a row can be cut out of a text. -/
theorem Lexes.segment {start stop : Nat} {text rest : List Char} {t : Lexeme}
    {ts us : List Lexeme} (h : Lexes start text (t :: (ts ++ us)) stop rest) :
    Segment start text t ts us stop rest := by
  induction ts generalizing start text t with
  | nil =>
    cases h with
    | @token _ place _ gap word text _ t _ hgap hplace ht hlongest h =>
      exact .intro rfl hgap ht.ne_nil hplace rfl rfl rfl (.of_word ht place) h
  | cons u ts ih =>
    cases h with
    | @token _ place _ gap word text _ t _ hgap hplace ht hlongest h =>
      -- The part of the other tokens goes on where the word ends, with a gap between.
      obtain @⟨first, last, gap', body, behind, rfl, hgap', hne, hfirst, hlast, -, hstop, hbody,
        hbehind⟩ := ih h
      have hlast' : last = place + Text.byteLength (word ++ (gap' ++ body)) := by
        rw [hlast, hfirst, Text.byteLength_append, Text.byteLength_append]
        omega
      have hword : word ++ (gap' ++ body) <+: word ++ (gap' ++ (body ++ behind)) := by
        rw [List.prefix_append_right_inj, ← List.append_assoc]
        exact List.prefix_append _ _
      -- The next word tells that gap, with or without what stands behind the part.
      have hhead : body.head? = (body ++ behind).head? := by
        rw [List.head?_append_of_ne_nil _ hne]
      have hrest : Lexes (place + Text.byteLength word) (gap' ++ body) (u :: ts) last [] := by
        rw [hfirst] at hbody
        exact hbody.prepend (hgap'.congr hhead)
      refine .intro ?_ ?_ ?_ hplace hlast' rfl hstop
        (hrest.of_token rfl (hlongest.of_prefix hword) ht) hbehind
      · simp only [List.append_assoc]
      · rw [List.append_assoc, List.append_assoc]
        exact hgap
      · exact List.append_ne_nil_of_left_ne_nil ht.ne_nil _

end ScopeScript
