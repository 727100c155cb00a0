import DomQuery.Selector.Lexer

/-!
# Reading makes progress

Every reader of the lexer returns a suffix of the text that it is given, and no token is empty.
So a text is read to its end in finitely many steps (`length_next_lt`).
-/

namespace DomQuery.Lexer

/-! ### Readers return suffixes -/

theorem name_suffix (text : List Char) : (name text).2 <:+ text := by
  fun_induction name text with
  | case1 => exact List.suffix_refl _
  | case2 c rest _ _ ih => exact ih.trans (List.suffix_cons c rest)
  | case3 c rest _ _ _ ih => exact (ih.trans (escape_suffix rest)).trans (List.suffix_cons c rest)
  | case4 => exact List.suffix_refl _

theorem string_suffix (quote : Char) (text : List Char) : (string quote text).2 <:+ text := by
  fun_induction string quote text with
  | case1 => exact List.suffix_refl _
  | case2 rest => exact List.suffix_cons _ rest
  | case3 rest => exact List.suffix_cons _ rest
  | case4 => exact List.nil_suffix
  | case5 _ _ rest ih => exact ih.trans ((List.suffix_cons _ _).trans (List.suffix_cons _ _))
  | case6 _ d rest _ _ _ ih =>
      exact (ih.trans (escape_suffix _)).trans (List.suffix_cons _ _)
  | case7 c rest _ _ _ _ ih => exact ih.trans (List.suffix_cons c rest)

theorem sign_append (text : List Char) : (sign text).1 ++ (sign text).2 = text := by
  unfold sign
  split <;> rfl

theorem fraction_append (text : List Char) : (fraction text).1 ++ (fraction text).2 = text := by
  unfold fraction
  split
  · split <;> simp
  · rfl

theorem number_append (text : List Char) : (number text).1 ++ (number text).2 = text := by
  simp only [number, List.append_assoc, fraction_append, List.takeWhile_append_dropWhile,
    sign_append]

theorem startsFraction_sign {text : List Char} (h : startsNumber text = true) :
    startsFraction (sign text).2 = true := by
  unfold startsNumber at h
  unfold sign
  split at h <;> exact h

/-- A text that begins with a number gives up at least one character to it. -/
theorem number_ne_nil {text : List Char} (h : startsNumber text = true) :
    (number text).1 ≠ [] := by
  have hfraction := startsFraction_sign h
  intro hnil
  simp only [number, List.append_eq_nil_iff] at hnil
  obtain ⟨⟨-, hwhole⟩, hdecimals⟩ := hnil
  generalize (sign text).2 = unsigned at hfraction hwhole hdecimals
  unfold startsFraction at hfraction
  split at hfraction
  · next c rest => simp [fraction, hfraction] at hdecimals
  · next c rest _ => simp [hfraction] at hwhole
  · exact absurd hfraction (by decide)

theorem startsEscape_of_startsName {c : Char} {rest : List Char}
    (h : startsName (c :: rest) = true) (hc : isNameChar c = false) :
    startsEscape (c :: rest) = true := by
  have hdash : c ≠ '-' := by
    rintro rfl
    exact absurd hc (by decide)
  have hletter : isNameStart c = false := by
    simp only [isNameChar, Bool.or_eq_false_iff] at hc
    exact hc.1.1
  rw [startsName] at h
  · simpa [hletter] using h
  · exact hdash

/-- A text that begins with a name character or with an escape gives up at least that to its
name. -/
theorem length_name_lt {c : Char} {rest : List Char}
    (h : isNameChar c = true ∨ startsEscape (c :: rest) = true) :
    (name (c :: rest)).2.length < (c :: rest).length := by
  rw [name]
  split
  · exact Nat.lt_succ_of_le (name_suffix rest).length_le
  · next hchar =>
      have hescape : startsEscape (c :: rest) = true := h.resolve_left hchar
      simp only [hescape, if_true]
      exact Nat.lt_succ_of_le ((name_suffix _).trans (escape_suffix rest)).length_le

theorem numeric_suffix (text : List Char) : (numeric text).2 <:+ (number text).2 := by
  unfold numeric
  dsimp only
  split
  · exact name_suffix _
  · exact List.suffix_refl _

theorem named_suffix (text : List Char) : (named text).2 <:+ (name text).2 := by
  unfold named
  dsimp only
  split
  · next h => rw [h]; exact List.suffix_cons _ _
  · exact List.suffix_refl _

theorem hash_suffix (text : List Char) : (hash text).2 <:+ text := by
  unfold hash
  split
  · exact name_suffix _
  · exact List.suffix_refl _

theorem quoted_suffix (quote : Char) (text : List Char) : (quoted quote text).2 <:+ text := by
  unfold quoted
  dsimp only
  split <;> exact string_suffix _ _

/-- Reading a token goes past its first character. -/
theorem token_suffix {c : Char} {rest : List Char} {t : Token}
    (h : (token c rest).1 = .ok (some t)) : (token c rest).2 <:+ rest := by
  have hproper : ∀ after : List Char, after <:+ c :: rest →
      after.length < (c :: rest).length → after <:+ rest := by
    intro after hsuffix hlt
    rcases List.suffix_cons_iff.mp hsuffix with rfl | hrest
    · exact absurd hlt (Nat.lt_irrefl _)
    · exact hrest
  revert h
  unfold token
  dsimp only
  split
  · intro _
    exact List.dropWhile_suffix _
  split
  · intro _
    exact quoted_suffix c rest
  split
  · intro _
    exact hash_suffix rest
  split
  · next hnumber =>
      intro _
      have happend := number_append (c :: rest)
      have hsuffix : (number (c :: rest)).2 <:+ c :: rest := ⟨_, happend⟩
      refine (numeric_suffix _).trans (hproper _ hsuffix ?_)
      have hlength := congrArg List.length happend
      have hpos := List.length_pos_iff.mpr (number_ne_nil hnumber)
      rw [List.length_append] at hlength
      omega
  split
  · next hname =>
      intro _
      refine (named_suffix _).trans (hproper _ (name_suffix _) (length_name_lt ?_))
      cases hchar : isNameChar c with
      | true => exact Or.inl rfl
      | false => exact Or.inr (startsEscape_of_startsName hname hchar)
  split
  · intro h
    exact absurd h (by simp)
  · intro _
    exact List.suffix_refl _

mutual

theorem dropComments_suffix {text rest : List Char} (h : dropComments text = some rest) :
    rest <:+ text := by
  unfold dropComments at h
  split at h
  · exact (closeComment_suffix h).trans ((List.suffix_cons _ _).trans (List.suffix_cons _ _))
  · cases h
    exact List.suffix_refl _

theorem closeComment_suffix {text rest : List Char} (h : closeComment text = some rest) :
    rest <:+ text := by
  unfold closeComment at h
  split at h
  · exact (dropComments_suffix h).trans ((List.suffix_cons _ _).trans (List.suffix_cons _ _))
  · exact (closeComment_suffix h).trans (List.suffix_cons _ _)
  · exact absurd h (by simp)

end

/-- Reading a token shortens the text. -/
theorem length_next_lt {text : List Char} {t : Token} (h : (next text).1 = .ok (some t)) :
    (next text).2.length < text.length := by
  revert h
  unfold next
  split
  · intro h
    exact absurd h (by simp)
  · intro h
    exact absurd h (by simp)
  · next c rest hcomments =>
      intro h
      have hrest := (token_suffix h).length_le
      have htext := (dropComments_suffix hcomments).length_le
      simp only [List.length_cons] at htext
      omega

end DomQuery.Lexer
