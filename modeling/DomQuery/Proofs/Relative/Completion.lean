import DomQuery.Proofs.Text.Trim
import DomQuery.Relative.Clause

/-!
# Completed texts

No marker dangles in a completed text (`isComplete_completeChars`), and completion leaves a text in
which none dangles as it is (`completeChars_eq_self`).

A marker dangles because of what stands behind it, and there blanks alone, the end of the text and a
comma are all the same.  So it does not matter to a marker whether the text ends behind it, goes on
with blanks, or goes on with a comma (`dangles_append`): a completed text can be cut at commas and
its pieces trimmed, and completed pieces can be joined with commas again.
-/

namespace DomQuery.Relative

variable {text first rest more : List Char} {c : Char}

/-- No marker in the text dangles. -/
def IsComplete (text : List Char) : Prop :=
  ∀ c rest, c :: rest <:+ text → isMarker c = true → dangles rest = false

theorem isComplete_nil : IsComplete [] := by
  intro c rest hsuffix
  exact absurd (List.suffix_nil.mp hsuffix) (by simp)

theorem isComplete_cons :
    IsComplete (c :: rest) ↔ (isMarker c = true → dangles rest = false) ∧ IsComplete rest := by
  constructor
  · intro h
    exact ⟨h c rest (List.suffix_refl _),
      fun d more hsuffix => h d more (hsuffix.trans (List.suffix_cons c rest))⟩
  · rintro ⟨hc, hrest⟩ d more hsuffix hd
    rcases List.suffix_cons_iff.mp hsuffix with heq | hsuffix
    · cases heq
      exact hc hd
    · exact hrest d more hsuffix hd

theorem IsComplete.of_suffix (h : IsComplete text) (hrest : rest <:+ text) : IsComplete rest :=
  fun c more hsuffix => h c more (hsuffix.trans hrest)

theorem isMarker_eq_false_of_isBlank (hc : Text.isBlank c = true) : isMarker c = false := by
  rw [Bool.eq_false_iff]
  intro hmarker
  simp only [isMarker, Bool.or_eq_true, beq_iff_eq] at hmarker
  rcases hmarker with (((rfl | rfl) | rfl) | rfl) | rfl <;> exact absurd hc (by decide)

/-! ### What a marker looks at -/

/-- Whether a marker dangles is told by the character behind it and by the first one that is not
blank. -/
theorem dangles_eq (rest : List Char) :
    dangles rest = (Text.trimStart rest).head?.all fun c =>
      c == ',' || (isMarker c && rest.head?.any Text.isBlank) := by
  unfold dangles
  split
  · next hnil => rw [hnil, List.head?_nil, Option.all_none]
  · next c more hcons => rw [hcons, List.head?_cons, Option.all_some]

theorem head?_completeChars (text : List Char) : (completeChars text).head? = text.head? := by
  cases text with
  | nil => rfl
  | cons c rest =>
      rw [completeChars]
      split <;> rfl

theorem head?_trimStart_completeChars (text : List Char) :
    (Text.trimStart (completeChars text)).head? = (Text.trimStart text).head? := by
  induction text with
  | nil => rfl
  | cons c rest ih =>
      cases hc : Text.isBlank c with
      | true =>
          have hsame : completeChars (c :: rest) = c :: completeChars rest := by
            rw [completeChars, isMarker_eq_false_of_isBlank hc]
            rfl
          rw [hsame, Text.trimStart, Text.trimStart, List.dropWhile_cons_of_pos hc,
            List.dropWhile_cons_of_pos hc]
          exact ih
      | false =>
          -- what is put in stands behind the first character
          obtain ⟨more, hmore⟩ : ∃ more, completeChars (c :: rest) = c :: more :=
            List.head?_eq_some_iff.mp (head?_completeChars (c :: rest))
          rw [hmore, Text.trimStart_cons hc, Text.trimStart_cons hc, List.head?_cons,
            List.head?_cons]

/-- A marker does not see whether the text behind it is completed. -/
theorem dangles_completeChars (rest : List Char) : dangles (completeChars rest) = dangles rest := by
  rw [dangles_eq, dangles_eq, head?_trimStart_completeChars, head?_completeChars]

/-- What counts as the end can stand behind a text or not. -/
theorem dangles_append (hmore : ∀ c ∈ (Text.trimStart more).head?, c = ',') (rest : List Char) :
    dangles (rest ++ more) = dangles rest := by
  by_cases hblank : ∀ c ∈ rest, Text.isBlank c = true
  · have hrest : Text.trimStart rest = [] := List.dropWhile_eq_nil_iff.mpr hblank
    have hboth : Text.trimStart (rest ++ more) = Text.trimStart more :=
      List.dropWhile_append_of_pos hblank
    rw [dangles_eq, dangles_eq, hrest, hboth, List.head?_nil, Option.all_none]
    cases hhead : (Text.trimStart more).head? with
    | none => rfl
    | some c => rw [Option.all_some, hmore c hhead, beq_self_eq_true, Bool.true_or]
  · have hne : Text.trimStart rest ≠ [] := mt List.dropWhile_eq_nil_iff.mp hblank
    have hboth : Text.trimStart (rest ++ more) = Text.trimStart rest ++ more := by
      rw [Text.trimStart, List.dropWhile_append, if_neg]
      · rfl
      · simpa [Text.trimStart] using hne
    have hrest : rest ≠ [] := by
      rintro rfl
      exact hne rfl
    rw [dangles_eq, dangles_eq, hboth, List.head?_append_of_ne_nil _ hne,
      List.head?_append_of_ne_nil _ hrest]

/-! ### Completion -/

/-- **No marker dangles in a completed text.** -/
theorem isComplete_completeChars (text : List Char) : IsComplete (completeChars text) := by
  induction text with
  | nil => exact isComplete_nil
  | cons c rest ih =>
      rw [completeChars]
      split
      · -- the universal selector stands between the marker and the rest
        refine isComplete_cons.mpr ⟨fun _ => rfl, ?_⟩
        refine isComplete_cons.mpr ⟨fun hspace => absurd hspace (by decide), ?_⟩
        exact isComplete_cons.mpr ⟨fun hstar => absurd hstar (by decide), ih⟩
      · next hbound =>
          refine isComplete_cons.mpr ⟨fun hc => ?_, ih⟩
          rw [dangles_completeChars]
          simpa [hc] using hbound

theorem completeChars_eq_self (h : IsComplete text) : completeChars text = text := by
  induction text with
  | nil => rfl
  | cons c rest ih =>
      obtain ⟨hc, hrest⟩ := isComplete_cons.mp h
      have hbound : (isMarker c && dangles rest) = false := by
        cases hmarker : isMarker c with
        | true => rw [hc hmarker, Bool.and_false]
        | false => rfl
      rw [completeChars, hbound, ih hrest]
      rfl

/-! ### Pieces of a completed text -/

theorem isComplete_append (hmore : ∀ c ∈ (Text.trimStart more).head?, c = ',') :
    IsComplete (first ++ more) ↔ IsComplete first ∧ IsComplete more := by
  induction first with
  | nil => simp [isComplete_nil]
  | cons c first ih =>
      rw [List.cons_append, isComplete_cons, isComplete_cons, ih, dangles_append hmore, and_assoc]

theorem isComplete_append_comma (first rest : List Char) :
    IsComplete (first ++ ',' :: rest) ↔ IsComplete first ∧ IsComplete rest := by
  have hcomma : Text.trimStart (',' :: rest) = ',' :: rest := Text.trimStart_cons (by decide) rest
  have hends : ∀ c ∈ (Text.trimStart (',' :: rest)).head?, c = ',' := by
    rw [hcomma]
    rintro c ⟨⟩
    rfl
  rw [isComplete_append hends, isComplete_cons]
  exact and_congr_right' (and_iff_right fun hmarker => absurd hmarker (by decide))

theorem IsComplete.trim (h : IsComplete text) : IsComplete (Text.trim text) := by
  have hstart := h.of_suffix (Text.trimStart_suffix text)
  rw [← Text.trim_append] at hstart
  refine ((isComplete_append ?_).mp hstart).1
  have hblank : Text.trimStart ((Text.trimStart text).rtakeWhile Text.isBlank) = [] :=
    List.dropWhile_eq_nil_iff.mpr fun c hc => List.mem_rtakeWhile_imp hc
  rw [hblank]
  simp

end DomQuery.Relative
