import DomQuery.Proofs.Relative.Completion

/-!
# Where completion puts a universal selector

A marker dangles where nothing follows that it could bind: blanks up to the end or a comma, or
blanks up to another marker (`Dangles`).  Completion decides by the original text, although what it
puts in stands in front of some markers and behind others.  All that a marker sees is the character
behind it and the first one that is not blank, and what is put in later changes neither.

So completion puts a universal selector behind the markers that dangle in the original text, and
behind no others (`completeChars_eq_insertUniversal`), and none dangles afterwards
(`danglesAt_complete`).
-/

namespace DomQuery.Relative

variable {text rest : List Char}

/-! ### What dangles -/

/-- What stands behind a marker that dangles: blanks or nothing up to the end or a comma, or at
least one blank up to another marker. -/
inductive Dangles : List Char → Prop where
  | ends {blanks : List Char} : Text.Blanks blanks → Dangles blanks
  | comma {blanks rest : List Char} : Text.Blanks blanks → Dangles (blanks ++ ',' :: rest)
  | marker {blanks rest : List Char} {c : Char} : Text.Blanks blanks → blanks ≠ [] →
      isMarker c = true → Dangles (blanks ++ c :: rest)

theorem isBlank_comma : Text.isBlank ',' = false := by decide

theorem isBlank_of_isMarker {c : Char} (hc : isMarker c = true) : Text.isBlank c = false := by
  by_contra hblank
  rw [Bool.not_eq_false] at hblank
  rw [isMarker_eq_false_of_isBlank hblank] at hc
  exact absurd hc (by simp)

theorem trimStart_append {blanks : List Char} {c : Char} (hblanks : Text.Blanks blanks)
    (hc : Text.isBlank c = false) (rest : List Char) :
    Text.trimStart (blanks ++ c :: rest) = c :: rest := by
  rw [Text.trimStart, List.dropWhile_append_of_pos hblanks]
  exact Text.trimStart_cons hc rest

theorem dangles_iff (rest : List Char) : dangles rest = true ↔ Dangles rest := by
  constructor
  · intro h
    have hsplit := List.takeWhile_append_dropWhile (p := Text.isBlank) (l := rest)
    have hblanks : Text.Blanks (rest.takeWhile Text.isBlank) :=
      fun c hc => List.mem_takeWhile_imp hc
    unfold dangles at h
    split at h
    · next hnil =>
        rw [← hsplit, show rest.dropWhile Text.isBlank = [] from hnil, List.append_nil]
        exact .ends hblanks
    · next c more hcons =>
        rw [← hsplit, show rest.dropWhile Text.isBlank = c :: more from hcons]
        rw [Bool.or_eq_true, beq_iff_eq, Bool.and_eq_true] at h
        rcases h with rfl | ⟨hc, hhead⟩
        · exact .comma hblanks
        · refine .marker hblanks ?_ hc
          -- the first character is blank, so the blanks are not nothing
          cases rest with
          | nil => exact absurd hhead (by simp)
          | cons first rest =>
              rw [List.head?_cons, Option.any_some] at hhead
              rw [List.takeWhile_cons_of_pos hhead]
              exact List.cons_ne_nil _ _
  · intro h
    cases h with
    | ends hblanks =>
        have hnil : Text.trimStart rest = [] := List.dropWhile_eq_nil_iff.mpr hblanks
        rw [dangles, hnil]
    | comma hblanks =>
        rw [dangles, trimStart_append hblanks isBlank_comma]
        rfl
    | @marker blanks more c hblanks hne hc =>
        obtain ⟨first, others, rfl⟩ := List.exists_cons_of_ne_nil hne
        rw [dangles, trimStart_append hblanks (isBlank_of_isMarker hc)]
        simp [hc, hblanks first (by simp)]

/-- The character at the position is a marker that dangles. -/
def DanglesAt (text : List Char) (position : Nat) : Prop :=
  ∃ c rest, text.drop position = c :: rest ∧ isMarker c = true ∧ Dangles rest

/-- Whether the text begins with a marker that dangles. -/
def beginsDangling : List Char → Bool
  | [] => false
  | c :: rest => isMarker c && dangles rest

theorem beginsDangling_iff (text : List Char) (position : Nat) :
    beginsDangling (text.drop position) = true ↔ DanglesAt text position := by
  unfold DanglesAt
  cases text.drop position with
  | nil => simp [beginsDangling]
  | cons c rest =>
      rw [beginsDangling, Bool.and_eq_true, dangles_iff]
      constructor
      · rintro ⟨hc, hrest⟩
        exact ⟨c, rest, rfl, hc, hrest⟩
      · rintro ⟨d, more, ⟨⟩, hd, hmore⟩
        exact ⟨hd, hmore⟩

instance (text : List Char) : DecidablePred (DanglesAt text) := fun position =>
  decidable_of_iff _ (beginsDangling_iff text position)

/-- A text is complete if no marker in it dangles. -/
theorem isComplete_iff (text : List Char) :
    IsComplete text ↔ ∀ position, ¬ DanglesAt text position := by
  constructor
  · rintro h position ⟨c, rest, hdrop, hc, hrest⟩
    have hbound := h c rest (hdrop ▸ List.drop_suffix position text) hc
    rw [(dangles_iff rest).mpr hrest] at hbound
    exact absurd hbound (by simp)
  · intro h c rest hsuffix hc
    rw [Bool.eq_false_iff]
    intro hrest
    refine h (text.length - (c :: rest).length) ⟨c, rest, ?_, hc, (dangles_iff rest).mp hrest⟩
    exact (List.suffix_iff_eq_drop.mp hsuffix).symm

/-! ### What completion puts in -/

/-- The text with ` *` behind the characters at the chosen positions. -/
def insertUniversal (text : List Char) (chosen : Nat → Prop) [DecidablePred chosen] : List Char :=
  text.zipIdx.flatMap fun (c, position) => if chosen position then [c, ' ', '*'] else [c]

/-- Positions are counted from the beginning of the text, of which `before` is the part that
completion has passed. -/
theorem flatMap_zipIdx_eq_completeChars (before text : List Char) :
    ((text.zipIdx before.length).flatMap fun (c, position) =>
      if DanglesAt (before ++ text) position then [c, ' ', '*'] else [c]) = completeChars text := by
  induction text generalizing before with
  | nil => rfl
  | cons c rest ih =>
      have hhere : DanglesAt (before ++ c :: rest) before.length ↔
          (isMarker c && dangles rest) = true := by
        rw [← beginsDangling_iff, List.drop_left]
        rfl
      have hrest := ih (before ++ [c])
      rw [List.length_append, List.length_singleton, List.append_assoc, List.singleton_append]
        at hrest
      rw [List.zipIdx_cons, List.flatMap_cons, hrest, completeChars]
      simp only [hhere]
      split <;> rfl

/-- Completion puts a universal selector behind the markers that dangle, and behind no others. -/
theorem completeChars_eq_insertUniversal (text : List Char) :
    completeChars text = insertUniversal text (DanglesAt text) :=
  (flatMap_zipIdx_eq_completeChars [] text).symm

theorem completeChars_eq_self_iff (text : List Char) :
    completeChars text = text ↔ IsComplete text := by
  constructor
  · intro h
    rw [← h]
    exact isComplete_completeChars text
  · exact completeChars_eq_self

/-- **Completion.**  No marker dangles in a completed text, a second completion changes nothing, and
a completed text is the original text with a universal selector behind the markers that dangle
there; so a text stays as it is if and only if none does. -/
theorem danglesAt_complete (text : String) :
    (∀ position, ¬ DanglesAt (complete text).toList position) ∧
      complete (complete text) = complete text ∧
      (complete text).toList = insertUniversal text.toList (DanglesAt text.toList) ∧
      (complete text = text ↔ ∀ position, ¬ DanglesAt text.toList position) := by
  have hchars : (complete text).toList = completeChars text.toList := String.toList_ofList
  have hcomplete : IsComplete (complete text).toList :=
    hchars ▸ isComplete_completeChars text.toList
  have hself : ∀ other : String, complete other = other ↔ IsComplete other.toList := by
    intro other
    rw [← completeChars_eq_self_iff, ← String.toList_inj, complete, String.toList_ofList]
  refine ⟨(isComplete_iff _).mp hcomplete, (hself _).mpr hcomplete, ?_, ?_⟩
  · rw [hchars, completeChars_eq_insertUniversal]
  · rw [hself, isComplete_iff]

/-- Of three markers with blanks between them every one dangles, and one that has its operand does
not. -/
example : complete "- + ~ >a" = "- * + * ~ * >a" := by decide +kernel

end DomQuery.Relative
