import DomQuery.Proofs.Relative.Completion
import DomQuery.Proofs.Relative.Cutting

/-!
# Cutting and joining again

The scan knows nothing of a text but its pieces: with commas between them they are the text again,
and pieces that are cut off one by one are the pieces of the text that they are joined to
(`separated_pieces`, `Separated.pieces_intercalate`).

The clauses of a text are its pieces without the blanks around them, and without the empty ones.
Joined, they are cut into the same clauses, unless trimming went too far: where a piece ends in a
blank behind a backslash, the trimmed piece ends in this backslash, and in the joined text it takes
the comma for itself.  `ClauseList.rejoins_iff` says that nothing else goes wrong.  The converse
goes by length: trimming makes no text longer, so where cutting and trimming the joined clauses
gives them back, nothing was cut off and they are the pieces.

Completion has no part in it, since no marker dangles in the joined clauses of a completed text.
And the joined clauses stay the same text in any case, because a comma that a backslash takes stands
where it stood.
-/

namespace DomQuery

namespace Relative

variable {before : ScanState} {text first second rest : List Char} {c : Char}
  {parts : List (List Char)}

/-! ### Cuts -/

/-- Outside brackets and quotes the scan passes over the text, and is outside of them behind it. -/
def IsClosed (text : List Char) : Prop :=
  stateAfter (.unquoted 0) text = some (.unquoted 0)

/-- No comma cuts the text. -/
def IsUncut (text : List Char) : Prop :=
  pieces 0 none text = [text]

theorem eq_of_step_eq_none (h : step before c = none) : c = ',' ∧ before = .unquoted 0 := by
  obtain ⟨depth, quote⟩ := before
  cases quote with
  | some quote => exact absurd h (by simp [step])
  | none =>
      unfold step at h
      dsimp only at h
      split_ifs at h with hcut
      exact ⟨hcut.1, by rw [hcut.2, ScanState.unquoted]⟩

/-- Either the whole text is a piece, or there is a first cut. -/
theorem pieces_cases (before : ScanState) (text : List Char) :
    pieces before.depth before.quote text = [text] ∨
      ∃ piece more, text = piece ++ ',' :: more ∧ stateAfter before piece = some (.unquoted 0) := by
  induction text using scanInduction generalizing before with
  | nil => exact Or.inl rfl
  | lone => exact Or.inl rfl
  | escaped c rest ih =>
      rcases ih before with hwhole | ⟨piece, more, rfl, hpiece⟩
      · left
        rw [pieces, hwhole]
        rfl
      · exact Or.inr ⟨'\\' :: c :: piece, more, rfl, hpiece⟩
  | cons c rest hc ih =>
      cases hstep : step before c with
      | none =>
          obtain ⟨rfl, rfl⟩ := eq_of_step_eq_none hstep
          exact Or.inr ⟨[], rest, rfl, rfl⟩
      | some next =>
          rcases ih next with hwhole | ⟨piece, more, rfl, hpiece⟩
          · left
            rw [pieces_cons hc, hstep]
            dsimp only
            rw [hwhole]
            rfl
          · refine Or.inr ⟨c :: piece, more, rfl, ?_⟩
            rw [stateAfter_cons hc, hstep, Option.bind_some, hpiece]

theorem exists_pieces_eq_cons (text : List Char) :
    ∃ first others, pieces 0 none text = first :: others := by
  obtain ⟨first, others, hpieces, -⟩ := exists_pieces (.unquoted 0) text
  exact ⟨first, others, hpieces⟩

theorem IsClosed.isUncut (h : IsClosed text) : IsUncut text :=
  pieces_of_stateAfter h

theorem IsClosed.pieces_append (h : IsClosed first) (rest : List Char) :
    pieces 0 none (first ++ rest) = first.foldr consFirst (pieces 0 none rest) :=
  Relative.pieces_append h rest

theorem IsClosed.pieces_append_comma (h : IsClosed first) (rest : List Char) :
    pieces 0 none (first ++ ',' :: rest) = first :: pieces 0 none rest :=
  Relative.pieces_append_comma h rest

theorem IsClosed.not_isUncut_append_comma (h : IsClosed first) (rest : List Char) :
    ¬ IsUncut (first ++ ',' :: rest) := by
  intro huncut
  obtain ⟨piece, others, hpieces⟩ := exists_pieces_eq_cons rest
  rw [IsUncut, h.pieces_append_comma, hpieces] at huncut
  exact absurd (congrArg List.length huncut) (by simp)

/-- A part of a text is cut only where the text is cut. -/
theorem IsUncut.of_append (h : IsUncut (first ++ second)) : IsUncut first := by
  rcases pieces_cases (.unquoted 0) first with hwhole | ⟨piece, more, rfl, hpiece⟩
  · exact hwhole
  · rw [List.append_assoc, List.cons_append] at h
    exact absurd h (IsClosed.not_isUncut_append_comma hpiece _)

/-! ### Blanks around a piece -/

theorem isPlain_of_isBlank (hc : Text.isBlank c = true) : IsPlain c := by
  intro hmem
  simp only [List.mem_cons, List.not_mem_nil, or_false] at hmem
  rcases hmem with rfl | rfl | rfl | rfl | rfl | rfl | rfl | rfl <;> exact absurd hc (by decide)

theorem scans_trimStart (text : List Char) :
    Scans (.unquoted 0) text (.unquoted 0) (Text.trimStart text) :=
  scans_dropWhile (ScanState.isProper_unquoted 0) (fun _ => isPlain_of_isBlank) text

theorem isUncut_trimStart (h : IsUncut text) : IsUncut (Text.trimStart text) := by
  obtain ⟨blanks, htext, hblanks⟩ := scans_trimStart text
  rcases pieces_cases (.unquoted 0) (Text.trimStart text) with hwhole | ⟨piece, more, heq, hpiece⟩
  · exact hwhole
  · -- the blanks in front of a cut would not have kept it from the text
    have hclosed : IsClosed (blanks ++ piece) := by
      rw [IsClosed, stateAfter_append hblanks, hpiece]
    rw [htext, heq, ← List.append_assoc] at h
    exact absurd h (hclosed.not_isUncut_append_comma more)

theorem IsUncut.trim (h : IsUncut text) : IsUncut (Text.trim text) := by
  have hstart := isUncut_trimStart h
  rw [← Text.trim_append] at hstart
  exact hstart.of_append

theorem IsClosed.trimStart (h : IsClosed text) : IsClosed (Text.trimStart text) := by
  rw [IsClosed, ← (scans_trimStart text).stateAfter_eq]
  exact h

/-- A trimmed piece is closed, unless trimming leaves a backslash of an escape. -/
theorem IsClosed.trim (h : IsClosed text) (hescape : ¬ EndsEscaping (Text.trim text)) :
    IsClosed (Text.trim text) := by
  have hstart := h.trimStart
  rw [← Text.trim_append] at hstart
  exact stateAfter_of_append hstart (ScanState.isProper_unquoted 0)
    (fun c hc => isPlain_of_isBlank (List.mem_rtakeWhile_imp hc)) hescape

/-- The character that a backslash takes does not matter to the scan. -/
theorem stateAfter_append_escaped (h : EndsEscaping first) (c d : Char) (rest : List Char) :
    stateAfter before (first ++ c :: rest) = stateAfter before (first ++ d :: rest) := by
  induction first using scanInduction generalizing before with
  | nil => exact absurd h (by decide)
  | lone => rfl
  | escaped e first ih =>
      rw [endsEscaping_escaped] at h
      exact ih h
  | cons e first he ih =>
      rw [endsEscaping_cons he] at h
      rw [List.cons_append, List.cons_append, stateAfter_cons he, stateAfter_cons he]
      exact congrArg _ (funext fun next => ih h)

/-- A backslash that trimming leaves takes the comma behind it, as it took the blank. -/
theorem IsClosed.trim_append_comma (h : IsClosed text) (hescape : EndsEscaping (Text.trim text)) :
    IsClosed (Text.trim text ++ [',']) := by
  have hstart := h.trimStart
  have hsplit := Text.trim_append text
  cases hblanks : (Text.trimStart text).rtakeWhile Text.isBlank with
  | nil =>
      rw [hblanks, List.append_nil] at hsplit
      rw [hsplit] at hescape
      exact absurd hescape (not_endsEscaping_of_stateAfter hstart)
  | cons c blanks =>
      have hplain : ∀ d ∈ blanks, IsPlain d := by
        intro d hd
        have hblank : d ∈ (Text.trimStart text).rtakeWhile Text.isBlank := by simp [hblanks, hd]
        exact isPlain_of_isBlank (List.mem_rtakeWhile_imp hblank)
      have hcomma : ¬ EndsEscaping (Text.trim text ++ [',']) :=
        not_endsEscaping_of_getLast? (by simp)
      rw [← hsplit, hblanks, IsClosed, stateAfter_append_escaped hescape c ',',
        List.append_cons] at hstart
      exact stateAfter_of_append hstart (ScanState.isProper_unquoted 0) hplain hcomma

/-! ### Separated pieces -/

/-- The texts are pieces of the text that they are joined to: no comma cuts any of them, and all
but the last are closed, so that the commas between them cut. -/
structure Separated (parts : List (List Char)) : Prop where
  isUncut : ∀ part ∈ parts, IsUncut part
  isClosed : ∀ part ∈ parts.dropLast, IsClosed part

theorem Separated.cons (h : Separated parts) (hfirst : IsClosed first) :
    Separated (first :: parts) where
  isUncut := List.forall_mem_cons.mpr ⟨hfirst.isUncut, h.isUncut⟩
  isClosed := by
    intro part hpart
    cases parts with
    | nil => exact absurd hpart (by simp)
    | cons next others =>
        rw [List.dropLast_cons_cons] at hpart
        rcases List.mem_cons.mp hpart with rfl | hpart
        · exact hfirst
        · exact h.isClosed part hpart

/-- A text is its pieces with commas between them, and they are separated. -/
theorem separated_pieces (text : List Char) :
    Separated (pieces 0 none text) ∧ [','].intercalate (pieces 0 none text) = text := by
  induction hlength : text.length using Nat.strongRecOn generalizing text with
  | _ n ih =>
      rcases pieces_cases (.unquoted 0) text with hwhole | ⟨piece, more, rfl, hpiece⟩
      · have huncut : IsUncut text := hwhole
        rw [huncut]
        refine ⟨⟨?_, by simp⟩, List.intercalate_singleton⟩
        exact List.forall_mem_singleton.mpr huncut
      · have hclosed : IsClosed piece := hpiece
        have hless : more.length < n := by
          rw [← hlength]
          simp only [List.length_append, List.length_cons]
          omega
        obtain ⟨hseparated, hjoined⟩ := ih more.length hless more rfl
        have hne : pieces 0 none more ≠ [] := by
          obtain ⟨first, others, hpieces⟩ := exists_pieces_eq_cons more
          exact hpieces ▸ List.cons_ne_nil first others
        rw [hclosed.pieces_append_comma]
        refine ⟨hseparated.cons hclosed, ?_⟩
        rw [List.intercalate_cons_of_ne_nil hne, hjoined, List.append_assoc, List.singleton_append]

/-- Separated texts are the pieces of the text that they are joined to. -/
theorem Separated.pieces_intercalate (h : Separated parts) (hne : parts ≠ []) :
    pieces 0 none ([','].intercalate parts) = parts := by
  induction parts with
  | nil => exact absurd rfl hne
  | cons part parts ih =>
      cases parts with
      | nil =>
          rw [List.intercalate_singleton]
          exact h.isUncut part (by simp)
      | cons next others =>
          have hpart : IsClosed part := h.isClosed part (by simp)
          have hothers : Separated (next :: others) :=
            ⟨fun other hother => h.isUncut other (by simp [hother]),
              fun other hother => h.isClosed other (by simp [hother])⟩
          rw [List.intercalate_cons_cons, List.append_assoc, List.singleton_append,
            hpart.pieces_append_comma, ih hothers (List.cons_ne_nil next others)]

/-! ### Trimmed pieces -/

/-- The texts without the blanks around them, empty ones left out. -/
def trimmed (parts : List (List Char)) : List (List Char) :=
  (parts.map Text.trim).filter fun part => !part.isEmpty

theorem trimmed_cons (part : List Char) (parts : List (List Char)) :
    trimmed (part :: parts) =
      if Text.trim part = [] then trimmed parts else Text.trim part :: trimmed parts := by
  rw [trimmed, List.map_cons, List.filter_cons]
  cases Text.trim part <;> rfl

/-- The pieces of a text, trimmed. -/
def trimmedPieces (text : List Char) : List (List Char) :=
  trimmed (pieces 0 none text)

theorem exists_of_mem_trimmedPieces {part : List Char} (h : part ∈ trimmedPieces text) :
    ∃ piece ∈ pieces 0 none text, Text.trim piece = part ∧ part ≠ [] := by
  obtain ⟨hpart, hne⟩ := List.mem_filter.mp h
  obtain ⟨piece, hpiece, rfl⟩ := List.mem_map.mp hpart
  exact ⟨piece, hpiece, rfl, by simpa using hne⟩

theorem exists_of_mem_dropLast_trimmedPieces {part : List Char}
    (h : part ∈ (trimmedPieces text).dropLast) :
    ∃ piece ∈ (pieces 0 none text).dropLast, Text.trim piece = part := by
  -- leaving out other pieces makes none of the pieces in front of the last one the last
  have hsublist : (trimmedPieces text).dropLast.Sublist
      ((pieces 0 none text).map Text.trim).dropLast := by
    rw [← List.reverse_sublist, ← List.tail_reverse, ← List.tail_reverse]
    exact (List.reverse_sublist.mpr List.filter_sublist).tail
  have hpart := hsublist.subset h
  rw [← List.map_dropLast] at hpart
  exact List.mem_map.mp hpart

theorem isUncut_of_mem_trimmedPieces {part : List Char} (h : part ∈ trimmedPieces text) :
    IsUncut part := by
  obtain ⟨piece, hpiece, rfl, -⟩ := exists_of_mem_trimmedPieces h
  exact ((separated_pieces text).1.isUncut piece hpiece).trim

/-- Trimmed pieces are separated, if trimming leaves no backslash of an escape in front of a
comma. -/
theorem separated_trimmedPieces (h : ∀ part ∈ (trimmedPieces text).dropLast, ¬ EndsEscaping part) :
    Separated (trimmedPieces text) where
  isUncut := fun _ => isUncut_of_mem_trimmedPieces
  isClosed := by
    intro part hpart
    obtain ⟨piece, hpiece, rfl⟩ := exists_of_mem_dropLast_trimmedPieces hpart
    exact ((separated_pieces text).1.isClosed piece hpiece).trim (h _ hpart)

/-- Trimming leaves the text as it is, and the text is not empty. -/
structure IsTrimmed (text : List Char) : Prop where
  ne_nil : text ≠ []
  trim_eq : Text.trim text = text

theorem isTrimmed_of_mem_trimmedPieces {part : List Char} (h : part ∈ trimmedPieces text) :
    IsTrimmed part := by
  obtain ⟨piece, -, rfl, hne⟩ := exists_of_mem_trimmedPieces h
  exact ⟨hne, Text.trim_trim piece⟩

theorem trimmedPieces_eq_pieces (h : ∀ piece ∈ pieces 0 none text, IsTrimmed piece) :
    trimmedPieces text = pieces 0 none text := by
  have htrim : (pieces 0 none text).map Text.trim = (pieces 0 none text).map id :=
    List.map_congr_left fun piece hpiece => (h piece hpiece).trim_eq
  rw [trimmedPieces, trimmed, htrim, List.map_id, List.filter_eq_self]
  intro piece hpiece
  simpa using (h piece hpiece).ne_nil

/-- Trimmed pieces that are separated are cut and trimmed to themselves. -/
theorem trimmedPieces_intercalate (h : Separated (trimmedPieces text)) :
    trimmedPieces ([','].intercalate (trimmedPieces text)) = trimmedPieces text := by
  by_cases hne : trimmedPieces text = []
  · rw [hne]
    rfl
  · have hpieces := h.pieces_intercalate hne
    rw [trimmedPieces_eq_pieces, hpieces]
    intro piece hpiece
    rw [hpieces] at hpiece
    exact isTrimmed_of_mem_trimmedPieces hpiece

theorem IsTrimmed.append_comma (hfirst : IsTrimmed first) (hsecond : IsTrimmed second) :
    IsTrimmed (first ++ ',' :: second) where
  ne_nil := by simp
  trim_eq := by
    refine Text.trim_eq_self (fun c hc => ?_) (fun c hc => ?_)
    · rw [List.head?_append_of_ne_nil _ hfirst.ne_nil, ← hfirst.trim_eq] at hc
      exact Text.of_mem_head?_trim hc
    · rw [List.append_cons, List.getLast?_append_of_ne_nil _ hsecond.ne_nil,
        ← hsecond.trim_eq] at hc
      exact Text.of_mem_getLast?_trim hc

/-- Also where a backslash takes the comma between them, trimmed texts are joined to a text with
trimmed pieces. -/
theorem isTrimmed_of_mem_pieces_intercalate (htrimmed : ∀ part ∈ parts, IsTrimmed part)
    (huncut : ∀ part ∈ parts, IsUncut part)
    (hclosed : ∀ part ∈ parts.dropLast, IsClosed part ∨ IsClosed (part ++ [',']))
    (hne : parts ≠ []) :
    ∀ piece ∈ pieces 0 none ([','].intercalate parts), IsTrimmed piece := by
  induction parts with
  | nil => exact absurd rfl hne
  | cons part parts ih =>
      have hpart := htrimmed part (by simp)
      cases parts with
      | nil =>
          rw [List.intercalate_singleton, huncut part (by simp)]
          exact List.forall_mem_singleton.mpr hpart
      | cons next others =>
          have hrest := ih (fun other hother => htrimmed other (by simp [hother]))
            (fun other hother => huncut other (by simp [hother]))
            (fun other hother => hclosed other (by simp [hother])) (List.cons_ne_nil next others)
          rw [List.intercalate_cons_cons, List.append_assoc, List.singleton_append]
          rcases hclosed part (by simp) with hcut | htaken
          · rw [hcut.pieces_append_comma]
            exact List.forall_mem_cons.mpr ⟨hpart, hrest⟩
          · -- the first piece behind is joined to this one
            obtain ⟨piece, more, hpieces⟩ :=
              exists_pieces_eq_cons ([','].intercalate (next :: others))
            rw [hpieces, List.forall_mem_cons] at hrest
            rw [List.append_cons, htaken.pieces_append, hpieces, foldr_consFirst,
              List.append_assoc, List.singleton_append]
            exact List.forall_mem_cons.mpr ⟨hpart.append_comma hrest.1, hrest.2⟩

/-- Whatever they are cut into, joined pieces stay the same text. -/
theorem intercalate_trimmedPieces_intercalate (text : List Char) :
    [','].intercalate (trimmedPieces ([','].intercalate (trimmedPieces text))) =
      [','].intercalate (trimmedPieces text) := by
  by_cases hne : trimmedPieces text = []
  · rw [hne]
    rfl
  · have hclosed : ∀ part ∈ (trimmedPieces text).dropLast,
        IsClosed part ∨ IsClosed (part ++ [',']) := by
      intro part hpart
      obtain ⟨piece, hpiece, rfl⟩ := exists_of_mem_dropLast_trimmedPieces hpart
      have hpieceClosed := (separated_pieces text).1.isClosed piece hpiece
      by_cases hescape : EndsEscaping (Text.trim piece)
      · exact Or.inr (hpieceClosed.trim_append_comma hescape)
      · exact Or.inl (hpieceClosed.trim hescape)
    rw [trimmedPieces_eq_pieces, (separated_pieces _).2]
    exact isTrimmed_of_mem_pieces_intercalate (fun _ => isTrimmed_of_mem_trimmedPieces)
      (fun _ => isUncut_of_mem_trimmedPieces) hclosed hne

/-! ### Trimming makes shorter -/

/-- The length of the joined texts, with a comma behind the last one too. -/
def joinedLength : List (List Char) → ℕ
  | [] => 0
  | part :: parts => part.length + 1 + joinedLength parts

theorem length_intercalate (hne : parts ≠ []) :
    ([','].intercalate parts).length + 1 = joinedLength parts := by
  induction parts with
  | nil => exact absurd rfl hne
  | cons part parts ih =>
      cases parts with
      | nil => simp [joinedLength, List.intercalate_singleton]
      | cons next others =>
          have hrest := ih (List.cons_ne_nil next others)
          rw [joinedLength, ← hrest, List.intercalate_cons_cons]
          simp only [List.length_append, List.length_singleton]
          omega

theorem joinedLength_trimmed_le (parts : List (List Char)) :
    joinedLength (trimmed parts) ≤ joinedLength parts := by
  induction parts with
  | nil => exact le_rfl
  | cons part parts ih =>
      have hpart := (Text.trim_infix part).length_le
      rw [trimmed_cons, joinedLength]
      split
      · omega
      · rw [joinedLength]
        omega

/-- Trimming that leaves the length leaves the texts. -/
theorem trimmed_eq_self_of_le (h : joinedLength parts ≤ joinedLength (trimmed parts)) :
    trimmed parts = parts := by
  induction parts with
  | nil => rfl
  | cons part parts ih =>
      have hpart := (Text.trim_infix part).length_le
      have hparts := joinedLength_trimmed_le parts
      rw [trimmed_cons, joinedLength] at h
      rw [trimmed_cons]
      split
      · next hempty =>
          rw [if_pos hempty] at h
          omega
      · next hne =>
          rw [if_neg hne, joinedLength] at h
          have hlength : (Text.trim part).length = part.length := by omega
          rw [(Text.trim_infix part).eq_of_length hlength, ih (by omega)]

/-- Texts that are cut and trimmed to themselves are separated. -/
theorem separated_of_trimmedPieces (h : trimmedPieces ([','].intercalate parts) = parts) :
    Separated parts := by
  by_cases hne : parts = []
  · rw [hne]
    exact ⟨by simp, by simp⟩
  · obtain ⟨hseparated, hjoined⟩ := separated_pieces ([','].intercalate parts)
    obtain ⟨first, others, hpieces⟩ := exists_pieces_eq_cons ([','].intercalate parts)
    rw [hpieces] at hseparated hjoined
    rw [trimmedPieces, hpieces] at h
    have hlength : joinedLength (first :: others) = joinedLength parts := calc
      joinedLength (first :: others) = ([','].intercalate (first :: others)).length + 1 :=
        (length_intercalate (List.cons_ne_nil first others)).symm
      _ = ([','].intercalate parts).length + 1 := by rw [hjoined]
      _ = joinedLength parts := length_intercalate hne
    -- so trimming left the pieces as they were
    have hsame := trimmed_eq_self_of_le (hlength.trans (congrArg joinedLength h).symm).le
    rwa [← hsame, h] at hseparated

/-- **Trimmed pieces are cut and trimmed to themselves unless one in front of a comma ends in a
backslash that takes it.** -/
theorem trimmedPieces_intercalate_iff (text : List Char) :
    trimmedPieces ([','].intercalate (trimmedPieces text)) = trimmedPieces text ↔
      ∀ part ∈ (trimmedPieces text).dropLast, ¬ EndsEscaping part := by
  constructor
  · intro h part hpart
    exact not_endsEscaping_of_stateAfter ((separated_of_trimmedPieces h).isClosed part hpart)
  · intro h
    exact trimmedPieces_intercalate (separated_trimmedPieces h)

/-! ### Completed pieces -/

theorem isComplete_intercalate (parts : List (List Char)) :
    IsComplete ([','].intercalate parts) ↔ ∀ part ∈ parts, IsComplete part := by
  induction parts with
  | nil => exact iff_of_true isComplete_nil (by simp)
  | cons part parts ih =>
      cases parts with
      | nil => rw [List.intercalate_singleton, List.forall_mem_singleton]
      | cons next others =>
          rw [List.intercalate_cons_cons, List.append_assoc, List.singleton_append,
            isComplete_append_comma, ih]
          exact List.forall_mem_cons.symm

/-- No marker dangles in the joined pieces of a text in which none does. -/
theorem IsComplete.intercalate_trimmedPieces (h : IsComplete text) :
    IsComplete ([','].intercalate (trimmedPieces text)) := by
  rw [← (separated_pieces text).2, isComplete_intercalate] at h
  rw [isComplete_intercalate]
  intro part hpart
  obtain ⟨piece, hpiece, rfl, -⟩ := exists_of_mem_trimmedPieces hpart
  exact (h piece hpiece).trim

/-! ### Clauses -/

/-- No clause in front of a comma ends in a backslash that would take the comma. -/
def KeepsCommas (clauses : List String) : Prop :=
  ∀ clause ∈ clauses.dropLast, ¬ EndsEscaping clause.toList

instance : DecidablePred KeepsCommas := fun clauses =>
  inferInstanceAs (Decidable (∀ clause ∈ clauses.dropLast, ¬ EndsEscaping clause.toList))

theorem clauses_eq (text : String) :
    clauses text = (trimmedPieces text.toList).map String.ofList := rfl

theorem toList_intercalate_clauses (text : String) :
    (",".intercalate (clauses text)).toList = [','].intercalate (trimmedPieces text.toList) := by
  have hback : (clauses text).map String.toList = trimmedPieces text.toList := by
    rw [clauses_eq, List.map_map, Function.comp_def]
    simp
  rw [String.toList_intercalate, hback]
  rfl

theorem keepsCommas_clauses_iff (text : String) :
    KeepsCommas (clauses text) ↔
      ∀ part ∈ (trimmedPieces text.toList).dropLast, ¬ EndsEscaping part := by
  rw [KeepsCommas, clauses_eq, ← List.map_dropLast, List.forall_mem_map]
  simp

/-- **The joined clauses are cut into the same clauses unless one in front of a comma ends in a
backslash that takes it.** -/
theorem clauses_intercalate_iff (text : String) :
    clauses (",".intercalate (clauses text)) = clauses text ↔ KeepsCommas (clauses text) := by
  rw [keepsCommas_clauses_iff, ← trimmedPieces_intercalate_iff, clauses_eq (",".intercalate _),
    toList_intercalate_clauses, clauses_eq]
  exact (List.map_injective_iff.mpr fun _ _ => String.ofList_injective).eq_iff

theorem intercalate_clauses_intercalate (text : String) :
    ",".intercalate (clauses (",".intercalate (clauses text))) = ",".intercalate (clauses text) := by
  rw [← String.toList_inj, toList_intercalate_clauses, toList_intercalate_clauses,
    intercalate_trimmedPieces_intercalate]

/-- No marker dangles in the joined clauses of a completed text. -/
theorem complete_intercalate_clauses (text : String) :
    complete (",".intercalate (clauses (complete text))) =
      ",".intercalate (clauses (complete text)) := by
  have hcomplete : IsComplete (complete text).toList := by
    rw [complete, String.toList_ofList]
    exact isComplete_completeChars text.toList
  rw [complete.eq_1 (",".intercalate _), completeChars_eq_self, String.ofList_toList]
  rw [toList_intercalate_clauses]
  exact hcomplete.intercalate_trimmedPieces

end Relative

/-! ### Clause lists -/

namespace ClauseList

open Relative

/-- The joined clauses say what the list says: they are cut into its clauses, and taken for an
extended selector they make a list of the same clauses. -/
structure Rejoins (list : ClauseList) : Prop where
  cut_eq : Relative.clauses list.normalized = list.clauses
  clauses_eq : (ofText list.normalized).clauses = list.clauses
  normalized_eq : (ofText list.normalized).normalized = list.normalized
  isRelative_eq : (ofText list.normalized).isRelative = list.isRelative

theorem clauses_ofText (text : String) :
    (ofText text).clauses = Relative.clauses (complete text) := by
  rw [ofText]

theorem normalized_ofText (text : String) :
    (ofText text).normalized = ",".intercalate (Relative.clauses (complete text)) := by
  rw [normalized, clauses_ofText]

theorem complete_normalized (text : String) :
    complete (ofText text).normalized = (ofText text).normalized := by
  rw [normalized_ofText]
  exact complete_intercalate_clauses text

theorem clauses_ofText_normalized (text : String) :
    (ofText (ofText text).normalized).clauses = Relative.clauses (ofText text).normalized := by
  rw [clauses_ofText (ofText text).normalized, complete_normalized]

theorem normalized_ofText_normalized (text : String) :
    (ofText (ofText text).normalized).normalized = (ofText text).normalized := by
  rw [normalized_ofText (ofText text).normalized, complete_normalized, normalized_ofText,
    intercalate_clauses_intercalate]

theorem clauses_normalized_iff (text : String) :
    Relative.clauses (ofText text).normalized = (ofText text).clauses ↔
      KeepsCommas (ofText text).clauses := by
  rw [normalized_ofText, clauses_ofText]
  exact clauses_intercalate_iff (complete text)

/-- **Joining and cutting again.**  The joined clauses of a text are cut into its clauses if and
only if no clause in front of a comma ends in a backslash that takes it.  Joined, the clauses of an
extended selector are complete, and taken for an extended selector they are joined to the same text;
and they say what the list says under the same condition. -/
theorem rejoins_iff (text : String) :
    (Relative.clauses (",".intercalate (Relative.clauses text)) = Relative.clauses text ↔
        KeepsCommas (Relative.clauses text)) ∧
      complete (ofText text).normalized = (ofText text).normalized ∧
      (ofText (ofText text).normalized).normalized = (ofText text).normalized ∧
      ((ofText text).Rejoins ↔ KeepsCommas (ofText text).clauses) := by
  refine ⟨clauses_intercalate_iff text, complete_normalized text,
    normalized_ofText_normalized text, ?_⟩
  constructor
  · intro h
    exact (clauses_normalized_iff text).mp h.cut_eq
  · intro h
    have hcut := (clauses_normalized_iff text).mpr h
    have hclauses := (clauses_ofText_normalized text).trans hcut
    have hrelative : (ofText (ofText text).normalized).isRelative = (ofText text).isRelative := by
      rw [isRelative, hclauses, isRelative]
    exact ⟨hcut, hclauses, normalized_ofText_normalized text, hrelative⟩

/-- A blank that a backslash takes is a blank to trimming, and the backslash that is left takes the
comma. -/
theorem not_rejoins_escaped_blank :
    Relative.clauses "a\\ ,b" = ["a\\", "b"] ∧ Relative.clauses "a\\,b" = ["a\\,b"] ∧
      (¬ ∀ text, Relative.clauses (",".intercalate (Relative.clauses text)) =
        Relative.clauses text) ∧ ¬ ∀ text, (ofText text).Rejoins := by
  have hclauses : Relative.clauses "a\\ ,b" = ["a\\", "b"] := by decide +kernel
  have hescapes : ¬ KeepsCommas ["a\\", "b"] := by decide
  refine ⟨hclauses, by decide +kernel, fun hall => ?_, fun hall => ?_⟩
  · have hkeeps := (clauses_intercalate_iff "a\\ ,b").mp (hall "a\\ ,b")
    rw [hclauses] at hkeeps
    exact absurd hkeeps hescapes
  · have hlist : (ofText "a\\ ,b").clauses = ["a\\", "b"] := by decide +kernel
    have hkeeps := (clauses_normalized_iff "a\\ ,b").mp (hall "a\\ ,b").cut_eq
    rw [hlist] at hkeeps
    exact absurd hkeeps hescapes

end ClauseList

end DomQuery
