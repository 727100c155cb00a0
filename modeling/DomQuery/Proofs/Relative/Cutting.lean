import DomQuery.Proofs.Relative.Scan
import DomQuery.Proofs.Selector.Texts
import DomQuery.Proofs.Text.Trim
import Mathlib.Data.List.Forall2

/-!
# Cutting agrees with reading

The scan cuts a text where the selectors of a list are separated, and each piece writes one of them
(`forall₂_pieces`).  So does the piece without the blanks around it (`WritesAlone.ofText_trim`), and
the clauses of an accepted text write its selectors one by one (`forall₂_clauses`).

This is so for ordinary texts.  The scan does not know comments, and takes the quotes and brackets
in them for its own.  And where the blanks are cut off a piece, a blank can be meant that belongs to
a name: one that the lexer takes for a letter, or one behind a backslash.  A text that has none of
these is ordinary (`forall₂_clauses_of_spaces`).
-/

namespace DomQuery

open Lexer Grammar

namespace Relative

variable {state before after : ScanState} {text piece rest : List Char} {c : Char}
  {selector : ComplexSelector} {selectors : SelectorList}

/-! ### Pieces -/

theorem pieces_cons (hc : c ≠ '\\') (rest : List Char) :
    pieces state.depth state.quote (c :: rest) =
      match step state c with
      | none => [] :: pieces 0 none rest
      | some next => consFirst c (pieces next.depth next.quote rest) := by
  obtain ⟨depth, quote⟩ := state
  rw [pieces.eq_def]
  split
  · next heq => exact absurd heq (by simp)
  · next heq => exact absurd (List.cons.inj heq).1 hc
  · next heq => exact absurd (List.cons.inj heq).1 hc
  · next _ _ hquote heq =>
      cases heq
      cases hquote
      rfl
  · next _ _ hquote heq =>
      cases heq
      cases hquote
      simp only [step]
      split_ifs <;> rfl

/-- What stands behind a text without a cut is cut as if it began there. -/
theorem pieces_append {first : List Char} (h : stateAfter before first = some after)
    (second : List Char) : pieces before.depth before.quote (first ++ second) =
      first.foldr consFirst (pieces after.depth after.quote second) := by
  induction first using scanInduction generalizing before with
  | nil =>
      cases h
      rfl
  | lone => exact absurd h (by simp [stateAfter])
  | escaped c rest ih =>
      rw [List.cons_append, List.cons_append, pieces, ih h]
      rfl
  | cons c rest hc ih =>
      rw [stateAfter_cons hc, Option.bind_eq_some_iff] at h
      obtain ⟨next, hstep, hnext⟩ := h
      rw [List.cons_append, pieces_cons hc, hstep]
      dsimp only
      rw [ih hnext]
      rfl

theorem foldr_consFirst (first : List Char) (others : List (List Char)) :
    first.foldr consFirst (piece :: others) = (first ++ piece) :: others := by
  induction first with
  | nil => rfl
  | cons c first ih => rw [List.foldr_cons, ih, consFirst, List.cons_append]

/-- A text without a cut is a piece. -/
theorem pieces_of_stateAfter (h : stateAfter before text = some after) :
    pieces before.depth before.quote text = [text] := by
  have hpieces := pieces_append h []
  rwa [List.append_nil, pieces, foldr_consFirst, List.append_nil] at hpieces

/-- A comma outside brackets and quotes cuts. -/
theorem pieces_append_comma (h : stateAfter before piece = some (.unquoted 0)) (rest : List Char) :
    pieces before.depth before.quote (piece ++ ',' :: rest) = piece :: pieces 0 none rest := by
  have hcut : step (.unquoted 0) ',' = none := rfl
  rw [pieces_append h, pieces_cons (by decide), hcut]
  dsimp only
  rw [foldr_consFirst, List.append_nil]

/-- The text writes the selector, and the scan passes over it. -/
structure WritesAlone (text : List Char) (selector : ComplexSelector) : Prop where
  stateAfter_eq : stateAfter (.unquoted 0) text = some (.unquoted 0)
  exists_tokens : ∃ found, tokens text = .ok found ∧ Alternatives found [selector]

/-- The scan passes over a text whose tokens close what they open. -/
theorem stateAfter_of_isBalanced {found : List Token} (hplain : HasPlainComments text)
    (hfound : IsBalanced found) (hread : tokens text = .ok found) :
    stateAfter (.unquoted 0) text = some (.unquoted 0) := by
  obtain ⟨rest, hreads, hend⟩ := Reads.exists_of_tokens hread
  have hscans := scans_of_reads hplain hreads (hfound 0)
  -- only comments are left
  have hrest := scans_dropComments (ScanState.isProper_unquoted 0)
    (hplain.of_reads hreads).skipsPlainly (dropComments_of_end hend)
  rw [(hscans.trans hrest).stateAfter_eq]
  rfl

/-- The scan goes up to the comma behind tokens that close what they open, and no further. -/
theorem exists_piece {front others : List Token} (hplain : HasPlainComments text)
    (hfront : IsBalanced front) (hread : tokens text = .ok (front ++ .comma :: others)) :
    ∃ piece more, text = piece ++ ',' :: more ∧ HasPlainComments piece ∧ HasPlainComments more ∧
      stateAfter (.unquoted 0) piece = some (.unquoted 0) ∧ tokens piece = .ok front ∧
        tokens more = .ok others := by
  have hproper := ScanState.isProper_unquoted 0
  obtain ⟨rest, hreads, hend⟩ := Reads.exists_of_tokens hread
  obtain ⟨behind, hfrontReads, hbehind⟩ := hreads.exists_of_append
  have hfrontScans := scans_of_reads hplain hfrontReads (hfront 0)
  have hplainBehind := hplain.of_reads hfrontReads
  cases hbehind with
  | @step _ more _ _ _ hnext hothers =>
      -- the comma of the tokens is a comma of the text
      obtain ⟨piece, rfl, hstate⟩ :=
        hfrontScans.trans (scans_comma_of_next hproper hplainBehind.skipsPlainly hnext)
      have hcomma : next (',' :: more) = (.ok (some .comma), more) := by
        rw [next_cons (by decide)]
        rfl
      have hmore : tokens more = .ok others := hothers.tokens_eq_of_end hend
      obtain ⟨found, hpiece⟩ := exists_tokens_of_append (separates_comma.ends piece more) hplain
        (staysOpen_comma more) hstate hread
      have hseam := tokens_append separates_comma more hpiece
      rw [hread, Reads.tokens_step hcomma, hmore] at hseam
      obtain rfl : front = found := List.append_cancel_right (Except.ok.inj hseam)
      exact ⟨piece, more, rfl, hplain.of_append separates_comma hpiece,
        hplainBehind.of_reads (.single hnext), hstate, hpiece, hmore⟩

/-- **The scan cuts a text where its selectors are separated.** -/
theorem forall₂_pieces {text : List Char} {found : List Token} {selectors : SelectorList}
    (hplain : HasPlainComments text) (hread : tokens text = .ok found)
    (h : Alternatives found selectors) :
    List.Forall₂ (fun piece selector => HasPlainComments piece ∧ WritesAlone piece selector)
      (pieces 0 none text) selectors :=
  match h with
  | .single hbefore hcomplex hafter => by
      have hsingle := Alternatives.single hbefore hcomplex hafter
      have hstate := stateAfter_of_isBalanced hplain hsingle.isBalanced_of_single hread
      have hpieces : pieces 0 none text = [text] := pieces_of_stateAfter hstate
      rw [hpieces]
      exact .cons ⟨hplain, hstate, _, hread, hsingle⟩ .nil
  | @Alternatives.cons before inner after others _ _ hbefore hcomplex hafter hrest => by
      have hsingle := Alternatives.single hbefore hcomplex hafter
      have hsplit : before ++ (inner ++ (after ++ .comma :: others)) =
          (before ++ (inner ++ after)) ++ .comma :: others := by simp
      rw [hsplit] at hread
      obtain ⟨piece, more, rfl, hfront, hbehind, hstate, hpiece, hmore⟩ :=
        exists_piece hplain hsingle.isBalanced_of_single hread
      have hpieces : pieces 0 none (piece ++ ',' :: more) = piece :: pieces 0 none more :=
        pieces_append_comma hstate more
      rw [hpieces]
      exact .cons ⟨hfront, hstate, _, hpiece, hsingle⟩ (forall₂_pieces hbehind hmore hrest)

/-! ### Blanks around a piece -/

/-- Trimming cuts spaces off the text, and none behind a backslash. -/
structure TrimsSpaces (text : List Char) : Prop where
  isSpace_front : ∀ c ∈ text.takeWhile Text.isBlank, isSpace c = true
  isSpace_behind : ∀ c ∈ (Text.trimStart text).rtakeWhile Text.isBlank, isSpace c = true
  backslash : (Text.trim text).getLast? = some '\\' → Text.trim text = Text.trimStart text

theorem trimsSpaces_iff : TrimsSpaces text ↔
    ((text.takeWhile Text.isBlank).all isSpace &&
      ((Text.trimStart text).rtakeWhile Text.isBlank).all isSpace &&
      ((Text.trim text).getLast? != some '\\' || Text.trim text == Text.trimStart text)) = true := by
  simp only [Bool.and_eq_true, Bool.or_eq_true, List.all_eq_true, bne_iff_ne, beq_iff_eq,
    ← imp_iff_not_or, and_assoc]
  constructor
  · rintro ⟨hfront, hbehind, hbackslash⟩
    exact ⟨hfront, hbehind, hbackslash⟩
  · rintro ⟨hfront, hbehind, hbackslash⟩
    exact ⟨hfront, hbehind, hbackslash⟩

instance : DecidablePred TrimsSpaces := fun _ => decidable_of_iff' _ trimsSpaces_iff

/-- Blanks that are spaces, none behind a backslash, are cut off as spaces. -/
theorem TrimsSpaces.of_spaces (hspace : ∀ c ∈ text, Text.isBlank c = true → isSpace c = true)
    (hbackslash : ∀ c ∈ text, Text.isBlank c = true → ¬ ['\\', c] <:+: text) :
    TrimsSpaces text := by
  have hstart := Text.trimStart_suffix text
  refine ⟨fun c hc => ?_, fun c hc => ?_, fun hlast => ?_⟩
  · exact hspace c ((List.takeWhile_sublist _).subset hc) (List.mem_takeWhile_imp hc)
  · exact hspace c (hstart.subset ((List.rtakeWhile_suffix _ _).subset hc))
      (List.mem_rtakeWhile_imp hc)
  · have hsplit := Text.trim_append text
    cases hbehind : (Text.trimStart text).rtakeWhile Text.isBlank with
    | nil => rwa [hbehind, List.append_nil] at hsplit
    | cons c more =>
        obtain ⟨init, hinit⟩ := List.getLast?_eq_some_iff.mp hlast
        have hblank : c ∈ (Text.trimStart text).rtakeWhile Text.isBlank := by simp [hbehind]
        have hescape : ['\\', c] <:+: text := by
          refine List.IsInfix.trans ⟨init, more, ?_⟩ hstart.isInfix
          rw [← hsplit, hbehind, hinit]
          simp
        exact absurd hescape
          (hbackslash c (hescape.subset (by simp)) (List.mem_rtakeWhile_imp hblank))

theorem trimStart_eq_dropWhile (h : ∀ c ∈ text.takeWhile Text.isBlank, isSpace c = true) :
    Text.trimStart text = text.dropWhile isSpace := by
  induction text with
  | nil => rfl
  | cons c rest ih =>
      rw [Text.trimStart] at ih ⊢
      cases hblank : Text.isBlank c with
      | true =>
          rw [List.takeWhile_cons_of_pos hblank] at h
          rw [List.dropWhile_cons_of_pos hblank, List.dropWhile_cons_of_pos (h c (by simp))]
          exact ih fun d hd => h d (by simp [hd])
      | false =>
          have hspace : ¬ isSpace c = true := fun hspace =>
            absurd (isBlank_of_isSpace hspace) (by simp [hblank])
          rw [List.dropWhile_cons_of_neg (by simp [hblank]), List.dropWhile_cons_of_neg hspace]

/-- The blanks in front of a selector are one token of whitespace. -/
theorem WritesAlone.trimStart (h : WritesAlone text selector)
    (hfront : ∀ c ∈ text.takeWhile Text.isBlank, isSpace c = true) :
    WritesAlone (Text.trimStart text) selector := by
  rw [trimStart_eq_dropWhile hfront]
  obtain ⟨hstate, found, hread, hderives⟩ := h
  cases text with
  | nil => exact ⟨hstate, found, hread, hderives⟩
  | cons c rest =>
      cases hspace : isSpace c with
      | false =>
          rw [List.dropWhile_cons_of_neg (by simp [hspace])]
          exact ⟨hstate, found, hread, hderives⟩
      | true =>
          have hscans := scans_dropWhile (ScanState.isProper_unquoted 0)
            (fun _ => isPlain_of_isSpace) (c :: rest)
          refine ⟨by rw [← hscans.stateAfter_eq, hstate], ?_⟩
          rw [List.dropWhile_cons_of_pos hspace]
          obtain ⟨others, hrest, rfl⟩ :=
            Reads.exists_of_tokens_step (next_of_isSpace hspace rest) hread
          exact ⟨others, hrest, hderives.of_whitespace_cons⟩

theorem step_isProper (h : step before c = some after) (hbefore : before.IsProper) :
    after.IsProper := by
  obtain ⟨depth, quote⟩ := before
  cases quote with
  | some quote =>
      cases h
      intro other hother
      dsimp only at hother
      split at hother
      · exact absurd hother (by simp)
      · exact hbefore other hother
  | none =>
      unfold step at h
      dsimp only at h
      split_ifs at h with hcut hquote
      · cases h
        rintro other ⟨⟩
        exact hquote
      all_goals
        cases h
        exact ScanState.isProper_unquoted _

/-! ### Backslashes at the end of a text -/

/-- The text ends in an odd number of backslashes, so that the last one would take the meaning from
what stands behind the text. -/
def EndsEscaping (text : List Char) : Prop :=
  (text.reverse.takeWhile fun c => c == '\\').length % 2 = 1

instance : DecidablePred EndsEscaping := fun text =>
  inferInstanceAs (Decidable ((text.reverse.takeWhile fun c => c == '\\').length % 2 = 1))

theorem endsEscaping_escaped (c : Char) (rest : List Char) :
    EndsEscaping ('\\' :: c :: rest) ↔ EndsEscaping rest := by
  have hreverse : ('\\' :: c :: rest).reverse = rest.reverse ++ [c, '\\'] := by simp
  rw [EndsEscaping, EndsEscaping, hreverse, List.takeWhile_append]
  split
  · next hall =>
      -- the text behind consists of backslashes, and two more make no difference
      rw [List.length_append, hall]
      by_cases hc : c = '\\'
      · simp [hc]
      · simp [hc]
  · rfl

theorem endsEscaping_cons (hc : c ≠ '\\') (rest : List Char) :
    EndsEscaping (c :: rest) ↔ EndsEscaping rest := by
  rw [EndsEscaping, EndsEscaping, List.reverse_cons, List.takeWhile_append]
  split
  · next hall => simp [hall, hc]
  · rfl

theorem not_endsEscaping_of_getLast? (h : text.getLast? ≠ some '\\') : ¬ EndsEscaping text := by
  rw [← List.head?_reverse] at h
  rw [EndsEscaping]
  cases hreverse : text.reverse with
  | nil => simp
  | cons c rest =>
      have hc : c ≠ '\\' := by
        rintro rfl
        exact h (by rw [hreverse, List.head?_cons])
      simp [hc]

/-- What the scan passes over does not end in a backslash that takes something. -/
theorem not_endsEscaping_of_stateAfter (h : stateAfter before text = some after) :
    ¬ EndsEscaping text := by
  induction text using scanInduction generalizing before with
  | nil => decide
  | lone => exact absurd h (by simp [stateAfter])
  | escaped c rest ih =>
      rw [endsEscaping_escaped]
      exact ih h
  | cons c rest hc ih =>
      rw [stateAfter_cons hc, Option.bind_eq_some_iff] at h
      obtain ⟨next, -, hnext⟩ := h
      rw [endsEscaping_cons hc]
      exact ih hnext

/-- Characters at the end of a text that mean nothing do not matter to the scan, unless a backslash
takes the first of them. -/
theorem stateAfter_of_append {first second : List Char}
    (h : stateAfter before (first ++ second) = some after) (hbefore : before.IsProper)
    (hsecond : ∀ c ∈ second, IsPlain c) (hlast : ¬ EndsEscaping first) :
    stateAfter before first = some after := by
  induction first using scanInduction generalizing before with
  | nil =>
      have hplain := scans_append hbefore hsecond []
      rw [List.append_nil] at hplain
      rwa [List.nil_append, hplain.stateAfter_eq] at h
  | lone => exact absurd rfl hlast
  | escaped c rest ih =>
      rw [endsEscaping_escaped] at hlast
      exact ih h hbefore hlast
  | cons c rest hc ih =>
      rw [List.cons_append, stateAfter_cons hc, Option.bind_eq_some_iff] at h
      obtain ⟨next, hstep, hnext⟩ := h
      rw [endsEscaping_cons hc] at hlast
      rw [stateAfter_cons hc, hstep, Option.bind_some]
      exact ih hnext (step_isProper hstep hbefore) hlast

/-! ### Trimming -/

/-- Spaces alone are read as one token of whitespace or as none. -/
theorem tokens_space_cases (h : ∀ c ∈ text, isSpace c = true) :
    tokens text = .ok [] ∨ tokens text = .ok [.whitespace] := by
  cases text with
  | nil => exact Or.inl Reads.tokens_nil
  | cons c rest =>
      right
      have hnext := next_of_isSpace (h c (by simp)) rest
      rw [List.dropWhile_eq_nil_iff.mpr fun d hd => h d (by simp [hd])] at hnext
      exact (Reads.single hnext).tokens_eq

/-- The blanks behind a selector are whitespace, or belong to its last escape. -/
theorem WritesAlone.exists_tokens_of_space {front behind : List Char}
    (h : WritesAlone (front ++ behind) selector) (hplain : HasPlainComments (front ++ behind))
    (hspace : ∀ c ∈ behind, isSpace c = true) (hlast : front.getLast? = some '\\' → behind = []) :
    ∃ found, tokens front = .ok found ∧ Alternatives found [selector] := by
  obtain ⟨hstate, found, hread, hderives⟩ := h
  cases behind with
  | nil =>
      rw [List.append_nil] at hread
      exact ⟨found, hread, hderives⟩
  | cons c more =>
      have hopen : ¬ EndsEscaping front :=
        not_endsEscaping_of_getLast? fun hbackslash => absurd (hlast hbackslash) (by simp)
      have hfront := stateAfter_of_append hstate (ScanState.isProper_unquoted 0)
        (fun d hd => isPlain_of_isSpace (hspace d hd)) hopen
      have hends : Ends front c more := by
        refine ends_space (hspace c (by simp)) (fun d hd => ?_) front
        exact endsName_of_isSpace (hspace d (List.mem_cons_of_mem c (List.mem_of_mem_head? hd)))
      obtain ⟨kept, hkept⟩ := exists_tokens_of_append hends hplain (staysOpen_space hspace)
        hfront hread
      obtain ⟨left, hseam, hleft⟩ := tokens_append_of_ends hends hkept
      have hspaces : ∀ d ∈ left, isSpace d = true := by
        rcases hleft with rfl | ⟨-, ⟨-, rfl⟩ | ⟨-, rfl⟩⟩
        · exact hspace
        · exact fun d hd => hspace d (by simp [hd])
        · exact fun d hd => hspace d (by simp [(List.dropWhile_sublist _).subset hd])
      rw [hread] at hseam
      refine ⟨kept, hkept, ?_⟩
      rcases tokens_space_cases hspaces with hnone | hone
      · rw [hnone] at hseam
        obtain rfl : found = kept := by simpa [Except.map] using hseam
        exact hderives
      · rw [hone] at hseam
        obtain rfl : found = kept ++ [.whitespace] := by simpa [Except.map] using hseam
        exact hderives.of_concat_whitespace

theorem HasPlainComments.trimStart (h : HasPlainComments text)
    (hfront : ∀ c ∈ text.takeWhile Text.isBlank, isSpace c = true) :
    HasPlainComments (Text.trimStart text) := by
  rw [trimStart_eq_dropWhile hfront]
  cases text with
  | nil => exact h
  | cons c rest =>
      cases hspace : isSpace c with
      | false =>
          rw [List.dropWhile_cons_of_neg (by simp [hspace])]
          exact h
      | true =>
          rw [List.dropWhile_cons_of_pos hspace]
          exact h.of_reads (.single (next_of_isSpace hspace rest))

/-- The blanks around a selector can be left out. -/
theorem WritesAlone.ofText_trim (h : WritesAlone text selector) (hplain : HasPlainComments text)
    (htrims : TrimsSpaces text) :
    SelectorList.ofText (String.ofList (Text.trim text)) = .ok [selector] := by
  have hsplit := Text.trim_append text
  have hstart := h.trimStart htrims.isSpace_front
  have hplainStart := hplain.trimStart htrims.isSpace_front
  rw [← hsplit] at hstart hplainStart
  obtain ⟨found, hread, hderives⟩ := hstart.exists_tokens_of_space hplainStart
    htrims.isSpace_behind fun hbackslash => by
      simpa [htrims.backslash hbackslash] using hsplit
  refine SelectorList.ofText_eq_ok_iff.mpr ⟨found, ?_, hderives⟩
  rw [String.toList_ofList, hread]

/-! ### Clauses -/

/-- The scan and the lexer take the text alike. -/
structure IsOrdinary (text : List Char) : Prop where
  hasPlainComments : HasPlainComments text
  trimsSpaces : ∀ piece ∈ pieces 0 none text, TrimsSpaces piece

/-- The first piece begins the text, and the other ones stand in it. -/
theorem exists_pieces (state : ScanState) (text : List Char) :
    ∃ first others, pieces state.depth state.quote text = first :: others ∧ first <+: text ∧
      ∀ piece ∈ others, piece <:+: text := by
  induction text using scanInduction generalizing state with
  | nil => exact ⟨[], [], rfl, List.prefix_refl _, by simp⟩
  | lone => exact ⟨['\\'], [], rfl, List.prefix_refl _, by simp⟩
  | escaped c rest ih =>
      obtain ⟨first, others, hpieces, hfirst, hothers⟩ := ih state
      refine ⟨'\\' :: c :: first, others, by rw [pieces, hpieces]; rfl, ?_, fun piece hpiece => ?_⟩
      · simpa using hfirst
      · exact List.infix_cons (List.infix_cons (hothers piece hpiece))
  | cons c rest hc ih =>
      rw [pieces_cons hc]
      cases step state c with
      | none =>
          obtain ⟨first, others, hpieces, hfirst, hothers⟩ := ih (.unquoted 0)
          have hpieces' : pieces 0 none rest = first :: others := hpieces
          refine ⟨[], pieces 0 none rest, rfl, List.nil_prefix, fun piece hpiece => ?_⟩
          rw [hpieces'] at hpiece
          rcases List.mem_cons.mp hpiece with rfl | hpiece
          · exact List.infix_cons hfirst.isInfix
          · exact List.infix_cons (hothers piece hpiece)
      | some next =>
          obtain ⟨first, others, hpieces, hfirst, hothers⟩ := ih next
          refine ⟨c :: first, others, by dsimp only; rw [hpieces]; rfl, ?_, fun piece hpiece => ?_⟩
          · simpa using hfirst
          · exact List.infix_cons (hothers piece hpiece)

theorem infix_of_mem_pieces (h : piece ∈ pieces 0 none text) : piece <:+: text := by
  obtain ⟨first, others, hpieces, hfirst, hothers⟩ := exists_pieces (.unquoted 0) text
  have hpieces' : pieces 0 none text = first :: others := hpieces
  rw [hpieces'] at h
  rcases List.mem_cons.mp h with rfl | h
  · exact hfirst.isInfix
  · exact hothers piece h

/-- A text is ordinary if it has no comment, no other blanks than spaces, and no backslash in front
of one. -/
theorem IsOrdinary.of_spaces (hcomment : ¬ ['/', '*'] <:+: text)
    (hspace : ∀ c ∈ text, Text.isBlank c = true → isSpace c = true)
    (hbackslash : ∀ c ∈ text, Text.isBlank c = true → ¬ ['\\', c] <:+: text) :
    IsOrdinary text where
  hasPlainComments := .of_no_sign hcomment
  trimsSpaces piece hpiece := by
    have hpart := infix_of_mem_pieces hpiece
    refine .of_spaces (fun c hc => hspace c (hpart.subset hc)) fun c hc hblank hescape => ?_
    exact hbackslash c (hpart.subset hc) hblank (hescape.trans hpart)

/-- **The clauses of an accepted text write its selectors one by one.** -/
theorem forall₂_clauses {text : String} (hordinary : IsOrdinary text.toList)
    (h : SelectorList.ofText text = .ok selectors) :
    List.Forall₂ (fun clause selector => SelectorList.ofText clause = .ok [selector])
      (clauses text) selectors := by
  obtain ⟨found, hread, hderives⟩ := SelectorList.ofText_eq_ok_iff.mp h
  have hpieces := (List.forall₂_and_left _ _).mpr
    ⟨hordinary.trimsSpaces, forall₂_pieces hordinary.hasPlainComments hread hderives⟩
  have htrimmed : List.Forall₂
      (fun clause selector => (!clause.isEmpty) = true ∧
        SelectorList.ofText (String.ofList clause) = .ok [selector])
      ((pieces 0 none text.toList).map Text.trim) selectors := by
    rw [List.forall₂_map_left_iff]
    refine hpieces.imp ?_
    rintro piece selector ⟨htrims, hplain, hwrites⟩
    have hclause := hwrites.ofText_trim hplain htrims
    refine ⟨?_, hclause⟩
    simpa using SelectorList.ne_empty_of_ofText hclause
  -- so no clause is left out
  obtain ⟨hnonempty, hclauses⟩ := (List.forall₂_and_left _ _).mp htrimmed
  rw [clauses, List.filter_eq_self.mpr hnonempty, List.forall₂_map_left_iff]
  exact hclauses

/-- **The clauses of a text are where its selectors are.**  A text without comments, with no other
blanks than spaces and with no backslash in front of one has as many clauses as selectors, and each
clause writes the selector at its place, whatever brackets, strings and escapes it has commas in. -/
theorem forall₂_clauses_of_spaces {text : String} (h : SelectorList.ofText text = .ok selectors)
    (hcomment : ¬ ['/', '*'] <:+: text.toList)
    (hspace : ∀ c ∈ text.toList, Text.isBlank c = true → isSpace c = true)
    (hbackslash : ∀ c ∈ text.toList, Text.isBlank c = true → ¬ ['\\', c] <:+: text.toList) :
    List.Forall₂ (fun clause selector => SelectorList.ofText clause = .ok [selector])
      (clauses text) selectors :=
  forall₂_clauses (.of_spaces hcomment hspace hbackslash) h

/-- Commas in parentheses, in brackets in them, in a string with a quote in it, and behind a
backslash. -/
theorem forall₂_clauses_nested :
    clauses ":not(a, [b=\"),\\\"\"]) ,\t#c\\,d" =
        [":not(a, [b=\"),\\\"\"])", "#c\\,d"] ∧
      List.Forall₂ (fun clause selector => SelectorList.ofText clause = .ok [selector])
        (clauses ":not(a, [b=\"),\\\"\"]) ,\t#c\\,d")
        [.compound [.notAny [.compound [.tag "a"],
          .compound [.hasAttribute "b" (some (.equals, "),\""))]]], .compound [.id "c,d"]] := by
  have htokens : Token.ofText ":not(a, [b=\"),\\\"\"]) ,\t#c\\,d" =
      .ok [.colon, .function "not", .ident "a", .comma, .whitespace, .leftBracket, .ident "b",
        .delim '=', .string "),\"", .rightBracket, .rightParen, .whitespace, .comma, .whitespace,
        .hash "c,d" true] := by decide +kernel
  have hblanks : (":not(a, [b=\"),\\\"\"]) ,\t#c\\,d".toList.all fun c => !Text.isBlank c ||
      (isSpace c && !decide (['\\', c] <:+: ":not(a, [b=\"),\\\"\"]) ,\t#c\\,d".toList))) =
        true := by
    decide +kernel
  have hblank : ∀ c ∈ ":not(a, [b=\"),\\\"\"]) ,\t#c\\,d".toList, Text.isBlank c = true →
      isSpace c = true ∧ ¬ ['\\', c] <:+: ":not(a, [b=\"),\\\"\"]) ,\t#c\\,d".toList := by
    intro c hc hblank
    have hboth := List.all_eq_true.mp hblanks c hc
    rw [hblank, Bool.not_true, Bool.false_or, Bool.and_eq_true, Bool.not_eq_true',
      decide_eq_false_iff_not] at hboth
    exact hboth
  refine ⟨by decide +kernel, forall₂_clauses_of_spaces ?_ (by decide +kernel)
    (fun c hc hspace => (hblank c hc hspace).1) (fun c hc hspace => (hblank c hc hspace).2)⟩
  rw [SelectorList.ofText, htokens]
  rfl

theorem ne_nil_of_ofText {text : String} (h : SelectorList.ofText text = .ok selectors) :
    selectors ≠ [] := by
  obtain ⟨found, -, hderives⟩ := SelectorList.ofText_eq_ok_iff.mp h
  cases hderives <;> simp

/-- With commas between them the clauses write the selectors again. -/
theorem ofText_intercalate_clauses {text : String} (hordinary : IsOrdinary text.toList)
    (h : SelectorList.ofText text = .ok selectors) :
    SelectorList.ofText (",".intercalate (clauses text)) = .ok selectors := by
  have hclauses := forall₂_clauses hordinary h
  refine SelectorList.ofText_intercalate (fun hnil => ?_) hclauses
  rw [hnil, List.forall₂_nil_left_iff] at hclauses
  exact ne_nil_of_ofText h hclauses

end Relative

end DomQuery
