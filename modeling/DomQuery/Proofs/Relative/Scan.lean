import DomQuery.Proofs.Selector.Advance
import DomQuery.Proofs.Selector.Brackets
import DomQuery.Relative.Clause

/-!
# The scan and the lexer

Clauses are cut by a scan that knows brackets, quotes and backslashes only, while selectors are
read token by token.  The two agree: the scan passes over each token as a whole, and the brackets
that it counts are the brackets of the tokens (`scans_of_next`, `scans_of_reads`).  Comments are the
exception, since the scan does not know them, and here those that the lexer skips may only hold
characters that mean nothing to it (`HasPlainComments`).  The signs of a comment inside a string are
no comment, and do not matter.

So a text whose quotes are closed is read without an error if a longer text is
(`exists_tokens_of_append`): what could go wrong at its end is an open string or a lone backslash.
-/

namespace DomQuery

open Lexer Grammar

namespace Relative

/-! ### States -/

/-- What the scan knows in front of a character: the number of open brackets and the open quote. -/
structure ScanState where
  depth : Nat
  quote : Option Char

/-- The state outside quotes. -/
def ScanState.unquoted (depth : Nat) : ScanState :=
  ⟨depth, none⟩

/-- The state behind a character that is no backslash, or nothing for a comma that cuts. -/
def step : ScanState → Char → Option ScanState
  | ⟨depth, some quote⟩, c => some ⟨depth, if c = quote then none else some quote⟩
  | ⟨depth, none⟩, c =>
      if c = ',' ∧ depth = 0 then none
      else if c = '"' ∨ c = '\'' then some ⟨depth, some c⟩
      else if c = '(' ∨ c = '[' then some ⟨depth + 1, none⟩
      else if c = ')' ∨ c = ']' then some ⟨depth - 1, none⟩
      else some ⟨depth, none⟩

/-- The state behind a text, or nothing where a comma cuts the text, and where a backslash at its
end would take the meaning from what stands behind. -/
def stateAfter : ScanState → List Char → Option ScanState
  | state, [] => some state
  | _, ['\\'] => none
  | state, '\\' :: _ :: rest => stateAfter state rest
  | state, c :: rest => (step state c).bind fun next => stateAfter next rest

/-- Scanning the text up to the rest leads from the one state to the other. -/
def Scans (before : ScanState) (text : List Char) (after : ScanState) (rest : List Char) : Prop :=
  ∃ chunk, text = chunk ++ rest ∧ stateAfter before chunk = some after

variable {state before after last : ScanState} {text more rest : List Char} {c : Char}

theorem stateAfter_cons (hc : c ≠ '\\') (rest : List Char) :
    stateAfter state (c :: rest) = (step state c).bind fun next => stateAfter next rest := by
  rw [stateAfter.eq_def]
  split
  · next heq => exact absurd heq (by simp)
  · next heq => exact absurd (List.cons.inj heq).1 hc
  · next heq => exact absurd (List.cons.inj heq).1 hc
  · next heq =>
      cases heq
      rfl

/-- A text as it is scanned: a backslash together with what stands behind it, and any other
character by itself. -/
@[elab_as_elim]
theorem scanInduction {motive : List Char → Prop} (nil : motive []) (lone : motive ['\\'])
    (escaped : ∀ c rest, motive rest → motive ('\\' :: c :: rest))
    (cons : ∀ c rest, c ≠ '\\' → motive rest → motive (c :: rest)) : ∀ text, motive text
  | [] => nil
  | [c] => by
      by_cases hc : c = '\\'
      · rw [hc]
        exact lone
      · exact cons c [] hc nil
  | c :: d :: rest => by
      by_cases hc : c = '\\'
      · rw [hc]
        exact escaped d rest (scanInduction nil lone escaped cons rest)
      · exact cons c (d :: rest) hc (scanInduction nil lone escaped cons (d :: rest))

theorem stateAfter_append {first : List Char} (h : stateAfter before first = some after)
    (second : List Char) : stateAfter before (first ++ second) = stateAfter after second := by
  induction first using scanInduction generalizing before with
  | nil =>
      cases h
      rfl
  | lone => exact absurd h (by simp [stateAfter])
  | escaped c rest ih => exact ih h
  | cons c rest hc ih =>
      rw [stateAfter_cons hc, Option.bind_eq_some_iff] at h
      obtain ⟨next, hstep, hnext⟩ := h
      rw [List.cons_append, stateAfter_cons hc, hstep, Option.bind_some]
      exact ih hnext

theorem Scans.refl (state : ScanState) (text : List Char) : Scans state text state text :=
  ⟨[], rfl, rfl⟩

theorem Scans.trans (h : Scans before text after more) (hmore : Scans after more last rest) :
    Scans before text last rest := by
  obtain ⟨first, rfl, hfirst⟩ := h
  obtain ⟨second, rfl, hsecond⟩ := hmore
  exact ⟨first ++ second, by simp, by rw [stateAfter_append hfirst, hsecond]⟩

theorem Scans.isSuffix (h : Scans before text after rest) : rest <:+ text := by
  obtain ⟨chunk, rfl, -⟩ := h
  exact List.suffix_append chunk rest

theorem Scans.stateAfter_eq (h : Scans before text after rest) :
    stateAfter before text = stateAfter after rest := by
  obtain ⟨chunk, rfl, hchunk⟩ := h
  exact stateAfter_append hchunk rest

theorem Scans.step (hc : c ≠ '\\') (h : Relative.step before c = some after) :
    Scans before (c :: rest) after rest :=
  ⟨[c], rfl, by rw [stateAfter_cons hc, h]; rfl⟩

/-! ### What the scan passes over -/

/-- The character means nothing to the scan. -/
def IsPlain (c : Char) : Prop :=
  c ∉ ['\\', '"', '\'', '(', ')', '[', ']', ',']

instance : DecidablePred IsPlain := fun c =>
  inferInstanceAs (Decidable (c ∉ ['\\', '"', '\'', '(', ')', '[', ']', ',']))

theorem IsPlain.ne_backslash (hc : IsPlain c) : c ≠ '\\' := by
  rintro rfl
  exact hc (by simp)

/-- The open quote is one of the two quotes. -/
def ScanState.IsProper (state : ScanState) : Prop :=
  ∀ quote ∈ state.quote, quote = '"' ∨ quote = '\''

theorem ScanState.isProper_unquoted (depth : Nat) : (ScanState.unquoted depth).IsProper := by
  simp [IsProper, unquoted]

theorem step_of_isPlain (hstate : state.IsProper) (hc : IsPlain c) : step state c = some state := by
  simp only [IsPlain, List.mem_cons, List.not_mem_nil, or_false, not_or] at hc
  obtain ⟨-, hdouble, hsingle, hopen, hclose, hleft, hright, hcomma⟩ := hc
  obtain ⟨depth, quote⟩ := state
  cases quote with
  | none => simp [step, hdouble, hsingle, hopen, hclose, hleft, hright, hcomma]
  | some quote =>
      have hne : c ≠ quote := by
        rcases hstate quote rfl with rfl | rfl
        · exact hdouble
        · exact hsingle
      simp [step, hne]

theorem scans_plain (hstate : state.IsProper) (hc : IsPlain c) (rest : List Char) :
    Scans state (c :: rest) state rest :=
  Scans.step hc.ne_backslash (step_of_isPlain hstate hc)

theorem scans_append (hstate : state.IsProper) (h : ∀ c ∈ text, IsPlain c) (rest : List Char) :
    Scans state (text ++ rest) state rest := by
  induction text with
  | nil => exact Scans.refl state rest
  | cons c text ih =>
      exact (scans_plain hstate (h c (by simp)) _).trans (ih fun d hd => h d (by simp [hd]))

theorem scans_dropWhile {p : Char → Bool} (hstate : state.IsProper)
    (h : ∀ c, p c = true → IsPlain c) (text : List Char) :
    Scans state text state (text.dropWhile p) := by
  have hscans := @scans_append state (text.takeWhile p) hstate
    (fun c hc => h c (List.mem_takeWhile_imp hc)) (text.dropWhile p)
  rwa [List.takeWhile_append_dropWhile] at hscans

theorem isPlain_of_isSpace (hc : isSpace c = true) : IsPlain c := by
  rcases isSpace_cases hc with rfl | rfl | rfl | rfl | rfl <;> simp [IsPlain]

theorem isPlain_of_isNameChar (hc : isNameChar c = true) : IsPlain c := by
  intro hmem
  simp only [List.mem_cons, List.not_mem_nil, or_false] at hmem
  rcases hmem with rfl | rfl | rfl | rfl | rfl | rfl | rfl | rfl <;> exact absurd hc (by decide)

/-! ### Tokens -/

theorem scans_backslash (state : ScanState) (c : Char) (rest : List Char) :
    Scans state ('\\' :: c :: rest) state rest :=
  ⟨['\\', c], rfl, rfl⟩

theorem scans_dropSpace (hstate : state.IsProper) (text : List Char) :
    Scans state text state (dropSpace text) := by
  cases text with
  | nil => exact Scans.refl state []
  | cons c rest =>
      rw [dropSpace]
      split
      · next hspace => exact scans_plain hstate (isPlain_of_isSpace hspace) rest
      · exact Scans.refl state (c :: rest)

theorem scans_escape (hstate : state.IsProper) (c : Char) (rest : List Char) :
    Scans state ('\\' :: c :: rest) state (escape (c :: rest)).2 := by
  refine (scans_backslash state c rest).trans ?_
  rw [escape]
  split
  · -- the digits are a part of the text in front
    have hdigits : ∀ d ∈ (rest.take 5).takeWhile isHexDigit, IsPlain d := by
      intro d hd
      have hhex : isHexDigit d = true := List.mem_takeWhile_imp hd
      exact isPlain_of_isNameChar
        (isNameChar_iff.mpr (Or.inr (Or.inr (Or.inr (isAlphanum_of_isHexDigit hhex)))))
    have hfront : (rest.take 5).takeWhile isHexDigit <+: rest :=
      (List.takeWhile_prefix _).trans (List.take_prefix 5 rest)
    have hscans := scans_append hstate hdigits
      (rest.drop ((rest.take 5).takeWhile isHexDigit).length)
    rw [List.prefix_iff_eq_append.mp hfront] at hscans
    exact hscans.trans (scans_dropSpace hstate _)
  · exact Scans.refl state rest

theorem scans_name (hstate : state.IsProper) (text : List Char) :
    Scans state text state (name text).2 := by
  fun_induction name text with
  | case1 => exact Scans.refl state []
  | case2 c rest hname _ ih =>
      exact (scans_plain hstate (isPlain_of_isNameChar hname) rest).trans ih
  | case3 c rest _ hescape _ ih =>
      obtain ⟨d, more, heq⟩ := exists_of_startsEscape hescape
      cases heq
      exact (scans_escape hstate d more).trans ih
  | case4 c rest => exact Scans.refl state (c :: rest)

theorem isPlain_of_mem_number (hc : c ∈ (number text).1) : IsPlain c := by
  have hdigit : ∀ {d : Char}, d.isDigit = true → IsPlain d := fun hd =>
    isPlain_of_isNameChar (by simp [isNameChar, hd])
  simp only [number, List.mem_append] at hc
  rcases hc with (hsign | hwhole) | hfraction
  · unfold sign at hsign
    split at hsign
    · rw [List.mem_singleton.mp hsign]
      simp [IsPlain]
    · rw [List.mem_singleton.mp hsign]
      simp [IsPlain]
    · exact absurd hsign (by simp)
  · exact hdigit (List.mem_takeWhile_imp hwhole)
  · unfold fraction at hfraction
    split at hfraction
    · split at hfraction
      · next hd =>
          rcases List.mem_cons.mp hfraction with rfl | hmore
          · simp [IsPlain]
          · rcases List.mem_cons.mp hmore with rfl | hmore
            · exact hdigit hd
            · exact hdigit (List.mem_takeWhile_imp hmore)
      · exact absurd hfraction (by simp)
    · exact absurd hfraction (by simp)

theorem scans_numeric (hstate : state.IsProper) (text : List Char) :
    Scans state text state (numeric text).2 := by
  have hnumber : Scans state text state (number text).2 := by
    have hscans := scans_append hstate (fun c => @isPlain_of_mem_number text c) (number text).2
    rwa [number_append] at hscans
  rw [numeric]
  split
  · exact hnumber.trans (scans_name hstate _)
  · exact hnumber

theorem scans_hash (hstate : state.IsProper) (text : List Char) :
    Scans state text state (Lexer.hash text).2 := by
  rw [Lexer.hash]
  split
  · exact scans_name hstate text
  · exact Scans.refl state text

theorem scans_quote (hquote : c = '"' ∨ c = '\'') (depth : Nat) (rest : List Char) :
    Scans (.unquoted depth) (c :: rest) ⟨depth, some c⟩ rest := by
  rcases hquote with rfl | rfl <;> exact ⟨[_], rfl, rfl⟩

/-- A closed string ends where its quote is closed. -/
theorem scans_string {quote : Char} (hquote : quote = '"' ∨ quote = '\'') (depth : Nat) :
    ∀ chars, (string quote text).1 = some chars →
      Scans ⟨depth, some quote⟩ text (.unquoted depth) (string quote text).2 := by
  have hproper : ScanState.IsProper ⟨depth, some quote⟩ := by
    rintro _ ⟨⟩
    exact hquote
  have hbackslash : quote ≠ '\\' := by
    rcases hquote with rfl | rfl <;> decide
  fun_induction string quote text with
  | case1 => simp
  | case2 rest =>
      rintro _ -
      exact Scans.step hbackslash (by simp [Relative.step, ScanState.unquoted])
  | case3 rest => simp
  | case4 => simp
  | case5 rest _ _ ih =>
      intro chars hclosed
      exact (scans_backslash _ _ rest).trans (ih chars hclosed)
  | case6 d rest _ _ _ _ ih =>
      intro chars hclosed
      obtain ⟨others, hothers, -⟩ := Option.map_eq_some_iff.mp hclosed
      exact (scans_escape hproper d rest).trans (ih others hothers)
  | case7 d rest hne _ hescape _ ih =>
      intro chars hclosed
      obtain ⟨others, hothers, -⟩ := Option.map_eq_some_iff.mp hclosed
      have hstep : Relative.step ⟨depth, some quote⟩ d = some ⟨depth, some quote⟩ := by
        simp [Relative.step, hne]
      exact (Scans.step hescape hstep).trans (ih others hothers)

theorem scans_named {found : Token} {left : List Char} (h : named text = (found, left))
    {depth inner : Nat} (hdepth : found.depthAfter depth = some inner) :
    Scans (.unquoted depth) text (.unquoted inner) left := by
  have hname := scans_name (ScanState.isProper_unquoted depth) text
  by_cases hparen : (name text).2.head? = some '('
  · obtain ⟨rest, hrest⟩ := List.head?_eq_some_iff.mp hparen
    rw [named_function hrest] at h
    cases h
    cases hdepth
    rw [hrest] at hname
    exact hname.trans (Scans.step (by decide) (by simp [Relative.step, ScanState.unquoted]))
  · rw [named_ident hparen] at h
    cases h
    cases hdepth
    exact hname

/-- A character that begins no longer token is a bracket, a comma, or plain. -/
theorem scans_punctuation {rest : List Char} (hc : c ∉ ['"', '\'', '#', '\\'])
    {depth inner : Nat} (hdepth : (punctuation c).depthAfter depth = some inner) :
    Scans (.unquoted depth) (c :: rest) (.unquoted inner) rest := by
  simp only [List.mem_cons, List.not_mem_nil, or_false, not_or] at hc
  obtain ⟨hdouble, hsingle, -, hbackslash⟩ := hc
  refine Scans.step hbackslash ?_
  unfold punctuation at hdepth
  split at hdepth
  · cases hdepth
    rfl
  · by_cases hzero : depth = 0
    · exact absurd hdepth (by simp [Token.depthAfter, hzero])
    · have hinner : inner = depth := by simpa [Token.depthAfter, hzero, eq_comm] using hdepth
      simp [Relative.step, ScanState.unquoted, hzero, hinner]
  · cases hdepth
    rfl
  · cases hdepth
    rfl
  · cases hdepth
    rfl
  · cases hdepth
    rfl
  · next hcomma hleft hright hopen hclose =>
      cases hdepth
      refine step_of_isPlain (ScanState.isProper_unquoted depth) fun hmem => ?_
      simp only [List.mem_cons, List.not_mem_nil, or_false] at hmem
      rcases hmem with heq | heq | heq | heq | heq | heq | heq | heq
      · exact hbackslash heq
      · exact hdouble heq
      · exact hsingle heq
      · exact hopen heq
      · exact hclose heq
      · exact hleft heq
      · exact hright heq
      · exact hcomma heq

theorem depthAfter_hash (text : List Char) (depth : Nat) :
    (Lexer.hash text).1.depthAfter depth = some depth := by
  unfold Lexer.hash
  split <;> rfl

theorem depthAfter_numeric (text : List Char) (depth : Nat) :
    (numeric text).1.depthAfter depth = some depth := by
  unfold numeric
  dsimp only
  split <;> rfl

/-- The scan passes over a token as a whole. -/
theorem scans_of_token {found : Token} {left : List Char}
    (h : token c rest = (.ok (some found), left)) {depth inner : Nat}
    (hdepth : found.depthAfter depth = some inner) :
    Scans (.unquoted depth) (c :: rest) (.unquoted inner) left := by
  have hproper := ScanState.isProper_unquoted depth
  cases takes_of_token h with
  | whitespace hspace =>
      cases hdepth
      exact (scans_plain hproper (isPlain_of_isSpace hspace) rest).trans
        (scans_dropWhile hproper (fun _ => isPlain_of_isSpace) rest)
  | @string chars _ hquote hclosed =>
      cases hdepth
      have hstring := scans_string hquote depth chars (by rw [hclosed])
      rw [hclosed] at hstring
      exact (scans_quote hquote depth rest).trans hstring
  | hash hhash =>
      rw [depthAfter_hash] at hdepth
      cases hdepth
      exact (scans_plain hproper (by simp [IsPlain, hhash]) rest).trans (scans_hash hproper rest)
  | numeric _ =>
      rw [depthAfter_numeric] at hdepth
      cases hdepth
      exact scans_numeric hproper (c :: rest)
  | named _ => exact scans_named rfl hdepth
  | punctuation _ hmem _ _ => exact scans_punctuation hmem hdepth

/-! ### Comments -/

/-- The comments that the lexer skips at the beginning of the text hold plain characters only.  The
signs of a comment are plain themselves. -/
def SkipsPlainly (text : List Char) : Prop :=
  ∀ skipped rest, text = skipped ++ rest → dropComments text = some rest → ∀ c ∈ skipped, IsPlain c

/-- The comments in the text hold plain characters only: wherever the lexer stands as it reads the
text token by token, it skips no others. -/
def HasPlainComments (text : List Char) : Prop :=
  ∀ found rest, Reads text found rest → SkipsPlainly rest

theorem skipsPlainly_iff : SkipsPlainly text ↔
    ((dropComments text).all fun rest =>
      (text.take (text.length - rest.length)).all fun c => decide (IsPlain c)) = true := by
  simp only [Option.all_eq_true, List.all_eq_true, decide_eq_true_eq]
  constructor
  · intro h rest hdrop
    obtain ⟨skipped, rfl⟩ := dropComments_suffix hdrop
    simpa using h skipped rest rfl hdrop
  · rintro h skipped rest rfl hdrop
    simpa using h rest hdrop

instance : DecidablePred SkipsPlainly := fun _ => decidable_of_iff' _ skipsPlainly_iff

theorem HasPlainComments.skipsPlainly (h : HasPlainComments text) : SkipsPlainly text :=
  h [] text .done

theorem HasPlainComments.of_reads {found : List Token} (h : HasPlainComments text)
    (hreads : Reads text found rest) : HasPlainComments rest :=
  fun _ _ hmore => h _ _ (hreads.append hmore)

/-- Comments in front of the end of a text are not changed by what stands behind it. -/
theorem SkipsPlainly.of_append (hc : Breaks c) (h : SkipsPlainly (text ++ c :: more)) :
    SkipsPlainly text := by
  rintro skipped rest rfl hdrop
  exact h skipped (rest ++ c :: more) (List.append_assoc _ _ _) (dropComments_append hc more hdrop)

/-- It is enough to look at the comments in front of each call. -/
theorem HasPlainComments.of_left (h : ∀ calls ≤ text.length, SkipsPlainly (left text calls)) :
    HasPlainComments text := by
  intro found rest hreads
  have hlength := hreads.length_add_length_le
  rw [← hreads.left_eq]
  exact h found.length (by omega)

/-- A text without the sign that begins a comment has no comments. -/
theorem HasPlainComments.of_no_sign (h : ¬ ['/', '*'] <:+: text) : HasPlainComments text := by
  rintro found part hreads skipped rest rfl hdrop c hc
  rcases dropComments_cases hdrop with heq | ⟨inner, after, heq, -, -⟩
  · rw [List.append_left_eq_self.mp heq] at hc
    exact absurd hc (by simp)
  · have hpart := hreads.isSuffix
    rw [heq] at hpart
    have hsign : ['/', '*'] <+: comment inner ++ after :=
      ⟨inner ++ ['*', '/'] ++ after, by simp [comment]⟩
    exact absurd (hsign.isInfix.trans hpart.isInfix) h

/-- The scan passes over the comments that the lexer passes over. -/
theorem scans_dropComments (hstate : state.IsProper) (hplain : SkipsPlainly text)
    (h : dropComments text = some rest) : Scans state text state rest := by
  obtain ⟨skipped, rfl⟩ := dropComments_suffix h
  exact scans_append hstate (hplain skipped rest rfl h) rest

theorem scans_of_next {found : Token} {left : List Char} (hplain : SkipsPlainly text)
    (h : next text = (.ok (some found), left)) {depth inner : Nat}
    (hdepth : found.depthAfter depth = some inner) :
    Scans (.unquoted depth) text (.unquoted inner) left := by
  obtain ⟨c, behind, hcomments, htoken⟩ := exists_token_of_next h
  exact (scans_dropComments (ScanState.isProper_unquoted depth) hplain hcomments).trans
    (scans_of_token htoken hdepth)

/-- Only a comma is read as a comma. -/
theorem eq_comma_of_token {left : List Char} (h : token c rest = (.ok (some .comma), left)) :
    c = ',' ∧ rest = left := by
  generalize hfound : Token.comma = found at h
  cases takes_of_token h with
  | whitespace _ => cases hfound
  | string _ _ => cases hfound
  | hash _ =>
      unfold Lexer.hash at hfound
      split at hfound <;> cases hfound
  | numeric _ =>
      unfold numeric at hfound
      dsimp only at hfound
      split at hfound <;> cases hfound
  | named _ =>
      unfold named at hfound
      dsimp only at hfound
      split at hfound <;> cases hfound
  | punctuation _ _ _ _ =>
      unfold punctuation at hfound
      split at hfound <;> cases hfound
      exact ⟨rfl, rfl⟩

/-- The scan passes over the comments in front of a comma. -/
theorem scans_comma_of_next {left : List Char} (hstate : state.IsProper)
    (hplain : SkipsPlainly text) (h : next text = (.ok (some .comma), left)) :
    Scans state text state (',' :: left) := by
  obtain ⟨c, behind, hcomments, htoken⟩ := exists_token_of_next h
  obtain ⟨rfl, rfl⟩ := eq_comma_of_token htoken
  exact scans_dropComments hstate hplain hcomments

/-- Where the scan passes over a token there is a depth behind it. -/
theorem exists_scans_of_next {found : Token} {left : List Char} (hplain : SkipsPlainly text)
    {depth : Nat} (hstate : stateAfter (.unquoted depth) text = some after)
    (h : next text = (.ok (some found), left)) :
    ∃ inner, Scans (.unquoted depth) text (.unquoted inner) left := by
  cases hdepth : found.depthAfter depth with
  | some inner => exact ⟨inner, scans_of_next hplain h hdepth⟩
  | none =>
      -- a comma that cuts
      obtain ⟨rfl, rfl⟩ := Token.depthAfter_eq_none.mp hdepth
      have hcomma := scans_comma_of_next (ScanState.isProper_unquoted 0) hplain h
      rw [hcomma.stateAfter_eq] at hstate
      exact absurd hstate (by simp [stateAfter, Relative.step, ScanState.unquoted])

/-- Where tokens close what they open, the scan agrees. -/
theorem scans_of_reads {tokens : List Token} {left : List Char} (hplain : HasPlainComments text)
    (h : Reads text tokens left) {depth inner : Nat}
    (hdepth : depthAfter depth tokens = some inner) :
    Scans (.unquoted depth) text (.unquoted inner) left := by
  induction h generalizing depth with
  | done =>
      cases hdepth
      exact Scans.refl _ _
  | @step text more rest token tokens hnext _ ih =>
      rw [depthAfter_cons, Option.bind_eq_some_iff] at hdepth
      obtain ⟨between, htoken, hmore⟩ := hdepth
      have hbehind := hplain.of_reads (.single hnext)
      exact (scans_of_next hplain.skipsPlainly hnext htoken).trans (ih hbehind hmore)

/-! ### Texts that go on -/

/-- An open string stays open where the text goes on, unless the scan is inside quotes there. -/
theorem string_append_of_open (hc : Breaks c) (more : List Char) {quote : Char} {depth inner : Nat}
    (hquote : quote = '"' ∨ quote = '\'')
    (hstate : stateAfter ⟨depth, some quote⟩ text = some (.unquoted inner))
    (hopen : (string quote text).1 = none) : (string quote (text ++ c :: more)).1 = none := by
  have hproper : ScanState.IsProper ⟨depth, some quote⟩ := by
    rintro _ ⟨⟩
    exact hquote
  fun_induction string quote text with
  | case1 => exact absurd hstate (by simp [stateAfter, ScanState.unquoted])
  | case2 rest => exact absurd hopen (by simp)
  | case3 rest hne =>
      rw [List.cons_append, string.eq_def]
      simp [hne]
  | case4 => exact absurd hstate (by simp [stateAfter])
  | case5 rest hne _ ih =>
      rw [List.cons_append, string.eq_def]
      simpa [hne] using ih hstate hopen
  | case6 d rest hline tail hne _ ih =>
      have hbehind := (scans_escape hproper d rest).stateAfter_eq
      rw [hstate] at hbehind
      obtain ⟨left, hescape, hleft⟩ := hc.escape_append (List.cons_ne_nil d rest)
      rw [List.cons_append] at hescape
      -- the quote is closed behind the escape, so there is text behind it
      have hleft' : left = (escape (d :: rest)).2 ++ c :: more := by
        refine hleft.resolve_right ?_
        rintro ⟨-, hnil, -, -⟩
        rw [hnil] at hbehind
        exact absurd hbehind.symm (by simp [stateAfter, ScanState.unquoted])
      have htail := ih hbehind.symm (Option.map_eq_none_iff.mp hopen)
      rw [List.cons_append, string.eq_def]
      simp [hne, hline, hescape, hleft', htail]
  | case7 d rest hne hline hescape tail ih =>
      rw [stateAfter_cons hescape, Relative.step, if_neg hne, Option.bind_some] at hstate
      have htail := ih hstate (Option.map_eq_none_iff.mp hopen)
      rw [List.cons_append, string.eq_def]
      simp [hne, hline, hescape, htail]

theorem token_append_of_error (hc : Breaks c) (more : List Char) {d : Char} {cause : SelectorError}
    {depth inner : Nat}
    (hstate : stateAfter (.unquoted depth) (d :: rest) = some (.unquoted inner))
    (h : (token d rest).1 = .error cause) :
    ∃ other, (token d (rest ++ c :: more)).1 = .error other := by
  rcases token_eq_error h with ⟨hquote, hopen⟩ | ⟨rfl, hescape⟩
  · rw [(scans_quote hquote depth rest).stateAfter_eq] at hstate
    refine ⟨.unterminated .string, ?_⟩
    rw [token_of_quote hquote, quoted]
    simp only [string_append_of_open hc more hquote hstate hopen]
  · -- the scan takes the meaning from the line break, so the backslash is not the last character
    cases rest with
    | nil => exact absurd hstate (by simp [stateAfter])
    | cons e rest =>
        obtain rfl : e = '\n' := by simpa [startsEscape] using hescape
        exact ⟨.unterminated .escape, rfl⟩

/-- What leaves a backslash behind it takes the meaning from what stands there. -/
theorem not_leavesEscape_of_stateAfter {depth : Nat}
    (h : stateAfter (.unquoted depth) text = some after) : ¬ LeavesEscape text := by
  rintro (rfl | rfl)
  · exact absurd h (by simp [stateAfter])
  · exact absurd h (by simp [stateAfter, Relative.step, ScanState.unquoted])

/-- No comment that is open at the end of a text is closed behind it, in the character or in what
comes then. -/
def StaysOpen (c : Char) (more : List Char) : Prop :=
  ∀ text, SkipsPlainly (text ++ c :: more) → dropComments text = none →
    dropComments (text ++ c :: more) = none

/-- A comma is in no comment. -/
theorem staysOpen_comma (more : List Char) : StaysOpen ',' more := by
  intro text hplain hopen
  by_contra hclosed
  obtain ⟨rest, hrest⟩ := Option.ne_none_iff_exists'.mp hclosed
  obtain ⟨lead, hlead⟩ := exists_of_dropComments_append hopen hrest
  have hcomma : ',' ∈ text ++ (lead ++ ['/']) := by
    cases lead with
    | nil => exact absurd (List.cons.inj hlead).1 (by decide)
    | cons d lead => simp [← (List.cons.inj hlead).1]
  exact hplain _ rest (by simp [hlead]) hrest ',' hcomma (by simp)

/-- Spaces close no comment. -/
theorem staysOpen_space (h : ∀ d ∈ c :: more, isSpace d = true) : StaysOpen c more := by
  intro text _ hopen
  by_contra hclosed
  obtain ⟨rest, hrest⟩ := Option.ne_none_iff_exists'.mp hclosed
  obtain ⟨lead, hlead⟩ := exists_of_dropComments_append hopen hrest
  exact absurd (h '/' (by simp [hlead])) (by decide)

/-- An error in a text is an error in the longer text as well. -/
theorem next_append_of_error (hc : Breaks c) (hplain : SkipsPlainly (text ++ c :: more))
    (hopen : StaysOpen c more) {cause : SelectorError} {depth inner : Nat}
    (hstate : stateAfter (.unquoted depth) text = some (.unquoted inner))
    (h : (next text).1 = .error cause) :
    ∃ other, (next (text ++ c :: more)).1 = .error other := by
  unfold next at h
  split at h
  · next hcomments =>
      refine ⟨.unterminated .comment, ?_⟩
      rw [next, hopen text hplain hcomments]
  · exact absurd h (by simp)
  · next d rest hcomments =>
      have hscans := scans_dropComments (ScanState.isProper_unquoted depth) (hplain.of_append hc)
        hcomments
      rw [hscans.stateAfter_eq] at hstate
      rw [next, dropComments_append hc more hcomments]
      exact token_append_of_error hc more hstate h

/-- **A text with closed quotes is read if a longer text is.**  Behind the text stands a character
that continues no token and closes no comment. -/
theorem exists_tokens_of_append (hc : Ends text c more)
    (hplain : HasPlainComments (text ++ c :: more)) (hopen : StaysOpen c more) {depth inner : Nat}
    (hstate : stateAfter (.unquoted depth) text = some (.unquoted inner)) {found : List Token}
    (h : tokens (text ++ c :: more) = .ok found) : ∃ front, tokens text = .ok front := by
  induction hlength : text.length using Nat.strongRecOn generalizing text found depth with
  | _ n ih =>
      rcases hnext : next text with ⟨cause | token, left⟩
      · obtain ⟨other, herror⟩ :=
          next_append_of_error hc.toBreaks hplain.skipsPlainly hopen hstate (by rw [hnext])
        rw [tokens_of_error herror] at h
        exact absurd h (by simp)
      · cases token with
        | none => exact ⟨[], tokens_of_end (by rw [hnext])⟩
        | some token =>
            have hless : left.length < text.length := length_lt_of_next hnext
            have hsuffix := next_suffix hnext
            have hfront := hplain.skipsPlainly.of_append hc.toBreaks
            obtain ⟨between, hscans⟩ := exists_scans_of_next hfront hstate hnext
            rw [hscans.stateAfter_eq] at hstate
            obtain ⟨behind, hlonger, hbehind⟩ :=
              next_append hc hnext (not_leavesEscape_of_stateAfter hstate)
            rw [Reads.tokens_step hnext]
            obtain ⟨othersBehind, hread, -⟩ := Reads.exists_of_tokens_step hlonger h
            -- only the last token can take what comes behind the text
            have hlast : ∃ others, tokens left = .ok others := by
              rcases hbehind with (rfl | ⟨-, rfl, -⟩) | ⟨-, rfl, -⟩
              · exact ih left.length (hlength ▸ hless) (hc.of_subset hsuffix.subset)
                  (hplain.of_reads (.single hlonger)) hstate hread rfl
              · exact ⟨[], Reads.tokens_nil⟩
              · exact ⟨[], Reads.tokens_nil⟩
            obtain ⟨others, hothers⟩ := hlast
            exact ⟨token :: others, by rw [hothers]; rfl⟩

/-- The lexer skips the comments of a text also where a separator stands behind it. -/
theorem HasPlainComments.of_append (hc : Separates c) (h : HasPlainComments (text ++ c :: more))
    {front : List Token} (hread : tokens text = .ok front) : HasPlainComments text := by
  intro found rest hreads
  induction hreads generalizing front with
  | done => exact h.skipsPlainly.of_append hc.toBreaks
  | @step text others rest token found hnext _ ih =>
      obtain ⟨front, hothers, -⟩ := Reads.exists_of_tokens_step hnext hread
      obtain ⟨behind, hlonger, hbehind⟩ :=
        next_append (hc.ends text more) hnext (not_leavesEscape_of_tokens hothers)
      have hseam : behind = others ++ c :: more := by
        rcases hbehind with (hbehind | ⟨-, -, hspace, -⟩) | ⟨-, -, hspace, -⟩
        · exact hbehind
        · exact absurd hspace (by simp [hc.isSpace_eq])
        · exact absurd hspace (by simp [hc.isSpace_eq])
      rw [hseam] at hlonger
      exact ih (h.of_reads (.single hlonger)) hothers

end Relative

end DomQuery
