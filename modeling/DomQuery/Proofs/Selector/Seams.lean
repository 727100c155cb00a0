import DomQuery.Proofs.Selector.Reading

/-!
# Texts behind one another

When a comma stands behind a text, the lexer reads the text as if it ended there, and goes on
with the comma (`tokens_append`).  The same holds for every character that continues no token.  A
space differs in that it can belong to what stands in front of it, to an escape or to other
spaces, but the tokens are the same (`tokens_append_of_ends`).

A reader looks further than its token ends only to see whether a name, a number or an escape goes
on, and such a character says no as the end of the text does.  The one exception is a backslash at
the very end of the text: it escapes what comes behind it.  A text whose last token leaves such a
backslash is not read without an error, so it does not matter here.
-/

namespace DomQuery.Lexer

/-- The character continues no token, and begins no escape and no comment. -/
structure Breaks (c : Char) : Prop where
  isNameChar_eq : isNameChar c = false
  not_mem : c ∉ ['\\', '(', '.', '*', '/']

/-- The character ends the text in front of it.  If it is a space, an escape in the text can take
it, and then no name may go on behind it. -/
structure Ends (text : List Char) (c : Char) (more : List Char) : Prop extends Breaks c where
  behind : isSpace c = true → '\\' ∈ text → EndsName more

/-- The character ends every text in front of it, and nothing can take it. -/
structure Separates (c : Char) : Prop extends Breaks c where
  isSpace_eq : isSpace c = false

theorem separates_comma : Separates ',' := by
  constructor
  · constructor <;> decide
  · decide

theorem Separates.ends {c : Char} (hc : Separates c) (text more : List Char) :
    Ends text c more where
  toBreaks := hc.toBreaks
  behind hspace := absurd hspace (by simp [hc.isSpace_eq])

theorem Ends.of_subset {text part more : List Char} {c : Char} (hc : Ends text c more)
    (hpart : part ⊆ text) : Ends part c more where
  toBreaks := hc.toBreaks
  behind hspace hmem := hc.behind hspace (hpart hmem)

theorem endsName_of_isSpace {c : Char} (hc : isSpace c = true) :
    isNameChar c = false ∧ c ≠ '\\' ∧ c ≠ '(' := by
  rcases isSpace_cases hc with rfl | rfl | rfl | rfl | rfl <;> decide

theorem breaks_space {c : Char} (hc : isSpace c = true) : Breaks c := by
  constructor
  · exact (endsName_of_isSpace hc).1
  · rcases isSpace_cases hc with rfl | rfl | rfl | rfl | rfl <;> decide

/-- A space ends what stands in front of it. -/
theorem ends_space {c : Char} (hc : isSpace c = true) {more : List Char} (hmore : EndsName more)
    (text : List Char) : Ends text c more where
  toBreaks := breaks_space hc
  behind _ _ := hmore

/-- A space ends a text without escapes, whatever stands behind it. -/
theorem ends_space_of_not_mem {text : List Char} (htext : '\\' ∉ text) {c : Char}
    (hc : isSpace c = true) (more : List Char) : Ends text c more where
  toBreaks := breaks_space hc
  behind _ hmem := absurd hmem htext

/-- A backslash at the end of the text would escape the character behind it. -/
def LeavesEscape (text : List Char) : Prop :=
  text = ['\\'] ∨ text = ['-', '\\']

/-- What is left of a longer text where the rest is left of the text: a space at the seam can belong
to an escape at the end of the text. -/
def Leaves (text : List Char) (c : Char) (more rest left : List Char) : Prop :=
  left = rest ++ c :: more ∨ '\\' ∈ text ∧ rest = [] ∧ isSpace c = true ∧ left = more

theorem Leaves.of_subset {text whole more rest left : List Char} {c : Char}
    (h : Leaves text c more rest left) (htext : text ⊆ whole) : Leaves whole c more rest left :=
  h.imp_right (And.imp_left fun hmem => htext hmem)

/-- What is left behind a token where the text goes on: a space behind whitespace is part of it, and
so are the spaces behind that one. -/
def LeavesToken (text : List Char) (c : Char) (more : List Char) (found : Token)
    (rest left : List Char) : Prop :=
  Leaves text c more rest left ∨
    found = .whitespace ∧ rest = [] ∧ isSpace c = true ∧ left = more.dropWhile isSpace

namespace Breaks

variable {c : Char}

theorem isDigit_eq (hc : Breaks c) : c.isDigit = false := by
  have h := hc.isNameChar_eq
  simp only [isNameChar, Bool.or_eq_false_iff] at h
  exact h.1.2

theorem isHexDigit_eq (hc : Breaks c) : isHexDigit c = false := by
  by_contra hhex
  have hname : isNameChar c = true := isNameChar_iff.mpr
    (Or.inr (Or.inr (Or.inr (isAlphanum_of_isHexDigit (by simpa using hhex)))))
  rw [hc.isNameChar_eq] at hname
  exact absurd hname (by simp)

theorem ne_of_mem (hc : Breaks c) {d : Char} (hd : d ∈ ['\\', '(', '.', '*', '/']) : c ≠ d := by
  rintro rfl
  exact hc.not_mem hd

theorem ne_backslash (hc : Breaks c) : c ≠ '\\' :=
  hc.ne_of_mem (by simp)

theorem ne_dot (hc : Breaks c) : c ≠ '.' :=
  hc.ne_of_mem (by simp)

end Breaks

/-! ### Look-ahead -/

theorem startsEscape_cons {d : Char} (hd : d ≠ '\\') (rest : List Char) :
    startsEscape (d :: rest) = false := by
  unfold startsEscape
  split
  · next heq => exact absurd (List.cons.inj heq).1 hd
  · rfl

theorem startsName_cons {d : Char} (hd : d ≠ '-') (rest : List Char) :
    startsName (d :: rest) = (isNameStart d || startsEscape (d :: rest)) := by
  rw [startsName]
  exact hd

theorem startsName_dash (rest : List Char) :
    startsName ('-' :: rest) =
      (startsEscape rest || rest.head?.any fun d => isNameStart d || d == '-') := by
  cases rest <;> rfl

theorem startsEscape_append {c : Char} {text : List Char} (hc : c ≠ '\\')
    (htext : text ≠ ['\\']) (more : List Char) :
    startsEscape (text ++ c :: more) = startsEscape text := by
  match text with
  | [] => exact startsEscape_cons hc more
  | [d] =>
      have hd : d ≠ '\\' := fun heq => htext (by rw [heq])
      exact (startsEscape_cons hd _).trans (startsEscape_cons hd _).symm
  | d :: e :: rest =>
      by_cases hd : d = '\\'
      · subst hd
        rfl
      · exact (startsEscape_cons hd _).trans (startsEscape_cons hd _).symm

/-- Whether a text begins like a name shows before a character that continues no name. -/
theorem startsName_append {c : Char} {text : List Char} (hname : isNameChar c = false)
    (hc : c ≠ '\\') (htext : ¬ LeavesEscape text) (more : List Char) :
    startsName (text ++ c :: more) = startsName text := by
  rw [LeavesEscape, not_or] at htext
  have hstart : isNameStart c = false ∧ c ≠ '-' := by
    simp only [isNameChar, Bool.or_eq_false_iff, beq_eq_false_iff_ne] at hname
    exact ⟨hname.1.1, hname.2⟩
  cases text with
  | nil =>
      rw [List.nil_append, startsName_cons hstart.2, hstart.1, startsEscape_cons hc]
      rfl
  | cons d rest =>
      by_cases hd : d = '-'
      · subst hd
        have hescape : startsEscape (rest ++ c :: more) = startsEscape rest :=
          startsEscape_append hc (fun heq => htext.2 (by rw [heq])) more
        rw [List.cons_append, startsName_dash, startsName_dash, hescape]
        cases rest with
        | nil => simp [hstart]
        | cons e rest => rfl
      · have hescape := startsEscape_append hc htext.1 more
        rw [List.cons_append] at hescape ⊢
        rw [startsName_cons hd, startsName_cons hd, hescape]

/-- A longer text begins like a name only if the text does, unless it ends too early to tell. -/
theorem startsName_of_append {text more : List Char} (h : startsName (text ++ more) = true)
    (hne : text ≠ []) (hdash : text ≠ ['-']) (hopen : ¬ LeavesEscape text) :
    startsName text = true := by
  rw [LeavesEscape, not_or] at hopen
  match text with
  | [] => exact absurd rfl hne
  | [d] =>
      have hd : d ≠ '-' := fun heq => hdash (by rw [heq])
      have hbackslash : d ≠ '\\' := fun heq => hopen.1 (by rw [heq])
      rw [List.singleton_append, startsName_cons hd, startsEscape_cons hbackslash] at h
      rw [startsName_cons hd, startsEscape_cons hbackslash, h]
  | d :: e :: rest =>
      by_cases hd : d = '-'
      · subst hd
        rw [List.cons_append, startsName_dash] at h
        rw [startsName_dash]
        by_cases he : e = '\\'
        · subst he
          cases rest with
          | nil => exact absurd rfl hopen.2
          | cons f rest => exact h
        · rw [List.cons_append, startsEscape_cons he] at h
          rw [startsEscape_cons he]
          exact h
      · rw [List.cons_append, startsName_cons hd] at h
        rw [startsName_cons hd]
        by_cases hbackslash : d = '\\'
        · subst hbackslash
          exact h
        · rw [startsEscape_cons hbackslash] at h ⊢
          exact h

namespace Breaks

variable {c : Char} {more text rest : List Char}

theorem startsFraction_append (hc : Breaks c) :
    startsFraction (text ++ c :: more) = startsFraction text := by
  match text with
  | [] => exact startsFraction_eq_false hc.isDigit_eq hc.ne_dot more
  | [d] =>
      by_cases hd : d = '.'
      · subst hd
        exact hc.isDigit_eq
      · exact (startsFraction_cons hd _).trans (startsFraction_cons hd _).symm
  | d :: e :: rest =>
      by_cases hd : d = '.'
      · subst hd
        rfl
      · exact (startsFraction_cons hd _).trans (startsFraction_cons hd _).symm

theorem startsNumber_cons_append (hc : Breaks c) (d : Char) :
    startsNumber (d :: rest ++ c :: more) = startsNumber (d :: rest) := by
  by_cases hsign : d = '+' ∨ d = '-'
  · rcases hsign with rfl | rfl <;> exact hc.startsFraction_append
  · rw [not_or] at hsign
    have hplain : ∀ text, startsNumber (d :: text) = startsFraction (d :: text) := by
      intro text
      unfold startsNumber
      split
      · next heq => exact absurd (List.cons.inj heq).1 hsign.1
      · next heq => exact absurd (List.cons.inj heq).1 hsign.2
      · rfl
    rw [List.cons_append, hplain, hplain, ← List.cons_append, hc.startsFraction_append]

end Breaks

/-! ### Parts of tokens -/

theorem takeWhile_append_cons {p : Char → Bool} {c : Char} (hc : p c = false)
    (text more : List Char) : (text ++ c :: more).takeWhile p = text.takeWhile p := by
  induction text with
  | nil => exact List.takeWhile_cons_of_neg (by simp [hc])
  | cons d text ih => cases hd : p d <;> simp [hd, ih]

theorem dropWhile_append_cons {p : Char → Bool} {c : Char} (hc : p c = false)
    (text more : List Char) :
    (text ++ c :: more).dropWhile p = text.dropWhile p ++ c :: more := by
  induction text with
  | nil => exact List.dropWhile_cons_of_neg (by simp [hc])
  | cons d text ih => cases hd : p d <;> simp [hd, ih]

theorem leaves_dropSpace {whole : List Char} (hwhole : '\\' ∈ whole) (c : Char)
    (text more : List Char) :
    Leaves whole c more (dropSpace text) (dropSpace (text ++ c :: more)) := by
  cases text with
  | nil =>
      cases hspace : isSpace c with
      | true => exact Or.inr ⟨hwhole, rfl, hspace, by simp [dropSpace, hspace]⟩
      | false => exact Or.inl (by simp [dropSpace, hspace])
  | cons d text =>
      left
      cases hd : isSpace d <;> simp [dropSpace, hd]

section Parts

variable {c : Char} {more text rest : List Char}

/-- The digits of an escape end in front of the character, which can only be a space of theirs. -/
theorem Breaks.escape_append (hc : Breaks c) (htext : text ≠ []) :
    ∃ left, escape (text ++ c :: more) = ((escape text).1, left) ∧
      Leaves ('\\' :: text) c more (escape text).2 left := by
  obtain ⟨d, rest, rfl⟩ := List.exists_cons_of_ne_nil htext
  have hdigits : ((rest ++ c :: more).take 5).takeWhile isHexDigit =
      (rest.take 5).takeWhile isHexDigit := by
    rw [List.take_append]
    cases 5 - rest.length with
    | zero => simp
    | succ k => rw [List.take_succ_cons, takeWhile_append_cons hc.isHexDigit_eq]
  have hlength : ((rest.take 5).takeWhile isHexDigit).length ≤ rest.length :=
    ((List.takeWhile_sublist _).trans (List.take_sublist 5 rest)).length_le
  rw [List.cons_append, escape, escape]
  split
  · simp only [hdigits]
    rw [List.drop_append_of_le_length hlength]
    exact ⟨_, rfl, leaves_dropSpace List.mem_cons_self c _ more⟩
  · exact ⟨_, rfl, Or.inl rfl⟩

/-- A name in front of the character ends where it would end without it. -/
theorem Ends.name_append (hc : Ends text c more) (hrest : (name text).2 ≠ ['\\']) :
    ∃ left, name (text ++ c :: more) = ((name text).1, left) ∧
      Leaves text c more (name text).2 left := by
  induction hlength : text.length using Nat.strongRecOn generalizing text with
  | _ n ih =>
      cases text with
      | nil =>
          have hend : EndsName (c :: more) := by
            intro d hd
            cases hd
            exact ⟨hc.isNameChar_eq, hc.ne_backslash, hc.ne_of_mem (by simp)⟩
          rw [List.nil_append, name_of_endsName hend]
          exact ⟨c :: more, by simp [name], Or.inl (by simp [name])⟩
      | cons d rest =>
          by_cases hd : isNameChar d = true
          · rw [name_char hd] at hrest ⊢
            have hbehind : rest ⊆ d :: rest := (List.suffix_cons d rest).subset
            obtain ⟨left, hread, hleft⟩ :=
              ih rest.length (by simp [← hlength]) (hc.of_subset hbehind) hrest rfl
            rw [List.cons_append, name_char hd, hread]
            exact ⟨left, rfl, hleft.of_subset hbehind⟩
          · by_cases hescape : startsEscape (d :: rest) = true
            · obtain ⟨e, others, heq⟩ := exists_of_startsEscape hescape
              cases heq
              have hlater : startsEscape ('\\' :: (e :: others ++ c :: more)) = true := by
                rw [← List.cons_append, startsEscape_append hc.ne_backslash (by simp), hescape]
              obtain ⟨left, hread, hleft⟩ := hc.escape_append (List.cons_ne_nil e others)
              rw [name_backslash hescape] at hrest ⊢
              rw [List.cons_append, name_backslash hlater, hread]
              rcases hleft with rfl | ⟨hmem, hnil, hspace, rfl⟩
              · -- an escape takes up text, so what is left of the name is shorter
                have hsuffix := escape_suffix (e :: others)
                have hless := Nat.lt_succ_of_le hsuffix.length_le
                have hbehind : (escape (e :: others)).2 ⊆ '\\' :: e :: others :=
                  (hsuffix.trans (List.suffix_cons _ _)).subset
                obtain ⟨left, hread, hleft⟩ :=
                  ih _ (by rw [← hlength]; exact hless) (hc.of_subset hbehind) hrest rfl
                exact ⟨left, by rw [hread], hleft.of_subset hbehind⟩
              · -- the space is part of the escape, and the name ends behind it
                refine ⟨left, ?_, Or.inr ⟨hmem, ?_, hspace, rfl⟩⟩
                · rw [name_of_endsName (hc.behind hspace hmem), hnil]
                  simp [name]
                · rw [hnil]
                  simp [name]
            · have hsame : name (d :: rest) = ([], d :: rest) := by
                rw [name, if_neg hd, if_neg hescape]
              rw [hsame] at hrest ⊢
              refine ⟨_, ?_, Or.inl rfl⟩
              rw [List.cons_append, name, if_neg hd, ← List.cons_append,
                startsEscape_append hc.ne_backslash hrest, if_neg hescape]

/-- A closed string does not depend on the text behind it. -/
theorem Breaks.string_append (hc : Breaks c) (more : List Char) {quote : Char} :
    ∀ chars, (string quote text).1 = some chars →
      string quote (text ++ c :: more) = (some chars, (string quote text).2 ++ c :: more) := by
  fun_induction string quote text with
  | case1 => simp
  | case2 rest =>
      rintro chars ⟨⟩
      rw [List.cons_append, string.eq_def]
      simp
  | case3 rest hquote => simp
  | case4 hquote hline => simp
  | case5 rest hquote _ ih =>
      intro chars hclosed
      rw [List.cons_append, string.eq_def]
      simpa [hquote] using ih chars hclosed
  | case6 d rest hline tail hquote _ ih =>
      intro chars hclosed
      obtain ⟨others, hothers, rfl⟩ := Option.map_eq_some_iff.mp hclosed
      obtain ⟨left, hescape, hleft⟩ := hc.escape_append (List.cons_ne_nil d rest)
      rw [List.cons_append] at hescape
      -- the string goes on behind the escape, at least with its closing quote
      have hleft' : left = (escape (d :: rest)).2 ++ c :: more := by
        refine hleft.resolve_right ?_
        rintro ⟨-, hnil, -, -⟩
        have hopen : (string quote (escape (d :: rest)).2).1 = some others := hothers
        rw [hnil] at hopen
        exact absurd hopen (by simp [string])
      rw [List.cons_append, string.eq_def]
      simp [hquote, hline, hescape, hleft', ih others hothers, tail]
  | case7 d rest hquote hline hescape tail ih =>
      intro chars hclosed
      obtain ⟨others, hothers, rfl⟩ := Option.map_eq_some_iff.mp hclosed
      rw [List.cons_append, string.eq_def]
      simp [hquote, hline, hescape, ih others hothers, tail]

theorem sign_cons_append (d : Char) (text behind : List Char) :
    sign (d :: text ++ behind) = ((sign (d :: text)).1, (sign (d :: text)).2 ++ behind) := by
  by_cases hplus : d = '+'
  · subst hplus
    rfl
  · by_cases hminus : d = '-'
    · subst hminus
      rfl
    · have hplain : ∀ rest, sign (d :: rest) = ([], d :: rest) := by
        intro rest
        unfold sign
        split
        · next heq => exact absurd (List.cons.inj heq).1 hplus
        · next heq => exact absurd (List.cons.inj heq).1 hminus
        · rfl
      rw [List.cons_append, hplain, hplain, List.cons_append]

theorem Breaks.fraction_append (hc : Breaks c) :
    fraction (text ++ c :: more) = ((fraction text).1, (fraction text).2 ++ c :: more) := by
  have hplain : ∀ {d : Char} (rest : List Char), d ≠ '.' →
      fraction (d :: rest) = ([], d :: rest) := by
    intro d rest hd
    unfold fraction
    split
    · next heq => exact absurd (List.cons.inj heq).1 hd
    · rfl
  match text with
  | [] => exact hplain more hc.ne_dot
  | [d] =>
      by_cases hd : d = '.'
      · subst hd
        simp [fraction, hc.isDigit_eq]
      · rw [List.cons_append, hplain _ hd, hplain _ hd, List.cons_append]
  | d :: e :: rest =>
      by_cases hd : d = '.'
      · subst hd
        simp only [List.cons_append, fraction, takeWhile_append_cons hc.isDigit_eq,
          dropWhile_append_cons hc.isDigit_eq]
        split <;> rfl
      · rw [List.cons_append, hplain _ hd, hplain _ hd]
        rfl

theorem Breaks.number_append (hc : Breaks c) (d : Char) :
    number (d :: rest ++ c :: more) =
      ((number (d :: rest)).1, (number (d :: rest)).2 ++ c :: more) := by
  simp only [number, sign_cons_append, takeWhile_append_cons hc.isDigit_eq,
    dropWhile_append_cons hc.isDigit_eq, hc.fraction_append]

/-! ### Tokens -/

theorem Ends.numeric_append {d : Char} (hc : Ends (d :: rest) c more)
    (hrest : ¬ LeavesEscape (numeric (d :: rest)).2) :
    ∃ left, numeric (d :: rest ++ c :: more) = ((numeric (d :: rest)).1, left) ∧
      Leaves (d :: rest) c more (numeric (d :: rest)).2 left := by
  have hdigits : number (d :: rest ++ c :: more) =
      ((number (d :: rest)).1, (number (d :: rest)).2 ++ c :: more) := hc.number_append d
  cases hunit : startsName (number (d :: rest)).2 with
  | true =>
      have hopen : ¬ LeavesEscape (number (d :: rest)).2 := by
        rintro (heq | heq) <;> rw [heq] at hunit <;> exact absurd hunit (by decide)
      have hname : (name (number (d :: rest)).2).2 ≠ ['\\'] := by
        rw [numeric] at hrest
        simp only [hunit, if_true] at hrest
        exact fun heq => hrest (Or.inl heq)
      have hbehind : (number (d :: rest)).2 ⊆ d :: rest :=
        List.IsSuffix.subset ⟨_, Lexer.number_append (d :: rest)⟩
      obtain ⟨left, hread, hleft⟩ := (hc.of_subset hbehind).name_append hname
      refine ⟨left, ?_, ?_⟩
      · simp only [numeric, hdigits, startsName_append hc.isNameChar_eq hc.ne_backslash hopen,
          hunit, if_true, hread]
      · simpa only [numeric, hunit, if_true] using hleft.of_subset hbehind
  | false =>
      have hopen : ¬ LeavesEscape (number (d :: rest)).2 := by
        rw [numeric] at hrest
        simpa only [hunit, Bool.false_eq_true, if_false] using hrest
      refine ⟨_, ?_, Or.inl rfl⟩
      simp only [numeric, hdigits, startsName_append hc.isNameChar_eq hc.ne_backslash hopen, hunit,
        Bool.false_eq_true, if_false]

theorem Ends.named_append (hc : Ends text c more) (hrest : ¬ LeavesEscape (named text).2) :
    ∃ left, named (text ++ c :: more) = ((named text).1, left) ∧
      Leaves text c more (named text).2 left := by
  have hname : (name text).2 ≠ ['\\'] := by
    intro heq
    refine hrest (Or.inl ?_)
    rw [named, heq]
    rfl
  obtain ⟨left, hread, hleft⟩ := hc.name_append hname
  by_cases hparen : (name text).2.head? = some '('
  · obtain ⟨rest, hafter⟩ := List.head?_eq_some_iff.mp hparen
    rw [hafter] at hleft
    obtain rfl : left = '(' :: rest ++ c :: more := by
      rcases hleft with heq | ⟨-, hnil, -, -⟩
      · exact heq
      · exact absurd hnil (by simp)
    have hlonger := @named_function (text ++ c :: more) (rest ++ c :: more) (by rw [hread]; rfl)
    rw [hread] at hlonger
    rw [hlonger, named_function hafter]
    exact ⟨_, rfl, Or.inl rfl⟩
  · -- the character does not turn a name into a function, nor does what stands behind a space
    have hleft' : left.head? ≠ some '(' := by
      rcases hleft with rfl | ⟨hmem, -, hspace, rfl⟩
      · cases hafter : (name text).2 with
        | nil => simpa using hc.ne_of_mem (by simp)
        | cons d rest => simpa [hafter] using hparen
      · intro heq
        exact (hc.behind hspace hmem '(' heq).2.2 rfl
    have hlonger := @named_ident (text ++ c :: more) (by rwa [hread])
    rw [hread] at hlonger
    rw [hlonger, named_ident hparen]
    exact ⟨left, rfl, hleft⟩

theorem Ends.hash_append (hc : Ends text c more) (hrest : ¬ LeavesEscape (hash text).2) :
    ∃ left, hash (text ++ c :: more) = ((hash text).1, left) ∧
      Leaves text c more (hash text).2 left := by
  have hhead : (text ++ c :: more).head?.any isNameChar = text.head?.any isNameChar := by
    cases text <;> simp [hc.isNameChar_eq]
  by_cases hopens : (text.head?.any isNameChar || startsEscape text) = true
  · have hname : (name text).2 ≠ ['\\'] := by
      rw [hash, if_pos hopens] at hrest
      exact fun heq => hrest (Or.inl heq)
    -- a backslash at the end of the text would be left over
    have hopen : ¬ LeavesEscape text := by
      rintro (rfl | rfl)
      · exact absurd hopens (by decide)
      · refine hname ?_
        rw [name_char (by decide), name, if_neg (by decide), if_neg (by decide)]
    have hescape : startsEscape (text ++ c :: more) = startsEscape text :=
      startsEscape_append hc.ne_backslash (fun heq => hopen (Or.inl heq)) more
    obtain ⟨left, hread, hleft⟩ := hc.name_append hname
    rw [hash, hash, hhead, hescape, if_pos hopens, if_pos hopens, hread,
      startsName_append hc.isNameChar_eq hc.ne_backslash hopen]
    exact ⟨left, rfl, hleft⟩
  · have htext : text ≠ ['\\'] := by
      rw [hash, if_neg hopens] at hrest
      exact fun heq => hrest (Or.inl heq)
    rw [hash, hash, hhead, startsEscape_append hc.ne_backslash htext, if_neg hopens,
      if_neg hopens]
    exact ⟨_, rfl, Or.inl rfl⟩

theorem leavesToken_dropWhile (text rest more : List Char) :
    LeavesToken text c more .whitespace (rest.dropWhile isSpace)
      ((rest ++ c :: more).dropWhile isSpace) := by
  induction rest with
  | nil =>
      cases hspace : isSpace c with
      | true => exact Or.inr ⟨rfl, rfl, hspace, List.dropWhile_cons_of_pos hspace⟩
      | false => exact Or.inl (Or.inl (List.dropWhile_cons_of_neg (by simp [hspace])))
  | cons d rest ih =>
      cases hd : isSpace d with
      | true => simpa [hd] using ih
      | false => exact Or.inl (Or.inl (by simp [hd]))

/-- A token in front of the character is taken as it would be without it. -/
theorem Ends.token_append {d : Char} (hc : Ends (d :: rest) c more) {found : Token}
    (hread : token d rest = (.ok (some found), text)) (htext : ¬ LeavesEscape text) :
    ∃ left, token d (rest ++ c :: more) = (.ok (some found), left) ∧
      LeavesToken (d :: rest) c more found text left := by
  have hnumber' : startsNumber (d :: (rest ++ c :: more)) = startsNumber (d :: rest) :=
    hc.startsNumber_cons_append d
  have hname' : ¬ LeavesEscape (d :: rest) →
      startsName (d :: (rest ++ c :: more)) = startsName (d :: rest) :=
    fun hopen => startsName_append hc.isNameChar_eq hc.ne_backslash hopen more
  cases takes_of_token hread with
  | whitespace hspace =>
      exact ⟨_, (Takes.whitespace hspace).token_eq, leavesToken_dropWhile (d :: rest) rest more⟩
  | @string chars _ hquote hclosed =>
      have hlonger := hc.string_append more chars (by rw [hclosed])
      rw [hclosed] at hlonger
      exact ⟨_, (Takes.string hquote hlonger).token_eq, Or.inl (Or.inl rfl)⟩
  | hash hhash =>
      have hbehind : rest ⊆ d :: rest := (List.suffix_cons d rest).subset
      obtain ⟨left, hlonger, hleft⟩ := (hc.of_subset hbehind).hash_append htext
      have htakes := @Takes.hash d (rest ++ c :: more) hhash
      rw [hlonger] at htakes
      exact ⟨left, htakes.token_eq, Or.inl (hleft.of_subset hbehind)⟩
  | numeric hnumber =>
      obtain ⟨left, hlonger, hleft⟩ := hc.numeric_append htext
      have htakes := Takes.numeric (hnumber'.trans hnumber)
      rw [← List.cons_append, hlonger] at htakes
      exact ⟨left, htakes.token_eq, Or.inl hleft⟩
  | named hname =>
      have hopen : ¬ LeavesEscape (d :: rest) := by
        rintro (heq | heq) <;> rw [heq] at hname <;> exact absurd hname (by decide)
      obtain ⟨left, hlonger, hleft⟩ := hc.named_append htext
      have htakes := Takes.named ((hname' hopen).trans hname)
      rw [← List.cons_append, hlonger] at htakes
      exact ⟨left, htakes.token_eq, Or.inl hleft⟩
  | punctuation hspace hmem hnumber hname =>
      have hopen : ¬ LeavesEscape (d :: text) := by
        rintro (heq | heq)
        · exact hmem (by simp [(List.cons.inj heq).1])
        · exact htext (Or.inl (List.cons.inj heq).2)
      have htakes := Takes.punctuation hspace hmem (hnumber'.trans hnumber)
        ((hname' hopen).trans hname)
      exact ⟨_, htakes.token_eq, Or.inl (Or.inl rfl)⟩

end Parts

/-! ### Comments -/

mutual

theorem dropComments_append {c : Char} (hc : Breaks c) (more : List Char)
    {text rest : List Char} (h : dropComments text = some rest) :
    dropComments (text ++ c :: more) = some (rest ++ c :: more) := by
  unfold dropComments at h
  split at h
  · simp only [List.cons_append, dropComments]
    exact closeComment_append hc more h
  · next htext =>
      cases h
      unfold dropComments
      split
      · next inner heq =>
          -- The separator is no part of an opening sign.
          match text, heq with
          | [], heq =>
              refine absurd (List.cons.inj heq).1 fun hslash => hc.not_mem ?_
              simp [hslash]
          | [d], heq =>
              refine absurd (List.cons.inj (List.cons.inj heq).2).1 fun hstar => hc.not_mem ?_
              simp [hstar]
          | d :: e :: others, heq =>
              cases heq
              exact (htext others rfl).elim
      · rfl

theorem closeComment_append {c : Char} (hc : Breaks c) (more : List Char)
    {text rest : List Char} (h : closeComment text = some rest) :
    closeComment (text ++ c :: more) = some (rest ++ c :: more) := by
  unfold closeComment at h
  split at h
  · simp only [List.cons_append, closeComment]
    exact dropComments_append hc more h
  · next d inner htext =>
      have hinner := closeComment_append hc more h
      rw [List.cons_append]
      unfold closeComment
      split
      · next others heq =>
          match inner, heq with
          -- here the separator would have to be the slash that ends the comment
          | [], heq =>
              refine absurd (List.cons.inj (List.cons.inj heq).2).1 fun hslash => hc.not_mem ?_
              simp [hslash]
          | e :: others, heq =>
              cases heq
              exact (htext others rfl rfl).elim
      · next heq =>
          cases heq
          exact hinner
      · next heq => exact absurd heq (by simp)
  · exact absurd h (by simp)

end

/-! ### Texts -/

theorem exists_token_of_next {text rest : List Char} {found : Token}
    (h : next text = (.ok (some found), rest)) :
    ∃ c behind, dropComments text = some (c :: behind) ∧
      token c behind = (.ok (some found), rest) := by
  unfold next at h
  split at h
  · exact absurd h (by simp)
  · exact absurd h (by simp)
  · next c behind hcomments => exact ⟨c, behind, hcomments, h⟩

theorem next_append {c : Char} {text more rest : List Char} (hc : Ends text c more)
    {found : Token} (hread : next text = (.ok (some found), rest)) (hrest : ¬ LeavesEscape rest) :
    ∃ left, next (text ++ c :: more) = (.ok (some found), left) ∧
      LeavesToken text c more found rest left := by
  obtain ⟨d, others, hcomments, htoken⟩ := exists_token_of_next hread
  have hbehind : d :: others ⊆ text := (dropComments_suffix hcomments).subset
  obtain ⟨left, hlonger, hleft⟩ := (hc.of_subset hbehind).token_append htoken hrest
  rw [next, dropComments_append hc.toBreaks more hcomments]
  exact ⟨left, hlonger, hleft.imp_left fun h => h.of_subset hbehind⟩

theorem next_append_of_end {c : Char} (hc : Breaks c) (more : List Char) {text : List Char}
    (hend : (next text).1 = .ok none) : next (text ++ c :: more) = next (c :: more) := by
  have hslash : c ≠ '/' := hc.ne_of_mem (by simp)
  rw [next_cons hslash, next, dropComments_append hc more (dropComments_of_end hend),
    List.nil_append]

theorem tokens_of_next_eq {first second : List Char} (h : next first = next second) :
    tokens first = tokens second := by
  rcases hnext : next first with ⟨cause | token, rest⟩
  · have hfirst : (next first).1 = .error cause := by rw [hnext]
    have hsecond : (next second).1 = .error cause := h ▸ hfirst
    rw [tokens_of_error hfirst, tokens_of_error hsecond]
  · cases token with
    | none => rw [tokens_of_end (by rw [hnext]), tokens_of_end (by rw [← h, hnext])]
    | some token =>
        have hsecond : next second = (.ok (some token), rest) := h ▸ hnext
        rw [Reads.tokens_step hnext, Reads.tokens_step hsecond]

/-- What leaves a backslash behind it is not read without an error. -/
theorem not_leavesEscape_of_tokens {text : List Char} {found : List Token}
    (h : tokens text = .ok found) : ¬ LeavesEscape text := by
  have herror : tokens ['\\'] = .error (.unterminated .escape) := tokens_of_error rfl
  rintro (rfl | rfl)
  · rw [herror] at h
    exact absurd h (by simp)
  · have hdash : next ['-', '\\'] = (.ok (some (.delim '-')), ['\\']) := rfl
    rw [Reads.tokens_step hdash, herror] at h
    exact absurd h (by simp [Except.map])

/-- What stands behind a character that ends a text does not change how the text is read.  A space
may be taken by an escape at the end of the text, or by the whitespace there. -/
theorem tokens_append_of_ends {c : Char} {text more : List Char} (hc : Ends text c more)
    {found : List Token} (h : tokens text = .ok found) :
    ∃ left, tokens (text ++ c :: more) = (tokens left).map (found ++ ·) ∧
      (left = c :: more ∨ isSpace c = true ∧ ('\\' ∈ text ∧ left = more ∨
        found.getLast? = some .whitespace ∧ left = more.dropWhile isSpace)) := by
  obtain ⟨rest, hreads, hend⟩ := Reads.exists_of_tokens h
  clear h
  induction hreads with
  | done =>
      refine ⟨c :: more, ?_, Or.inl rfl⟩
      rw [tokens_of_next_eq (next_append_of_end hc.toBreaks more hend)]
      cases tokens (c :: more) <;> rfl
  | @step text others rest token found hnext hreads ih =>
      have hothers : tokens others = .ok found := hreads.tokens_eq_of_end hend
      obtain ⟨left, hstep, hleft⟩ := next_append hc hnext (not_leavesEscape_of_tokens hothers)
      rw [Reads.tokens_step hstep]
      -- a token that takes the space is the last one
      have hlast : others = [] → found = [] := by
        rintro rfl
        rw [Reads.tokens_nil] at hothers
        exact (Except.ok.inj hothers).symm
      rcases hleft with (rfl | ⟨hmem, hnil, hspace, rfl⟩) | ⟨rfl, hnil, hspace, rfl⟩
      · have hbehind : others ⊆ text := (next_suffix hnext).subset
        obtain ⟨left, hrest, hcases⟩ := ih (hc.of_subset hbehind) hend
        refine ⟨left, ?_, hcases.imp_right (And.imp_right (Or.imp ?_ ?_))⟩
        · rw [hrest]
          cases tokens left <;> rfl
        · exact And.imp_left fun hmem => hbehind hmem
        · refine And.imp_left fun hwhitespace => ?_
          rw [List.getLast?_cons, hwhitespace, Option.getD_some]
      · exact ⟨left, by rw [hlast hnil]; rfl, Or.inr ⟨hspace, Or.inl ⟨hmem, rfl⟩⟩⟩
      · exact ⟨_, by rw [hlast hnil]; rfl, Or.inr ⟨hspace, Or.inr ⟨by rw [hlast hnil]; rfl, rfl⟩⟩⟩

/-- **A separator ends a text.**  What stands behind a separator does not change how the text in
front of it is read. -/
theorem tokens_append {c : Char} (hc : Separates c) {text : List Char} (more : List Char)
    {found : List Token} (h : tokens text = .ok found) :
    tokens (text ++ c :: more) = (tokens (c :: more)).map (found ++ ·) := by
  obtain ⟨left, hread, rfl | ⟨hspace, -⟩⟩ := tokens_append_of_ends (hc.ends text more) h
  · exact hread
  · exact absurd hspace (by simp [hc.isSpace_eq])

end DomQuery.Lexer
