import DomQuery.Proofs.Selector.Names
import DomQuery.Selector.Lexer.Tokens
import Mathlib.Tactic.SplitIfs

/-!
# Reading token by token

`Reads text tokens rest` says that the lexer, called again and again, takes the tokens from the
front of the text and leaves the rest.  Readings are put together end to end (`Reads.append`),
and a reading of the whole text is what `Lexer.tokens` returns (`Reads.tokens_eq`).  Every text is
read up to its end or to the first error (`Reads.exists_ending`).

Each token is read from its written form by a lemma of its own, with a condition on the text
behind it where the lexer looks that far ahead: a name must not go on there, whitespace must not
either, and no digit may follow a point or a sign.

Strings that are not closed and backslashes with nothing to escape are refused.  Even then the call
leaves a part of the text that goes up to the end (`next_snd_suffix`).

Whatever is escaped as an identifier is one token, and comes back from it
(`Token.ofText_escape`).
-/

namespace DomQuery.Lexer

open Identifier

/-- Reading the text token by token yields the tokens and leaves the rest. -/
inductive Reads : List Char → List Token → List Char → Prop where
  | done {text : List Char} : Reads text [] text
  | step {text more rest : List Char} {token : Token} {tokens : List Token} :
      next text = (.ok (some token), more) → Reads more tokens rest →
      Reads text (token :: tokens) rest

theorem tokens_of_end {text : List Char} (h : (next text).1 = .ok none) : tokens text = .ok [] := by
  rw [tokens]
  split
  · next heq => simp [heq] at h
  · rfl
  · next heq => simp [heq] at h

theorem tokens_of_error {text : List Char} {cause : SelectorError}
    (h : (next text).1 = .error cause) : tokens text = .error cause := by
  rw [tokens]
  split
  · next heq => simp [heq] at h
  · next heq => simp [heq] at h
  · next heq => simpa [heq] using h

theorem length_lt_of_next {text rest : List Char} {found : Token}
    (h : next text = (.ok (some found), rest)) : rest.length < text.length := by
  have hlt := @length_next_lt text found (by rw [h])
  rwa [h] at hlt

namespace Reads

variable {text more rest : List Char} {token : Token} {first second : List Token}

theorem single (h : next text = (.ok (some token), rest)) : Reads text [token] rest :=
  step h done

theorem append (h : Reads text first more) (hmore : Reads more second rest) :
    Reads text (first ++ second) rest := by
  induction h with
  | done => exact hmore
  | step hnext _ ih => exact step hnext (ih hmore)

theorem exists_of_append (h : Reads text (first ++ second) rest) :
    ∃ more, Reads text first more ∧ Reads more second rest := by
  induction first generalizing text with
  | nil => exact ⟨text, done, h⟩
  | cons token first ih =>
      cases h with
      | step hnext hrest =>
          obtain ⟨more, hfirst, hsecond⟩ := ih hrest
          exact ⟨more, step hnext hfirst, hsecond⟩

theorem tokens_step (h : next text = (.ok (some token), rest)) :
    tokens text = (tokens rest).map (token :: ·) := by
  rw [tokens]
  split
  · next heq =>
      rw [h] at heq
      cases heq
      rfl
  · next heq =>
      rw [h] at heq
      cases heq
  · next heq =>
      rw [h] at heq
      cases heq

theorem exists_of_tokens_step (hnext : next text = (.ok (some token), rest))
    (h : tokens text = .ok first) :
    ∃ others, tokens rest = .ok others ∧ first = token :: others := by
  rw [tokens_step hnext] at h
  cases hrest : tokens rest with
  | error cause => exact absurd h (by simp [hrest, Except.map])
  | ok others =>
      rw [hrest] at h
      exact ⟨others, rfl, (Except.ok.inj h).symm⟩

theorem tokens_append (h : Reads text first rest) :
    tokens text = (tokens rest).map (first ++ ·) := by
  induction h with
  | @done text => cases tokens text <;> rfl
  | @step _ _ rest _ _ hnext _ ih =>
      rw [tokens_step hnext, ih]
      cases tokens rest <;> rfl

theorem tokens_nil : tokens [] = .ok [] := by
  rw [tokens]
  rfl

/-- A reading up to where there is no further token. -/
theorem tokens_eq_of_end (h : Reads text first rest) (hend : (next rest).1 = .ok none) :
    tokens text = .ok first := by
  rw [h.tokens_append, tokens_of_end hend]
  simp [Except.map]

/-- A reading of the whole text. -/
theorem tokens_eq (h : Reads text first []) : tokens text = .ok first :=
  h.tokens_eq_of_end rfl

/-- A reading up to the first error. -/
theorem tokens_eq_of_error {cause : SelectorError} (h : Reads text first rest)
    (herror : (next rest).1 = .error cause) : tokens text = .error cause := by
  rw [h.tokens_append, tokens_of_error herror]
  rfl

/-- The tokens of a text are read one by one up to its end or to the first error. -/
theorem exists_ending (text : List Char) :
    ∃ found rest, Reads text found rest ∧
      ((next rest).1 = .ok none ∧ tokens text = .ok found ∨
        ∃ cause, (next rest).1 = .error cause ∧ tokens text = .error cause) := by
  induction hlength : text.length using Nat.strongRecOn generalizing text with
  | _ n ih =>
      cases hanswer : (next text).1 with
      | error cause => exact ⟨[], text, done, Or.inr ⟨cause, hanswer, tokens_of_error hanswer⟩⟩
      | ok answer =>
          cases answer with
          | none => exact ⟨[], text, done, Or.inl ⟨hanswer, tokens_of_end hanswer⟩⟩
          | some token =>
              have hlt : (next text).2.length < n := hlength ▸ length_next_lt hanswer
              obtain ⟨found, rest, hothers, hend⟩ := ih _ hlt (next text).2 rfl
              have hreads : Reads text (token :: found) rest := step (Prod.ext hanswer rfl) hothers
              refine ⟨token :: found, rest, hreads, ?_⟩
              rcases hend with ⟨hdone, -⟩ | ⟨cause, herror, -⟩
              · exact Or.inl ⟨hdone, hreads.tokens_eq_of_end hdone⟩
              · exact Or.inr ⟨cause, herror, hreads.tokens_eq_of_error herror⟩

theorem exists_of_tokens (h : tokens text = .ok first) :
    ∃ rest, Reads text first rest ∧ (next rest).1 = .ok none := by
  obtain ⟨found, rest, hreads, ⟨hend, hfound⟩ | ⟨cause, -, herror⟩⟩ := exists_ending text
  · rw [h] at hfound
    obtain rfl := Except.ok.inj hfound
    exact ⟨rest, hreads, hend⟩
  · rw [h] at herror
    exact absurd herror (by simp)

end Reads

/-! ### Names -/

theorem isSpace_cases {c : Char} (h : isSpace c = true) :
    c = ' ' ∨ c = '\t' ∨ c = '\n' ∨ c = '\r' ∨ c = '\x0c' := by
  simpa [isSpace, or_assoc] using h

theorem isBlank_of_isSpace {c : Char} (h : isSpace c = true) : Text.isBlank c = true := by
  rcases isSpace_cases h with rfl | rfl | rfl | rfl | rfl <;> decide

/-- A character that a name begins with begins nothing else. -/
theorem of_isNameStart {c : Char} (h : isNameStart c = true) :
    c.isDigit = false ∧ isSpace c = false ∧ c ∉ ['-', '+', '.', '/', '#', '"', '\''] := by
  refine ⟨?_, ?_, fun hmem => ?_⟩
  · by_contra hdigit
    have hcode : 48 ≤ c.toNat ∧ c.toNat ≤ 57 := Char.isDigit_iff_toNat.mp (by simpa using hdigit)
    simp only [isNameStart, Bool.or_eq_true, Text.isAlpha_iff_toNat, decide_eq_true_eq,
      beq_iff_eq] at h
    have hcode' : '_'.toNat = 95 := by decide
    rcases h with (hletter | rfl) | hhigh <;> omega
  · by_contra hspace
    rw [Bool.not_eq_false] at hspace
    rcases isSpace_cases hspace with rfl | rfl | rfl | rfl | rfl <;> exact absurd h (by decide)
  · simp only [List.mem_cons, List.not_mem_nil, or_false] at hmem
    rcases hmem with rfl | rfl | rfl | rfl | rfl | rfl | rfl <;> exact absurd h (by decide)

theorem startsName_of_isNameStart {c : Char} (h : isNameStart c = true) (rest : List Char) :
    startsName (c :: rest) = true := by
  rw [startsName, h, Bool.true_or]
  rintro rfl
  exact absurd h (by decide)

theorem exists_of_startsEscape {text : List Char} (h : startsEscape text = true) :
    ∃ c rest, text = '\\' :: c :: rest := by
  unfold startsEscape at h
  split at h
  · exact ⟨_, _, rfl⟩
  · exact absurd h (by simp)

theorem startsName_of_startsEscape {text : List Char} (h : startsEscape text = true) :
    startsName text = true := by
  obtain ⟨c, rest, rfl⟩ := exists_of_startsEscape h
  rw [startsName, h, Bool.or_true]
  decide

/-- How the text of a name begins. -/
theorem startsName_cases {text : List Char} (h : startsName text = true) :
    startsEscape text = true ∨ (∃ c rest, text = c :: rest ∧ isNameStart c = true) ∨
      ∃ rest, text = '-' :: rest ∧ (startsEscape rest = true ∨
        ∃ c more, rest = c :: more ∧ (isNameStart c = true ∨ c = '-')) := by
  unfold startsName at h
  split at h
  · next rest =>
      refine Or.inr (Or.inr ⟨rest, rfl, ?_⟩)
      rw [Bool.or_eq_true] at h
      refine h.imp_right fun hrest => ?_
      split at hrest
      · next c more => exact ⟨c, more, rfl, by simpa using hrest⟩
      · exact absurd hrest (by simp)
  · next c rest _ =>
      rw [Bool.or_eq_true] at h
      rcases h with hstart | hescape
      · exact Or.inr (Or.inl ⟨c, rest, rfl, hstart⟩)
      · exact Or.inl hescape
  · exact absurd h (by simp)

theorem startsFraction_cons {d : Char} (hd : d ≠ '.') (rest : List Char) :
    startsFraction (d :: rest) = d.isDigit := by
  unfold startsFraction
  split
  · next heq => exact absurd (List.cons.inj heq).1 hd
  · next heq => rw [(List.cons.inj heq).1]
  · next heq => exact absurd heq (by simp)

theorem startsFraction_eq_false {c : Char} (hdigit : c.isDigit = false) (hdot : c ≠ '.')
    (rest : List Char) : startsFraction (c :: rest) = false :=
  (startsFraction_cons hdot rest).trans hdigit

theorem startsNumber_of_startsFraction {text : List Char} (h : startsFraction text = true) :
    startsNumber text = true := by
  unfold startsNumber
  split
  · exact absurd h (by simp [startsFraction_cons])
  · exact absurd h (by simp [startsFraction_cons])
  · exact h

theorem startsFraction_of_isDigit {c : Char} (h : c.isDigit = true) (rest : List Char) :
    startsFraction (c :: rest) = true := by
  have hdot : c ≠ '.' := by
    rintro rfl
    exact absurd h (by decide)
  rw [startsFraction_cons hdot, h]

theorem startsFraction_of_startsEscape {text : List Char} (h : startsEscape text = true) :
    startsFraction text = false := by
  obtain ⟨c, rest, rfl⟩ := exists_of_startsEscape h
  exact startsFraction_eq_false (by decide) (by decide) _

/-- No number begins like a name. -/
theorem startsNumber_of_startsName {text : List Char} (h : startsName text = true) :
    startsNumber text = false := by
  rcases startsName_cases h with hescape | ⟨c, rest, rfl, hc⟩ | ⟨rest, rfl, hrest⟩
  · have hfraction := startsFraction_of_startsEscape hescape
    obtain ⟨c, rest, rfl⟩ := exists_of_startsEscape hescape
    exact hfraction
  · obtain ⟨hdigit, -, hmem⟩ := of_isNameStart hc
    simp only [List.mem_cons, List.not_mem_nil, or_false, not_or] at hmem
    unfold startsNumber
    split
    · next heq => exact absurd (List.cons.inj heq).1 hmem.2.1
    · next heq => exact absurd (List.cons.inj heq).1 hmem.1
    · exact startsFraction_eq_false hdigit hmem.2.2.1 rest
  · change startsFraction rest = false
    rcases hrest with hescape | ⟨c, more, rfl, hc | rfl⟩
    · exact startsFraction_of_startsEscape hescape
    · obtain ⟨hdigit, -, hmem⟩ := of_isNameStart hc
      simp only [List.mem_cons, List.not_mem_nil, or_false, not_or] at hmem
      exact startsFraction_eq_false hdigit hmem.2.2.1 more
    · exact startsFraction_eq_false (by decide) (by decide) more

/-- No comment begins with another character than a slash. -/
theorem next_cons {c : Char} (h : c ≠ '/') (rest : List Char) : next (c :: rest) = token c rest := by
  have hcomments : dropComments (c :: rest) = some (c :: rest) := by
    rw [dropComments]
    rintro more heq
    exact absurd (List.cons.inj heq).1 h
  rw [next, hcomments]

/-- Spaces are read together. -/
theorem next_of_isSpace {c : Char} (h : isSpace c = true) (rest : List Char) :
    next (c :: rest) = (.ok (some .whitespace), rest.dropWhile isSpace) := by
  have hslash : c ≠ '/' := by
    rintro rfl
    exact absurd h (by decide)
  rw [next_cons hslash, token, if_pos h]

/-- The first character of a name begins no other token. -/
theorem exists_head_of_startsName {text : List Char} (h : startsName text = true) :
    ∃ c rest, text = c :: rest ∧ isSpace c = false ∧ c.isDigit = false ∧
      c ∉ ['/', '#', '"', '\''] := by
  rcases startsName_cases h with hescape | ⟨c, rest, rfl, hc⟩ | ⟨rest, rfl, -⟩
  · obtain ⟨c, rest, rfl⟩ := exists_of_startsEscape hescape
    exact ⟨_, _, rfl, by decide, by decide, by decide⟩
  · obtain ⟨hdigit, hspace, hmem⟩ := of_isNameStart hc
    simp only [List.mem_cons, List.not_mem_nil, or_false, not_or] at hmem
    exact ⟨c, rest, rfl, hspace, hdigit, by simp [hmem]⟩
  · exact ⟨_, rest, rfl, by decide, by decide, by decide⟩

theorem startsFraction_cases {text : List Char} (h : startsFraction text = true) :
    ∃ c rest, text = c :: rest ∧ (c.isDigit = true ∨ c = '.') := by
  unfold startsFraction at h
  split at h
  · exact ⟨_, _, rfl, Or.inr rfl⟩
  · exact ⟨_, _, rfl, Or.inl h⟩
  · exact absurd h (by simp)

/-- The first character of a number begins no other token. -/
theorem exists_head_of_startsNumber {text : List Char} (h : startsNumber text = true) :
    ∃ c rest, text = c :: rest ∧ isSpace c = false ∧ c ∉ ['/', '#', '"', '\''] := by
  obtain ⟨c, rest, rfl, hc⟩ : ∃ c rest, text = c :: rest ∧
      (c.isDigit = true ∨ c ∈ ['+', '-', '.']) := by
    unfold startsNumber at h
    split at h
    · exact ⟨_, _, rfl, Or.inr (by simp)⟩
    · exact ⟨_, _, rfl, Or.inr (by simp)⟩
    · obtain ⟨c, rest, rfl, hc⟩ := startsFraction_cases h
      exact ⟨c, rest, rfl, hc.imp_right fun hdot => by simp [hdot]⟩
  refine ⟨c, rest, rfl, ?_⟩
  rcases hc with hdigit | hmem
  · refine ⟨?_, fun hmem => ?_⟩
    · by_contra hspace
      rw [Bool.not_eq_false] at hspace
      rcases isSpace_cases hspace with rfl | rfl | rfl | rfl | rfl <;>
        exact absurd hdigit (by decide)
    · simp only [List.mem_cons, List.not_mem_nil, or_false] at hmem
      rcases hmem with rfl | rfl | rfl | rfl <;> exact absurd hdigit (by decide)
  · simp only [List.mem_cons, List.not_mem_nil, or_false] at hmem
    rcases hmem with rfl | rfl | rfl <;> decide

theorem named_ident {text : List Char} (hparen : (name text).2.head? ≠ some '(') :
    named text = (.ident (String.ofList (name text).1), (name text).2) := by
  unfold named
  dsimp only
  split
  · next heq => exact absurd (by rw [heq]; rfl) hparen
  · rfl

theorem named_function {text rest : List Char} (hparen : (name text).2 = '(' :: rest) :
    named text = (.function (String.ofList (name text).1), rest) := by
  simp only [named, hparen]

/-! ### How a token is taken -/

/-- How a token is taken from a text that begins with the character `c`. -/
inductive Takes (c : Char) (rest : List Char) : Token → List Char → Prop where
  | whitespace : isSpace c = true → Takes c rest .whitespace (rest.dropWhile isSpace)
  | string {chars left : List Char} : (c = '"' ∨ c = '\'') →
      string c rest = (some chars, left) → Takes c rest (.string (String.ofList chars)) left
  | hash : c = '#' → Takes c rest (hash rest).1 (hash rest).2
  | numeric : startsNumber (c :: rest) = true →
      Takes c rest (numeric (c :: rest)).1 (numeric (c :: rest)).2
  | named : startsName (c :: rest) = true →
      Takes c rest (named (c :: rest)).1 (named (c :: rest)).2
  | punctuation : isSpace c = false → c ∉ ['"', '\'', '#', '\\'] →
      startsNumber (c :: rest) = false → startsName (c :: rest) = false →
      Takes c rest (punctuation c) rest

section Takes

variable {c : Char} {rest left : List Char} {found : Token}

theorem takes_of_token (h : token c rest = (.ok (some found), left)) : Takes c rest found left := by
  unfold token at h
  dsimp only at h
  split_ifs at h with hspace hquote hhash hnumber hname hbackslash
  · cases h
    exact .whitespace hspace
  · unfold quoted at h
    dsimp only at h
    split at h
    · next chars hchars =>
        cases h
        exact .string hquote (Prod.ext hchars rfl)
    · exact absurd h (by simp)
  · cases h
    exact .hash hhash
  · cases h
    exact .numeric hnumber
  · cases h
    exact .named hname
  · exact absurd h (by simp)
  · cases h
    refine .punctuation (by simpa using hspace) ?_ (by simpa using hnumber) (by simpa using hname)
    rw [not_or] at hquote
    simp [hquote, hhash, hbackslash]

theorem token_of_startsNumber (h : startsNumber (c :: rest) = true) :
    token c rest = (.ok (some (numeric (c :: rest)).1), (numeric (c :: rest)).2) := by
  obtain ⟨d, more, heq, hspace, hmem⟩ := exists_head_of_startsNumber h
  cases heq
  simp only [List.mem_cons, List.not_mem_nil, or_false, not_or] at hmem
  simp only [token, hspace, hmem, h, if_true, if_false, or_self, Bool.false_eq_true]

theorem token_of_startsName (h : startsName (c :: rest) = true) :
    token c rest = (.ok (some (named (c :: rest)).1), (named (c :: rest)).2) := by
  obtain ⟨d, more, heq, hspace, -, hmem⟩ := exists_head_of_startsName h
  cases heq
  simp only [List.mem_cons, List.not_mem_nil, or_false, not_or] at hmem
  simp only [token, hspace, hmem, startsNumber_of_startsName h, h, if_true, if_false, or_self,
    Bool.false_eq_true]

theorem token_of_quote (h : c = '"' ∨ c = '\'') (rest : List Char) :
    token c rest = quoted c rest := by
  rcases h with rfl | rfl <;> rfl

/-- What can be taken is what the lexer takes. -/
theorem Takes.token_eq (h : Takes c rest found left) :
    token c rest = (.ok (some found), left) := by
  cases h with
  | whitespace hspace => rw [token, if_pos hspace]
  | string hquote hread => rw [token_of_quote hquote, quoted, hread]
  | hash hhash =>
      subst hhash
      rfl
  | numeric hnumber => exact token_of_startsNumber hnumber
  | named hname => exact token_of_startsName hname
  | punctuation hspace hmem hnumber hname =>
      simp only [List.mem_cons, List.not_mem_nil, or_false, not_or] at hmem
      simp only [token, hspace, hmem, hnumber, hname, if_false, or_self, Bool.false_eq_true]

end Takes

/-- A text that begins like a name is read as one. -/
theorem next_of_startsName {text : List Char} (h : startsName text = true) :
    next text = (.ok (some (named text).1), (named text).2) := by
  obtain ⟨c, rest, rfl, -, -, hmem⟩ := exists_head_of_startsName h
  rw [next_cons (List.ne_of_not_mem_cons hmem), token_of_startsName h]

/-- A text that begins like a number is read as one. -/
theorem next_of_startsNumber {text : List Char} (h : startsNumber text = true) :
    next text = (.ok (some (numeric text).1), (numeric text).2) := by
  obtain ⟨c, rest, rfl, -, hmem⟩ := exists_head_of_startsNumber h
  rw [next_cons (List.ne_of_not_mem_cons hmem), token_of_startsNumber h]

/-! ### What is refused -/

theorem token_ne_none (c : Char) (rest : List Char) : (token c rest).1 ≠ .ok none := by
  unfold token quoted
  dsimp only
  split_ifs <;> try simp
  split <;> simp

section

variable {text rest : List Char} {c : Char}

/-- What the lexer takes for an error: a string that is not closed, and a backslash in front of a
line break or at the end of the text. -/
theorem token_eq_error {cause : SelectorError} (h : (token c rest).1 = .error cause) :
    ((c = '"' ∨ c = '\'') ∧ (string c rest).1 = none) ∨
      (c = '\\' ∧ startsEscape (c :: rest) = false) := by
  unfold token at h
  dsimp only at h
  split_ifs at h with hspace hquote hhash hnumber hname hbackslash
  · unfold quoted at h
    dsimp only at h
    split at h
    · exact absurd h (by simp)
    · next hopen => exact Or.inl ⟨hquote, hopen⟩
  · refine Or.inr ⟨hbackslash, ?_⟩
    rw [Bool.eq_false_iff]
    exact mt startsName_of_startsEscape hname

/-- A backslash with nothing to escape is refused, and stays where it is. -/
theorem token_of_startsEscape_eq_false (h : startsEscape ('\\' :: rest) = false) :
    token '\\' rest = (.error (.unterminated .escape), '\\' :: rest) := by
  have hname : startsName ('\\' :: rest) = false := by
    rw [startsName, h]
    · decide
    · decide
  simp only [token, hname]
  rfl

/-- Whatever a call finds, it goes on by a character at least, except at a backslash with nothing to
escape. -/
theorem token_snd_suffix_or (c : Char) (rest : List Char) :
    (token c rest).2 <:+ rest ∨ c = '\\' ∧ startsEscape (c :: rest) = false := by
  cases hanswer : (token c rest).1 with
  | ok answer =>
      cases answer with
      | none => exact absurd hanswer (token_ne_none c rest)
      | some found => exact Or.inl (token_suffix hanswer)
  | error cause =>
      refine (token_eq_error hanswer).imp_left fun hquote => ?_
      rw [token_of_quote hquote.1]
      exact quoted_suffix c rest

theorem token_snd_suffix (c : Char) (rest : List Char) : (token c rest).2 <:+ c :: rest := by
  rcases token_snd_suffix_or c rest with hsuffix | ⟨rfl, hescape⟩
  · exact hsuffix.trans (List.suffix_cons c rest)
  · simp only [token_of_startsEscape_eq_false hescape, List.suffix_refl]

theorem dropComments_of_end (h : (next text).1 = .ok none) : dropComments text = some [] := by
  unfold next at h
  split at h
  · exact absurd h (by simp)
  · next hcomments => exact hcomments
  · next c behind _ => exact absurd h (token_ne_none c behind)

/-- Whatever a call returns, it leaves a part of the text that goes up to the end. -/
theorem next_snd_suffix (text : List Char) : (next text).2 <:+ text := by
  unfold next
  split
  · exact List.nil_suffix
  · exact List.nil_suffix
  · next c rest hcomments => exact (token_snd_suffix c rest).trans (dropComments_suffix hcomments)

theorem next_suffix {found : Token} (h : next text = (.ok (some found), rest)) : rest <:+ text := by
  have hsuffix := next_snd_suffix text
  rwa [h] at hsuffix

end

/-! ### Escaped names -/

theorem startsName_escapeLeading (c : Char) (text : List Char) :
    startsEscape (escapeLeading c ++ text) = true ∨
      ∃ d more, escapeLeading c ++ text = d :: more ∧
        (isNameStart d = true ∨ d = '-' ∧ c = '-') := by
  unfold escapeLeading
  split
  · next hdigit =>
      have hcode : 48 ≤ c.toNat ∧ c.toNat ≤ 57 := Char.isDigit_iff_toNat.mp hdigit
      exact Or.inl (startsEscape_numberEscape (by omega) text)
  · next hdigit =>
      rcases escapeChar_cases c with ⟨-, hc⟩ | ⟨-, hlow, hc⟩ | ⟨-, hname, hc⟩ |
        ⟨-, -, hline, hc⟩
      · rw [hc]
        exact Or.inr ⟨_, text, rfl, Or.inl (by decide)⟩
      · rw [hc]
        exact Or.inl (startsEscape_numberEscape hlow text)
      · rw [hc]
        refine Or.inr ⟨c, text, rfl, ?_⟩
        simp only [isNameChar, Bool.or_eq_true, beq_iff_eq, hdigit, or_false,
          Bool.false_eq_true] at hname
        exact hname.imp_right fun hdash => ⟨hdash, hdash⟩
      · rw [hc]
        exact Or.inl (by simpa [startsEscape] using hline)

/-- An escaped name begins like a name. -/
theorem startsName_escapeChars {chars : List Char} (h : chars ≠ []) (text : List Char) :
    startsName (escapeChars chars ++ text) = true := by
  unfold escapeChars
  split
  · exact absurd rfl h
  · exact startsName_of_startsEscape rfl
  · next c rest =>
      simp only [List.cons_append, List.append_assoc, startsName, Bool.or_eq_true]
      refine (startsName_escapeLeading c _).imp_right ?_
      rintro ⟨d, more, heq, hd⟩
      rw [heq]
      simp only [Bool.or_eq_true, beq_iff_eq]
      exact hd.imp_right And.left
  · next c rest hsingle hdash =>
      rw [List.append_assoc]
      rcases startsName_escapeLeading c (rest.flatMap escapeChar ++ text) with hescape |
        ⟨d, more, heq, hd | ⟨-, rfl⟩⟩
      · exact startsName_of_startsEscape hescape
      · rw [heq]
        exact startsName_of_isNameStart hd more
      · cases rest with
        | nil => exact (hsingle rfl rfl).elim
        | cons c rest => exact (hdash c rest rfl rfl).elim

variable {chars rest : List Char}

/-- An escaped name is read as a name that ends where it was written. -/
theorem named_escapeChars (hrest : EndsName rest) :
    named (escapeChars chars ++ rest) = (.ident (String.ofList (chars.map readBack)), rest) := by
  rw [named, name_escapeChars_append, name_of_endsName hrest]
  simp only [List.append_nil]
  split
  · next more => exact absurd rfl (hrest '(' rfl).2.2
  · rfl

theorem reads_ident (hne : chars ≠ []) (hrest : EndsName rest) :
    Reads (escapeChars chars ++ rest) [.ident (String.ofList (chars.map readBack))] rest := by
  refine Reads.single ?_
  rw [next_of_startsName (startsName_escapeChars hne rest), named_escapeChars hrest]

theorem reads_function (hne : chars ≠ []) :
    Reads (escapeChars chars ++ '(' :: rest) [.function (String.ofList (chars.map readBack))]
      rest := by
  have hparen : name ('(' :: rest) = ([], '(' :: rest) := by
    rw [name, if_neg (by decide), if_neg (by simp [startsEscape])]
  refine Reads.single ?_
  rw [next_of_startsName (startsName_escapeChars hne _), named, name_escapeChars_append, hparen]
  simp

/-- A text that begins like a name begins with a character or an escape of a name. -/
theorem opensName_of_startsName {text : List Char} (h : startsName text = true) :
    (text.head?.any isNameChar || startsEscape text) = true := by
  rcases startsName_cases h with hescape | ⟨c, more, rfl, hc⟩ | ⟨more, rfl, -⟩
  · rw [hescape, Bool.or_true]
  · simp [isNameChar, hc]
  · rw [List.head?_cons, Option.any_some, show isNameChar '-' = true by decide, Bool.true_or]

/-- The name behind `#` makes up an `id`. -/
theorem reads_hash_of_startsName {text : List Char} (h : startsName text = true) :
    Reads ('#' :: text) [.hash (String.ofList (name text).1) true] (name text).2 := by
  refine Reads.single ?_
  rw [next_cons (by decide), token, if_neg (by decide), if_neg (by decide), if_pos rfl, hash,
    if_pos (opensName_of_startsName h), h]

theorem reads_hash (hne : chars ≠ []) (hrest : EndsName rest) :
    Reads ('#' :: (escapeChars chars ++ rest))
      [.hash (String.ofList (chars.map readBack)) true] rest := by
  have hread := reads_hash_of_startsName (startsName_escapeChars hne rest)
  rwa [name_escapeChars_append, name_of_endsName hrest, List.append_nil] at hread

/-! ### Other tokens -/

theorem reads_punctuation {c : Char}
    (hc : c ∈ [':', ',', '[', ']', '(', ')', '=', '~', '|', '^', '$', '*', '>', '.', '+'])
    (hnumber : startsNumber (c :: rest) = false) : Reads (c :: rest) [punctuation c] rest := by
  have hstarts : startsName (c :: rest) = false ∧ c ≠ '/' ∧ isSpace c = false ∧
      c ∉ ['"', '\'', '#', '\\'] := by
    simp only [List.mem_cons, List.not_mem_nil, or_false] at hc
    rcases hc with rfl | rfl | rfl | rfl | rfl | rfl | rfl | rfl | rfl | rfl | rfl | rfl | rfl |
      rfl | rfl <;> exact ⟨rfl, by decide, by decide, by decide⟩
  obtain ⟨hname, hslash, hspace, hmem⟩ := hstarts
  refine Reads.single ?_
  rw [next_cons hslash, (Takes.punctuation hspace hmem hnumber hname).token_eq]

/-- The name behind a point is a token of its own. -/
theorem reads_point (hne : chars ≠ []) (hrest : EndsName rest) :
    Reads ('.' :: (escapeChars chars ++ rest))
      [.delim '.', .ident (String.ofList (chars.map readBack))] rest := by
  have hdot : startsNumber ('.' :: (escapeChars chars ++ rest)) = false := by
    obtain ⟨c, more, heq, -, hdigit, -⟩ := exists_head_of_startsName (startsName_escapeChars hne rest)
    rw [heq]
    exact hdigit
  exact (reads_punctuation (by decide) hdot).append (reads_ident hne hrest)

theorem reads_space (hrest : ∀ c ∈ rest.head?, isSpace c = false) :
    Reads (' ' :: rest) [.whitespace] rest := by
  have hdrop : rest.dropWhile isSpace = rest := by
    cases rest with
    | nil => rfl
    | cons c rest => exact List.dropWhile_cons_of_neg (by simp [hrest c rfl])
  refine Reads.single ?_
  rw [next_of_isSpace (by decide), hdrop]

theorem reads_emptyString : Reads ('"' :: '"' :: rest) [.string ""] rest := by
  have hstring : string '"' ('"' :: rest) = (some [], rest) := by
    rw [string.eq_def]
    rfl
  refine Reads.single ?_
  rw [next_cons (by decide), token, if_neg (by decide), if_pos (Or.inl rfl), quoted, hstring]

end DomQuery.Lexer

namespace DomQuery

open Lexer Identifier

/-! ### Escaped texts -/

/-- **Escaping is undone by the lexer.**  Any text that is not empty can be written as a name: as an
`id` behind `#`, behind a point and alone, the escaped text is one token, and this token holds the
text again, with U+FFFD for U+0000. -/
theorem Token.ofText_escape {text : String} (h : text ≠ "") :
    Token.ofText ("#" ++ Identifier.escape text) = .ok [.hash (readBackText text) true] ∧
      Token.ofText ("." ++ Identifier.escape text) =
        .ok [.delim '.', .ident (readBackText text)] ∧
      Token.ofText (Identifier.escape text) = .ok [.ident (readBackText text)] := by
  have hne : text.toList ≠ [] := mt String.toList_eq_nil_iff.mp h
  -- nothing stands behind the name that could continue it
  have hend : EndsName [] := by
    intro c hc
    exact absurd hc (by simp)
  have hhash := (reads_hash hne hend).tokens_eq
  have hpoint := (reads_point hne hend).tokens_eq
  have hname := (reads_ident hne hend).tokens_eq
  rw [List.append_nil] at hhash hpoint hname
  refine ⟨?_, ?_, ?_⟩
  · simpa [Token.ofText, Identifier.escape, readBackText] using hhash
  · simpa [Token.ofText, Identifier.escape, readBackText] using hpoint
  · simpa [Token.ofText, Identifier.escape, readBackText] using hname

/-- A hyphen with a digit behind it, a control character in front of a hexadecimal digit, U+0000 and
the signs of comments and strings. -/
theorem Token.ofText_escape_signs :
    Token.ofText ("#" ++ Identifier.escape "-1\x01f\x00/*\"") =
        .ok [.hash "-1\x01f\uFFFD/*\"" true] ∧
      Token.ofText ("." ++ Identifier.escape "-1\x01f\x00/*\"") =
        .ok [.delim '.', .ident "-1\x01f\uFFFD/*\""] ∧
      Token.ofText (Identifier.escape "-1\x01f\x00/*\"") = .ok [.ident "-1\x01f\uFFFD/*\""] := by
  have hread : readBackText "-1\x01f\x00/*\"" = "-1\x01f\uFFFD/*\"" := by decide
  have hescaped := Token.ofText_escape (show "-1\x01f\x00/*\"" ≠ "" by decide)
  rwa [hread] at hescaped

end DomQuery
