import DomQuery.Proofs.Text.Case
import DomQuery.Proofs.Text.Trim
import DomQuery.Selector.Identifier
import DomQuery.Selector.Lexer
import Mathlib.Tactic.ByContra
import Mathlib.Tactic.Tauto

/-!
# Reading back escaped names

The lexer reads an escaped name back as the name, whatever its characters are and whatever
stands behind it, as long as that cannot continue a name (`name_escapeChars`).  Only U+0000 is
lost, which is written as U+FFFD.

Each written character is read in one step and leaves the text behind it alone.  For an escape
by number this holds because of the space that ends it: the digits stop in front of it, and it
is not left for what follows.
-/

namespace DomQuery

/-- The character that is read back for a written one. -/
def Identifier.readBack (c : Char) : Char :=
  if c = '\x00' then '\uFFFD' else c

theorem Identifier.map_readBack {chars : List Char} (h : '\x00' ∉ chars) :
    chars.map readBack = chars := by
  refine (List.map_congr_left fun c hc => ?_).trans (List.map_id chars)
  refine if_neg ?_
  rintro rfl
  exact h hc

/-- The text that is read back for a written one. -/
def Identifier.readBackText (text : String) : String :=
  String.ofList (text.toList.map readBack)

/-- The text ends in no blank but a control character.  Any other blank at its end is also the end of
its escaped form. -/
def Identifier.KeepsEnd (text : String) : Prop :=
  ∀ c ∈ text.toList.getLast?, Text.isBlank c = true → c ≤ '\x1f'

namespace Lexer

open Identifier

/-! ### Escapes -/

/-- An escape by number ends with its digits, and one space behind them belongs to it. -/
theorem escape_digits {digits text : List Char} (hne : digits ≠ [])
    (hhex : ∀ c ∈ digits, isHexDigit c = true) (hlength : digits.length ≤ 6)
    (htext : ∀ c ∈ text.head?, isHexDigit c = false) :
    escape (digits ++ text) =
      (scalar (digits.foldl (fun code digit => code * 16 + hexValue digit) 0), dropSpace text) := by
  obtain ⟨c, more, rfl⟩ := List.exists_cons_of_ne_nil hne
  have hc : isHexDigit c = true := hhex c (by simp)
  have hmore : ∀ d ∈ more, isHexDigit d = true := fun d hd => hhex d (by simp [hd])
  have hshort : more.length ≤ 5 := by
    rw [List.length_cons] at hlength
    omega
  have htake : ((more ++ text).take 5).takeWhile isHexDigit = more := by
    rw [List.take_append, List.take_of_length_le hshort, List.takeWhile_append_of_pos hmore]
    cases text with
    | nil => simp
    | cons d text =>
        cases 5 - more.length with
        | zero => simp
        | succ k => simp [htext d rfl]
  simp only [List.cons_append, escape, hc, if_true, htake, List.drop_left]

/-- The digits that write the number of a character in the first half of a byte. -/
theorem toDigits_spec (code : Fin 128) :
    (∀ c ∈ Nat.toDigits 16 code, isHexDigit c = true) ∧ (Nat.toDigits 16 code).length ≤ 6 ∧
      (Nat.toDigits 16 code).foldl (fun code digit => code * 16 + hexValue digit) 0 = code := by
  have hall : ∀ code : Fin 128,
      (Nat.toDigits 16 code).all isHexDigit = true ∧ (Nat.toDigits 16 code).length ≤ 6 ∧
        (Nat.toDigits 16 code).foldl (fun code digit => code * 16 + hexValue digit) 0 = code := by
    decide +kernel
  obtain ⟨hhex, hlength, hvalue⟩ := hall code
  exact ⟨List.all_eq_true.mp hhex, hlength, hvalue⟩

theorem scalar_toNat {c : Char} (h : c ≠ '\x00') : scalar c.toNat = c := by
  have hzero : c.toNat ≠ 0 := by
    intro heq
    refine h (Char.ext (UInt32.toNat_inj.mp ?_))
    exact heq
  rw [scalar, if_pos ⟨c.valid, hzero⟩, Char.ofNat_toNat]

/-- An escape by number is read back as the character. -/
theorem escape_toDigits {c : Char} (hne : c ≠ '\x00') (hlow : c.toNat < 128) {text : List Char}
    (htext : ∀ d ∈ text.head?, isHexDigit d = false) :
    escape (Nat.toDigits 16 c.toNat ++ text) = (c, dropSpace text) := by
  obtain ⟨hhex, hlength, hvalue⟩ := toDigits_spec ⟨c.toNat, hlow⟩
  rw [escape_digits Nat.toDigits_ne_nil hhex hlength htext, hvalue, scalar_toNat hne]

/-! ### Names -/

theorem name_char {c : Char} (h : isNameChar c = true) (text : List Char) :
    name (c :: text) = (c :: (name text).1, (name text).2) := by
  rw [name, if_pos h]

theorem name_backslash {text : List Char} (h : startsEscape ('\\' :: text) = true) :
    name ('\\' :: text) = ((escape text).1 :: (name (escape text).2).1, (name (escape text).2).2) := by
  rw [name, if_neg (by decide), if_pos h]

theorem startsEscape_toDigits {c : Char} (hlow : c.toNat < 128) (text : List Char) :
    startsEscape ('\\' :: (Nat.toDigits 16 c.toNat ++ text)) = true := by
  obtain ⟨digit, more, hdigits⟩ := List.exists_cons_of_ne_nil
    (Nat.toDigits_ne_nil (n := c.toNat) (b := 16))
  have hhex := (toDigits_spec ⟨c.toNat, hlow⟩).1 digit (by simp [hdigits])
  rw [hdigits]
  simp only [List.cons_append, startsEscape, bne_iff_ne]
  rintro rfl
  exact absurd hhex (by decide)

theorem numberEscape_append (c : Char) (text : List Char) :
    numberEscape c ++ text = '\\' :: (Nat.toDigits 16 c.toNat ++ ' ' :: text) := by
  simp [numberEscape]

theorem startsEscape_numberEscape {c : Char} (hlow : c.toNat < 128) (text : List Char) :
    startsEscape (numberEscape c ++ text) = true := by
  rw [numberEscape_append]
  exact startsEscape_toDigits hlow _

/-- An escape by number is read as one character of a name, with or without its space. -/
theorem name_toDigits {c : Char} (hne : c ≠ '\x00') (hlow : c.toNat < 128) {text : List Char}
    (htext : ∀ d ∈ text.head?, isHexDigit d = false) :
    name ('\\' :: (Nat.toDigits 16 c.toNat ++ text)) =
      (c :: (name (dropSpace text)).1, (name (dropSpace text)).2) := by
  rw [name_backslash (startsEscape_toDigits hlow text), escape_toDigits hne hlow htext]

theorem name_numberEscape {c : Char} (hne : c ≠ '\x00') (hlow : c.toNat < 128)
    (text : List Char) :
    name (numberEscape c ++ text) = (c :: (name text).1, (name text).2) := by
  have hspace : ∀ d ∈ (' ' :: text).head?, isHexDigit d = false := by
    rintro d ⟨⟩
    decide
  rw [numberEscape_append, name_toDigits hne hlow hspace, dropSpace, if_pos (by decide)]

/-! ### Escaped characters -/

theorem isNameChar_iff {c : Char} :
    isNameChar c = true ↔ '\x80' ≤ c ∨ c = '-' ∨ c = '_' ∨ c.isAlphanum = true := by
  have hhigh : '\x80' ≤ c ↔ 128 ≤ c.toNat := Iff.rfl
  simp only [isNameChar, isNameStart, Char.isAlphanum, Bool.or_eq_true, beq_iff_eq,
    decide_eq_true_eq, hhigh]
  tauto

theorem isAlphanum_of_isHexDigit {c : Char} (h : isHexDigit c = true) : c.isAlphanum = true := by
  have hcodes : 'a'.val.toNat = 97 ∧ 'f'.val.toNat = 102 ∧ 'A'.val.toNat = 65 ∧
      'F'.val.toNat = 70 := by decide
  simp only [isHexDigit, Bool.or_eq_true, Bool.and_eq_true, decide_eq_true_eq, Char.le_def,
    UInt32.le_iff_toNat_le, hcodes, Char.toNat_val] at h
  rw [Char.isAlphanum, Bool.or_eq_true, Text.isAlpha_iff_toNat]
  rcases h with (hdigit | hlower) | hupper
  · exact Or.inr hdigit
  · exact Or.inl (Or.inr ⟨hlower.1, by omega⟩)
  · exact Or.inl (Or.inl ⟨hupper.1, by omega⟩)

/-- How a character is written inside an identifier. -/
theorem escapeChar_cases (c : Char) :
    (c = '\x00' ∧ escapeChar c = ['\uFFFD']) ∨
    (c ≠ '\x00' ∧ c.toNat < 128 ∧ escapeChar c = numberEscape c) ∨
    (c ≠ '\x00' ∧ isNameChar c = true ∧ escapeChar c = [c]) ∨
    (c ≠ '\x00' ∧ isHexDigit c = false ∧ c ≠ '\n' ∧ escapeChar c = ['\\', c]) := by
  unfold escapeChar
  split
  · next hnull => exact Or.inl ⟨hnull, rfl⟩
  · next hne =>
      split
      · next hcontrol =>
          refine Or.inr (Or.inl ⟨hne, ?_, rfl⟩)
          rcases hcontrol with hlow | rfl
          · have hcode : c.toNat ≤ 31 := hlow
            omega
          · decide
      · next hcontrol =>
          split
          · next hname => exact Or.inr (Or.inr (Or.inl ⟨hne, isNameChar_iff.mpr hname, rfl⟩))
          · next hname =>
              refine Or.inr (Or.inr (Or.inr ⟨hne, ?_, ?_, rfl⟩))
              · by_contra hhex
                rw [Bool.not_eq_false] at hhex
                exact hname (Or.inr (Or.inr (Or.inr (isAlphanum_of_isHexDigit hhex))))
              · rintro rfl
                exact hcontrol (Or.inl (by decide))

/-- Every character that is written inside an identifier is read back in one step. -/
theorem name_escapeChar (c : Char) (text : List Char) :
    name (escapeChar c ++ text) = (readBack c :: (name text).1, (name text).2) := by
  rcases escapeChar_cases c with ⟨rfl, hc⟩ | ⟨hne, hlow, hc⟩ | ⟨hne, hname, hc⟩ |
    ⟨hne, hhex, hline, hc⟩
  · rw [hc]
    exact name_char (by decide) text
  · rw [hc, readBack, if_neg hne]
    exact name_numberEscape hne hlow text
  · rw [hc, readBack, if_neg hne]
    exact name_char hname text
  · have hstarts : startsEscape ('\\' :: c :: text) = true := by
      simpa [startsEscape] using hline
    have hread : escape (c :: text) = (c, text) := by
      simp [escape, hhex]
    rw [hc, readBack, if_neg hne, List.cons_append, List.singleton_append,
      name_backslash hstarts, hread]

theorem ne_null_of_isDigit {c : Char} (h : c.isDigit = true) : c ≠ '\x00' ∧ c.toNat < 128 := by
  have hcode := Char.isDigit_iff_toNat.mp h
  have hnine : '9'.toNat = 57 := rfl
  refine ⟨?_, by omega⟩
  rintro rfl
  exact absurd h (by decide)

theorem name_escapeLeading (c : Char) (text : List Char) :
    name (escapeLeading c ++ text) = (readBack c :: (name text).1, (name text).2) := by
  unfold escapeLeading
  split
  · next hdigit =>
      obtain ⟨hne, hlow⟩ := ne_null_of_isDigit hdigit
      rw [readBack, if_neg hne]
      exact name_numberEscape hne hlow text
  · exact name_escapeChar c text

theorem name_flatMap_escapeChar (chars text : List Char) :
    name (chars.flatMap escapeChar ++ text) =
      (chars.map readBack ++ (name text).1, (name text).2) := by
  induction chars with
  | nil => simp
  | cons c chars ih =>
      rw [List.flatMap_cons, List.append_assoc, name_escapeChar, ih]
      simp

/-- **An escaped name is read back.**  It is read as far as it was written and on into the text
behind it. -/
theorem name_escapeChars_append (chars text : List Char) :
    name (escapeChars chars ++ text) =
      (chars.map readBack ++ (name text).1, (name text).2) := by
  unfold escapeChars
  split
  · simp
  · have hstarts : startsEscape ('\\' :: '-' :: text) = true := by simp [startsEscape]
    have hread : escape ('-' :: text) = ('-', text) := by simp [escape, isHexDigit, Char.isDigit]
    simp [name_backslash hstarts, hread, readBack]
  · next c rest =>
      have hdash : isNameChar '-' = true := by decide
      simp only [List.cons_append, List.append_assoc]
      rw [name_char hdash, name_escapeLeading, name_flatMap_escapeChar]
      simp [readBack]
  · next c rest _ _ =>
      rw [List.append_assoc, name_escapeLeading, name_flatMap_escapeChar]
      simp

/-! ### Trimmed names -/

theorem isBlank_of_isHexDigit {c : Char} (h : isHexDigit c = true) : Text.isBlank c = false := by
  simp only [isHexDigit, Char.isDigit, Bool.or_eq_true, Bool.and_eq_true, decide_eq_true_eq,
    Char.le_def, UInt32.le_iff_toNat_le, ge_iff_le, Char.toNat_val] at h
  have hcodes : '0'.toNat = 48 ∧ '9'.toNat = 57 ∧ 'a'.toNat = 97 ∧ 'f'.toNat = 102 ∧
      'A'.toNat = 65 ∧ 'F'.toNat = 70 := by decide
  simp only [Text.isBlank, Bool.or_eq_false_iff, Bool.and_eq_false_iff, decide_eq_false_iff_not,
    beq_eq_false_iff_ne]
  omega

theorem trimEnd_numberEscape {c : Char} (hlow : c.toNat < 128) :
    Text.trimEnd (numberEscape c) = '\\' :: Nat.toDigits 16 c.toNat := by
  rw [numberEscape, Text.trimEnd_concat_of_blank (by decide)]
  refine Text.trimEnd_eq_self fun d hd => ?_
  rw [List.getLast?_cons_of_ne_nil Nat.toDigits_ne_nil] at hd
  exact isBlank_of_isHexDigit ((toDigits_spec ⟨c.toNat, hlow⟩).1 d (List.mem_of_getLast? hd))

/-- The space that ends an escape by number is the only blank that an escaped character can end
with, and its digits are read alike without it. -/
theorem name_trimEnd_numberEscape {c : Char} (hne : c ≠ '\x00') (hlow : c.toNat < 128) :
    Text.trimEnd (numberEscape c) ≠ [] ∧
      name (Text.trimEnd (numberEscape c)) = ([readBack c], []) := by
  have hname := @name_toDigits c hne hlow [] (by simp)
  rw [List.append_nil] at hname
  rw [trimEnd_numberEscape hlow, hname, readBack, if_neg hne]
  exact ⟨List.cons_ne_nil _ _, by simp [dropSpace, name]⟩

theorem name_trimEnd_escapeChar {c : Char} (h : Text.isBlank c = true → c ≤ '\x1f') :
    Text.trimEnd (escapeChar c) ≠ [] ∧ name (Text.trimEnd (escapeChar c)) = ([readBack c], []) := by
  cases hblank : Text.isBlank c with
  | true =>
      have hne : c ≠ '\x00' := by
        rintro rfl
        exact absurd hblank (by decide)
      have hcode : c.toNat ≤ 31 := h hblank
      rw [escapeChar, if_neg hne, if_pos (Or.inl (h hblank))]
      exact name_trimEnd_numberEscape hne (by omega)
  | false =>
      have hname := name_escapeChar c []
      rw [List.append_nil] at hname
      have hplain : ∀ {d : Char} (lead : List Char), Text.isBlank d = false →
          escapeChar c = lead ++ [d] →
            Text.trimEnd (escapeChar c) ≠ [] ∧
              name (Text.trimEnd (escapeChar c)) = ([readBack c], []) := by
        intro d lead hd heq
        have hsame : Text.trimEnd (escapeChar c) = escapeChar c := by
          rw [heq, Text.trimEnd_concat hd]
        rw [hsame, hname]
        exact ⟨by simp [heq], by simp [name]⟩
      rcases escapeChar_cases c with ⟨rfl, hc⟩ | ⟨hne, hlow, hc⟩ | ⟨-, -, hc⟩ | ⟨-, -, -, hc⟩
      · exact hplain [] (by decide) hc
      · rw [hc]
        exact name_trimEnd_numberEscape hne hlow
      · exact hplain [] hblank hc
      · exact hplain ['\\'] hblank hc

theorem name_trimEnd_escapeLeading {c : Char} (h : Text.isBlank c = true → c ≤ '\x1f') :
    Text.trimEnd (escapeLeading c) ≠ [] ∧
      name (Text.trimEnd (escapeLeading c)) = ([readBack c], []) := by
  unfold escapeLeading
  split
  · next hdigit =>
      obtain ⟨hne, hlow⟩ := ne_null_of_isDigit hdigit
      exact name_trimEnd_numberEscape hne hlow
  · exact name_trimEnd_escapeChar h

/-- Where the characters in front are read one by one, only the last one is trimmed. -/
theorem name_trimEnd_append {lead word read : List Char} {c : Char}
    (hlead : ∀ text, name (lead ++ text) = (read ++ (name text).1, (name text).2))
    (hword : Text.trimEnd word ≠ [] ∧ name (Text.trimEnd word) = ([readBack c], [])) :
    name (Text.trimEnd (lead ++ word)) = (read ++ [readBack c], []) := by
  rw [Text.trimEnd_append hword.1, hlead, hword.2]

theorem name_trimEnd_flatMap {lead read chars : List Char} {c : Char}
    (hlead : ∀ text, name (lead ++ text) = (read ++ (name text).1, (name text).2))
    (h : ∀ d ∈ (c :: chars).getLast?, Text.isBlank d = true → d ≤ '\x1f') :
    name (Text.trimEnd (lead ++ (escapeLeading c ++ chars.flatMap escapeChar))) =
      (read ++ (c :: chars).map readBack, []) := by
  rcases List.eq_nil_or_concat chars with rfl | ⟨before, last, rfl⟩
  · simpa using name_trimEnd_append hlead (name_trimEnd_escapeLeading (h c rfl))
  · have hfront : ∀ text, name (lead ++ (escapeLeading c ++ before.flatMap escapeChar) ++ text) =
        (read ++ (c :: before).map readBack ++ (name text).1, (name text).2) := by
      intro text
      rw [List.append_assoc, hlead, List.append_assoc, name_escapeLeading, name_flatMap_escapeChar]
      simp
    have hend : last ∈ (c :: before.concat last).getLast? := by
      rw [List.concat_eq_append, ← List.cons_append, List.getLast?_concat]
      rfl
    have hlast := name_trimEnd_append hfront (name_trimEnd_escapeChar (h last hend))
    simpa using hlast

/-- An escaped name is read back when it is trimmed, unless it ends in a blank that is not escaped
by its number. -/
theorem name_trimEnd_escapeChars {chars : List Char}
    (h : ∀ c ∈ chars.getLast?, Text.isBlank c = true → c ≤ '\x1f') :
    name (Text.trimEnd (escapeChars chars)) = (chars.map readBack, []) := by
  unfold escapeChars
  split
  · simp [Text.trimEnd, name]
  · have hname := name_escapeChars_append ['-'] []
    rw [show Text.trimEnd ['\\', '-'] = escapeChars ['-'] ++ [] by decide, hname]
    simp [name]
  · next c rest =>
      have hdash : ∀ text, name (['-'] ++ text) = (['-'] ++ (name text).1, (name text).2) :=
        fun text => name_char (by decide) text
      exact name_trimEnd_flatMap hdash (by simpa [List.getLast?_cons_cons] using h)
  · next c rest _ _ =>
      have hnothing : ∀ text, name ([] ++ text) = ([] ++ (name text).1, (name text).2) :=
        fun text => rfl
      exact name_trimEnd_flatMap hnothing h

/-! ### How escaped names begin and end -/

/-- Nothing that continues a name stands in front, and no parenthesis that would make it the
name of a function. -/
def EndsName (text : List Char) : Prop :=
  ∀ c ∈ text.head?, isNameChar c = false ∧ c ≠ '\\' ∧ c ≠ '('

theorem name_of_endsName {text : List Char} (h : EndsName text) : name text = ([], text) := by
  cases text with
  | nil => simp [name]
  | cons c rest =>
      obtain ⟨hchar, hbackslash, -⟩ := h c rfl
      have hescape : startsEscape (c :: rest) = false := by
        unfold startsEscape
        split
        · next heq => exact absurd (List.cons.inj heq).1 hbackslash
        · rfl
      rw [name, if_neg (by simp [hchar]), if_neg (by simp [hescape])]

end Lexer

end DomQuery
