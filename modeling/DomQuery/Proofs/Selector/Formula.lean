import DomQuery.Proofs.Selector.Reading
import DomQuery.Proofs.Text.Trim
import DomQuery.Selector.AnPlusB

/-!
# The written forms of positions

`Formula text a b` derives the written forms of the positions `a * n + b`, with integers of any
size for `a` and `b`.  Spaces can stand in front of the sign of `b` and behind it.

The reader takes blanks out of a text and lowers its letters before it looks at it, and what is
left of a formula is its coefficient, the letter `n` and its offset without spaces between them.
So the reader returns both integers if they have 32 bits, and nothing if one of them has not
(`ofCompact?_formula`).
-/

namespace DomQuery.AnPlusB

open Lexer (isSpace)

/-! ### Derivations -/

/-- Spaces, or nothing. -/
def Spaces (text : List Char) : Prop :=
  ∀ c ∈ text, isSpace c = true

/-- A number in decimal, with or without zeros in front of it. -/
def IsDecimal (digits : List Char) (value : Nat) : Prop :=
  ∃ zeros, digits = List.replicate zeros '0' ++ Nat.toDigits 10 value

/-- An integer in decimal, with or without a sign. -/
inductive Numeral : List Char → Int → Prop where
  | plain {digits : List Char} {value : Nat} : IsDecimal digits value → Numeral digits value
  | plus {digits : List Char} {value : Nat} : IsDecimal digits value →
      Numeral ('+' :: digits) value
  | minus {digits : List Char} {value : Nat} : IsDecimal digits value →
      Numeral ('-' :: digits) (-value)

/-- What stands in front of the letter: an integer, or nothing or a sign alone for one. -/
inductive Coefficient : List Char → Int → Prop where
  | numeral {text : List Char} {value : Int} : Numeral text value → Coefficient text value
  | one : Coefficient [] 1
  | plusOne : Coefficient ['+'] 1
  | minusOne : Coefficient ['-'] (-1)

/-- An integer with a sign, and spaces between the sign and the digits. -/
inductive Signed : List Char → Int → Prop where
  | spaced {sign : Char} {spaces digits : List Char} {value : Int} : sign = '+' ∨ sign = '-' →
      Spaces spaces → Numeral (sign :: digits) value → Signed (sign :: (spaces ++ digits)) value

/-- What stands behind the letter: nothing for zero, or an integer with a sign. -/
inductive Offset : List Char → Int → Prop where
  | zero : Offset [] 0
  | signed {spaces text : List Char} {value : Int} : Spaces spaces → Signed text value →
      Offset (spaces ++ text) value

/-- An offset in which any blanks can stand where `Offset` has spaces. -/
inductive Addend : List Char → Int → Prop where
  | zero : Addend [] 0
  | signed {before after digits : List Char} {sign : Char} {value : Int} : Text.Blanks before →
      sign = '+' ∨ sign = '-' → Text.Blanks after → Numeral (sign :: digits) value →
      Addend (before ++ sign :: (after ++ digits)) value

/-- The written forms of the positions `a * n + b`. -/
inductive Formula : List Char → Int → Int → Prop where
  | linear {coefficient offset : List Char} {letter : Char} {a b : Int} :
      Coefficient coefficient a → letter = 'n' ∨ letter = 'N' → Offset offset b →
      Formula (coefficient ++ letter :: offset) a b
  | plain {digits : List Char} {value : Nat} : IsDecimal digits value → Formula digits 0 value
  | signed {text : List Char} {value : Int} : Signed text value → Formula text 0 value

/-! ### The characters of a number -/

theorem isDigit_of_mem_toDigits {value : Nat} {c : Char} (h : c ∈ Nat.toDigits 10 value) :
    c.isDigit = true :=
  Nat.isDigit_of_mem_toDigits (by decide) (by decide) h

/-- A digit is neither blank nor a capital, and begins no word. -/
theorem of_isDigit {c : Char} (h : c.isDigit = true) :
    Text.isBlank c = false ∧ c.toLower = c ∧ c ∉ ['+', '-', 'n', 'o', 'e'] := by
  have hcode : 48 ≤ c.toNat ∧ c.toNat ≤ 57 := Char.isDigit_iff_toNat.mp h
  refine ⟨?_, ?_, fun hmem => ?_⟩
  · simp only [Text.isBlank, Bool.or_eq_false_iff, Bool.and_eq_false_iff, decide_eq_false_iff_not,
      beq_eq_false_iff_ne]
    omega
  · rw [← Char.toNat_inj, Text.toNat_toLower, if_neg (by omega)]
  · simp only [List.mem_cons, List.not_mem_nil, or_false] at hmem
    rcases hmem with rfl | rfl | rfl | rfl | rfl <;> exact absurd h (by decide)

/-- The digits and the signs. -/
def IsNumeric (c : Char) : Prop :=
  c.isDigit = true ∨ c = '+' ∨ c = '-'

/-- No digit and no sign is blank, a capital or part of a word. -/
theorem IsNumeric.plain {c : Char} (h : IsNumeric c) :
    Text.isBlank c = false ∧ c.toLower = c ∧ c ∉ ['n', 'o', 'e'] := by
  rcases h with hdigit | rfl | rfl
  · obtain ⟨hblank, hlower, hmem⟩ := of_isDigit hdigit
    exact ⟨hblank, hlower, fun hword => hmem (List.mem_cons_of_mem _ (List.mem_cons_of_mem _ hword))⟩
  · decide
  · decide

variable {text digits before after : List Char} {value : Int}

theorem IsDecimal.isDigit {value : Nat} (h : IsDecimal digits value) :
    ∀ c ∈ digits, c.isDigit = true := by
  obtain ⟨zeros, rfl⟩ := h
  intro c hc
  rcases List.mem_append.mp hc with hzero | hdigit
  · rw [List.eq_of_mem_replicate hzero]
    decide
  · exact isDigit_of_mem_toDigits hdigit

theorem IsDecimal.exists_digit {value : Nat} (h : IsDecimal digits value) :
    ∃ digit rest, digits = digit :: rest ∧ digit.isDigit = true := by
  have hne : digits ≠ [] := by
    obtain ⟨zeros, rfl⟩ := h
    exact List.append_ne_nil_of_right_ne_nil _ Nat.toDigits_ne_nil
  obtain ⟨digit, rest, rfl⟩ := List.exists_cons_of_ne_nil hne
  exact ⟨digit, rest, rfl, h.isDigit digit (by simp)⟩

theorem IsDecimal.toDigits (value : Nat) : IsDecimal (Nat.toDigits 10 value) value :=
  ⟨0, rfl⟩

theorem IsDecimal.isNumeric {value : Nat} (h : IsDecimal digits value) :
    ∀ c ∈ digits, IsNumeric c :=
  fun c hc => Or.inl (h.isDigit c hc)

theorem Numeral.isNumeric (h : Numeral text value) : ∀ c ∈ text, IsNumeric c := by
  cases h with
  | plain hdigits => exact hdigits.isNumeric
  | plus hdigits => exact List.forall_mem_cons.mpr ⟨Or.inr (Or.inl rfl), hdigits.isNumeric⟩
  | minus hdigits => exact List.forall_mem_cons.mpr ⟨Or.inr (Or.inr rfl), hdigits.isNumeric⟩

theorem Coefficient.isNumeric (h : Coefficient text value) : ∀ c ∈ text, IsNumeric c := by
  cases h with
  | numeral hnumeral => exact hnumeral.isNumeric
  | one => simp
  | plusOne => simp [IsNumeric]
  | minusOne => simp [IsNumeric]

theorem Signed.mem_cases (h : Signed text value) :
    ∀ c ∈ text, IsNumeric c ∨ isSpace c = true := by
  cases h with
  | spaced _ hspaces hnumeral =>
      have hdigits := List.forall_mem_cons.mp hnumeral.isNumeric
      intro c hc
      simp only [List.mem_cons, List.mem_append] at hc
      rcases hc with rfl | hc | hc
      · exact Or.inl hdigits.1
      · exact Or.inr (hspaces c hc)
      · exact Or.inl (hdigits.2 c hc)

theorem Offset.mem_cases (h : Offset text value) :
    ∀ c ∈ text, IsNumeric c ∨ isSpace c = true := by
  cases h with
  | zero => simp
  | signed hspaces hsigned =>
      intro c hc
      exact (List.mem_append.mp hc).elim (fun hc => Or.inr (hspaces c hc)) (hsigned.mem_cases c)

/-- The characters of a formula. -/
theorem Formula.mem_cases {a b : Int} (h : Formula text a b) :
    ∀ c ∈ text, IsNumeric c ∨ isSpace c = true ∨ c = 'n' ∨ c = 'N' := by
  intro c hc
  cases h with
  | linear hcoefficient hletter hoffset =>
      rcases List.mem_append.mp hc with hc | hc
      · exact Or.inl (hcoefficient.isNumeric c hc)
      · rcases List.mem_cons.mp hc with rfl | hc
        · exact Or.inr (Or.inr hletter)
        · exact (hoffset.mem_cases c hc).imp_right Or.inl
  | plain hdigits => exact Or.inl (hdigits.isNumeric c hc)
  | signed hsigned => exact (hsigned.mem_cases c hc).imp_right Or.inl

/-! ### Without blanks and in lower case -/

theorem compact_append (first second : List Char) :
    compact (first ++ second) = compact first ++ compact second := by
  simp [compact]

theorem compact_cons {c : Char} (h : Text.isBlank c = false) (rest : List Char) :
    compact (c :: rest) = c.toLower :: compact rest := by
  simp [compact, h]

theorem compact_of_blanks (h : Text.Blanks text) : compact text = [] := by
  have hfilter : text.filter (fun c => !Text.isBlank c) = [] :=
    List.filter_eq_nil_iff.mpr fun c hc => by simp [h c hc]
  rw [compact, hfilter, List.map_nil]

theorem Spaces.blanks (h : Spaces text) : Text.Blanks text :=
  fun c hc => Lexer.isBlank_of_isSpace (h c hc)

theorem compact_spaces (h : Spaces text) : compact text = [] :=
  compact_of_blanks h.blanks

theorem compact_eq_self (h : ∀ c ∈ text, IsNumeric c) : compact text = text := by
  induction text with
  | nil => rfl
  | cons c text ih =>
      obtain ⟨hblank, hlower, -⟩ := (h c (by simp)).plain
      rw [compact_cons hblank, hlower, ih fun d hd => h d (by simp [hd])]

/-- Spaces around a text do not count. -/
theorem compact_between (hbefore : Spaces before) (hafter : Spaces after) :
    compact (before ++ (text ++ after)) = compact text := by
  rw [compact_append, compact_append, compact_spaces hbefore, compact_spaces hafter,
    List.nil_append, List.append_nil]

/-- Without the spaces behind its sign, an integer is a numeral with that sign. -/
theorem Signed.exists_numeral (h : Signed text value) :
    ∃ sign digits, compact text = sign :: digits ∧ (sign = '+' ∨ sign = '-') ∧
      Numeral (sign :: digits) value := by
  cases h with
  | @spaced sign spaces digits _ hsign hspaces hnumeral =>
      obtain ⟨hnumeric, hdigits⟩ := List.forall_mem_cons.mp hnumeral.isNumeric
      obtain ⟨hblank, hlower, -⟩ := hnumeric.plain
      refine ⟨sign, digits, ?_, hsign, hnumeral⟩
      rw [compact_cons hblank, hlower, compact_append, compact_spaces hspaces,
        compact_eq_self hdigits, List.nil_append]

/-! ### Reading integers -/

theorem natural?_of_isDecimal {value : Nat} (h : IsDecimal digits value) :
    natural? digits = some value := by
  have hall : digits.all Char.isDigit = true := List.all_eq_true.mpr h.isDigit
  have hempty : digits.isEmpty = false := by
    obtain ⟨digit, rest, rfl, -⟩ := h.exists_digit
    rfl
  rw [natural?, hall, hempty, if_neg (by simp)]
  obtain ⟨zeros, rfl⟩ := h
  rw [Nat.ofDigitChars_append, Nat.ofDigitChars_replicate_zero, Nat.mul_zero,
    Nat.ofDigitChars_ten_toDigits]

theorem integer?_of_digit {digit : Char} (h : digit.isDigit = true) (digits : List Char) :
    integer? (digit :: digits) =
      (natural? (digit :: digits)).bind fun magnitude => ofInt? magnitude := by
  obtain ⟨-, -, hmem⟩ := of_isDigit h
  simp only [List.mem_cons, List.not_mem_nil, or_false, not_or] at hmem
  unfold integer?
  split
  · next heq => exact absurd (List.cons.inj heq).1 hmem.1
  · next heq => exact absurd (List.cons.inj heq).1 hmem.2.1
  · rfl

theorem integer?_numeral (h : Numeral text value) : integer? text = ofInt? value := by
  cases h with
  | plain hdigits =>
      obtain ⟨digit, rest, rfl, hdigit⟩ := hdigits.exists_digit
      rw [integer?_of_digit hdigit, natural?_of_isDecimal hdigits, Option.bind_some]
  | plus hdigits => rw [integer?, natural?_of_isDecimal hdigits, Option.bind_some]
  | minus hdigits => rw [integer?, natural?_of_isDecimal hdigits, Option.bind_some]

theorem coefficient?_numeral (h : Numeral text value) : coefficient? text = ofInt? value := by
  rw [← integer?_numeral h]
  -- there is a digit in every numeral
  unfold coefficient?
  split
  · cases h with
    | plain hdigits => exact absurd (hdigits.exists_digit) (by simp)
  · cases h with
    | plain hdigits => exact absurd (hdigits.isDigit '+' (by simp)) (by decide)
    | plus hdigits => exact absurd (hdigits.exists_digit) (by simp)
  · cases h with
    | plain hdigits => exact absurd (hdigits.isDigit '-' (by simp)) (by decide)
    | minus hdigits => exact absurd (hdigits.exists_digit) (by simp)
  · rfl

theorem coefficient?_eq (h : Coefficient text value) : coefficient? text = ofInt? value := by
  cases h with
  | numeral hnumeral => exact coefficient?_numeral hnumeral
  | one => rfl
  | plusOne => rfl
  | minusOne => rfl

theorem offset?_of_addend (h : Addend text value) : offset? (compact text) = ofInt? value := by
  cases h with
  | zero => rfl
  | signed hbefore hsign hafter hnumeral =>
      obtain ⟨hnumeric, hdigits⟩ := List.forall_mem_cons.mp hnumeral.isNumeric
      obtain ⟨hblank, hlower, -⟩ := hnumeric.plain
      rw [compact_append, compact_of_blanks hbefore, List.nil_append, compact_cons hblank, hlower,
        compact_append, compact_of_blanks hafter, List.nil_append, compact_eq_self hdigits,
        ← integer?_numeral hnumeral]
      rcases hsign with rfl | rfl <;> rfl

theorem Offset.addend (h : Offset text value) : Addend text value := by
  cases h with
  | zero => exact .zero
  | signed hbefore hsigned =>
      cases hsigned with
      | spaced hsign hafter hnumeral => exact .signed hbefore.blanks hsign hafter.blanks hnumeral

theorem offset?_compact (h : Offset text value) : offset? (compact text) = ofInt? value :=
  offset?_of_addend h.addend

/-! ### Reading positions -/

/-- A text with the letter `n` is cut there. -/
theorem ofCompact?_linear {coefficient : List Char} (h : ∀ c ∈ coefficient, IsNumeric c)
    (offset : List Char) :
    ofCompact? (coefficient ++ 'n' :: offset) =
      (coefficient? coefficient).bind fun a => (offset? offset).map fun b => ⟨a, b⟩ := by
  have hletter : ∀ c ∈ coefficient, (c != 'n') = true := by
    intro c hc
    have hmem := (h c hc).plain.2.2
    simp only [List.mem_cons, not_or] at hmem
    simpa using hmem.1
  have htake : (coefficient ++ 'n' :: offset).takeWhile (· != 'n') = coefficient := by
    rw [List.takeWhile_append_of_pos hletter, List.takeWhile_cons_of_neg (by simp),
      List.append_nil]
  have hdrop : (coefficient ++ 'n' :: offset).dropWhile (· != 'n') = 'n' :: offset := by
    rw [List.dropWhile_append_of_pos hletter, List.dropWhile_cons_of_neg (by simp)]
  have hodd : coefficient ++ 'n' :: offset ≠ ['o', 'd', 'd'] := by
    intro heq
    have hmem : 'n' ∈ ['o', 'd', 'd'] := heq ▸ List.mem_append_right coefficient List.mem_cons_self
    exact absurd hmem (by decide)
  -- in front of the letter of `even` stands no coefficient
  have heven : coefficient ++ 'n' :: offset ≠ ['e', 'v', 'e', 'n'] := by
    intro heq
    have hword : coefficient = ['e', 'v', 'e'] := by
      rw [← htake, heq]
      rfl
    exact (h 'e' (by simp [hword])).plain.2.2 (by simp)
  rw [ofCompact?, if_neg hodd, if_neg heven, hdrop, htake]
  dsimp only
  cases coefficient? coefficient <;> cases offset? offset <;> rfl

/-- A text without the letter `n` is an integer. -/
theorem ofCompact?_constant (h : ∀ c ∈ text, IsNumeric c) :
    ofCompact? text = (integer? text).map fun b => ⟨0, b⟩ := by
  have hletter : text.dropWhile (· != 'n') = [] := by
    rw [List.dropWhile_eq_nil_iff]
    intro c hc
    have hmem := (h c hc).plain.2.2
    simp only [List.mem_cons, not_or] at hmem
    simpa using hmem.1
  have hword : ∀ c ∈ ['o', 'e'], ∀ rest, text ≠ c :: rest := by
    rintro c hc rest rfl
    exact (h c (by simp)).plain.2.2 (List.mem_cons_of_mem _ hc)
  rw [ofCompact?, if_neg (hword 'o' (by simp) _), if_neg (hword 'e' (by simp) _), hletter]

/-- A formula is read as its two integers, if both are 32-bit integers. -/
theorem ofCompact?_formula {a b : Int} (h : Formula text a b) :
    ofCompact? (compact text) =
      (ofInt? a).bind fun a => (ofInt? b).map fun b => ⟨a, b⟩ := by
  have hzero : ofInt? 0 = some 0 := rfl
  cases h with
  | @linear coefficient offset letter _ _ hcoefficient hletter hoffset =>
      have hcompact : compact (coefficient ++ letter :: offset) =
          coefficient ++ 'n' :: compact offset := by
        rw [compact_append, compact_eq_self hcoefficient.isNumeric]
        rcases hletter with rfl | rfl <;> rw [compact_cons (by decide)] <;> rfl
      rw [hcompact, ofCompact?_linear hcoefficient.isNumeric, coefficient?_eq hcoefficient,
        offset?_compact hoffset]
  | plain hdigits =>
      rw [compact_eq_self hdigits.isNumeric, ofCompact?_constant hdigits.isNumeric,
        integer?_numeral (Numeral.plain hdigits), hzero, Option.bind_some]
  | signed hsigned =>
      obtain ⟨sign, digits, hcompact, -, hnumeral⟩ := hsigned.exists_numeral
      rw [hcompact, ofCompact?_constant hnumeral.isNumeric, integer?_numeral hnumeral, hzero,
        Option.bind_some]

theorem ofInt?_toInt (value : Int32) : ofInt? value.toInt = some value := by
  rw [ofInt?, if_pos ⟨value.le_toInt, value.toInt_lt⟩, Int32.ofInt_toInt]

/-- The integers that 32 bits can hold. -/
def FitsInt32 (value : Int) : Prop :=
  -2147483648 ≤ value ∧ value < 2147483648

theorem ofInt?_eq_none (h : ¬ FitsInt32 value) : ofInt? value = none := by
  rw [ofInt?, if_neg]
  simpa [FitsInt32] using h

/-- A formula of two 32-bit integers is read back. -/
theorem ofText_formula {positions : AnPlusB}
    (h : Formula text positions.a.toInt positions.b.toInt) :
    ofText (String.ofList text) = .ok positions := by
  rw [ofText, String.toList_ofList, ofCompact?_formula h, ofInt?_toInt, ofInt?_toInt]
  rfl

end DomQuery.AnPlusB
