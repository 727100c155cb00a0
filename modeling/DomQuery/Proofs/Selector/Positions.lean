import DomQuery.Proofs.Selector.Formula
import DomQuery.Proofs.Selector.Grammar

/-!
# Reading back positions

Positions are written as `an+b` with both coefficients in decimal, the second one with its sign.
The lexer cuts this text into tokens at places that depend on the sign: `2n+1` is a dimension and
a number, and `2n-1` is one dimension with the unit `n-1`.  The argument of a positional
pseudo-class is put together again from the texts of its tokens, so the cuts do not matter
(`argument_writtenTokens`), and the coefficients are read back (`ofText_written`).
-/

namespace DomQuery

namespace AnPlusB

/-- An integer in decimal. -/
def decimal (value : Int) : List Char :=
  if value < 0 then '-' :: Nat.toDigits 10 value.natAbs else Nat.toDigits 10 value.natAbs

/-- An integer in decimal, with its sign. -/
def signed (value : Int) : List Char :=
  (if value < 0 then '-' else '+') :: Nat.toDigits 10 value.natAbs

/-- Positions in the form `an+b`. -/
def written (positions : AnPlusB) : List Char :=
  decimal positions.a.toInt ++ 'n' :: signed positions.b.toInt

/-- The tokens of positions in the form `an+b`. -/
def writtenTokens (positions : AnPlusB) : List Token :=
  let a := String.ofList (decimal positions.a.toInt)
  let b := signed positions.b.toInt
  if positions.b.toInt < 0 then [.dimension a (String.ofList ('n' :: b))]
  else [.dimension a "n", .number (String.ofList b)]

/-! ### Reading positions -/

theorem numeral_decimal (value : Int) : Numeral (decimal value) value := by
  unfold decimal
  split
  · next hneg =>
      have hnumeral := Numeral.minus (IsDecimal.toDigits value.natAbs)
      rwa [Int.ofNat_natAbs_of_nonpos (by omega), Int.neg_neg] at hnumeral
  · next hpos =>
      have hnumeral := Numeral.plain (IsDecimal.toDigits value.natAbs)
      rwa [Int.natAbs_of_nonneg (by omega)] at hnumeral

theorem signed_signed (value : Int) : Signed (signed value) value := by
  have hspaces : Spaces [] := by simp [Spaces]
  unfold signed
  split
  · next hneg =>
      have hnumeral := Numeral.minus (IsDecimal.toDigits value.natAbs)
      rw [Int.ofNat_natAbs_of_nonpos (by omega), Int.neg_neg] at hnumeral
      exact Signed.spaced (Or.inr rfl) hspaces hnumeral
  · next hpos =>
      have hnumeral := Numeral.plus (IsDecimal.toDigits value.natAbs)
      rw [Int.natAbs_of_nonneg (by omega)] at hnumeral
      exact Signed.spaced (Or.inl rfl) hspaces hnumeral

theorem formula_written (positions : AnPlusB) :
    Formula (written positions) positions.a.toInt positions.b.toInt :=
  Formula.linear (Coefficient.numeral (numeral_decimal _)) (Or.inl rfl)
    (@Offset.signed [] _ _ (by simp [Spaces]) (signed_signed _))

/-- Written positions are read back. -/
theorem ofText_written (positions : AnPlusB) :
    ofText (String.ofList (written positions)) = .ok positions :=
  ofText_formula (formula_written positions)

/-! ### A single position -/

/-- The position that a number alone stands for. -/
def single (position : Nat) : AnPlusB :=
  ⟨0, Int32.ofNat position⟩

theorem ofText_toDigits {position : Nat} (h : position < 2147483648) :
    ofText (String.ofList (Nat.toDigits 10 position)) = .ok (single position) := by
  refine ofText_formula ?_
  rw [single, Int32.toInt_ofNat_of_lt h]
  exact Formula.plain (IsDecimal.toDigits position)

/-- A single position holds at itself only. -/
theorem holdsAt_single {position other : Nat} (hposition : position < 2147483648)
    (hother : other < 2147483648) :
    (single position).holdsAt (Int32.ofNat other) = true ↔ other = position := by
  rw [holdsAt, single, if_pos rfl, beq_iff_eq]
  constructor
  · intro heq
    have htoInt := congrArg Int32.toInt heq
    rw [Int32.toInt_ofNat_of_lt hother, Int32.toInt_ofNat_of_lt hposition] at htoInt
    omega
  · rintro rfl
    rfl

/-! ### The tokens of positions -/

theorem isNthPart_writtenTokens {positions : AnPlusB} {token : Token}
    (h : token ∈ writtenTokens positions) : Parser.isNthPart token = true := by
  unfold writtenTokens at h
  dsimp only at h
  split at h
  · rw [List.mem_singleton.mp h]
    rfl
  · simp only [List.mem_cons, List.not_mem_nil, or_false] at h
    rcases h with rfl | rfl <;> rfl

theorem argument_writtenTokens (positions : AnPlusB) :
    Grammar.argument (writtenTokens positions) = String.ofList (written positions) := by
  rw [← String.toList_inj]
  unfold writtenTokens
  dsimp only
  split <;> simp [Grammar.argument, Token.text, written]

end AnPlusB

namespace Lexer

open AnPlusB

/-! ### Reading the tokens of positions -/

/-- Digits with or without a sign begin like a number, which ends in front of the first character
that is neither a digit nor a point. -/
theorem number_digits {lead digits rest : List Char} {c : Char}
    (hlead : lead = [] ∨ lead = ['+'] ∨ lead = ['-']) (hne : digits ≠ [])
    (hdigits : ∀ d ∈ digits, d.isDigit = true) (hc : c.isDigit = false) (hdot : c ≠ '.') :
    startsNumber (lead ++ (digits ++ c :: rest)) = true ∧
      number (lead ++ (digits ++ c :: rest)) = (lead ++ digits, c :: rest) := by
  obtain ⟨first, more, rfl⟩ := List.exists_cons_of_ne_nil hne
  have hfirst := (of_isDigit (hdigits first (by simp))).2.2
  simp only [List.mem_cons, List.not_mem_nil, or_false, not_or] at hfirst
  -- the first digit already makes a number
  have hfraction : startsFraction (first :: more ++ c :: rest) = true :=
    startsFraction_of_isDigit (hdigits first (by simp)) _
  have hsplit : sign (lead ++ (first :: more ++ c :: rest)) =
      (lead, first :: more ++ c :: rest) := by
    rcases hlead with rfl | rfl | rfl
    · unfold sign
      split
      · next heq => exact absurd (List.cons.inj heq).1 hfirst.1
      · next heq => exact absurd (List.cons.inj heq).1 hfirst.2.1
      · rfl
    · rfl
    · rfl
  -- without a point there is no fraction
  have hrest : fraction (c :: rest) = ([], c :: rest) := by
    unfold fraction
    split
    · next heq => exact absurd (List.cons.inj heq).1 hdot
    · rfl
  have htake : (first :: more ++ c :: rest).takeWhile Char.isDigit = first :: more := by
    rw [List.takeWhile_append_of_pos hdigits, List.takeWhile_cons_of_neg (by simp [hc]),
      List.append_nil]
  have hdrop : (first :: more ++ c :: rest).dropWhile Char.isDigit = c :: rest := by
    rw [List.dropWhile_append_of_pos hdigits, List.dropWhile_cons_of_neg (by simp [hc])]
  constructor
  · rcases hlead with rfl | rfl | rfl
    · exact startsNumber_of_startsFraction hfraction
    · exact hfraction
    · exact hfraction
  · simp only [number, hsplit, htake, hdrop, hrest, List.append_nil]

theorem name_word {word rest : List Char} (hword : ∀ c ∈ word, isNameChar c = true)
    (hrest : EndsName rest) : name (word ++ rest) = (word, rest) := by
  induction word with
  | nil => exact name_of_endsName hrest
  | cons c word ih =>
      rw [List.cons_append, name_char (hword c (by simp)), ih fun d hd => hword d (by simp [hd])]

theorem decimal_eq (value : Int) : ∃ lead, (lead = [] ∨ lead = ['+'] ∨ lead = ['-']) ∧
    decimal value = lead ++ Nat.toDigits 10 value.natAbs := by
  unfold decimal
  split
  · exact ⟨['-'], by simp, rfl⟩
  · exact ⟨[], by simp, rfl⟩

theorem name_coefficient {value : Int} (h : value < 0) {rest : List Char} (hrest : EndsName rest) :
    name ('n' :: (signed value ++ rest)) = ('n' :: signed value, rest) := by
  refine @name_word ('n' :: signed value) rest (fun c hc => ?_) hrest
  rw [signed, if_pos h] at hc
  rcases List.mem_cons.mp hc with rfl | hc
  · decide
  · rcases List.mem_cons.mp hc with rfl | hc
    · decide
    · simp [isNameChar, isDigit_of_mem_toDigits hc]

/-- Written positions are read as their tokens. -/
theorem reads_written (positions : AnPlusB) (rest : List Char) :
    Reads (written positions ++ ')' :: rest) (writtenTokens positions) (')' :: rest) := by
  have hends : ∀ (c : Char) (text : List Char), c = ')' ∨ c = '+' → EndsName (c :: text) := by
    rintro c text hc d hd
    cases hd
    rcases hc with rfl | rfl <;> decide
  have hdigits : ∀ value : Nat, ∀ d ∈ Nat.toDigits 10 value, d.isDigit = true :=
    fun value d hd => isDigit_of_mem_toDigits hd
  obtain ⟨lead, hlead, ha⟩ := decimal_eq positions.a.toInt
  have htext : written positions ++ ')' :: rest = lead ++
      (Nat.toDigits 10 positions.a.toInt.natAbs ++ 'n' ::
        (signed positions.b.toInt ++ ')' :: rest)) := by
    rw [written, ha]
    simp
  obtain ⟨hstarts, hnumber⟩ : startsNumber (written positions ++ ')' :: rest) = true ∧
      number (written positions ++ ')' :: rest) =
        (decimal positions.a.toInt, 'n' :: (signed positions.b.toInt ++ ')' :: rest)) := by
    rw [htext, ha]
    exact number_digits hlead Nat.toDigits_ne_nil (hdigits _) (by decide) (by decide)
  -- the letter behind the first coefficient makes the token a dimension
  have hunit : startsName ('n' :: (signed positions.b.toInt ++ ')' :: rest)) = true :=
    startsName_of_isNameStart (by decide) _
  have hnext := next_of_startsNumber hstarts
  rw [numeric, hnumber] at hnext
  simp only [hunit, if_true] at hnext
  unfold writtenTokens
  dsimp only
  split
  · next hneg =>
      -- The sign of the second coefficient goes on with the unit.
      rw [name_coefficient hneg (hends ')' rest (Or.inl rfl))] at hnext
      exact Reads.single hnext
  · next hpos =>
      -- a plus sign ends the unit, and begins a number of its own
      have hsigned : signed positions.b.toInt =
          ['+'] ++ Nat.toDigits 10 positions.b.toInt.natAbs := by
        rw [signed, if_neg hpos, List.singleton_append]
      have hname : name ('n' :: (signed positions.b.toInt ++ ')' :: rest)) =
          (['n'], signed positions.b.toInt ++ ')' :: rest) := by
        rw [hsigned]
        exact @name_word ['n'] _ (List.forall_mem_singleton.mpr rfl) (hends '+' _ (Or.inr rfl))
      obtain ⟨hstarts', hnumber'⟩ : startsNumber (signed positions.b.toInt ++ ')' :: rest) = true ∧
          number (signed positions.b.toInt ++ ')' :: rest) =
            (signed positions.b.toInt, ')' :: rest) := by
        rw [hsigned, List.append_assoc]
        exact number_digits (Or.inr (Or.inl rfl)) Nat.toDigits_ne_nil (hdigits _) (by decide)
          (by decide)
      have hnext' := next_of_startsNumber hstarts'
      rw [numeric, hnumber', if_neg (by simp [startsName, isNameStart, startsEscape])] at hnext'
      rw [hname] at hnext
      exact Reads.step hnext (Reads.single hnext')

/-- A number in brackets is read as one token. -/
theorem reads_toDigits (value : Nat) (rest : List Char) :
    Reads (Nat.toDigits 10 value ++ ')' :: rest) [.number (String.ofList (Nat.toDigits 10 value))]
      (')' :: rest) := by
  obtain ⟨hstarts, hnumber⟩ := @number_digits [] (Nat.toDigits 10 value) rest ')' (Or.inl rfl)
    Nat.toDigits_ne_nil (fun d hd => isDigit_of_mem_toDigits hd) (by decide) (by decide)
  have hnext := next_of_startsNumber hstarts
  rw [numeric, hnumber, if_neg (by simp [startsName, isNameStart, startsEscape])] at hnext
  exact Reads.single hnext

end Lexer

end DomQuery
