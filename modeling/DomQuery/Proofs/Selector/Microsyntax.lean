import DomQuery.Proofs.Selector.Formula

/-!
# The texts that are positions

`Denotes text a b` derives the texts in lower case that stand for the positions `a * n + b`, with
integers of any size: a keyword, an integer, or a coefficient, the letter `n` and an offset.  Blanks
have their place around the sign of the offset, and nowhere else.

The reader does not look where the blanks stand.  It takes all of them out, and what is left is cut
at its first `n`, so it reads a text exactly as the derivation of what is left says
(`ofText_iff_denotes`).  That covers every text that has a derivation itself, and besides these the
texts with blanks inside a number, inside a keyword, or between the parts of a coefficient:
two numbers with a blank between them are read as one (`ofText_two_numbers`).
-/

namespace DomQuery.AnPlusB

variable {text digits : List Char} {value : Int}

/-! ### Derivations -/

/-- The texts in lower case that stand for the positions `a * n + b`. -/
inductive Denotes : List Char → Int → Int → Prop where
  | odd : Denotes ['o', 'd', 'd'] 2 1
  | even : Denotes ['e', 'v', 'e', 'n'] 2 0
  | integer {text : List Char} {value : Int} : Numeral text value → Denotes text 0 value
  | linear {coefficient addend : List Char} {a b : Int} : Coefficient coefficient a →
      Addend addend b → Denotes (coefficient ++ 'n' :: addend) a b

/-! ### What the reader leaves of a text -/

theorem isBlank_toLower (c : Char) : Text.isBlank c.toLower = Text.isBlank c := by
  have hcode := Text.toNat_toLower c
  split at hcode
  · next hcapital =>
      have hblank : ∀ d : Char, 65 ≤ d.toNat ∧ d.toNat ≤ 122 → Text.isBlank d = false := by
        intro d hd
        simp only [Text.isBlank, Bool.or_eq_false_iff, Bool.and_eq_false_iff,
          decide_eq_false_iff_not, beq_eq_false_iff_ne]
        omega
      rw [hblank c (by omega), hblank c.toLower (by omega)]
  · rw [Char.toNat_inj.mp hcode]

theorem compact_map_toLower (text : List Char) :
    compact (text.map Char.toLower) = compact text := by
  have hblank : (fun c => !Text.isBlank c) ∘ Char.toLower = fun c => !Text.isBlank c :=
    funext fun c => by rw [Function.comp_apply, isBlank_toLower]
  have hlower : Char.toLower ∘ Char.toLower = Char.toLower := funext Text.toLower_toLower
  rw [compact, compact, List.filter_map, hblank, List.map_map, hlower]

theorem compact_compact (text : List Char) : compact (compact text) = compact text := by
  have hfilter : compact (text.filter fun c => !Text.isBlank c) = compact text := by
    rw [compact, compact, List.filter_filter]
    simp only [Bool.and_self]
  exact (compact_map_toLower _).trans hfilter

theorem compact_trim (text : List Char) : compact (Text.trim text) = compact text := by
  have hstart : compact (Text.trimStart text) = compact text := by
    have hsplit := List.takeWhile_append_dropWhile (p := Text.isBlank) (l := text)
    rw [← congrArg compact hsplit, compact_append,
      compact_of_blanks fun _ hc => List.mem_takeWhile_imp hc]
    rfl
  rw [← hstart, ← Text.trim_append text, compact_append,
    compact_of_blanks fun _ hc => List.mem_rtakeWhile_imp hc, List.append_nil]

/-! ### Derived texts are read -/

/-- A derived text is read as its two integers, if both are 32-bit integers. -/
theorem ofCompact?_of_denotes {a b : Int} (h : Denotes text a b) :
    ofCompact? (compact text) =
      (ofInt? a).bind fun a => (ofInt? b).map fun b => ⟨a, b⟩ := by
  cases h with
  | odd => rfl
  | even => rfl
  | integer hnumeral =>
      rw [compact_eq_self hnumeral.isNumeric, ofCompact?_constant hnumeral.isNumeric,
        integer?_numeral hnumeral]
      rfl
  | @linear coefficient addend _ _ hcoefficient haddend =>
      have hcompact : compact (coefficient ++ 'n' :: addend) =
          coefficient ++ 'n' :: compact addend := by
        rw [compact_append, compact_eq_self hcoefficient.isNumeric, compact_cons (by decide)]
        rfl
      rw [hcompact, ofCompact?_linear hcoefficient.isNumeric, coefficient?_eq hcoefficient,
        offset?_of_addend haddend]

/-! ### Texts that are read are derived -/

theorem toInt_of_ofInt? {word : Int32} (h : ofInt? value = some word) : word.toInt = value := by
  unfold ofInt? at h
  split at h
  · next hbounds =>
      cases h
      exact Int32.toInt_ofInt_of_le (by omega) (by omega)
  · exact absurd h (by simp)

theorem toDigits_of_isDigit {c : Char} (hc : c.isDigit = true) :
    Nat.toDigits 10 (c.toNat - '0'.toNat) = [c] := by
  have hcode : 48 ≤ c.toNat ∧ c.toNat ≤ 57 := Char.isDigit_iff_toNat.mp hc
  have hzero : '0'.toNat = 48 := by decide
  have hchar : Nat.digitChar (c.toNat - 48) = c := by
    rw [← Char.toNat_inj, Nat.toNat_digitChar_of_lt_ten (by omega)]
    omega
  rw [hzero, Nat.toDigits_of_lt_base (by omega), hchar]

/-- One more digit behind a number. -/
theorem IsDecimal.concat {number : Nat} (h : IsDecimal digits number) {c : Char}
    (hc : c.isDigit = true) :
    IsDecimal (digits ++ [c]) (10 * number + (c.toNat - '0'.toNat)) := by
  have hcode : 48 ≤ c.toNat ∧ c.toNat ≤ 57 := Char.isDigit_iff_toNat.mp hc
  have hzero : '0'.toNat = 48 := by decide
  have hlast := toDigits_of_isDigit hc
  obtain ⟨zeros, rfl⟩ := h
  rcases Nat.eq_zero_or_pos number with rfl | hpos
  · -- the zero in front becomes one of those that do not count
    refine ⟨zeros + 1, ?_⟩
    rw [Nat.mul_zero, Nat.zero_add, hlast, List.replicate_succ']
    rfl
  · refine ⟨zeros, ?_⟩
    rw [List.append_assoc, ← hlast, Nat.toDigits_append_toDigits (by decide) hpos (by omega)]

theorem isDecimal_ofDigitChars (hne : digits ≠ []) (hdigits : ∀ c ∈ digits, c.isDigit = true) :
    IsDecimal digits (Nat.ofDigitChars 10 digits 0) := by
  induction digits using List.reverseRecOn with
  | nil => exact absurd rfl hne
  | append_singleton before c ih =>
      have hc : c.isDigit = true := hdigits c (by simp)
      rw [Nat.ofDigitChars_append, Nat.ofDigitChars_cons, Nat.ofDigitChars_nil]
      by_cases hbefore : before = []
      · refine ⟨0, ?_⟩
        rw [hbefore, Nat.ofDigitChars_nil, Nat.mul_zero, Nat.zero_add, toDigits_of_isDigit hc]
        rfl
      · exact (ih hbefore fun d hd => hdigits d (by simp [hd])).concat hc

theorem isDecimal_of_natural? {number : Nat} (h : natural? digits = some number) :
    IsDecimal digits number := by
  unfold natural? at h
  split at h
  · exact absurd h (by simp)
  · next hdigits =>
      simp only [Bool.or_eq_true, List.isEmpty_iff, Bool.not_eq_true', not_or,
        Bool.not_eq_false, List.all_eq_true] at hdigits
      cases h
      exact isDecimal_ofDigitChars hdigits.1 hdigits.2

theorem numeral_of_integer? {word : Int32} (h : integer? text = some word) :
    Numeral text word.toInt := by
  unfold integer? at h
  split at h <;> obtain ⟨magnitude, hmagnitude, hword⟩ := Option.bind_eq_some_iff.mp h <;>
    rw [toInt_of_ofInt? hword]
  · exact .plus (isDecimal_of_natural? hmagnitude)
  · exact .minus (isDecimal_of_natural? hmagnitude)
  · exact .plain (isDecimal_of_natural? hmagnitude)

theorem coefficient_of_coefficient? {word : Int32} (h : coefficient? text = some word) :
    Coefficient text word.toInt := by
  unfold coefficient? at h
  split at h
  · cases h
    exact .one
  · cases h
    exact .plusOne
  · cases h
    exact .minusOne
  · exact .numeral (numeral_of_integer? h)

theorem addend_of_offset? {word : Int32} (h : offset? text = some word) :
    Addend text word.toInt := by
  unfold offset? at h
  split at h
  · cases h
    exact .zero
  · exact @Addend.signed [] [] _ _ _ nofun (.inl rfl) nofun (numeral_of_integer? h)
  · exact @Addend.signed [] [] _ _ _ nofun (.inr rfl) nofun (numeral_of_integer? h)
  · exact absurd h (by simp)

/-- What is read is derived. -/
theorem denotes_of_ofCompact? {positions : AnPlusB} (h : ofCompact? text = some positions) :
    Denotes text positions.a.toInt positions.b.toInt := by
  have hsplit := List.takeWhile_append_dropWhile (p := (· != 'n')) (l := text)
  unfold ofCompact? at h
  split_ifs at h with hodd heven
  · cases h
    rw [hodd]
    exact .odd
  · cases h
    rw [heven]
    exact .even
  · split at h
    · obtain ⟨b, hb, rfl⟩ := Option.map_eq_some_iff.mp h
      exact .integer (numeral_of_integer? hb)
    · next letter after hdrop =>
        -- the text is cut in front of its first letter `n`
        have hletter : letter = 'n' := by
          have hnot := List.head?_dropWhile_not (· != 'n') text
          rw [hdrop] at hnot
          simpa using hnot
        split at h
        · next a b ha hb =>
            cases h
            rw [← hsplit, hdrop, hletter]
            exact .linear (coefficient_of_coefficient? ha) (addend_of_offset? hb)
        · exact absurd h (by simp)

/-! ### Reading positions -/

theorem ofText_eq_ok_iff_compact (text : String) (positions : AnPlusB) :
    ofText text = .ok positions ↔ ofCompact? (compact text.toList) = some positions := by
  unfold ofText
  cases ofCompact? (compact text.toList) <;> simp

/-- The text without the blanks around it, in lower case. -/
def lowered (text : List Char) : List Char :=
  (Text.trim text).map Char.toLower

theorem compact_lowered (text : List Char) : compact (lowered text) = compact text := by
  rw [lowered, compact_map_toLower, compact_trim]

/-- A derived text of 32-bit integers is read as them, wherever its blanks stand. -/
theorem ofCompact?_eq_some_of_denotes {positions : AnPlusB}
    (h : Denotes text positions.a.toInt positions.b.toInt) :
    ofCompact? (compact text) = some positions := by
  rw [ofCompact?_of_denotes h, ofInt?_toInt, ofInt?_toInt]
  rfl

/-- **Reading.**  A text is read as two integers if and only if they are what its characters without
blanks and in lower case stand for; else the error names the text without the blanks around it.  So
a text that stands for two integers, with blanks around the sign between them or not, is read as
them. -/
theorem ofText_iff_denotes (text : String) :
    (∀ positions, ofText text = .ok positions ↔
        Denotes (compact text.toList) positions.a.toInt positions.b.toInt) ∧
      (∀ error, ofText text = .error error ↔
        error = .invalidNth (String.ofList (Text.trim text.toList)) ∧
          ∀ positions : AnPlusB,
            ¬ Denotes (compact text.toList) positions.a.toInt positions.b.toInt) ∧
      ∀ positions : AnPlusB,
        Denotes (lowered text.toList) positions.a.toInt positions.b.toInt →
          ofText text = .ok positions := by
  have hok : ∀ positions, ofText text = .ok positions ↔
      Denotes (compact text.toList) positions.a.toInt positions.b.toInt := by
    intro positions
    rw [ofText_eq_ok_iff_compact]
    refine ⟨denotes_of_ofCompact?, fun h => ?_⟩
    rw [← compact_compact]
    exact ofCompact?_eq_some_of_denotes h
  refine ⟨hok, fun error => ?_, fun positions h => ?_⟩
  · simp only [← hok, ofText_eq_ok_iff_compact]
    unfold ofText
    cases ofCompact? (compact text.toList) <;> simp [eq_comm]
  · rw [ofText_eq_ok_iff_compact, ← compact_lowered]
    exact ofCompact?_eq_some_of_denotes h

example : ofText " -N +\t3 " = .ok ⟨-1, 3⟩ := by decide +kernel

/-- Two numbers with a blank between them stand for nothing, and are read as one. -/
theorem ofText_two_numbers :
    ofText "1 2" = .ok ⟨0, 12⟩ ∧ (∀ a b, ¬ Denotes (lowered "1 2".toList) a b) ∧
      ¬ ∀ text, (∃ positions, ofText text = .ok positions) ↔
        ∃ a b, Denotes (lowered text.toList) a b ∧ FitsInt32 a ∧ FitsInt32 b := by
  have hread : ofText "1 2" = .ok ⟨0, 12⟩ := by decide +kernel
  have hnone : ∀ a b, ¬ Denotes (lowered "1 2".toList) a b := by
    intro a b h
    rw [show lowered "1 2".toList = ['1', ' ', '2'] by decide +kernel] at h
    generalize htext : ['1', ' ', '2'] = text at h
    cases h with
    | odd => exact absurd htext (by decide)
    | even => exact absurd htext (by decide)
    | integer hnumeral =>
        subst htext
        exact absurd (hnumeral.isNumeric ' ' (by simp)).plain.1 (by decide)
    | @linear coefficient addend _ _ _ _ =>
        have hmem : 'n' ∈ ['1', ' ', '2'] := htext ▸ List.mem_append_right _ List.mem_cons_self
        exact absurd hmem (by decide)
  refine ⟨hread, hnone, fun hall => ?_⟩
  obtain ⟨a, b, h, -⟩ := (hall "1 2").mp ⟨_, hread⟩
  exact hnone a b h

end DomQuery.AnPlusB
