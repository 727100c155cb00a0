import DomQuery.Selector.AnPlusB

/-!
# Positions as an arithmetic progression

Whether a position is one of `a * n + b` is decided by a division with remainder: the position has
to be a multiple of the step away from the start, and in the direction of the step.  Division
rounds towards zero here, and the signs of both sides are free.

The coefficients and the position have 32 bits each, so their distance and every quotient of it
fit into the 64 bits of the computation (`toInt_distance`, `toInt_quotient`), and the test decides
the equation over the unbounded integers (`holdsAt_iff`).

Arithmetic on words wraps around in silence, and a division by zero has a result.  That neither
happens is therefore said of the same test in *checked* arithmetic, where both leave no result
(`checkedHoldsAt?`): it always has one, and it is the result of the test (`holdsAt_decides`).
-/

namespace DomQuery.AnPlusB

/-- A division without remainder and with no negative quotient finds the natural factor. -/
theorem tmod_eq_zero_and_tdiv_nonneg_iff {step distance : Int} (hstep : step ≠ 0) :
    (distance.tmod step = 0 ∧ 0 ≤ distance.tdiv step) ↔
      ∃ count : Nat, step * count = distance := by
  constructor
  · rintro ⟨hmod, hquotient⟩
    refine ⟨(distance.tdiv step).toNat, ?_⟩
    rw [Int.toNat_of_nonneg hquotient, Int.mul_comm]
    exact Int.tdiv_mul_cancel (Int.dvd_of_tmod_eq_zero hmod)
  · rintro ⟨count, rfl⟩
    rw [Int.mul_tmod_right, Int.mul_tdiv_cancel_left _ hstep]
    exact ⟨rfl, Int.natCast_nonneg count⟩

section Words

variable (position start step : Int32)

/-- The distance of two positions does not overflow. -/
theorem toInt_distance :
    (position.toInt64 - start.toInt64).toInt = position.toInt - start.toInt := by
  have hposition := position.le_toInt
  have hposition' := position.toInt_lt
  have hstart := start.le_toInt
  have hstart' := start.toInt_lt
  rw [Int64.toInt_sub, Int32.toInt_toInt64, Int32.toInt_toInt64]
  exact Int.bmod_eq_of_le (by omega) (by omega)

/-- The quotient of a distance does not overflow: the distance is not the least of all words,
which is the only one with a quotient that does not fit. -/
theorem toInt_quotient :
    ((position.toInt64 - start.toInt64) / step.toInt64).toInt =
      (position.toInt - start.toInt).tdiv step.toInt := by
  have hposition := position.le_toInt
  have hstart := start.toInt_lt
  have hleast : position.toInt64 - start.toInt64 ≠ Int64.minValue := by
    intro heq
    have htoInt := congrArg Int64.toInt heq
    rw [toInt_distance, show Int64.minValue.toInt = -9223372036854775808 from rfl] at htoInt
    omega
  rw [Int64.toInt_div_of_ne_left _ _ hleast, toInt_distance, Int32.toInt_toInt64]

end Words

/-- The test decides whether the position is one of `a * n + b`. -/
theorem holdsAt_iff (positions : AnPlusB) (position : Int32) :
    positions.holdsAt position = true ↔
      ∃ count : Nat, positions.a.toInt * count + positions.b.toInt = position.toInt := by
  obtain ⟨step, start⟩ := positions
  unfold holdsAt
  dsimp only
  split
  · next hzero =>
      rw [beq_iff_eq, hzero, ← Int32.toInt_inj]
      constructor
      · intro heq
        exact ⟨0, by simp [heq]⟩
      · rintro ⟨count, hcount⟩
        simpa using hcount.symm
  · next hstep =>
      have hne : step.toInt ≠ 0 := fun hzero => hstep (Int32.toInt_inj.mp hzero)
      have hshift : ∀ count : Nat, step.toInt * count + start.toInt = position.toInt ↔
          step.toInt * count = position.toInt - start.toInt := by
        intro count
        omega
      simp only [hshift]
      rw [← tmod_eq_zero_and_tdiv_nonneg_iff hne, Bool.and_eq_true, beq_iff_eq, decide_eq_true_iff,
        ← Int64.toInt_inj, Int64.le_iff_toInt_le, toInt_quotient, Int64.toInt_mod, toInt_distance,
        Int32.toInt_toInt64]
      rfl

/-! ### Checked arithmetic -/

/-- The word with the given value, if 64 bits hold it. -/
def word? (value : Int) : Option Int64 :=
  if Int64.minValue.toInt ≤ value ∧ value ≤ Int64.maxValue.toInt then some (Int64.ofInt value)
  else none

/-- The difference of two words, unless it overflows. -/
def difference? (first second : Int64) : Option Int64 :=
  word? (first.toInt - second.toInt)

/-- The quotient of two words, rounded towards zero, unless the divisor is zero or the quotient
overflows. -/
def quotient? (dividend divisor : Int64) : Option Int64 :=
  if divisor = 0 then none else word? (dividend.toInt.tdiv divisor.toInt)

/-- The remainder of a division, unless there is no quotient. -/
def remainder? (dividend divisor : Int64) : Option Int64 :=
  (quotient? dividend divisor).bind fun _ => word? (dividend.toInt.tmod divisor.toInt)

/-- The test whether the position is one of `a * n + b`, in checked arithmetic.  The quotient is
computed only where the remainder is zero. -/
def checkedHoldsAt? (positions : AnPlusB) (position : Int32) : Option Bool :=
  if positions.a = 0 then some (position == positions.b)
  else
    (difference? position.toInt64 positions.b.toInt64).bind fun distance =>
      (remainder? distance positions.a.toInt64).bind fun remainder =>
        if remainder == 0 then
          (quotient? distance positions.a.toInt64).map fun quotient => decide (0 ≤ quotient)
        else some false

/-- A value that some word has is not out of bounds. -/
theorem word?_toInt (word : Int64) : word? word.toInt = some word := by
  rw [word?, if_pos ⟨word.minValue_le_toInt, word.toInt_le⟩, Int64.ofInt_toInt]

section Checked

variable (position start step : Int32)

theorem difference?_eq : difference? position.toInt64 start.toInt64 =
    some (position.toInt64 - start.toInt64) := by
  rw [difference?, Int32.toInt_toInt64, Int32.toInt_toInt64, ← toInt_distance, word?_toInt]

variable {step}

theorem quotient?_eq (hstep : step ≠ 0) :
    quotient? (position.toInt64 - start.toInt64) step.toInt64 =
      some ((position.toInt64 - start.toInt64) / step.toInt64) := by
  have hwide : step.toInt64 ≠ 0 := by
    intro hzero
    have htoInt := congrArg Int64.toInt hzero
    rw [Int32.toInt_toInt64] at htoInt
    exact hstep (Int32.toInt_inj.mp htoInt)
  rw [quotient?, if_neg hwide, toInt_distance, Int32.toInt_toInt64, ← toInt_quotient, word?_toInt]

theorem remainder?_eq (hstep : step ≠ 0) :
    remainder? (position.toInt64 - start.toInt64) step.toInt64 =
      some ((position.toInt64 - start.toInt64) % step.toInt64) := by
  rw [remainder?, quotient?_eq position start hstep, Option.bind_some, ← Int64.toInt_mod,
    word?_toInt]

end Checked

/-- **The test decides whether the position is one of `a * n + b`, and no step of it overflows or
divides by zero.** -/
theorem holdsAt_decides (positions : AnPlusB) (position : Int32) :
    positions.checkedHoldsAt? position = some (positions.holdsAt position) ∧
      (positions.holdsAt position = true ↔
        ∃ count : Nat, positions.a.toInt * count + positions.b.toInt = position.toInt) := by
  refine ⟨?_, positions.holdsAt_iff position⟩
  unfold checkedHoldsAt? holdsAt
  split
  · rfl
  · next hstep =>
      rw [difference?_eq, Option.bind_some, remainder?_eq _ _ hstep, Option.bind_some,
        quotient?_eq _ _ hstep, Option.map_some]
      dsimp only
      split
      · next hremainder => rw [hremainder, Bool.true_and]
      · next hremainder => rw [eq_false_of_ne_true hremainder, Bool.false_and]

/-- The quotient of the farthest distance, which 32 bits do not hold. -/
example : holdsAt ⟨-1, 2147483647⟩ (-2147483648) = true := by
  decide

end DomQuery.AnPlusB
