import DomQuery.Text.Fold
import Mathlib.Tactic.SplitIfs

/-!
# Lower case

Lowering moves the letters `A` to `Z` by 32 and leaves every other character alone
(`toNat_toLower`), so a second lowering changes nothing.  Texts that are in lower case already
are equal up to case only if they are equal (`sameFolded_iff`).
-/

namespace DomQuery.Text

/-- The letters are those of the ASCII range. -/
theorem isAlpha_iff_toNat {c : Char} : c.isAlpha = true ↔
    (65 ≤ c.toNat ∧ c.toNat ≤ 90) ∨ (97 ≤ c.toNat ∧ c.toNat ≤ 122) := by
  have hcodes : 'A'.val.toNat = 65 ∧ 'Z'.val.toNat = 90 ∧ 'a'.val.toNat = 97 ∧
      'z'.val.toNat = 122 := by decide
  unfold Char.isAlpha Char.isUpper Char.isLower
  simp only [Bool.or_eq_true, Bool.and_eq_true, decide_eq_true_eq, ge_iff_le,
    UInt32.le_iff_toNat_le, hcodes, Char.toNat_val]

theorem toNat_toLower (c : Char) :
    c.toLower.toNat = if 65 ≤ c.toNat ∧ c.toNat ≤ 90 then c.toNat + 32 else c.toNat := by
  have hcodes : 'A'.val.toNat = 65 ∧ 'Z'.val.toNat = 90 := by decide
  have hcapital : (c.val ≥ 'A'.val ∧ c.val ≤ 'Z'.val) ↔ (65 ≤ c.toNat ∧ c.toNat ≤ 90) := by
    simp only [ge_iff_le, UInt32.le_iff_toNat_le, hcodes, Char.toNat_val]
  unfold Char.toLower
  split
  · next h =>
      rw [if_pos (hcapital.mp h)]
      have hshift : ('a'.val - 'A'.val).toNat = 32 := by decide
      have hrange := hcapital.mp h
      rw [Char.toNat_mk, UInt32.toNat_add, hshift, Char.toNat_val]
      omega
  · next h => rw [if_neg (mt hcapital.mpr h)]

theorem toLower_toLower (c : Char) : c.toLower.toLower = c.toLower := by
  rw [← Char.toNat_inj, toNat_toLower, toNat_toLower]
  by_cases h : 65 ≤ c.toNat ∧ c.toNat ≤ 90
  · rw [if_pos h, if_neg (by omega)]
  · rw [if_neg h, if_neg h]

theorem isUpper_toLower (c : Char) : c.toLower.isUpper = false := by
  have hcodes : 'A'.val.toNat = 65 ∧ 'Z'.val.toNat = 90 := by decide
  have hcode := toNat_toLower c
  unfold Char.isUpper
  rw [decide_eq_false_iff_not]
  simp only [ge_iff_le, UInt32.le_iff_toNat_le, hcodes, Char.toNat_val]
  split at hcode <;> omega

theorem toLower_ne_null {c : Char} (h : c ≠ '\x00') : c.toLower ≠ '\x00' := by
  intro heq
  have hcode := toNat_toLower c
  rw [heq] at hcode
  have hzero : '\x00'.toNat = 0 := by decide
  refine h (Char.toNat_inj.mp ?_)
  split at hcode <;> omega

theorem lowercase_lowercase (text : String) : lowercase (lowercase text) = lowercase text := by
  rw [lowercase, lowercase, String.toList_ofList, List.map_map]
  congr 1
  exact List.map_congr_left fun c _ => toLower_toLower c

theorem sameFolded_iff {first second : String} (hfirst : lowercase first = first)
    (hsecond : lowercase second = second) : sameFolded first second = true ↔ first = second := by
  rw [sameFolded, hfirst, hsecond, beq_iff_eq]

end DomQuery.Text
