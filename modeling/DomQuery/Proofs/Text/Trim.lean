import DomQuery.Text.Blank
import Mathlib.Data.List.DropRight

/-!
# Trimmed texts

What trimming leaves begins and ends with a character that is not blank, and a text that does so
is left as it is (`trim_eq_self`).  Cutting at a blank splits a word off what stands behind it
(`cutAtBlank_append`).
-/

namespace DomQuery.Text

variable {text first second : List Char} {c : Char}

/-- Blanks, or nothing. -/
def Blanks (text : List Char) : Prop :=
  ∀ c ∈ text, isBlank c = true

theorem trimEnd_eq_rdropWhile (text : List Char) : trimEnd text = text.rdropWhile isBlank := rfl

theorem trimStart_cons (hc : isBlank c = false) (text : List Char) :
    trimStart (c :: text) = c :: text :=
  List.dropWhile_cons_of_neg (by simp [hc])

theorem trimEnd_concat_of_blank (hc : isBlank c = true) (text : List Char) :
    trimEnd (text ++ [c]) = trimEnd text :=
  List.rdropWhile_concat_pos isBlank text c hc

theorem trimEnd_concat (hc : isBlank c = false) (text : List Char) :
    trimEnd (text ++ [c]) = text ++ [c] :=
  List.rdropWhile_concat_neg isBlank text c (by simp [hc])

theorem trimEnd_append (h : trimEnd second ≠ []) :
    trimEnd (first ++ second) = first ++ trimEnd second := by
  have hne : (second.reverse.dropWhile isBlank).isEmpty = false := by
    simpa [trimEnd] using h
  rw [trimEnd, List.reverse_append, List.dropWhile_append, hne]
  simp [trimEnd]

/-- The end of a trimmed text is not blank. -/
theorem of_mem_getLast?_trim (hc : c ∈ (trim text).getLast?) : isBlank c = false := by
  obtain ⟨hne, rfl⟩ := List.mem_getLast?_eq_getLast hc
  have hlast := List.rdropWhile_last_not isBlank (trimStart text) hne
  exact Bool.eq_false_iff.mpr hlast

/-- What trimming cuts off at the end. -/
theorem trim_append (text : List Char) :
    trim text ++ (trimStart text).rtakeWhile isBlank = trimStart text :=
  List.rdropWhile_append_rtakeWhile

/-- The beginning of a trimmed text is not blank. -/
theorem of_mem_head?_trim (hc : c ∈ (trim text).head?) : isBlank c = false := by
  have hstart : (trimStart text).head? = some c := by
    rw [← trim_append text, List.head?_append_of_ne_nil, hc]
    rintro hnil
    rw [hnil] at hc
    exact absurd hc (by simp)
  have hnot := List.head?_dropWhile_not isBlank text
  rwa [show text.dropWhile isBlank = trimStart text from rfl, hstart] at hnot

theorem trimStart_suffix (text : List Char) : trimStart text <:+ text :=
  List.dropWhile_suffix _

theorem trim_infix (text : List Char) : trim text <:+: text :=
  (List.rdropWhile_prefix isBlank _).isInfix.trans (trimStart_suffix text).isInfix

theorem trimEnd_eq_self (h : ∀ c ∈ text.getLast?, isBlank c = false) : trimEnd text = text := by
  rw [trimEnd_eq_rdropWhile, List.rdropWhile_eq_self_iff]
  intro hne
  simp [h _ (List.getLast?_eq_some_getLast hne)]

theorem trim_eq_self (hhead : ∀ c ∈ text.head?, isBlank c = false)
    (hlast : ∀ c ∈ text.getLast?, isBlank c = false) : trim text = text := by
  rw [trim]
  cases text with
  | nil => rfl
  | cons c rest => rw [trimStart_cons (hhead c rfl), trimEnd_eq_self hlast]

theorem trim_trim (text : List Char) : trim (trim text) = trim text :=
  trim_eq_self (fun _ => of_mem_head?_trim) (fun _ => of_mem_getLast?_trim)

theorem cutAtBlank_of_forall (h : ∀ c ∈ text, isBlank c = false) : cutAtBlank text = (text, []) := by
  have hword : ∀ c ∈ text, (!isBlank c) = true := by
    intro c hc
    rw [h c hc, Bool.not_false]
  rw [cutAtBlank, List.takeWhile_eq_self_iff.mpr hword, List.dropWhile_eq_nil_iff.mpr hword,
    List.drop_nil]

theorem cutAtBlank_append (h : ∀ c ∈ first, isBlank c = false) (hc : isBlank c = true) :
    cutAtBlank (first ++ c :: second) = (first, second) := by
  have hword : ∀ d ∈ first, (!isBlank d) = true := by
    intro d hd
    rw [h d hd, Bool.not_false]
  rw [cutAtBlank, List.takeWhile_append_of_pos hword, List.dropWhile_append_of_pos hword]
  simp [hc]

end DomQuery.Text
