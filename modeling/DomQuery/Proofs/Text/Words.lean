import DomQuery.Text.Blank
import Mathlib.Data.List.TakeWhile

/-!
# Words

The words of a text are told by its characters from left to right: blanks belong to no word, and a
word goes on up to the next blank or the end (`IsSplit`).  Splitting a text at every blank and
leaving out the empty parts gives its words (`isSplit_words`).
-/

namespace DomQuery.Text

variable {text word rest : List Char} {c : Char}

/-- The parts are the words of the text in their order: the longest runs of characters that are not
blank. -/
inductive IsSplit : List Char → List (List Char) → Prop where
  | nil : IsSplit [] []
  | blank {c : Char} {text : List Char} {parts : List (List Char)} : isBlank c = true →
      IsSplit text parts → IsSplit (c :: text) parts
  | word {word rest : List Char} {parts : List (List Char)} : word ≠ [] →
      (∀ c ∈ word, isBlank c = false) → (∀ c ∈ rest.head?, isBlank c = true) →
      IsSplit rest parts → IsSplit (word ++ rest) (word :: parts)

theorem words_nil : words [] = [] := rfl

theorem words_cons_of_blank (hc : isBlank c = true) (text : List Char) :
    words (c :: text) = words text := by
  have hsplit : (c :: text).splitOnP isBlank = [] :: text.splitOnP isBlank :=
    @List.splitOnP_append_cons_of_forall_mem _ _ [] (by simp) c hc text
  rw [words, hsplit]
  rfl

/-- A word goes on up to the next blank. -/
theorem words_append (hne : word ≠ []) (hword : ∀ c ∈ word, isBlank c = false)
    (hrest : ∀ c ∈ rest.head?, isBlank c = true) : words (word ++ rest) = word :: words rest := by
  have hkept : ∀ others, (word :: others).filter (fun word => !word.isEmpty) =
      word :: others.filter fun word => !word.isEmpty :=
    fun _ => List.filter_cons_of_pos (by simpa using hne)
  cases rest with
  | nil =>
      rw [List.append_nil, words, List.splitOnP_eq_singleton hword, hkept]
      rfl
  | cons c rest =>
      have hc := hrest c rfl
      rw [words_cons_of_blank hc, words, List.splitOnP_append_cons_of_forall_mem hword c hc,
        hkept, words]

theorem isSplit_words (text : List Char) : IsSplit text (words text) := by
  induction hlength : text.length using Nat.strongRecOn generalizing text with
  | ind length ih =>
      cases text with
      | nil => exact .nil
      | cons c rest =>
          cases hc : isBlank c with
          | true =>
              rw [words_cons_of_blank hc]
              exact .blank hc (ih rest.length (by rw [← hlength]; simp) rest rfl)
          | false =>
              -- the word that begins here, and what is left behind it
              have hsplit :=
                List.takeWhile_append_dropWhile (p := fun c => !isBlank c) (l := c :: rest)
              have hword : ∀ d ∈ (c :: rest).takeWhile fun c => !isBlank c, isBlank d = false := by
                intro d hd
                simpa using List.mem_takeWhile_imp hd
              have hrest : ∀ d ∈ ((c :: rest).dropWhile fun c => !isBlank c).head?,
                  isBlank d = true := by
                intro d hd
                have hnot := List.head?_dropWhile_not (fun c => !isBlank c) (c :: rest)
                rw [hd] at hnot
                simpa using hnot
              have hne : (c :: rest).takeWhile (fun c => !isBlank c) ≠ [] := by
                simp [hc]
              have hshorter : ((c :: rest).dropWhile fun c => !isBlank c).length < length := by
                have htotal := congrArg List.length hsplit
                have hpositive := List.length_pos_iff.mpr hne
                rw [List.length_append] at htotal
                omega
              have htail := ih _ hshorter ((c :: rest).dropWhile fun c => !isBlank c) rfl
              rw [← hsplit, words_append hne hword hrest]
              exact .word hne hword hrest htail

end DomQuery.Text
