import DomQuery.Proofs.Selector.Comments
import Mathlib.Order.Monotone.Basic

/-!
# Calling the lexer again

The lexer can be called again whatever it returned, also after an error: the next call reads what
the last one has left.  After any number of calls this is the text from some position on
(`drop_position`), and that is where the lexer stands.

No call goes back.  The only place where a call does not go on either is a backslash with nothing to
escape, besides the end of the text (`next_snd_eq_self_iff`): every further call refuses the
backslash again.  So the calls alone need not come to the end of the text, but a call that returns a
token goes on, and a call finds the end if and only if nothing but closed comments is left
(`next_eq_end_iff`).  Reading all tokens stops at the first error, and therefore takes at most one
token for each character (`advances`).
-/

namespace DomQuery.Lexer

variable {text rest : List Char}

/-! ### What a call leaves -/

/-- A call goes on by a character at least, unless nothing is left or a backslash with nothing to
escape comes next. -/
theorem next_snd_eq_self_iff :
    (next text).2 = text ↔ text = [] ∨ text.head? = some '\\' ∧ startsEscape text = false := by
  constructor
  · intro hstays
    unfold next at hstays
    split at hstays
    · exact Or.inl hstays.symm
    · exact Or.inl hstays.symm
    · next c rest hcomments =>
        rcases token_snd_suffix_or c rest with hsuffix | ⟨rfl, hescape⟩
        · -- what is left is shorter than the text behind the comments, so it is not the text
          have hshorter := hsuffix.length_le
          have hlonger := (dropComments_suffix hcomments).length_le
          rw [hstays] at hshorter
          rw [List.length_cons] at hlonger
          omega
        · rw [token_of_startsEscape_eq_false hescape] at hstays
          subst hstays
          exact Or.inr ⟨rfl, hescape⟩
  · rintro (rfl | ⟨hhead, hescape⟩)
    · rfl
    · obtain ⟨rest, rfl⟩ := List.head?_eq_some_iff.mp hhead
      rw [next_cons (by decide), token_of_startsEscape_eq_false hescape]

/-- Comments behind one another, each of them closed, and nothing else. -/
def IsCommentRun (text : List Char) : Prop :=
  ∃ inners : List (List Char), (∀ inner ∈ inners, HasNoEnd inner) ∧ text = inners.flatMap comment

theorem dropComments_eq_nil_iff : dropComments text = some [] ↔ IsCommentRun text := by
  constructor
  · intro h
    obtain ⟨inners, hinners, heq⟩ := exists_comments_of_dropComments h
    exact ⟨inners, hinners, heq.trans (List.append_nil _)⟩
  · rintro ⟨inners, hinners, rfl⟩
    have hdrop := dropComments_flatMap_comment hinners []
    rw [List.append_nil] at hdrop
    rw [hdrop, dropComments]
    simp

/-- The end is found where nothing but closed comments is left. -/
theorem next_eq_end_iff : (next text).1 = .ok none ↔ IsCommentRun text := by
  rw [← dropComments_eq_nil_iff]
  refine ⟨dropComments_of_end, fun h => ?_⟩
  rw [next, h]

theorem next_snd_of_end (h : (next text).1 = .ok none) : (next text).2 = [] := by
  rw [next, dropComments_of_end h]

/-! ### Calls behind one another -/

/-- What is left of the text after a number of calls, whatever they returned. -/
def left (text : List Char) (calls : Nat) : List Char :=
  (fun rest => (next rest).2)^[calls] text

theorem left_succ (text : List Char) (calls : Nat) :
    left text (calls + 1) = (next (left text calls)).2 :=
  Function.iterate_succ_apply' _ calls text

theorem left_add (text : List Char) (calls more : Nat) :
    left text (calls + more) = left (left text calls) more := by
  rw [left, Nat.add_comm, Function.iterate_add_apply]
  rfl

theorem left_suffix (text : List Char) (calls : Nat) : left text calls <:+ text := by
  induction calls with
  | zero => exact List.suffix_refl _
  | succ calls ih =>
      rw [left_succ]
      exact (next_snd_suffix _).trans ih

namespace Reads

variable {found : List Token}

/-- A reading takes one call for each token. -/
theorem left_eq (h : Reads text found rest) : left text found.length = rest := by
  induction h with
  | done => rfl
  | @step text more rest token found hnext _ ih =>
      rw [List.length_cons, left, Function.iterate_succ_apply, hnext]
      exact ih

theorem isSuffix (h : Reads text found rest) : rest <:+ text := by
  rw [← h.left_eq]
  exact left_suffix text found.length

/-- A reading takes at least one character for each token. -/
theorem length_add_length_le (h : Reads text found rest) :
    found.length + rest.length ≤ text.length := by
  induction h with
  | done => simp
  | @step text more rest token found hnext _ ih =>
      have hlt := length_lt_of_next hnext
      rw [List.length_cons]
      omega

end Reads

/-! ### Positions -/

/-- The number of characters in front of what is left after a number of calls. -/
def position (text : List Char) (calls : Nat) : Nat :=
  text.length - (left text calls).length

theorem position_add_length (text : List Char) (calls : Nat) :
    position text calls + (left text calls).length = text.length :=
  Nat.sub_add_cancel (left_suffix text calls).length_le

theorem position_succ_add_length (text : List Char) (calls : Nat) :
    position text (calls + 1) + (next (left text calls)).2.length = text.length := by
  rw [← left_succ]
  exact position_add_length text (calls + 1)

theorem drop_position (text : List Char) (calls : Nat) :
    text.drop (position text calls) = left text calls :=
  (List.suffix_iff_eq_drop.mp (left_suffix text calls)).symm

theorem monotone_position (text : List Char) : Monotone (position text) := by
  apply monotone_nat_of_le_succ
  intro calls
  have hbefore := position_add_length text calls
  have hafter := position_succ_add_length text calls
  have hle := (next_snd_suffix (left text calls)).length_le
  omega

/-- The lexer stays where it is if the call leaves all that there was. -/
theorem position_succ_eq_iff (text : List Char) (calls : Nat) :
    position text (calls + 1) = position text calls ↔
      (next (left text calls)).2 = left text calls := by
  rw [← left_succ]
  constructor
  · intro h
    rw [← drop_position text calls, ← drop_position text (calls + 1), h]
  · intro h
    rw [position, h, position]

theorem position_lt_of_token {token : Token} {calls : Nat}
    (h : (next (left text calls)).1 = .ok (some token)) :
    position text calls < position text (calls + 1) := by
  have hlt := length_next_lt h
  have hbefore := position_add_length text calls
  have hafter := position_succ_add_length text calls
  omega

/-- However often the lexer is called on the text, it stands at a position of the text and does not
go back. -/
structure Advances (text : List Char) : Prop where
  /-- What is left begins where the lexer stands. -/
  left_eq : ∀ calls, left text calls = text.drop (position text calls)
  position_le : ∀ calls, position text calls ≤ text.length
  monotone_position : Monotone (position text)
  position_lt : ∀ calls token, (next (left text calls)).1 = .ok (some token) →
    position text calls < position text (calls + 1)
  /-- The lexer stays only at the end, and at a backslash with nothing to escape. -/
  position_eq_iff : ∀ calls, position text (calls + 1) = position text calls ↔
    left text calls = [] ∨
      (left text calls).head? = some '\\' ∧ startsEscape (left text calls) = false
  end_iff : ∀ calls, (next (left text calls)).1 = .ok none ↔
    IsCommentRun (text.drop (position text calls))
  position_eq_length : ∀ calls, (next (left text calls)).1 = .ok none →
    position text (calls + 1) = text.length
  /-- Reading all tokens ends at the first call that returns none.  It gives the tokens of the calls
  before that, of which each takes a character at least, or the error of that call. -/
  exists_reading : ∀ calls, ∃ found : List Token,
    Reads (left text calls) found (left text (calls + found.length)) ∧
      position text calls + found.length ≤ text.length ∧
      ((next (left text (calls + found.length))).1 = .ok none ∧
          tokens (left text calls) = .ok found ∨
        ∃ cause, (next (left text (calls + found.length))).1 = .error cause ∧
          tokens (left text calls) = .error cause)

/-- **The lexer advances.**  Whatever the text is and however often the lexer has been called on it,
also after errors, it stands within the text and never goes back.  A token takes a character at
least, the end is found behind closed comments alone, and so reading all tokens ends. -/
theorem advances (text : List Char) : Advances text where
  left_eq calls := (drop_position text calls).symm
  position_le calls := Nat.sub_le _ _
  monotone_position := monotone_position text
  position_lt calls token := position_lt_of_token
  position_eq_iff calls := (position_succ_eq_iff text calls).trans next_snd_eq_self_iff
  end_iff calls := by rw [drop_position, next_eq_end_iff]
  position_eq_length calls h := by
    rw [position, left_succ, next_snd_of_end h]
    rfl
  exists_reading calls := by
    obtain ⟨found, rest, hreads, hend⟩ := Reads.exists_ending (left text calls)
    have hrest : left text (calls + found.length) = rest := by rw [left_add, hreads.left_eq]
    have htaken := hreads.length_add_length_le
    have hposition := position_add_length text calls
    refine ⟨found, ?_⟩
    rw [hrest]
    exact ⟨hreads, by omega, hend⟩

/-- A string that is not closed is given up behind the line break, and a backslash at the end is
refused again and again. -/
example : (List.range 4).map (position "'a\n\\".toList) = [0, 3, 3, 3] := by cbv

end DomQuery.Lexer
