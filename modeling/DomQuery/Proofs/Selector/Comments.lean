import DomQuery.Proofs.Selector.Seams

/-!
# Comments

A comment begins with `/*` and ends with the first `*/` behind that (`dropComments_comment`).  The
lexer passes over the comments in front of a token (`exists_comments_of_dropComments`).  Where the
end of a text is missing, a comment in it can be left open.  If the longer text is read all the
same, the comment is closed behind the place where the text was cut off
(`exists_of_dropComments_append`).
-/

namespace DomQuery.Lexer

variable {text rest more inner after : List Char} {c : Char}

/-- The text of a comment. -/
def comment (inner : List Char) : List Char :=
  '/' :: '*' :: (inner ++ ['*', '/'])

/-- The sign that ends a comment does not occur in the text. -/
def HasNoEnd (inner : List Char) : Prop :=
  ¬ ['*', '/'] <:+: inner

theorem closeComment_cons (h : ∀ others, c :: rest ≠ '*' :: '/' :: others) :
    closeComment (c :: rest) = closeComment rest := by
  rw [closeComment]
  rintro others rfl rfl
  exact h others rfl

theorem closeComment_end (h : HasNoEnd inner) (after : List Char) :
    closeComment (inner ++ '*' :: '/' :: after) = dropComments after := by
  induction inner with
  | nil => rw [List.nil_append, closeComment]
  | cons c inner ih =>
      rw [List.cons_append, closeComment_cons, ih fun hend => h (List.infix_cons hend)]
      intro others heq
      cases inner with
      | nil => exact absurd (List.cons.inj (List.cons.inj heq).2).1 (by decide)
      | cons d inner =>
          obtain ⟨rfl, hrest⟩ := List.cons.inj heq
          obtain ⟨rfl, -⟩ := List.cons.inj hrest
          exact h ⟨[], inner, rfl⟩

/-- A comment in front of a text stands for nothing. -/
theorem dropComments_comment (h : HasNoEnd inner) (after : List Char) :
    dropComments (comment inner ++ after) = dropComments after := by
  have hsplit : comment inner ++ after = '/' :: '*' :: (inner ++ '*' :: '/' :: after) := by
    simp [comment]
  rw [hsplit, dropComments, closeComment_end h]

theorem exists_of_closeComment (h : closeComment text = some rest) :
    ∃ inner after, text = inner ++ '*' :: '/' :: after ∧ HasNoEnd inner ∧
      dropComments after = some rest := by
  induction text with
  | nil => exact absurd h (by simp [closeComment])
  | cons c text ih =>
      by_cases hends : ∃ others, c :: text = '*' :: '/' :: others
      · obtain ⟨others, heq⟩ := hends
        rw [heq, closeComment] at h
        exact ⟨[], others, heq, by simp [HasNoEnd], h⟩
      · have hgoes : ∀ others, c :: text ≠ '*' :: '/' :: others :=
          fun others heq => hends ⟨others, heq⟩
        rw [closeComment_cons hgoes] at h
        obtain ⟨inner, after, rfl, hinner, hafter⟩ := ih h
        refine ⟨c :: inner, after, rfl, fun hend => ?_, hafter⟩
        rcases List.infix_cons_iff.mp hend with ⟨others, heq⟩ | hwithin
        · obtain ⟨rfl, rfl⟩ := List.cons.inj heq
          exact hgoes (others ++ '*' :: '/' :: after) rfl
        · exact hinner hwithin

/-- In front of a token stands a comment or nothing. -/
theorem dropComments_cases (h : dropComments text = some rest) :
    text = rest ∨ ∃ inner after, text = comment inner ++ after ∧ HasNoEnd inner ∧
      dropComments after = some rest := by
  unfold dropComments at h
  split at h
  · next body =>
      obtain ⟨inner, after, rfl, hinner, hafter⟩ := exists_of_closeComment h
      exact Or.inr ⟨inner, after, by simp [comment], hinner, hafter⟩
  · exact Or.inl (Option.some.inj h)

/-- Comments in front of a text stand for nothing. -/
theorem dropComments_flatMap_comment {inners : List (List Char)}
    (h : ∀ inner ∈ inners, HasNoEnd inner) (after : List Char) :
    dropComments (inners.flatMap comment ++ after) = dropComments after := by
  induction inners with
  | nil => rfl
  | cons inner inners ih =>
      obtain ⟨hinner, hinners⟩ := List.forall_mem_cons.mp h
      rw [List.flatMap_cons, List.append_assoc, dropComments_comment hinner, ih hinners]

/-- Nothing but comments stands in front of a token. -/
theorem exists_comments_of_dropComments (h : dropComments text = some rest) :
    ∃ inners : List (List Char), (∀ inner ∈ inners, HasNoEnd inner) ∧
      text = inners.flatMap comment ++ rest := by
  induction hlength : text.length using Nat.strongRecOn generalizing text with
  | _ n ih =>
      rcases dropComments_cases h with rfl | ⟨inner, after, rfl, hinner, hafter⟩
      · exact ⟨[], by simp, rfl⟩
      · have hlt : after.length < n := by
          rw [← hlength, comment]
          simp only [List.length_append, List.length_cons]
          omega
        obtain ⟨inners, hinners, rfl⟩ := ih _ hlt hafter rfl
        refine ⟨inner :: inners, List.forall_mem_cons.mpr ⟨hinner, hinners⟩, ?_⟩
        rw [List.flatMap_cons, List.append_assoc]

/-- What begins with an open comment begins with the sign of a comment. -/
theorem exists_of_dropComments_eq_none (h : dropComments text = none) :
    ∃ body, text = '/' :: '*' :: body := by
  unfold dropComments at h
  split at h
  · exact ⟨_, rfl⟩
  · exact absurd h (by simp)

theorem getLast?_flatMap_comment {inners : List (List Char)} (h : inners ≠ []) :
    (inners.flatMap comment).getLast? = some '/' := by
  calc (inners.flatMap comment).getLast?
      = ((inners.dropLast ++ [inners.getLast h]).flatMap comment).getLast? := by
        rw [List.dropLast_concat_getLast]
    _ = (comment (inners.getLast h)).getLast? := by
        rw [List.flatMap_append, List.flatMap_singleton,
          List.getLast?_append_of_ne_nil _ (by simp [comment])]
    _ = some '/' := by simp [comment, List.getLast?_cons]

/-- What is left behind comments begins with no further one. -/
theorem dropComments_of_dropComments (h : dropComments text = some rest) :
    dropComments rest = some rest := by
  obtain ⟨inners, hinners, rfl⟩ := exists_comments_of_dropComments h
  rwa [dropComments_flatMap_comment hinners] at h

/-- A comment that is open at the end of a text is closed by a slash behind it, or not at all. -/
theorem exists_of_dropComments_append (hopen : dropComments text = none)
    (h : dropComments (text ++ more) = some rest) : ∃ lead, more = lead ++ '/' :: rest := by
  obtain ⟨inners, hinners, hsplit⟩ := exists_comments_of_dropComments h
  rcases List.append_eq_append_iff.mp hsplit with ⟨behind, hrun, hmore⟩ | ⟨others, htext, hrest⟩
  · -- the comments go on behind the text, so the last one is closed there
    have hbehind : behind ≠ [] := by
      rintro rfl
      have hclosed := dropComments_flatMap_comment hinners []
      rw [List.append_nil, hrun, List.append_nil, hopen] at hclosed
      exact absurd hclosed (by simp [dropComments])
    have hinners' : inners ≠ [] := by
      rintro rfl
      exact hbehind (List.append_eq_nil_iff.mp hrun.symm).2
    have hlast := getLast?_flatMap_comment hinners'
    rw [hrun, List.getLast?_append_of_ne_nil _ hbehind] at hlast
    obtain ⟨lead, rfl⟩ := List.getLast?_eq_some_iff.mp hlast
    exact ⟨lead, by simp [hmore]⟩
  · -- the text is over behind the comments, and the open one is still to come
    rw [htext, dropComments_flatMap_comment hinners] at hopen
    obtain ⟨body, rfl⟩ := exists_of_dropComments_eq_none hopen
    have hbehind := dropComments_of_dropComments h
    rw [hrest] at hbehind
    have hbody : closeComment (body ++ more) = some ('/' :: '*' :: body ++ more) := hbehind
    have hlength := (closeComment_suffix hbody).length_le
    simp only [List.cons_append, List.length_cons] at hlength
    omega

end DomQuery.Lexer
