import DomQuery.Proofs.Dom.Exchange
import DomQuery.Proofs.Dom.Relatives

/-!
# Moves as edits of child lists

What the operations that move or free nodes do to the forest behind the links.  Moving a node
erases it from the list that it is in and adds it to another one, at the end or in front of a
reference; freeing a subtree erases its top from the list that it is in and empties the lists of
all its nodes.  All other child lists stay as they are.
-/

namespace DomQuery.Dom

namespace Forest

variable {dom : Dom} {kids : Handle → List Handle}

/-! ### Taking a node out -/

theorem parent_detach (h : Forest dom kids) (child : Handle) :
    ((dom.detach child).links child).parent = none := by
  rw [Option.eq_none_iff_forall_ne_some]
  intro parent hparent
  rw [(h.detach child).parent_iff] at hparent
  exact (h.nodup parent).not_mem_erase hparent

/-- Taking a node out puts no node below another. -/
theorem within_of_detach (h : Forest dom kids) {child node top : Handle}
    (hwithin : (dom.detach child).Within node top) : dom.Within node top := by
  refine Relation.ReflTransGen.mono (fun first second hstep => ?_) _ _ hwithin
  exact (h.parent_iff _ _).mpr (List.mem_of_mem_erase (((h.detach child).parent_iff _ _).mp hstep))

theorem removeChild (h : Forest dom kids) {parent child : Handle} (hmem : child ∈ kids parent) :
    Forest (dom.removeChild parent child) fun other => (kids other).erase child := by
  unfold Dom.removeChild
  have hparent : dom.parent? child = some parent := (h.parent_iff child parent).mpr hmem
  rw [if_pos hparent]
  exact h.detach child

theorem removeChild_eq (h : Forest dom kids) {parent child : Handle}
    (hmem : child ∉ kids parent) : dom.removeChild parent child = dom := by
  unfold Dom.removeChild
  exact if_neg fun hparent => hmem ((h.parent_iff child parent).mp hparent)

/-! ### Moving a node -/

/-- Appending a node makes it the last one in the list of its new parent. -/
theorem appendChild (h : Forest dom kids) {parent child : Handle}
    (hparent : dom.contains parent = true) (hchild : dom.contains child = true)
    (hwithin : ¬ dom.Within parent child) :
    Forest (dom.appendChild parent child)
      (Function.update (fun other => (kids other).erase child) parent
        ((kids parent).erase child ++ [child])) := by
  have hdetached := h.detach child
  have hattached := hdetached.attach (List.append_nil _).symm (by simpa using hchild)
    (by simpa using hparent) (h.parent_detach child) fun hin => hwithin (h.within_of_detach hin)
  unfold Dom.appendChild
  dsimp only
  rw [hdetached.lastChild]
  exact hattached

/-- Inserting a node puts it in front of a reference that is another child of its new parent. -/
theorem insertBefore (h : Forest dom kids) {parent child reference : Handle}
    {before after : List Handle} (hparent : dom.contains parent = true)
    (hchild : dom.contains child = true) (hwithin : ¬ dom.Within parent child)
    (hne : reference ≠ child) (hsplit : (kids parent).erase child = before ++ reference :: after) :
    Forest (dom.insertBefore parent child (some reference))
      (Function.update (fun other => (kids other).erase child) parent
        (before ++ child :: reference :: after)) := by
  have hdetached := h.detach child
  have hattached := hdetached.attach hsplit (by simpa using hchild) (by simpa using hparent)
    (h.parent_detach child) fun hin => hwithin (h.within_of_detach hin)
  have hmem : reference ∈ kids parent := List.mem_of_mem_erase (by rw [hsplit]; simp)
  have hreference : dom.parent? reference = some parent := (h.parent_iff reference parent).mpr hmem
  unfold Dom.insertBefore
  rw [Option.filter_some, if_pos (by simp [hreference, hne])]
  dsimp only
  rw [hdetached.previousSibling hsplit]
  exact hattached

/-- Without a reference that is another child of the parent, inserting is appending. -/
theorem insertBefore_eq (h : Forest dom kids) {parent child : Handle} {reference : Option Handle}
    (hreference : ∀ sibling, reference = some sibling → sibling ∈ kids parent → sibling = child) :
    dom.insertBefore parent child reference = dom.appendChild parent child := by
  have hnone : (reference.filter fun sibling =>
      dom.parent? sibling == some parent && sibling != child) = none := by
    rw [Option.filter_eq_none_iff]
    intro sibling hsome
    simp only [Bool.and_eq_true, beq_iff_eq, bne_iff_ne, not_and, not_not]
    intro hparent
    exact hreference sibling hsome ((h.parent_iff sibling parent).mp hparent)
  unfold Dom.insertBefore
  rw [hnone]

/-! ### Freeing nodes -/

/-- The nodes left after freeing some. -/
theorem contains_foldl_erase (gone : List Handle) (node : Handle) :
    (⟨gone.foldl Arena.erase dom.nodes⟩ : Dom).contains node =
      (decide (node ∉ gone) && dom.contains node) := by
  simp only [contains_eq_isSome, Arena.get?_foldl_erase]
  by_cases hmem : node ∈ gone <;> simp [hmem]

theorem links_foldl_erase (gone : List Handle) (node : Handle) :
    (⟨gone.foldl Arena.erase dom.nodes⟩ : Dom).links node =
      if node ∈ gone then {} else dom.links node := by
  simp only [links, Arena.get?_foldl_erase]
  split <;> rfl

theorem payload?_foldl_erase (gone : List Handle) (node : Handle) :
    (⟨gone.foldl Arena.erase dom.nodes⟩ : Dom).payload? node =
      if node ∈ gone then none else dom.payload? node := by
  simp only [payload?, Arena.get?_foldl_erase]
  split <;> rfl

/-- Freeing nodes that make up whole trees leaves the other trees as they are. -/
theorem foldl_erase (h : Forest dom kids) {gone : List Handle}
    (hclosed : ∀ {parent child}, child ∈ kids parent → (child ∈ gone ↔ parent ∈ gone)) :
    Forest ⟨gone.foldl Arena.erase dom.nodes⟩ fun node => if node ∈ gone then [] else kids node := by
  have hmem : ∀ {node parent}, node ∈ (if parent ∈ gone then [] else kids parent) →
      node ∈ kids parent ∧ node ∉ gone ∧ parent ∉ gone := by
    intro node parent hm
    by_cases hparent : parent ∈ gone
    · simp [hparent] at hm
    · rw [if_neg hparent] at hm
      exact ⟨hm, fun hnode => hparent ((hclosed hm).mp hnode), hparent⟩
  have hplace : ∀ {node parent before after},
      (if parent ∈ gone then [] else kids parent) = before ++ node :: after →
        kids parent = before ++ node :: after ∧ node ∉ gone := by
    intro node parent before after heq
    -- a list with a node in it is the list of a parent that stays
    obtain ⟨-, hnode, hparent⟩ := hmem (show node ∈ _ by rw [heq]; simp)
    exact ⟨by rwa [if_neg hparent] at heq, hnode⟩
  constructor
  case contains_of_mem =>
    intro parent child hm
    obtain ⟨hm, hchild, hparent⟩ := hmem hm
    simpa [contains_foldl_erase, hchild, hparent] using h.contains_of_mem hm
  case parent_iff =>
    intro child parent
    rw [links_foldl_erase]
    constructor
    · intro hparent
      by_cases hchild : child ∈ gone
      · simp [hchild] at hparent
      · rw [if_neg hchild, h.parent_iff] at hparent
        rwa [if_neg fun hm => hchild ((hclosed hparent).mpr hm)]
    · intro hm
      obtain ⟨hm, hchild, -⟩ := hmem hm
      rw [if_neg hchild]
      exact (h.parent_iff child parent).mpr hm
  case nodup =>
    intro parent
    split
    · exact List.nodup_nil
    · exact h.nodup parent
  case firstChild =>
    intro parent
    rw [links_foldl_erase]
    split
    · rfl
    · exact h.firstChild parent
  case lastChild =>
    intro parent
    rw [links_foldl_erase]
    split
    · rfl
    · exact h.lastChild parent
  case previousSibling =>
    intro parent child before after hsplit
    obtain ⟨hsplit, hchild⟩ := hplace hsplit
    rw [links_foldl_erase, if_neg hchild]
    exact h.previousSibling hsplit
  case nextSibling =>
    intro parent child before after hsplit
    obtain ⟨hsplit, hchild⟩ := hplace hsplit
    rw [links_foldl_erase, if_neg hchild]
    exact h.nextSibling hsplit
  case alone =>
    intro child
    rw [links_foldl_erase]
    split
    · exact fun _ => ⟨rfl, rfl⟩
    · exact h.alone child
  case ranked =>
    obtain ⟨depth, hdepth⟩ := h.ranked
    exact ⟨depth, fun hm => hdepth (hmem hm).1⟩

/-- The nodes of a tree are closed under going to a child or to the parent. -/
theorem mem_subtree_iff (h : Forest dom kids) {top parent child : Handle}
    (htop : dom.parent? top = none) (hmem : child ∈ kids parent) :
    child ∈ dom.descendants top ++ [top] ↔ parent ∈ dom.descendants top ++ [top] := by
  have hstep : Leads dom.parent? child parent := (h.parent_iff child parent).mpr hmem
  -- the top has no parent
  have hchild : child ≠ top := by
    rintro rfl
    rw [Leads, htop] at hstep
    exact absurd hstep (by simp)
  simp only [List.mem_append, List.mem_singleton, hchild, or_false, h.mem_descendants]
  constructor
  · intro hbelow
    obtain ⟨next, hnext, hreach⟩ := Relation.TransGen.head'_iff.mp hbelow
    obtain rfl : next = parent := Option.some.inj (Eq.trans (Eq.symm hnext) hstep)
    rcases Relation.reflTransGen_iff_eq_or_transGen.mp hreach with rfl | hbelow
    · exact Or.inr rfl
    · exact Or.inl hbelow
  · rintro (hbelow | rfl)
    · exact Relation.TransGen.head hstep hbelow
    · exact Relation.TransGen.single hstep

/-- Dropping a subtree erases its top from the list that it is in and empties the lists of its
nodes. -/
theorem dropSubtree (h : Forest dom kids) (node : Handle) :
    Forest (dom.dropSubtree node) fun other =>
      if other ∈ (dom.detach node).descendants node ++ [node] then []
      else (kids other).erase node := by
  have hdetached := h.detach node
  exact hdetached.foldl_erase fun hmem => hdetached.mem_subtree_iff (h.parent_detach node) hmem

end Forest

/-- Dropping a subtree frees nodes and leaves the others what they are. -/
theorem payload?_dropSubtree (dom : Dom) (top node : Handle) :
    (dom.dropSubtree top).payload? node = none ∨
      (dom.dropSubtree top).payload? node = dom.payload? node := by
  rw [Dom.dropSubtree, Forest.payload?_foldl_erase]
  split
  · exact Or.inl rfl
  · exact Or.inr (dom.payload?_detach top node)

end DomQuery.Dom
