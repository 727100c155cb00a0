import DomQuery.Proofs.Dom.ChildLists
import DomQuery.Proofs.Dom.Linked

/-!
# Moves with stale handles

A move accepts handles that do not resolve.  Where neither the parent nor the child resolves, it
changes nothing.  Where one of them does, the other one is written into the links of a live node
all the same: a live child is linked to its new parent, and a live parent, or the sibling that the
child is put in front of, is linked to the child (`dangling_attach`).

No later move of this kind takes such a link out again without leaving another one, so the links
are consistent after any number of them if and only if no live node has been moved and none has
got a child (`linked_moves_iff`).

A child that does not resolve ends the child list that it is put into.  The siblings from the
reference on are lost, although they keep their parent (`children_insertBefore_of_stale`).
-/

namespace DomQuery

/-- The edit moves the child below the parent. -/
inductive Edit.Moves : Edit → Handle → Handle → Prop where
  | append (parent child : Handle) : Moves (.appendChild parent child) parent child
  | insert (parent child : Handle) (reference : Option Handle) :
      Moves (.insertBefore parent child reference) parent child

namespace Dom

variable {dom : Dom} {kids : Handle → List Handle} {parent child node other : Handle}
  {previous next reference : Option Handle} {e : Edit} {edits : List Edit}

/-- One of the links of the node leads to the other. -/
def LinksTo (dom : Dom) (node other : Handle) : Prop :=
  (dom.links node).parent = some other ∨ (dom.links node).previousSibling = some other ∨
    (dom.links node).nextSibling = some other ∨ (dom.links node).firstChild = some other ∨
      (dom.links node).lastChild = some other

/-- A live node is linked to a handle that does not resolve. -/
def Dangling (dom : Dom) : Prop :=
  ∃ node other, dom.contains node = true ∧ dom.LinksTo node other ∧ dom.contains other = false

/-- The move gets a handle that does not resolve. -/
def IsStale (dom : Dom) (e : Edit) : Prop :=
  ∃ parent child, e.Moves parent child ∧
    (dom.contains parent = false ∨ dom.contains child = false)

/-- The move gets no handle that resolves. -/
def IsVoid (dom : Dom) (e : Edit) : Prop :=
  ∃ parent child, e.Moves parent child ∧
    dom.contains parent = false ∧ dom.contains child = false

theorem not_dangling_of_linked (h : dom.Linked) : ¬ dom.Dangling := by
  rintro ⟨node, other, -, hlink, hother⟩
  rw [h.contains_of_link hlink] at hother
  exact absurd hother (by simp)

theorem contains_of_parent (h : (dom.links node).parent = some other) :
    dom.contains node = true := by
  by_contra hstale
  rw [dom.links_of_not_contains (by simpa using hstale)] at h
  exact absurd h (by simp)

/-! ### Links that a move writes -/

theorem modifyLinks_of_stale (h : dom.contains node = false) (f : Links → Links) :
    dom.modifyLinks node f = dom := by
  have hnone : dom.nodes.get? node = none := by simpa [contains_eq_isSome] using h
  rw [modifyLinks, Arena.modify_of_none hnone]

theorem detach_of_stale (h : dom.contains child = false) : dom.detach child = dom := by
  rw [detach, dom.links_of_not_contains h]

@[simp]
theorem parent_linkForward (node : Handle) :
    ((dom.linkForward parent previous next).links node).parent = (dom.links node).parent := by
  unfold linkForward
  split <;> rw [links_modifyLinks] <;> split <;> rfl

@[simp]
theorem parent_linkBackward (node : Handle) :
    ((dom.linkBackward parent previous next).links node).parent = (dom.links node).parent := by
  unfold linkBackward
  split <;> rw [links_modifyLinks] <;> split <;> rfl

/-- Only the child gets another parent. -/
theorem parent_attach (node : Handle) :
    ((dom.attach parent child previous next).links node).parent =
      if node = child ∧ dom.contains child = true then some parent
      else (dom.links node).parent := by
  unfold attach
  rw [parent_linkBackward, parent_linkForward, links_modifyLinks]
  split <;> rfl

/-- A live parent, or the sibling behind the child, is linked to the child. -/
theorem exists_linksTo_linkBackward (hparent : dom.contains parent = true)
    (next : Option Handle) (child : Handle) :
    ∃ node, dom.contains node = true ∧
      (dom.linkBackward parent next (some child)).LinksTo node child := by
  unfold linkBackward
  cases hnext : next.filter dom.contains with
  | none =>
      refine ⟨parent, hparent, ?_⟩
      simp [LinksTo, links_modifyLinks, hparent]
  | some sibling =>
      have hsibling := (Option.filter_eq_some_iff.mp hnext).2
      refine ⟨sibling, hsibling, ?_⟩
      simp [LinksTo, links_modifyLinks, hsibling]

/-- Linking a live handle with a stale one leaves a link to the stale one. -/
theorem dangling_attach (hstale : dom.contains parent = false ∨ dom.contains child = false)
    (hlive : dom.contains parent = true ∨ dom.contains child = true) :
    (dom.attach parent child previous next).Dangling := by
  cases hchild : dom.contains child with
  | true =>
      have hparent : dom.contains parent = false := hstale.resolve_right (by simp [hchild])
      refine ⟨child, parent, by simpa using hchild, Or.inl ?_, by simpa using hparent⟩
      rw [parent_attach, if_pos ⟨rfl, hchild⟩]
  | false =>
      have hparent : dom.contains parent = true := hlive.resolve_right (by simp [hchild])
      have hforward : (dom.linkForward parent previous (some child)).contains parent = true := by
        simpa using hparent
      rw [attach, modifyLinks_of_stale hchild]
      obtain ⟨node, hnode, hlink⟩ := exists_linksTo_linkBackward hforward next child
      exact ⟨node, child, by simpa using hnode, hlink, by simpa using hchild⟩

/-! ### One move -/

/-- Every move takes the child out and links it in again. -/
theorem exists_attach_of_moves (dom : Dom) (h : e.Moves parent child) :
    ∃ previous next, dom.apply e = (dom.detach child).attach parent child previous next := by
  cases h with
  | append => exact ⟨((dom.detach child).links parent).lastChild, none, rfl⟩
  | insert parent child reference =>
      rw [apply, insertBefore]
      split
      · next sibling _ => exact ⟨((dom.detach child).links sibling).previousSibling, sibling, rfl⟩
      · exact ⟨((dom.detach child).links parent).lastChild, none, rfl⟩

theorem contains_apply_of_moves (h : e.Moves parent child) (node : Handle) :
    (dom.apply e).contains node = dom.contains node := by
  obtain ⟨previous, next, heq⟩ := exists_attach_of_moves dom h
  rw [heq, contains_attach, contains_detach]

theorem appendChild_of_stale (hparent : dom.contains parent = false)
    (hchild : dom.contains child = false) : dom.appendChild parent child = dom := by
  rw [appendChild, detach_of_stale hchild, dom.links_of_not_contains hparent, attach,
    modifyLinks_of_stale hchild]
  simp [linkForward, linkBackward, modifyLinks_of_stale hparent]

/-- A move without a live handle changes nothing, unless a link already leads to its parent. -/
theorem apply_of_isVoid (h : dom.IsVoid e) :
    dom.apply e = dom ∨ (dom.Dangling ∧ (dom.apply e).Dangling) := by
  obtain ⟨parent, child, hmoves, hparent, hchild⟩ := h
  cases hmoves with
  | append => exact Or.inl (appendChild_of_stale hparent hchild)
  | insert parent child reference =>
      rw [apply, insertBefore]
      split
      · next sibling hsibling =>
          -- the reference is linked to the parent, before and after
          obtain ⟨-, hfound⟩ := Option.filter_eq_some_iff.mp hsibling
          simp only [Bool.and_eq_true, beq_iff_eq, bne_iff_ne] at hfound
          have hlink : (dom.links sibling).parent = some parent := hfound.1
          have hlive := contains_of_parent hlink
          refine Or.inr ⟨⟨sibling, parent, hlive, Or.inl hlink, hparent⟩, sibling, parent, ?_,
            Or.inl ?_, ?_⟩
          · simpa using hlive
          · rw [detach_of_stale hchild, parent_attach, if_neg (by simp [hfound.2]), hlink]
          · simpa using hparent
      · exact Or.inl (appendChild_of_stale hparent hchild)

/-- A stale move with a live handle leaves a link to the stale one. -/
theorem dangling_of_isStale (h : dom.IsStale e) (hlive : ¬ dom.IsVoid e) :
    (dom.apply e).Dangling := by
  obtain ⟨parent, child, hmoves, hstale⟩ := h
  obtain ⟨previous, next, heq⟩ := exists_attach_of_moves dom hmoves
  rw [heq]
  refine dangling_attach (by simpa using hstale) ?_
  by_contra hnone
  simp only [contains_detach, not_or, Bool.not_eq_true] at hnone
  exact hlive ⟨parent, child, hmoves, hnone⟩

/-! ### Any number of moves -/

theorem isStale_apply (h : dom.IsStale e) {later : Edit} :
    (dom.apply e).IsStale later ↔ dom.IsStale later := by
  obtain ⟨parent, child, hmoves, -⟩ := h
  simp only [IsStale, contains_apply_of_moves hmoves]

theorem isVoid_apply (h : dom.IsStale e) {later : Edit} :
    (dom.apply e).IsVoid later ↔ dom.IsVoid later := by
  obtain ⟨parent, child, hmoves, -⟩ := h
  simp only [IsVoid, contains_apply_of_moves hmoves]

/-- No stale move takes away the last link that dangles. -/
theorem Dangling.apply (h : dom.Dangling) (hstale : dom.IsStale e) : (dom.apply e).Dangling := by
  by_cases hvoid : dom.IsVoid e
  · rcases apply_of_isVoid hvoid with heq | ⟨-, hdangling⟩
    · rwa [heq]
    · exact hdangling
  · exact dangling_of_isStale hstale hvoid

theorem Dangling.foldl (h : dom.Dangling) (hstale : ∀ e ∈ edits, dom.IsStale e) :
    (edits.foldl Dom.apply dom).Dangling := by
  induction edits generalizing dom with
  | nil => exact h
  | cons e edits ih =>
      obtain ⟨he, hrest⟩ := List.forall_mem_cons.mp hstale
      exact ih (h.apply he) fun later hlater => (isStale_apply he).mpr (hrest later hlater)

/-- Once a live node takes part in a stale move, a link dangles ever after. -/
theorem dangling_foldl (hstale : ∀ e ∈ edits, dom.IsStale e) {e : Edit} (he : e ∈ edits)
    (hlive : ¬ dom.IsVoid e) : (edits.foldl Dom.apply dom).Dangling := by
  induction edits generalizing dom with
  | nil => exact absurd he (by simp)
  | cons first edits ih =>
      obtain ⟨hfirst, hrest⟩ := List.forall_mem_cons.mp hstale
      have hlater : ∀ later ∈ edits, (dom.apply first).IsStale later :=
        fun later hmem => (isStale_apply hfirst).mpr (hrest later hmem)
      rcases List.mem_cons.mp he with rfl | hmem
      · exact (dangling_of_isStale hfirst hlive).foldl hlater
      · exact ih hlater hmem fun hvoid => hlive ((isVoid_apply hfirst).mp hvoid)

/-- Moves without a live handle change nothing where no link dangles. -/
theorem foldl_of_isVoid (h : ¬ dom.Dangling) (hvoid : ∀ e ∈ edits, dom.IsVoid e) :
    edits.foldl Dom.apply dom = dom := by
  induction edits with
  | nil => rfl
  | cons e edits ih =>
      obtain ⟨he, hrest⟩ := List.forall_mem_cons.mp hvoid
      have heq : dom.apply e = dom := (apply_of_isVoid he).resolve_right fun hboth => h hboth.1
      rw [List.foldl_cons, heq]
      exact ih hrest

/-- **Stale moves keep the links consistent only if they do nothing.**  After any number of moves
that each get a handle that does not resolve, the links of a reachable state are still consistent
if and only if no move has got a live handle.  In that case the state is the same, and otherwise a
live node is linked to a handle that does not resolve. -/
theorem linked_moves_iff (hdom : dom.Reachable) (hstale : ∀ e ∈ edits, dom.IsStale e) :
    ((edits.foldl Dom.apply dom).Linked ↔ ∀ e ∈ edits, dom.IsVoid e) ∧
      ((∀ e ∈ edits, dom.IsVoid e) → edits.foldl Dom.apply dom = dom) ∧
      ((∃ e ∈ edits, ¬ dom.IsVoid e) → (edits.foldl Dom.apply dom).Dangling) := by
  have hlinked := linked_of_reachable hdom
  have hsame : (∀ e ∈ edits, dom.IsVoid e) → edits.foldl Dom.apply dom = dom :=
    foldl_of_isVoid (not_dangling_of_linked hlinked)
  have hbroken : (∃ e ∈ edits, ¬ dom.IsVoid e) → (edits.foldl Dom.apply dom).Dangling := by
    rintro ⟨e, he, hlive⟩
    exact dangling_foldl hstale he hlive
  refine ⟨⟨fun hafter => ?_, fun hvoid => ?_⟩, hsame, hbroken⟩
  · by_contra hlive
    simp only [not_forall, exists_prop] at hlive
    exact not_dangling_of_linked hafter (hbroken hlive)
  · rw [hsame hvoid]
    exact hlinked

/-- The listing without its second item. -/
def pruned : Dom :=
  listing.dropSubtree ⟨3, 0⟩

theorem reachable_pruned : pruned.Reachable :=
  reachable_listing.edit (e := .dropSubtree ⟨3, 0⟩) trivial

/-- A move of the dropped item below itself does nothing, and a move below the list leaves a link to
it. -/
theorem linked_moves_pruned :
    ([.insertBefore ⟨3, 0⟩ ⟨3, 0⟩ none].foldl Dom.apply pruned).Linked ∧
      ([.insertBefore ⟨3, 0⟩ ⟨3, 0⟩ none, .appendChild ⟨1, 0⟩ ⟨3, 0⟩].foldl
        Dom.apply pruned).Dangling := by
  have hgone : pruned.contains ⟨3, 0⟩ = false := by decide +kernel
  have hlive : pruned.contains ⟨1, 0⟩ = true := by decide +kernel
  have hvoid : pruned.IsVoid (.insertBefore ⟨3, 0⟩ ⟨3, 0⟩ none) :=
    ⟨_, _, .insert _ _ _, hgone, hgone⟩
  have hstale : ∀ e ∈ [Edit.insertBefore ⟨3, 0⟩ ⟨3, 0⟩ none, .appendChild ⟨1, 0⟩ ⟨3, 0⟩],
      pruned.IsStale e := by
    simp only [List.forall_mem_cons]
    exact ⟨⟨_, _, .insert _ _ _, Or.inl hgone⟩, ⟨_, _, .append _ _, Or.inr hgone⟩, by simp⟩
  constructor
  · exact (linked_moves_iff reachable_pruned fun e he => hstale e (by simp_all)).1.mpr
      (List.forall_mem_singleton.mpr hvoid)
  · refine (linked_moves_iff reachable_pruned hstale).2.2 ⟨.appendChild ⟨1, 0⟩ ⟨3, 0⟩, by simp, ?_⟩
    rintro ⟨_, _, ⟨⟩, hparent, -⟩
    exact absurd (hlive.symm.trans hparent) (by simp)

/-- When the dropped item is appended to the list twice, the item that is left is in no child list,
although it still has its parent. -/
theorem exists_lost_child_pruned :
    pruned.Reachable ∧ pruned.contains ⟨1, 0⟩ = true ∧ pruned.contains ⟨3, 0⟩ = false ∧
      pruned.children ⟨1, 0⟩ = [⟨2, 0⟩] ∧
      ((pruned.appendChild ⟨1, 0⟩ ⟨3, 0⟩).links ⟨1, 0⟩).lastChild = some ⟨3, 0⟩ ∧
      ((pruned.appendChild ⟨1, 0⟩ ⟨3, 0⟩).appendChild ⟨1, 0⟩ ⟨3, 0⟩).parent? ⟨2, 0⟩ =
        some ⟨1, 0⟩ ∧
      ((pruned.appendChild ⟨1, 0⟩ ⟨3, 0⟩).appendChild ⟨1, 0⟩ ⟨3, 0⟩).children ⟨1, 0⟩ =
        [⟨3, 0⟩] :=
  ⟨reachable_pruned, by decide +kernel, by decide +kernel, by decide +kernel, by decide +kernel,
    by decide +kernel, by decide +kernel⟩

/-! ### What a stale child cuts off -/

@[simp]
theorem walkLimit_modifyLinks (f : Links → Links) :
    (dom.modifyLinks node f).walkLimit = dom.walkLimit := by
  unfold walkLimit modifyLinks Arena.modify
  split <;> simp

@[simp]
theorem walkLimit_linkForward :
    (dom.linkForward parent previous next).walkLimit = dom.walkLimit := by
  unfold linkForward
  split <;> simp

@[simp]
theorem walkLimit_linkBackward :
    (dom.linkBackward parent previous next).walkLimit = dom.walkLimit := by
  unfold linkBackward
  split <;> simp

theorem walkLimit_attach : (dom.attach parent child previous next).walkLimit = dom.walkLimit := by
  simp [attach]

namespace Forest

/-- A child that does not resolve is the last one of the list that it is linked into. -/
theorem children_attach_of_stale (h : Forest dom kids) {before after : List Handle}
    (hsplit : kids parent = before ++ after) (hparent : dom.contains parent = true)
    (hchild : dom.contains child = false) :
    (dom.attach parent child before.getLast? after.head?).children parent = before ++ [child] := by
  have hlinks : ∀ node, (dom.attach parent child before.getLast? after.head?).links node =
      exchangedLinks (dom.links node) parent before [child] after node := by
    intro node
    rw [Dom.attach, modifyLinks_of_stale hchild, dom.links_linkForward_linkBackward _ _
      (fun sibling hin => h.contains_getLast? hsplit hin)
      (fun sibling hin => h.contains_head? hsplit hin) hparent]
    simp [exchangedLinks]
  have hnotin : child ∉ before ++ after := by
    intro hmem
    have hlive := (h.contains_of_mem (show child ∈ kids parent by rwa [hsplit])).1
    exact absurd (hlive.symm.trans hchild) (by simp)
  have hnodup : (before ++ [child] ++ after).Nodup := by
    rw [List.append_assoc, List.singleton_append]
    exact List.nodup_middle.mpr (List.nodup_cons.mpr ⟨hnotin, hsplit ▸ h.nodup parent⟩)
  have hfirst : ((dom.attach parent child before.getLast? after.head?).links parent).firstChild =
      (before ++ [child]).head? := by
    rw [hlinks, exchangedLinks, h.firstChild, hsplit]
    cases before <;> simp
  have htrail : Trail
      (fun node => ((dom.attach parent child before.getLast? after.head?).links node).nextSibling)
      (before ++ [child]).head? (before ++ [child]) := by
    refine Trail.of_splits fun left node right heq => ?_
    rw [hlinks]
    rcases append_eq_append_cons heq with ⟨middle, rfl, rfl⟩ | ⟨middle, rfl, hlast⟩
    · have hne : node ∉ [child] := by
        rintro hmem
        exact hnotin (by simp [List.mem_singleton.mp hmem])
      have hold : ∀ l r, left ++ node :: middle ++ [] ++ after = l ++ node :: r →
          (dom.links node).nextSibling = r.head? :=
        fun l r hplace => h.nextSibling (by rw [hsplit, ← hplace, List.append_nil])
      have hplace : left ++ node :: middle ++ [child] ++ after =
          left ++ node :: (middle ++ [child] ++ after) := by simp
      have hnext := head?_of_exchange [] hnodup hne hold hplace
      rw [exchangedLinks, hnext]
      simp
    · -- the handle at the end has no links
      obtain ⟨rfl, hnode, rfl⟩ : middle = [] ∧ child = node ∧ right = [] := by
        cases middle <;> simp_all
      subst hnode
      have hbefore : before.getLast? ≠ some child := fun hin =>
        hnotin (List.mem_append_left _ (List.mem_of_getLast? hin))
      simp [exchangedLinks, hbefore, dom.links_of_not_contains hchild]
  have hlength : before.length ≤ dom.nodes.slots.size := by
    have hkids := h.kids_length_le parent
    rw [hsplit, List.length_append] at hkids
    omega
  rw [Dom.children, hfirst]
  refine htrail.follow_eq ?_
  rw [walkLimit_attach, walkLimit, List.length_append, List.length_singleton]
  omega

/-- A child that does not resolve takes the place of the reference, and the siblings from the
reference on are in no list any more, although they keep their parent. -/
theorem children_insertBefore_of_stale (h : Forest dom kids) {before after : List Handle}
    {reference : Handle} (hsplit : kids parent = before ++ reference :: after)
    (hparent : dom.contains parent = true) (hchild : dom.contains child = false) :
    (dom.insertBefore parent child (some reference)).children parent = before ++ [child] ∧
      ∀ sibling ∈ reference :: after,
        (dom.insertBefore parent child (some reference)).parent? sibling = some parent := by
  have hmem : ∀ sibling ∈ reference :: after, sibling ∈ kids parent := fun sibling hin => by
    rw [hsplit]
    exact List.mem_append_right _ hin
  have hreference : dom.parent? reference = some parent :=
    (h.parent_iff reference parent).mpr (hmem reference List.mem_cons_self)
  have hne : reference ≠ child := by
    rintro rfl
    have hlive := (h.contains_of_mem (hmem reference List.mem_cons_self)).1
    exact absurd (hlive.symm.trans hchild) (by simp)
  have hinsert : dom.insertBefore parent child (some reference) =
      dom.attach parent child before.getLast? (reference :: after).head? := by
    rw [Dom.insertBefore, Option.filter_some, if_pos (by simp [hreference, hne])]
    simp only [detach_of_stale hchild]
    rw [h.previousSibling hsplit, List.head?_cons]
  rw [hinsert]
  refine ⟨h.children_attach_of_stale hsplit hparent hchild, fun sibling hin => ?_⟩
  rw [parent?, parent_attach, if_neg (by simp [hchild])]
  exact (h.parent_iff sibling parent).mpr (hmem sibling hin)

end Forest

end Dom

end DomQuery
